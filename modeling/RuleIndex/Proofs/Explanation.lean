-- SUMMARY: Reports explain searches: they list exactly the payloads that are not found, with exactly what stood in the way.
import RuleIndex.Proofs.Satisfaction
import RuleIndex.Proofs.Visiting

/-!
# Explanations

A report and a search of the same query divide the payloads of the rules between them
(`Index.report_accounts`). The mismatches of a payload are no mere examples of what went
wrong: to leave dimensions of the query open helps exactly if they cover all failures of one
of its mismatches (`Index.find_relax_iff_mismatch`).
-/

namespace RuleIndex

variable {α : Type}

/-! ## Exclusions -/

namespace Exclusion

variable [DecidableEq α] {visits : List (Visit α)} {exclusion : Exclusion α} {p : α}

theorem nodup_payload_ofVisits : ((ofVisits visits).map payload).Nodup := by
  simp only [ofVisits, List.partition_eq_filter_filter, List.map_map]
  rw [show (payload ∘ fun p => _) = id from rfl, List.map_id]
  apply List.Pairwise.filter
  exact nodup_eraseDups _

/-- A payload is excluded if it stands in some leaf, but in none whose path never failed. -/
theorem exists_mem_ofVisits_iff : (∃ e ∈ ofVisits visits, e.payload = p) ↔
    Visit.ReachedWithin visits Set.univ p ∧ ¬ Visit.ReachedWithin visits ∅ p := by
  have hlisted : (∃ e ∈ ofVisits visits, e.payload = p) ↔
      (∃ visit ∈ visits, visit.path.failures ≠ [] ∧ p ∈ visit.payloads) ∧
        ¬ Visit.ReachedWithin visits ∅ p := by
    rw [Visit.reachedWithin_empty_iff]
    simp [ofVisits, and_assoc, imp_not_comm]
  rw [hlisted, Visit.reachedWithin_univ_iff]
  refine and_congr_left fun hmissed => ?_
  constructor
  · rintro ⟨visit, hvisit, _, hp⟩
    exact ⟨visit, hvisit, hp⟩
  · rintro ⟨visit, hvisit, hp⟩
    exact ⟨visit, hvisit, Visit.failures_ne_nil_of_missed hmissed hvisit hp, hp⟩

/-- The mismatches of an excluded payload are the paths to it that failed. -/
theorem mem_mismatches_iff (h : exclusion ∈ ofVisits visits) {path : Path} :
    path ∈ exclusion.mismatches ↔ path.failures ≠ [] ∧
      ∃ visit ∈ visits, exclusion.payload ∈ visit.payloads ∧ visit.path = path := by
  simp only [ofVisits, List.partition_eq_filter_filter, List.mem_map] at h
  obtain ⟨p, _, rfl⟩ := h
  simp only [List.mem_eraseDups, List.mem_map, List.mem_filter, Function.comp_apply,
    Bool.not_eq_true', List.isEmpty_eq_false_iff, List.contains_iff_mem]
  constructor
  · intro ⟨visit, ⟨⟨hvisit, hfailed⟩, hp⟩, hpath⟩
    subst hpath
    exact ⟨hfailed, visit, hvisit, hp, rfl⟩
  · intro ⟨hfailed, visit, hvisit, hp, hpath⟩
    subst hpath
    exact ⟨visit, ⟨⟨hvisit, hfailed⟩, hp⟩, rfl⟩

theorem mismatches_ne_nil (h : exclusion ∈ ofVisits visits) : exclusion.mismatches ≠ [] := by
  obtain ⟨hreached, hmissed⟩ := exists_mem_ofVisits_iff.1 ⟨exclusion, h, rfl⟩
  obtain ⟨visit, hvisit, hp⟩ := Visit.reachedWithin_univ_iff.1 hreached
  have hfailures := Visit.failures_ne_nil_of_missed hmissed hvisit hp
  apply List.ne_nil_of_mem
  exact (mem_mismatches_iff h).2 ⟨hfailures, visit, hvisit, hp, rfl⟩

/-- A payload that is missed is reached within `W` exactly if one of its mismatches is. -/
theorem exists_mismatch_within_iff {W : Set Nat} (hmissed : ¬ Visit.ReachedWithin visits ∅ p) :
    (∃ e ∈ ofVisits visits, e.payload = p ∧ ∃ path ∈ e.mismatches, path.Within W) ↔
      Visit.ReachedWithin visits W p := by
  constructor
  · intro ⟨e, he, hpayload, path, hpath, hwithin⟩
    obtain ⟨_, visit, hvisit, hp, rfl⟩ := (mem_mismatches_iff he).1 hpath
    subst hpayload
    exact ⟨visit, hvisit, hp, hwithin⟩
  · intro ⟨visit, hvisit, hp, hwithin⟩
    have hreached := Visit.reachedWithin_univ_iff.2 ⟨visit, hvisit, hp⟩
    obtain ⟨e, he, rfl⟩ := exists_mem_ofVisits_iff.2 ⟨hreached, hmissed⟩
    have hfailures := Visit.failures_ne_nil_of_missed hmissed hvisit hp
    refine ⟨e, he, rfl, visit.path, ?_, hwithin⟩
    exact (mem_mismatches_iff he).2 ⟨hfailures, visit, hvisit, hp, rfl⟩

end Exclusion

namespace Report

/-- The report says of every payload that was not found, once, what stood in its way. -/
structure Accounts (report : Report α) (rules : List (Rule α)) (found : List α) : Prop where
  listed : ∀ p, (∃ e ∈ report.exclusions, e.payload = p) ↔
    (∃ rule ∈ rules, rule.payload = p) ∧ p ∉ found
  once : (report.exclusions.map Exclusion.payload).Nodup
  explained : ∀ e ∈ report.exclusions,
    e.mismatches ≠ [] ∧ ∀ path ∈ e.mismatches, path.failures ≠ []

theorem Accounts.exclusions_eq_nil_iff {report : Report α} {rules : List (Rule α)}
    {found : List α} (h : report.Accounts rules found) :
    report.exclusions = [] ↔ ∀ rule ∈ rules, rule.payload ∈ found := by
  constructor
  · intro hnil rule hrule
    by_contra hmissed
    obtain ⟨e, he, _⟩ := (h.listed rule.payload).2 ⟨⟨rule, hrule, rfl⟩, hmissed⟩
    rw [hnil] at he
    cases he
  · intro hall
    rw [List.eq_nil_iff_forall_not_mem]
    intro e he
    obtain ⟨⟨rule, hrule, hpayload⟩, hmissed⟩ := (h.listed e.payload).1 ⟨e, he, rfl⟩
    exact hmissed (hpayload ▸ hall rule hrule)

/-- Only the report without exclusions reads `ALL OK`: all others have a line. -/
theorem render_eq_allOk_iff [ToString α] (report : Report α) :
    report.render = "ALL OK" ↔ report.exclusions = [] := by
  unfold render
  cases report.exclusions with
  | nil => simp
  | cons exclusion rest =>
    simp only [List.isEmpty_cons, Bool.false_eq_true, if_false, List.map_cons, reduceCtorEq,
      iff_false]
    intro h
    have hline : '\n' ∈ "ALL OK".toList := by
      rw [← h]
      simp [String.toList_join]
    exact absurd hline (by decide)

end Report


/-! ## Reports of a built index -/

namespace Index

variable [DecidableEq α] {index : Index α} {dimensions : List Dimension} {rules : List (Rule α)}
  {coded : CodedQuery} {p : α}

/-- The leaves of a built index, as a query sees them. -/
def visits (index : Index α) (coded : CodedQuery) : List (Visit α) :=
  index.root.visits index.space coded (.root index.space.size)

theorem report_eq_ok {query : List QueryValue} (h : index.encode query = .ok coded) :
    index.report query = .ok ⟨index.space, query, Exclusion.ofVisits (index.visits coded)⟩ := by
  rw [report, h]
  rfl

theorem mem_findCoded_relax_iff {W : Set Nat} [DecidablePred (· ∈ W)] :
    p ∈ index.findCoded (coded.relax W) ↔ Visit.ReachedWithin (index.visits coded) W p := by
  rw [findCoded, List.mem_eraseDups, visits, Tree.reachedWithin_visits_iff]
  simp [Path.within_root]

theorem mem_findCoded_iff_reachedWithin :
    p ∈ index.findCoded coded ↔ Visit.ReachedWithin (index.visits coded) ∅ p := by
  rw [← mem_findCoded_relax_iff, CodedQuery.relax_empty]

/-- The leaves of a built index hold the payloads of its rules. -/
theorem Represents.reachedWithin_univ_iff {entries : List (Entry α)}
    (h : index.Represents dimensions rules entries) :
    Visit.ReachedWithin (index.visits coded) Set.univ p ↔ ∃ rule ∈ rules, rule.payload = p := by
  have hmet (entry : Entry α) : entry.Met dimensions (coded.relax Set.univ) := by
    intro d hd
    exact .inl (coded.codesAt_relax_univ d)
  rw [← mem_findCoded_relax_iff, h.mem_findCoded_iff,
    ← Space.exists_entry_payload_iff h.coded fun rule hrule => h.length_constraints hrule]
  simp [hmet]

theorem Represents.accounts {entries : List (Entry α)}
    (h : index.Represents dimensions rules entries) (query : List QueryValue)
    (coded : CodedQuery) :
    Report.Accounts ⟨index.space, query, Exclusion.ofVisits (index.visits coded)⟩ rules
      (index.findCoded coded) where
  listed p := by
    rw [Exclusion.exists_mem_ofVisits_iff, h.reachedWithin_univ_iff,
      mem_findCoded_iff_reachedWithin]
  once := Exclusion.nodup_payload_ofVisits
  explained e he := by
    refine ⟨Exclusion.mismatches_ne_nil he, ?_⟩
    intro path hpath
    exact ((Exclusion.mem_mismatches_iff he).1 hpath).1

/-- Searches and reports divide the payloads of the rules between them. -/
theorem report_accounts [ToString α] {built : Logged (Index α)}
    (h : build dimensions rules = .ok built) {query : List QueryValue}
    (hquery : built.value.encode query = .ok coded) :
    ∃ found report, built.value.find query = .ok found ∧ built.value.report query = .ok report ∧
      report.Accounts rules found ∧
      (report.exclusions = [] ↔ ∀ rule ∈ rules, rule.payload ∈ found) ∧
      (built.value.trace query = .ok "ALL OK" ↔ ∀ rule ∈ rules, rule.payload ∈ found) := by
  obtain ⟨entries, hrep⟩ := exists_represents h
  have haccounts := hrep.accounts query coded
  have hreport := report_eq_ok hquery
  refine ⟨_, _, find_eq_ok hquery, hreport, haccounts, haccounts.exclusions_eq_nil_iff, ?_⟩
  rw [trace_eq_ok hreport, Except.ok.injEq, Report.render_eq_allOk_iff]
  exact haccounts.exclusions_eq_nil_iff

theorem report_sample : ∃ built found report,
    build Sample.dimensions Sample.rules = .ok built ∧
    built.value.find Sample.query = .ok found ∧ built.value.report Sample.query = .ok report ∧
    report.Accounts Sample.rules found ∧ ∃ e ∈ report.exclusions, e.payload = "small" := by
  obtain ⟨built, h⟩ := Sample.exists_build
  obtain ⟨coded, hcoded⟩ := Sample.exists_encode h
  obtain ⟨found, report, hfind, hreport, haccounts, _⟩ := report_accounts h hcoded
  refine ⟨built, found, report, h, hfind, hreport, haccounts, (haccounts.listed _).2 ⟨?_, ?_⟩⟩
  · exact ⟨_, List.mem_cons_self, rfl⟩
  · rw [mem_iff_satisfied_of_find h (by decide) hfind]
    decide

/-- The mismatches of a payload that is missed tell for every set of dimensions whether it is
    found once these are left open. This holds of every tree. -/
theorem find_relax_iff_mismatch {query : List QueryValue}
    (hquery : index.encode query = .ok coded) :
    ∃ found report, index.find query = .ok found ∧ index.report query = .ok report ∧
      ∀ (W : Set Nat) [DecidablePred (· ∈ W)],
        ∃ relaxed, index.find (QueryValue.relax W query) = .ok relaxed ∧
          ∀ p, p ∉ found → (p ∈ relaxed ↔
            ∃ e ∈ report.exclusions, e.payload = p ∧ ∃ path ∈ e.mismatches, path.Within W) := by
  refine ⟨_, _, find_eq_ok hquery, report_eq_ok hquery, fun W _ => ?_⟩
  refine ⟨_, find_eq_ok (Space.encode_relax hquery), fun p hmissed => ?_⟩
  rw [mem_findCoded_iff_reachedWithin] at hmissed
  rw [mem_findCoded_relax_iff, Exclusion.exists_mismatch_within_iff hmissed]

/-- Of the small, the size is all that stands in the way. -/
theorem relax_sample : ∃ built report, build Sample.dimensions Sample.rules = .ok built ∧
    built.value.report Sample.query = .ok report ∧
    ∃ e ∈ report.exclusions, e.payload = "small" ∧ ∃ path ∈ e.mismatches, path.Within {1} := by
  obtain ⟨built, h⟩ := Sample.exists_build
  obtain ⟨coded, hcoded⟩ := Sample.exists_encode h
  obtain ⟨found, report, hfind, hreport, hall⟩ := find_relax_iff_mismatch hcoded
  obtain ⟨relaxed, hrelaxed, hiff⟩ := hall {1}
  refine ⟨built, report, h, hreport, (hiff "small" ?_).1 ?_⟩
  · rw [mem_iff_satisfied_of_find h (by decide) hfind]
    decide
  · rw [mem_iff_satisfied_of_find h (by decide) hrelaxed]
    decide

end Index
end RuleIndex
