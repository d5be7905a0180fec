-- SUMMARY: The mismatches of a report: one for every vector of an excluded payload's entries, with exactly the failures of the vector.
import Mathlib.Data.List.Perm.Basic
import RuleIndex.Proofs.Explanation
import RuleIndex.Proofs.Failures

/-!
# Mismatches

Visits come to all leaves of a built tree, each once, and the leaves are the classes of the
entries that ask the same. So the mismatches of a payload are one path for every vector of cells
that its entries ask for, and every path tells where the query does not meet its vector
(`Index.mismatches_exact`).
-/

namespace RuleIndex

variable {α : Type}

/-! ## Visits and leaves -/

/-- What a path asks, as far as it is settled. -/
def Path.vector (path : Path) : List Cell :=
  path.constraints.map PathConstraint.cell

/-- The leaf that a visit comes to. -/
def Visit.leaf (visit : Visit α) : Leaf α :=
  ⟨visit.path.vector, visit.payloads⟩

/-- Only the step to the code of a split settles something. -/
theorem PathConstraint.cell_toward (constraint : PathConstraint) (split : Int) (side : Side) :
    (constraint.toward split side).cell = if side = .equal then .equal split else .any := by
  cases side <;> rfl

namespace Path

variable {path : Path} {d : Nat} {op : Operation} {codes : List Int}

theorem vector_toSide {split : Int} {side : Side} :
    (path.toSide d op codes split side).vector =
      path.vector.set d (if side = .equal then .equal split else .any) := by
  rw [toSide, vector, constraints_check]
  refine List.ext_getElem? fun d' => ?_
  rw [List.getElem?_map, List.getElem?_modify, vector, List.getElem?_set]
  by_cases hd : d = d'
  · subst hd
    cases hlt : path.constraints[d]? with
    | none => simpa using hlt
    | some constraint =>
      obtain ⟨hlt, _⟩ := List.getElem?_eq_some_iff.1 hlt
      simp [hlt, PathConstraint.cell_toward]
  · simp [hd]

/-- An outer step settles nothing. -/
theorem vector_toSide_outer {split : Int} {side : Side} (hside : side ≠ .equal)
    (hopen : path.vector[d]? = some .any) :
    (path.toSide d op codes split side).vector = path.vector := by
  obtain ⟨hlt, hany⟩ := List.getElem?_eq_some_iff.1 hopen
  rw [vector_toSide, if_neg hside, ← hany, List.set_getElem_self]

theorem vector_toSet {key : SetKey} :
    (path.toSet d codes key).vector = path.vector.set d (.set key) := by
  rw [toSet, vector, constraints_check, List.map_set]
  rfl

end Path

/-- Once a dimension is settled, the others that are free are still open. -/
theorem getElem?_set_of_mem_erase {vector : List Cell} {free : List Nat} (hnodup : free.Nodup)
    (hopen : ∀ d ∈ free, vector[d]? = some .any) (d : Nat) (cell : Cell) {d' : Nat}
    (hd' : d' ∈ free.erase d) : (vector.set d cell)[d']? = some .any := by
  obtain ⟨hne, hfree⟩ := hnodup.mem_erase_iff.1 hd'
  rw [List.getElem?_set_ne hne.symm]
  exact hopen d' hfree

theorem Operation.visitOrder_perm (op : Operation) (codes : List Int) :
    (op.visitOrder codes).Perm [.left, .right, .equal] := by
  unfold visitOrder
  split
  · decide
  · cases op <;> decide

namespace Tree

theorem visitBranches_eq_flatMap {space : Space} {query : CodedQuery} (path : Path) (d : Nat)
    (branches : List (SetKey × Tree α)) : visitBranches space query path d branches =
      branches.flatMap fun branch =>
        branch.2.visits space query (path.toSet d (query.codesAt d) branch.1) := by
  induction branches with
  | nil => rfl
  | cons branch rest ih => simp [visitBranches, ih]

/-- Visits come to all leaves, each once. -/
theorem Grown.visits_perm {free : List Nat} {entries : List (Entry α)} {tree : Tree α}
    (h : Grown free entries tree) (hnodup : free.Nodup) {space : Space} {query : CodedQuery}
    {path : Path} (hopen : ∀ d ∈ free, path.vector[d]? = some .any) :
    ((tree.visits space query path).map Visit.leaf).Perm (tree.leaves path.vector) := by
  induction h generalizing path with
  | @leaf free entries settled => cases entries <;> exact .refl _
  | @scalar free entries d code left right equal any chosen _ _ _ _ _ ihLeft ihRight ihEqual ihAny =>
    have hd : path.vector[d]? = some .any := hopen d (Split.choose?_mem_free chosen)
    have houter (side : Side) (hside : side ≠ .equal) :
        (path.toSide d (space.operation d) (query.codesAt d) code side).vector = path.vector :=
      Path.vector_toSide_outer hside hd
    have hleft := houter .left (by decide)
    have hright := houter .right (by decide)
    have hequal : (path.toSide d (space.operation d) (query.codesAt d) code .equal).vector =
        path.vector.set d (.equal code) := Path.vector_toSide
    simp only [visits, leaves, List.map_append, List.map_flatMap]
    refine (List.perm_append_comm).trans (.append ?_ ?_)
    · refine (((space.operation d).visitOrder_perm (query.codesAt d)).flatMap_right _).trans ?_
      simp only [List.flatMap_cons, List.flatMap_nil, List.append_nil, ← List.append_assoc]
      refine .append (.append ?_ ?_) ?_
      · rw [← hleft]
        apply ihLeft hnodup
        rwa [hleft]
      · rw [← hright]
        apply ihRight hnodup
        rwa [hright]
      · rw [← hequal]
        apply ihEqual (hnodup.erase d)
        rw [hequal]
        exact fun d' hd' => getElem?_set_of_mem_erase hnodup hopen d _ hd'
    · exact ihAny (hnodup.erase d) fun d' hd' => hopen d' (List.mem_of_mem_erase hd')
  | @sets free entries d branches any chosen _ _ _ _ ihBranch ihAny =>
    have hany := ihAny (hnodup.erase d) fun d' hd' => hopen d' (List.mem_of_mem_erase hd')
    rw [visits, leaves, visitBranches_eq_flatMap, leavesOfBranches_eq_flatMap, List.map_append,
      List.map_flatMap, List.flatMap_map]
    refine (List.perm_append_comm).trans (.append ?_ hany)
    refine List.Perm.flatMap_left _ fun branch hbranch => ?_
    rw [← Path.vector_toSet]
    apply ihBranch branch hbranch (hnodup.erase d)
    rw [Path.vector_toSet]
    exact fun d' hd' => getElem?_set_of_mem_erase hnodup hopen d _ hd'

end Tree


/-! ## Mismatches -/

/-- The mismatches of an excluded payload are one path for every vector of its entries, and each
    tells what the query does not meet. -/
structure Exclusion.Exact (exclusion : Exclusion α) (space : Space) (query : CodedQuery) (n : Nat)
    (entries : List (Entry α)) : Prop where
  distinct : (exclusion.mismatches.map Path.constraints).Nodup
  sound : ∀ path ∈ exclusion.mismatches, ∃ entry ∈ entries, entry.payload = exclusion.payload ∧
    path.Explains space query (entry.vector n)
  complete : ∀ entry ∈ entries, entry.payload = exclusion.payload →
    ∃ path ∈ exclusion.mismatches, path.Explains space query (entry.vector n)

theorem Cell.canonical_eq_set {cell : Cell} {key : SetKey} (h : cell.canonical = .set key) :
    cell = .set key ∧ key.codes ≠ [] := by
  cases cell with
  | any => cases h
  | equal code => cases h
  | set own =>
    simp only [canonical] at h
    split at h
    · cases h
    · next hcodes =>
      obtain rfl := Cell.set.inj h
      exact ⟨rfl, fun hnil => hcodes (List.isEmpty_iff.2 hnil)⟩

/-- Cells leave no range behind. -/
theorem Path.Explains.range_not_mem {path : Path} {space : Space} {query : CodedQuery}
    {vector : List Cell} (h : path.Explains space query vector) (above below : Option Int) :
    .range above below ∉ path.constraints := by
  rw [h.constraints]
  intro hrange
  obtain ⟨cell, _, hcell⟩ := List.mem_map.1 hrange
  cases cell <;> cases hcell

/-- The sets on a path that explains an entry of coded rules are ascending and not empty. -/
theorem Path.Explains.set_of_mem {path : Path} {space : Space} {query : CodedQuery}
    {entry : Entry α} {n : Nat} (h : path.Explains space query (entry.vector n))
    (hproper : ∀ d, (entry.cell d).Proper) {key : SetKey} (hkey : .set key ∈ path.constraints) :
    key.codes ≠ [] ∧ key.codes.Pairwise (· < ·) := by
  rw [h.constraints] at hkey
  obtain ⟨cell, hcell, hset⟩ := List.mem_map.1 hkey
  obtain rfl : cell = .set key := by cases cell <;> cases hset; rfl
  obtain ⟨d, _, hcanonical⟩ := List.mem_map.1 hcell
  obtain ⟨hset, hcodes⟩ := Cell.canonical_eq_set hcanonical
  have hown := hproper d
  rw [hset] at hown
  exact ⟨hcodes, hown.1⟩

/-- If no two leaves ask the same, no two mismatches do. -/
theorem Exclusion.nodup_constraints [DecidableEq α] {visits : List (Visit α)}
    (hvisits : (visits.map fun visit => visit.path.vector).Nodup) {exclusion : Exclusion α}
    (h : exclusion ∈ ofVisits visits) : (exclusion.mismatches.map Path.constraints).Nodup := by
  have hmismatches : exclusion.mismatches.Nodup := by
    simp only [ofVisits, List.mem_map] at h
    obtain ⟨p, _, rfl⟩ := h
    exact nodup_eraseDups _
  refine hmismatches.map_on fun path hpath path' hpath' hsame => ?_
  obtain ⟨_, visit, hvisit, _, rfl⟩ := (mem_mismatches_iff h).1 hpath
  obtain ⟨_, visit', hvisit', _, rfl⟩ := (mem_mismatches_iff h).1 hpath'
  have hvector : visit.path.vector = visit'.path.vector := by
    rw [Path.vector, hsame, Path.vector]
  rw [List.inj_on_of_nodup_map hvisits hvisit hvisit' hvector]

namespace Index

variable {dimensions : List Dimension} {rules : List (Rule α)} {index : Index α}
  {entries : List (Entry α)} {coded : CodedQuery}

/-- The leaves that a query sees classify the entries. -/
theorem Represents.classifies (h : index.Represents dimensions rules entries)
    (coded : CodedQuery) :
    ∃ leaves, ((index.visits coded).map Visit.leaf).Perm leaves ∧
      Classifies dimensions.length entries leaves := by
  have hroot : (Path.root dimensions.length).vector = List.replicate dimensions.length .any := by
    rw [Path.vector, Path.root, List.map_replicate]
    rfl
  refine ⟨index.root.leaves (List.replicate dimensions.length .any), ?_, ?_⟩
  · rw [visits, h.space, Space.size_fit, ← hroot]
    apply h.grown.visits_perm List.nodup_range
    rw [hroot]
    exact (Leads.root dimensions.length entries).unasked
  · have hclasses := h.grown.classifies (.root dimensions.length entries)
    rwa [List.length_replicate] at hclasses

/-- Every visit explains what its path asks. -/
theorem Represents.explains (h : index.Represents dimensions rules entries) {visit : Visit α}
    (hvisit : visit ∈ index.visits coded) :
    visit.path.Explains index.space coded visit.path.vector := by
  obtain ⟨turns, hwalk, hpath⟩ := Tree.exists_walk_of_mem_visits _ _ hvisit
  have hsearch : index.root.SearchTree :=
    h.grown.searchTree List.nodup_range fun entry hentry =>
      Space.proper_of_mem_entries h.coded hentry
  apply hsearch.explains hwalk _ hpath
  intro turn hturn
  rw [h.space, Space.size_fit, ← List.mem_range]
  exact h.grown.dimension_mem_of_walk hwalk hturn

/-- The mismatches of a payload are those of the classes in which it stands. -/
theorem Represents.exact [DecidableEq α] (h : index.Represents dimensions rules entries)
    {exclusion : Exclusion α} (hexclusion : exclusion ∈ Exclusion.ofVisits (index.visits coded)) :
    exclusion.Exact index.space coded dimensions.length entries := by
  obtain ⟨leaves, hperm, hclasses⟩ := h.classifies coded
  have hmissed := (Exclusion.exists_mem_ofVisits_iff.1 ⟨exclusion, hexclusion, rfl⟩).2
  have hpayloads : ∀ visit ∈ index.visits coded, visit.payloads =
      (entries.filter fun entry => entry.vector dimensions.length == visit.path.vector).map
        Entry.payload := fun visit hvisit =>
    hclasses.payloads visit.leaf (hperm.mem_iff.1 (List.mem_map_of_mem hvisit))
  constructor
  case distinct =>
    have hnodup := (hperm.map Leaf.vector).nodup_iff.2 hclasses.distinct
    rw [List.map_map] at hnodup
    exact Exclusion.nodup_constraints hnodup hexclusion
  case sound =>
    intro path hpath
    obtain ⟨_, visit, hvisit, hp, rfl⟩ := (Exclusion.mem_mismatches_iff hexclusion).1 hpath
    rw [hpayloads visit hvisit] at hp
    obtain ⟨entry, hentry, hpayload⟩ := List.mem_map.1 hp
    obtain ⟨hentry, hvector⟩ := List.mem_filter.1 hentry
    refine ⟨entry, hentry, hpayload, ?_⟩
    rw [beq_iff_eq.1 hvector]
    exact h.explains hvisit
  case complete =>
    intro entry hentry hpayload
    obtain ⟨leaf, hleaf, hvector⟩ := List.mem_map.1 ((hclasses.vectors _).2 ⟨entry, hentry, rfl⟩)
    obtain ⟨visit, hvisit, rfl⟩ := List.mem_map.1 (hperm.mem_iff.2 hleaf)
    have hp : exclusion.payload ∈ visit.payloads := by
      rw [hpayloads visit hvisit]
      refine List.mem_map.2 ⟨entry, List.mem_filter.2 ⟨hentry, ?_⟩, hpayload⟩
      exact beq_iff_eq.2 hvector.symm
    refine ⟨visit.path, (Exclusion.mem_mismatches_iff hexclusion).2 ⟨?_, visit, hvisit, hp, rfl⟩, ?_⟩
    · exact Visit.failures_ne_nil_of_missed hmissed hvisit hp
    · rw [← hvector]
      exact h.explains hvisit

/-- The mismatches of a payload that a query does not match are exact. They correspond to the
    vectors of the payload's entries one to one, the failures of each are the dimensions on which
    the query does not meet the vector, and no range is left in them. -/
theorem mismatches_exact [DecidableEq α] {built : Logged (Index α)}
    (h : build dimensions rules = .ok built) {query : List QueryValue}
    (hquery : built.value.encode query = .ok coded) :
    ∃ entries report, (Space.fit dimensions rules).entries rules = .ok entries ∧
      built.value.report query = .ok report ∧
      (∀ d (hd : d < dimensions.length),
        built.value.space.operation d = dimensions[d].operation) ∧
      ∀ e ∈ report.exclusions, e.Exact built.value.space coded dimensions.length entries ∧
        ∀ path ∈ e.mismatches, (∀ above below, .range above below ∉ path.constraints) ∧
          ∀ key, .set key ∈ path.constraints → key.codes ≠ [] ∧ key.codes.Pairwise (· < ·) := by
  obtain ⟨entries, hrep⟩ := exists_represents h
  refine ⟨entries, _, hrep.coded, report_eq_ok hquery, fun d hd => ?_, fun e he => ?_⟩
  · rw [hrep.space, Space.operation_fit hd]
  · have hexact := hrep.exact he
    refine ⟨hexact, fun path hpath => ?_⟩
    obtain ⟨entry, hentry, _, hexplains⟩ := hexact.sound path hpath
    refine ⟨hexplains.range_not_mem, fun key hkey => ?_⟩
    exact hexplains.set_of_mem (Space.proper_of_mem_entries hrep.coded hentry) hkey

/-- The blue entry of the rule fails on its color, and both entries on the excluded region. -/
theorem mismatches_sample :
    let dimensions : List Dimension := [⟨"color", .ordered, .text⟩, ⟨"region", .notContains, .text⟩]
    let rules : List (Rule String) :=
      [⟨[.many [.text "red", .text "blue"], .value (.text "EU")], "abroad"⟩]
    let query : List QueryValue := [.single (.text "red"), .single (.text "EU")]
    ∃ built report, build dimensions rules = .ok built ∧ built.value.report query = .ok report ∧
      ∃ e ∈ report.exclusions, e.payload = "abroad" ∧
        (e.mismatches.map Path.constraints).Nodup ∧
        ∃ path ∈ e.mismatches, path.constraints = [.equal 0, .equal 0] ∧
          ⟨0, .ordered⟩ ∈ path.failures ∧ ⟨1, .notContains⟩ ∈ path.failures := by
  intro dimensions rules query
  obtain ⟨built, h⟩ : ∃ built, build dimensions rules = .ok built :=
    exists_eq_ok_iff.2 (by decide +kernel)
  obtain ⟨coded, hcoded, hcodes⟩ : ∃ coded, (Space.fit dimensions rules).encode query = .ok coded ∧
      coded = ⟨[[1], [0]]⟩ := ⟨_, rfl, rfl⟩
  rw [← space_of_build h] at hcoded
  obtain ⟨entries, report, hentries, hreport, hoperation, hexact⟩ := mismatches_exact h hcoded
  obtain rfl := Except.ok.inj hentries
  obtain ⟨_, hrep⟩ := exists_represents h
  have hlisted := (hrep.accounts query coded).listed "abroad"
  obtain rfl := Except.ok.inj ((report_eq_ok hcoded).symm.trans hreport)
  obtain ⟨e, he, hpayload⟩ := hlisted.2 ⟨⟨_, List.mem_singleton_self _, rfl⟩, by
    rw [mem_iff_satisfied_of_find h (by decide) (find_eq_ok hcoded)]
    decide⟩
  obtain ⟨path, hpath, hexplains⟩ := (hexact e he).1.complete ⟨#[.equal 0, .equal 0], "abroad"⟩
    (by decide) hpayload.symm
  refine ⟨built, _, h, hreport, e, he, hpayload, (hexact e he).1.distinct, path, hpath, ?_, ?_, ?_⟩
  · rw [hexplains.constraints]
    decide
  · rw [hexplains.failures, hoperation 0 (by decide), hcodes]
    exact ⟨.equal 0, by decide, by decide, rfl⟩
  · rw [hexplains.failures, hoperation 1 (by decide), hcodes]
    exact ⟨.equal 0, by decide, by decide, rfl⟩

end Index
end RuleIndex
