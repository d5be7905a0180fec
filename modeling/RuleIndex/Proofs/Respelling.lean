-- SUMMARY: Respelled rules: an index does not depend on how its constraints are spelled.
import RuleIndex.Proofs.Reordering

/-!
# Respelled rules

One constraint has many spellings: a list of values may be reordered and may repeat some, one value
is a list of one, and no constraint is a list of none (`Constraint.Respells`). A spelling is lost in
three places, each of which keeps ascending lists without repetitions: the dictionaries of the
dimensions, the alternatives of a constraint, and the codes read back from a bitset.

So the very same index is built from respelled rules, in the very same way
(`Index.build_eq_of_respells`). Reordered rules, in contrast, are merely indexed alike.
-/

namespace RuleIndex

variable {α : Type}

/-! ## Spellings -/

/-- Two spellings of one constraint. -/
inductive Constraint.Respells : Constraint → Constraint → Prop where
  | refl (constraint : Constraint) : Respells constraint constraint
  | symm {constraint constraint' : Constraint} (h : Respells constraint constraint') :
      Respells constraint' constraint
  | trans {constraint constraint' constraint'' : Constraint}
      (h : Respells constraint constraint') (h' : Respells constraint' constraint'') :
      Respells constraint constraint''
  /-- Values may be reordered, and may be repeated or not. -/
  | many {vs ws : List Value} (same : ∀ v, v ∈ vs ↔ v ∈ ws) : Respells (.many vs) (.many ws)
  | set {vs ws : List Value} {inclusive : Bool} (same : ∀ v, v ∈ vs ↔ v ∈ ws) :
      Respells (.set vs inclusive) (.set ws inclusive)
  | value (v : Value) : Respells (.value v) (.many [v])
  | any : Respells .any (.many [])

/-- Two spellings of one rule. -/
structure Rule.Respells (rule rule' : Rule α) : Prop where
  payload : rule.payload = rule'.payload
  constraints : List.Forall₂ Constraint.Respells rule.constraints rule'.constraints

theorem Rule.Respells.symm {rule rule' : Rule α} (h : rule.Respells rule') :
    rule'.Respells rule where
  payload := h.payload.symm
  constraints := by
    apply List.Forall₂.flip
    exact h.constraints.imp fun _ _ hconstraint => hconstraint.symm

/-- All spellings of a constraint mention the same values. -/
theorem Constraint.Respells.mem_values_iff {constraint constraint' : Constraint}
    (h : constraint.Respells constraint') (v : Value) :
    v ∈ constraint.values ↔ v ∈ constraint'.values := by
  induction h with
  | refl => rfl
  | symm _ ih => exact ih.symm
  | trans _ _ ih ih' => exact ih.trans ih'
  | many same => exact same v
  | set same => exact same v
  | value => rfl
  | any => rfl

theorem Rule.Respells.mem_values_iff {rule rule' : Rule α} (h : rule.Respells rule') (d : Nat)
    (v : Value) : v ∈ (rule.constraints.getD d .any).values ↔
      v ∈ (rule'.constraints.getD d .any).values := by
  obtain ⟨_, hconstraints⟩ := h
  generalize rule.constraints = constraints, rule'.constraints = constraints' at hconstraints
  induction hconstraints generalizing d with
  | nil => rfl
  | cons hconstraint _ ih =>
    cases d with
    | zero => exact hconstraint.mem_values_iff v
    | succ d => exact ih d

theorem Rule.sameValues_of_respells {rules rules' : List (Rule α)}
    (h : List.Forall₂ Respells rules rules') (d : Nat) :
    SameValues (valuesAt rules d) (valuesAt rules' d) := by
  intro v
  induction h with
  | nil => rfl
  | cons hrule _ ih =>
    simp only [valuesAt, List.flatMap_cons, List.mem_append] at ih ⊢
    exact or_congr (hrule.mem_values_iff d v) ih

theorem Rule.length_constraints_of_respells {rules rules' : List (Rule α)}
    (h : List.Forall₂ Respells rules rules') {n : Nat}
    (hsize : ∀ rule ∈ rules, rule.constraints.length = n) :
    ∀ rule ∈ rules', rule.constraints.length = n := by
  induction h with
  | nil => exact hsize
  | cons hrule _ ih =>
    rw [List.forall_mem_cons] at hsize ⊢
    exact ⟨hrule.constraints.length_eq.symm.trans hsize.1, ih hsize.2⟩


/-! ## Alternatives of respelled constraints -/

namespace Axis

variable {axis : Axis} {vs ws : List Value} {cells : List Cell}

/-- What is read back from a bitset does not tell how the values were listed. -/
theorem exists_toBitset_of_same (same : ∀ v, v ∈ vs ↔ v ∈ ws) {bits : Bitset}
    (h : axis.toBitset vs = .ok bits) :
    ∃ bits', axis.toBitset ws = .ok bits' ∧ bits'.toList = bits.toList := by
  simp only [toBitset, bind_eq_ok_iff, pure_eq_ok_iff] at h ⊢
  obtain ⟨codes, hcodes, rfl⟩ := h
  obtain ⟨codes', hcodes', hmem⟩ := exists_mapM_eq_ok_of_same same hcodes
  refine ⟨_, ⟨codes', hcodes', rfl⟩, ?_⟩
  apply (Bitset.pairwise_toList _).eq_of_mem_iff (Bitset.pairwise_toList _)
  intro i
  rw [Bitset.mem_toList, Bitset.mem_toList, Bitset.contains_ofCodes, Bitset.contains_ofCodes, hmem]

theorem options_many_of_same (same : ∀ v, v ∈ vs ↔ v ∈ ws)
    (h : axis.options (.many vs) = .ok cells) : axis.options (.many ws) = .ok cells := by
  cases vs with
  | nil =>
    obtain rfl : ws = [] := List.eq_nil_iff_forall_not_mem.2 fun v hv => by simpa using (same v).2 hv
    exact h
  | cons v vs =>
    cases ws with
    | nil => exact absurd ((same v).1 List.mem_cons_self) List.not_mem_nil
    | cons w ws =>
      simp only [options, bind_eq_ok_iff, pure_eq_ok_iff] at h ⊢
      obtain ⟨codes, hcodes, rfl⟩ := h
      obtain ⟨codes', hcodes', hmem⟩ := exists_mapM_eq_ok_of_same same hcodes
      exact ⟨codes', hcodes', by rw [Ascending.ofList_congr hmem]⟩

theorem options_set_of_same {inclusive : Bool} (same : ∀ v, v ∈ vs ↔ v ∈ ws)
    (h : axis.options (.set vs inclusive) = .ok cells) :
    axis.options (.set ws inclusive) = .ok cells := by
  simp only [options, bind_eq_ok_iff, pure_eq_ok_iff] at h ⊢
  obtain ⟨bits, hbits, rfl⟩ := h
  obtain ⟨bits', hbits', hlist⟩ := exists_toBitset_of_same same hbits
  exact ⟨bits', hbits', by rw [hlist]⟩

/-- All spellings of a constraint have the same alternatives, or all fail. -/
theorem options_eq_ok_iff_of_respells {constraint constraint' : Constraint}
    (h : constraint.Respells constraint') :
    axis.options constraint = .ok cells ↔ axis.options constraint' = .ok cells := by
  induction h with
  | refl => rfl
  | symm _ ih => exact ih.symm
  | trans _ _ ih ih' => exact ih.trans ih'
  | many same => exact ⟨options_many_of_same same, options_many_of_same fun v => (same v).symm⟩
  | set same => exact ⟨options_set_of_same same, options_set_of_same fun v => (same v).symm⟩
  | value v => simp [options, Ascending.insert]
  | any => rfl

end Axis


/-! ## Entries of respelled rules -/

namespace Space

variable {space : Space} {rules rules' : List (Rule α)}

theorem options_eq_ok_iff_of_respells {rule rule' : Rule α} (h : rule.Respells rule')
    {options : List (List Cell)} :
    space.options rule = .ok options ↔ space.options rule' = .ok options := by
  have hplaces : List.Forall₂ (fun place place' : Axis × Constraint =>
      ∀ cells, place.1.options place.2 = .ok cells ↔ place'.1.options place'.2 = .ok cells)
      (space.axes.zip rule.constraints) (space.axes.zip rule'.constraints) := by
    obtain ⟨_, hconstraints⟩ := h
    generalize rule.constraints = constraints, rule'.constraints = constraints' at hconstraints
    generalize space.axes = axes
    induction hconstraints generalizing axes with
    | nil => simp
    | cons hconstraint _ ih =>
      cases axes with
      | nil => exact .nil
      | cons axis axes => exact .cons (fun _ => Axis.options_eq_ok_iff_of_respells hconstraint) (ih axes)
  exact mapM_eq_ok_iff_of_forall₂ hplaces

/-- Respelled rules have the same entries, in the same order. -/
theorem entries_eq_ok_iff_of_respells (h : List.Forall₂ Rule.Respells rules rules')
    {entries : List (Entry α)} :
    space.entries rules = .ok entries ↔ space.entries rules' = .ok entries := by
  have hrules : List.Forall₂ (fun rule rule' : Rule α =>
      ∀ own, space.entriesOf rule = .ok own ↔ space.entriesOf rule' = .ok own) rules rules' := by
    refine h.imp fun rule rule' hrule own => ?_
    simp only [entriesOf, bind_eq_ok_iff, pure_eq_ok_iff, options_eq_ok_iff_of_respells hrule,
      hrule.payload]
  simp only [Space.entries, bind_eq_ok_iff, mapM_eq_ok_iff_of_forall₂ hrules]

end Space

namespace Index

variable {dimensions : List Dimension} {rules rules' : List (Rule α)}

theorem build_eq_ok_of_respells
    (hrespects : ∀ dimension ∈ dimensions, dimension.domain.Respects SameValues)
    (h : List.Forall₂ Rule.Respells rules rules')
    {built : Logged (Index α)} (hbuilt : build dimensions rules = .ok built) :
    build dimensions rules' = .ok built := by
  obtain ⟨hsize, entries, hentries, hclash, hindex⟩ := build_eq_ok_iff.1 hbuilt
  have hspace : Space.fit dimensions rules = Space.fit dimensions rules' :=
    Space.fit_congr (fun _ _ => id) hrespects (Rule.sameValues_of_respells h)
  refine build_eq_ok_iff.2 ⟨?_, entries, ?_, hclash, ?_⟩
  · exact Rule.length_constraints_of_respells h hsize
  · rw [← hspace]
    exact (Space.entries_eq_ok_iff_of_respells h).1 hentries
  · rw [← hspace, ← h.length_eq]
    exact hindex

/-- Respelled rules are indexed by the very same index, in the very same way: with the same
    numberings, the same tree in the same order, and the same log. One spelling is refused only
    if all are. A numbering that the caller provides is assumed not to depend on the order or the
    number of times that it is shown a value. -/
theorem build_eq_of_respells
    (hrespects : ∀ dimension ∈ dimensions, dimension.domain.Respects SameValues)
    (h : List.Forall₂ Rule.Respells rules rules')
    (built : Logged (Index α)) :
    build dimensions rules = .ok built ↔ build dimensions rules' = .ok built := by
  constructor
  · exact build_eq_ok_of_respells hrespects h
  · apply build_eq_ok_of_respells hrespects
    apply List.Forall₂.flip
    exact h.imp fun _ _ hrule => hrule.symm

/-- Every rule is spelled in another way on every dimension, and nothing changes. The times are
    numbered from the least one on. -/
theorem build_respelled_sample :
    let dimensions : List Dimension :=
      [⟨"color", .ordered, .text⟩, ⟨"tag", .ordered, .text⟩, ⟨"time", .ordered, .fromLeast⟩]
    let rules : List (Rule String) :=
      [⟨[.many [.text "red", .text "blue"], .any, .many [.integer 5, .integer 9]], "either"⟩,
        ⟨[.value (.text "red"), .set [.text "x", .text "y"] true, .any], "tagged"⟩]
    let rules' : List (Rule String) :=
      [⟨[.many [.text "blue", .text "red", .text "blue"], .many [],
          .many [.integer 9, .integer 5, .integer 9]], "either"⟩,
        ⟨[.many [.text "red"], .set [.text "y", .text "y", .text "x"] true, .many []], "tagged"⟩]
    (∀ dimension ∈ dimensions, dimension.domain.Respects SameValues) ∧
    List.Forall₂ Rule.Respells rules rules' ∧
    ∃ built, build dimensions rules = .ok built ∧ build dimensions rules' = .ok built := by
  intro dimensions rules rules'
  have hrespects : ∀ dimension ∈ dimensions, dimension.domain.Respects SameValues := by
    simpa [dimensions, Domain.Respects] using Domain.respects_fromLeast
  have hspelling : List.Forall₂ Rule.Respells rules rules' := by
    refine .cons ⟨rfl, .cons (.many ?_) (.cons .any (.cons (.many ?_) .nil))⟩
      (.cons ⟨rfl, .cons (.value _) (.cons (.set ?_) (.cons .any .nil))⟩ .nil)
    · simp [or_comm]
    · simp [or_comm]
    · simp [or_comm]
  obtain ⟨built, h⟩ : ∃ built, build dimensions rules = .ok built :=
    exists_eq_ok_iff.2 (by decide +kernel)
  exact ⟨hrespects, hspelling, built, h, (build_eq_of_respells hrespects hspelling built).1 h⟩

/-- What is assumed of a provided numbering is needed: numbered from the first one on, the codes of
    two times change with the order in which a constraint lists them. -/
example :
    let dimensions : List Dimension := [⟨"time", .ordered, .fromFirst⟩]
    (build dimensions [⟨[.many [.integer 5, .integer 9]], "both"⟩]).map (·.value.root) =
      .ok (.scalar 0 4 (.scalar 0 0 .empty .empty (.leaf ["both"]) .empty) .empty
        (.leaf ["both"]) .empty) ∧
    (build dimensions [⟨[.many [.integer 9, .integer 5]], "both"⟩]).map (·.value.root) =
      .ok (.scalar 0 0 (.scalar 0 (-4) .empty .empty (.leaf ["both"]) .empty) .empty
        (.leaf ["both"]) .empty) := by
  cbv
  exact ⟨rfl, rfl⟩

end Index
end RuleIndex
