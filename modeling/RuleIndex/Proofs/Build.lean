-- SUMMARY: Built indexes: when building succeeds, and what an index has to do with its rules then.
import RuleIndex.Index
import RuleIndex.Proofs.Entries
import RuleIndex.Proofs.Growth

/-!
# Built indexes

Building succeeds if all rules have the right size, their values have codes, and no
dimension mixes sets with scalars. The index then represents the rules: its space is fitted
to them, and its tree takes their entries apart over all dimensions.

All that can fail comes before all that logs, so an attempt to build is told by its result
(`Index.buildBy_checkAndGrow`).
-/

namespace RuleIndex

variable {α : Type}

namespace Space

variable {dimensions : List Dimension} {rules : List (Rule α)}

@[simp] theorem size_fit : (fit dimensions rules).size = dimensions.length := by
  simp [fit, size]

theorem getElem?_axes_fit_eq_some_iff {d : Nat} {axis : Axis} :
    (fit dimensions rules).axes[d]? = some axis ↔
      ∃ hd : d < dimensions.length, dimensions[d].fit (Rule.valuesAt rules d) = axis := by
  simp [fit, List.getElem?_eq_some_iff]

theorem name_fit {d : Nat} (hd : d < dimensions.length) :
    (fit dimensions rules).name d = dimensions[d].name := by
  rw [name, getElem?_axes_fit_eq_some_iff.2 ⟨hd, rfl⟩]
  rfl

theorem render_fit {d : Nat} (hd : d < dimensions.length) (code : Int) :
    (fit dimensions rules).render d code =
      (dimensions[d].domain.codec (Rule.valuesAt rules d)).render code := by
  rw [render, getElem?_axes_fit_eq_some_iff.2 ⟨hd, rfl⟩]
  rfl

theorem operation_fit {d : Nat} (hd : d < dimensions.length) :
    (fit dimensions rules).operation d = dimensions[d].operation := by
  rw [operation, getElem?_axes_fit_eq_some_iff.2 ⟨hd, rfl⟩]
  rfl

end Space

namespace Attempt

variable {β γ : Type}

/-- The attempt that comes to `r` and logs nothing before it fails. -/
def ofResult : Except Error (Logged β) → Attempt β
  | .ok x => x
  | .error e => throw e

theorem run_lift (x : Logged β) : (liftM x : Attempt β).run = ⟨.ok x.value, x.log⟩ :=
  congrArg (Logged.mk _) (List.append_nil x.log)

@[simp] theorem result_ofResult (r : Except Error (Logged β)) : (ofResult r).result = r := by
  cases r with
  | error e => rfl
  | ok x => rw [ofResult, result, run_lift]

theorem ofResult_bind (x : Except Error β) (f : β → Except Error (Logged γ)) :
    ofResult (x >>= f) = (liftM x : Attempt β) >>= fun b => ofResult (f b) := by
  cases x <;> rfl

end Attempt

theorem Split.check_eq_ok_iff {space : Space} {free : List Nat} {entries : List (Entry α)}
    {u : Unit} : check space free entries = .ok u ↔ clash? free entries = none := by
  unfold check
  cases clash? free entries <;> simp

theorem Split.check_eq_error_iff {space : Space} {free : List Nat} {entries : List (Entry α)}
    {e : Error} : check space free entries = .error e ↔
      ∃ d, clash? free entries = some d ∧ .mixedConstraints (space.name d) = e := by
  unfold check
  cases clash? free entries <;> simp

namespace Index

variable {dimensions : List Dimension} {rules : List (Rule α)}

/-- Building in plain terms. -/
theorem buildBy_checkAndGrow : buildBy Tree.checkAndGrow dimensions rules = .ofResult (
    match rules.find? fun rule => rule.constraints.length != dimensions.length with
    | some rule => .error (.dimensionCount dimensions.length rule.constraints.length)
    | none => do
      let space := Space.fit dimensions rules
      let entries ← space.entries rules
      Split.check space (List.range space.size) entries
      .ok (Tree.grow space (List.range space.size) entries >>= ofTree space rules.length)) := by
  unfold buildBy
  cases rules.find? fun rule => rule.constraints.length != dimensions.length with
  | some rule => rfl
  | none =>
    simp only [Attempt.ofResult_bind, Tree.checkAndGrow, bind_assoc]
    simp only [Attempt.ofResult, liftM_bind]

theorem build_eq_ok_iff {built : Logged (Index α)} :
    build dimensions rules = .ok built ↔
      (∀ rule ∈ rules, rule.constraints.length = dimensions.length) ∧
      ∃ entries, (Space.fit dimensions rules).entries rules = .ok entries ∧
        Split.clash? (List.range dimensions.length) entries = none ∧
        Tree.grow (Space.fit dimensions rules) (List.range dimensions.length) entries >>=
          ofTree (Space.fit dimensions rules) rules.length = built := by
  rw [build, buildBy_checkAndGrow, Attempt.result_ofResult]
  cases hfind : rules.find? fun rule => rule.constraints.length != dimensions.length with
  | some rule =>
    have hmem := List.mem_of_find?_eq_some hfind
    have hne : rule.constraints.length ≠ dimensions.length := by
      simpa using List.find?_some hfind
    simp only [reduceCtorEq, false_iff]
    rintro ⟨hsize, _⟩
    exact hne (hsize rule hmem)
  | none =>
    have hsize : ∀ rule ∈ rules, rule.constraints.length = dimensions.length := by
      simpa using hfind
    rw [and_iff_right hsize]
    simp only [bind_eq_ok_iff, Space.size_fit, Split.check_eq_ok_iff, exists_and_left, exists_const,
      Except.ok.injEq]

/-- The index answers for these rules, whose entries are `entries`. -/
structure Represents (index : Index α) (dimensions : List Dimension) (rules : List (Rule α))
    (entries : List (Entry α)) : Prop where
  space : index.space = Space.fit dimensions rules
  size : ∀ rule ∈ rules, rule.constraints.length = dimensions.length
  coded : (Space.fit dimensions rules).entries rules = .ok entries
  grown : Tree.Grown (List.range dimensions.length) entries index.root

theorem Represents.length_constraints {index : Index α} {entries : List (Entry α)}
    (h : index.Represents dimensions rules entries) {rule : Rule α} (hrule : rule ∈ rules) :
    rule.constraints.length = (Space.fit dimensions rules).size := by
  rw [Space.size_fit]
  exact h.size rule hrule

theorem exists_represents {built : Logged (Index α)} (h : build dimensions rules = .ok built) :
    ∃ entries, built.value.Represents dimensions rules entries := by
  obtain ⟨hsize, entries, hentries, hclash, rfl⟩ := build_eq_ok_iff.1 h
  refine ⟨entries, rfl, hsize, hentries, ?_⟩
  exact Tree.grow_grown _ hclash

theorem space_of_build {built : Logged (Index α)} (h : build dimensions rules = .ok built) :
    built.value.space = Space.fit dimensions rules := by
  obtain ⟨_, hrep⟩ := exists_represents h
  exact hrep.space

end Index


/-! ## A sample -/

namespace Sample

def dimensions : List Dimension :=
  [⟨"color", .ordered, .text⟩, ⟨"size", .ordered, .integer⟩, ⟨"tags", .ordered, .text⟩,
    ⟨"region", .notContains, .variants ["EU", "US"]⟩]

/-- Rules with every kind of constraint; `large` has two alternatives on its color. -/
def rules : List (Rule String) :=
  [⟨[.value (.text "red"), .value (.integer 1), .any, .any], "small"⟩,
    ⟨[.many [.text "red", .text "blue"], .value (.integer 2), .any, .any], "large"⟩,
    ⟨[.any, .any, .set [.text "y", .text "x"] true, .any], "tagged"⟩,
    ⟨[.any, .any, .any, .value (.text "EU")], "abroad"⟩]

theorem exists_build : ∃ built, Index.build dimensions rules = .ok built :=
  ⟨_, rfl⟩

/-- A query with two colors; `small` fails on its size and `abroad` on its region. -/
def query : List QueryValue :=
  [.many [.text "red", .text "blue"], .single (.integer 2), .single (.text "x"),
    .many [.text "eu"]]

theorem exists_encode {built : Logged (Index String)}
    (h : Index.build dimensions rules = .ok built) :
    ∃ coded, built.value.encode query = .ok coded := by
  rw [Index.encode, Index.space_of_build h]
  exact ⟨_, rfl⟩

end Sample
end RuleIndex
