-- SUMMARY: Visits and searches: a leaf whose path failed on some dimensions only is one that is reached once these are left open.
import Mathlib.Data.Set.Insert
import RuleIndex.Proofs.Queries

/-!
# Visits and searches

A visit goes everywhere and notes on which dimensions the query parted from the path. Leave
these dimensions open, and a search reaches the leaf. `Visit.reachedWithin_visits_iff` says
so for all sets of dimensions at once: one visit tells the outcome of every search with a
part of the query left open.
-/

namespace RuleIndex

variable {α : Type}

/-! ## Open dimensions -/

section Relax

variable (W : Set Nat) [DecidablePred (· ∈ W)]

/-- The query without its values on the dimensions of `W`. -/
def QueryValue.relax (query : List QueryValue) : List QueryValue :=
  query.mapIdx fun d value => if d ∈ W then .wildcard else value

/-- The coded query without its codes on the dimensions of `W`. -/
def CodedQuery.relax (query : CodedQuery) : CodedQuery :=
  ⟨query.codes.mapIdx fun d codes => if d ∈ W then [] else codes⟩

variable {W}

theorem QueryValue.getD_relax (query : List QueryValue) (d : Nat) :
    (relax W query).getD d .wildcard = if d ∈ W then .wildcard else query.getD d .wildcard := by
  simp only [relax, List.getD_eq_getElem?_getD, List.getElem?_mapIdx]
  cases query[d]? <;> simp

theorem CodedQuery.codesAt_relax (query : CodedQuery) (d : Nat) :
    (query.relax W).codesAt d = if d ∈ W then [] else query.codesAt d := by
  simp only [relax, codesAt, List.getD_eq_getElem?_getD, List.getElem?_mapIdx]
  cases query.codes[d]? <;> simp

@[simp] theorem CodedQuery.codesAt_relax_univ (query : CodedQuery) (d : Nat) :
    (query.relax Set.univ).codesAt d = [] := by
  simp [codesAt_relax]

@[simp] theorem CodedQuery.relax_empty (query : CodedQuery) : query.relax ∅ = query := by
  have hcodes : query.codes.mapIdx (fun _ codes => codes) = query.codes := by
    simp [List.mapIdx_eq_iff]
  simp [relax, hcodes]

/-- Leaving dimensions open commutes with coding. -/
theorem Space.encode_relax {space : Space} {query : List QueryValue} {coded : CodedQuery}
    (h : space.encode query = .ok coded) :
    space.encode (QueryValue.relax W query) = .ok (coded.relax W) := by
  obtain ⟨hsize, hcodes, hall⟩ := encode_eq_ok_iff.1 h
  refine encode_eq_ok_iff.2 ⟨?_, ?_, ?_⟩
  · simpa [QueryValue.relax] using hsize
  · simpa [CodedQuery.relax, CodedQuery.size] using hcodes
  · intro d axis hd
    rw [QueryValue.getD_relax, CodedQuery.codesAt_relax]
    split
    · rfl
    · exact hall d axis hd

/-- An open dimension turns nothing away, and the others turn away what they did. -/
theorem Operation.admits_relax_iff {op : Operation} {query : CodedQuery} {d : Nat} {split : Int}
    {side : Side} : op.admits ((query.relax W).codesAt d) split side = true ↔
      op.admits (query.codesAt d) split side = true ∨ d ∈ W := by
  rw [CodedQuery.codesAt_relax]
  by_cases hd : d ∈ W
  · simp [hd, admits]
  · simp [hd]

theorem SetKey.admits_relax_iff {key : SetKey} {query : CodedQuery} {d : Nat} :
    key.admits ((query.relax W).codesAt d) = true ↔
      key.admits (query.codesAt d) = true ∨ d ∈ W := by
  rw [CodedQuery.codesAt_relax]
  by_cases hd : d ∈ W
  · simp [hd, admits]
  · simp [hd]

end Relax


/-! ## Failures of a path -/

namespace Path

variable {path : Path} {d : Nat}

/-- Whether the query parted from the path on dimensions of `W` only. -/
def Within (path : Path) (W : Set Nat) : Prop :=
  ∀ failure ∈ path.failures, failure.dimension ∈ W

theorem within_root {n : Nat} {W : Set Nat} : (root n).Within W := by
  intro failure hfailure
  cases hfailure

theorem within_univ : path.Within Set.univ :=
  fun _ _ => trivial

theorem within_empty_iff : path.Within ∅ ↔ path.failures = [] :=
  List.eq_nil_iff_forall_not_mem.symm

/-- A check that is failed leaves a mark on its dimension, old or new. -/
theorem within_check_iff {kind : Operation} {admitted : Bool} {W : Set Nat} :
    (path.check d kind admitted).Within W ↔ path.Within W ∧ (admitted = true ∨ d ∈ W) := by
  unfold check
  cases admitted with
  | true => simp
  | false =>
    cases hfailed : path.failedOn d with
    | true =>
      obtain ⟨failure, hmem, hd⟩ := List.any_eq_true.1 hfailed
      obtain rfl : failure.dimension = d := by simpa using hd
      simpa using fun h : path.Within W => h failure hmem
    | false =>
      simp only [Bool.or_self, Bool.false_eq_true, ite_false, false_or]
      simp [Within, or_imp, forall_and]

variable {W : Set Nat} [DecidablePred (· ∈ W)] {query : CodedQuery}

theorem within_toSide_iff {op : Operation} {split : Int} {side : Side} :
    (path.toSide d op (query.codesAt d) split side).Within W ↔
      path.Within W ∧ op.admits ((query.relax W).codesAt d) split side = true := by
  rw [Operation.admits_relax_iff, toSide, within_check_iff]
  rfl

theorem within_toSet_iff {key : SetKey} :
    (path.toSet d (query.codesAt d) key).Within W ↔
      path.Within W ∧ key.admits ((query.relax W).codesAt d) = true := by
  rw [SetKey.admits_relax_iff, toSet, within_check_iff]
  rfl

end Path


/-! ## Leaves -/

/-- A visit goes to all sides of a split. -/
theorem Operation.mem_visitOrder (op : Operation) (codes : List Int) (side : Side) :
    side ∈ op.visitOrder codes := by
  unfold visitOrder
  split
  · cases side <;> decide
  · cases op <;> cases side <;> decide

namespace Visit

/-- Whether a payload stands in a leaf whose path failed on dimensions of `W` only. -/
def ReachedWithin (visits : List (Visit α)) (W : Set Nat) (p : α) : Prop :=
  ∃ visit ∈ visits, p ∈ visit.payloads ∧ visit.path.Within W

variable {visits : List (Visit α)} {W : Set Nat} {p : α}

theorem reachedWithin_univ_iff :
    ReachedWithin visits Set.univ p ↔ ∃ visit ∈ visits, p ∈ visit.payloads := by
  simp [ReachedWithin, Path.within_univ]

theorem reachedWithin_empty_iff :
    ReachedWithin visits ∅ p ↔ ∃ visit ∈ visits, p ∈ visit.payloads ∧ visit.path.failures = [] := by
  simp [ReachedWithin, Path.within_empty_iff]

/-- All paths to a payload that is missed have failed. -/
theorem failures_ne_nil_of_missed (h : ¬ ReachedWithin visits ∅ p) {visit : Visit α}
    (hvisit : visit ∈ visits) (hp : p ∈ visit.payloads) : visit.path.failures ≠ [] := by
  intro hfailures
  apply h
  exact reachedWithin_empty_iff.2 ⟨visit, hvisit, hp, hfailures⟩

theorem reachedWithin_nil_iff : ReachedWithin ([] : List (Visit α)) W p ↔ False := by
  simp [ReachedWithin]

theorem reachedWithin_append_iff {visits' : List (Visit α)} :
    ReachedWithin (visits ++ visits') W p ↔
      ReachedWithin visits W p ∨ ReachedWithin visits' W p := by
  simp [ReachedWithin, or_and_right, exists_or]

/-- The order in which the sides of a split are visited does not matter. -/
theorem reachedWithin_visitOrder_iff {op : Operation} {codes : List Int}
    {visits : Side → List (Visit α)} :
    ReachedWithin ((op.visitOrder codes).flatMap visits) W p ↔
      ReachedWithin (visits .left) W p ∨ ReachedWithin (visits .equal) W p ∨
        ReachedWithin (visits .right) W p := by
  simp only [ReachedWithin, List.mem_flatMap, Operation.mem_visitOrder, true_and]
  constructor
  · rintro ⟨visit, ⟨side, hvisit⟩, hreached⟩
    cases side with
    | left => exact .inl ⟨visit, hvisit, hreached⟩
    | equal => exact .inr (.inl ⟨visit, hvisit, hreached⟩)
    | right => exact .inr (.inr ⟨visit, hvisit, hreached⟩)
  · rintro (⟨visit, h⟩ | ⟨visit, h⟩ | ⟨visit, h⟩)
    · exact ⟨visit, ⟨_, h.1⟩, h.2⟩
    · exact ⟨visit, ⟨_, h.1⟩, h.2⟩
    · exact ⟨visit, ⟨_, h.1⟩, h.2⟩

end Visit

namespace Tree

variable {W : Set Nat} [DecidablePred (· ∈ W)] {space : Space} {query : CodedQuery} {p : α}

mutual

/-- A leaf below a node is reached within `W` exactly if the node is, and a search with `W`
    left open reaches the leaf from there. -/
theorem reachedWithin_visits_iff (tree : Tree α) (path : Path) :
    Visit.ReachedWithin (tree.visits space query path) W p ↔
      path.Within W ∧ p ∈ tree.find space (query.relax W) := by
  match tree with
  | .empty => simp [visits, find, Visit.reachedWithin_nil_iff]
  | .leaf payloads => simp [visits, find, Visit.ReachedWithin, and_comm]
  | .scalar d split left right equal any =>
    -- A step stays within `W` exactly if the relaxed query is admitted.
    simp only [visits, find, Visit.reachedWithin_append_iff, Visit.reachedWithin_visitOrder_iff,
      List.mem_append, List.mem_ite_nil_right, Path.within_toSide_iff,
      reachedWithin_visits_iff left, reachedWithin_visits_iff right,
      reachedWithin_visits_iff equal, reachedWithin_visits_iff any]
    simp only [and_assoc, ← and_or_left, or_assoc]
  | .sets d branches any =>
    simp only [visits, find, Visit.reachedWithin_append_iff, List.mem_append, and_or_left,
      reachedWithin_visits_iff any, reachedWithin_visitBranches_iff branches]

theorem reachedWithin_visitBranches_iff (branches : List (SetKey × Tree α)) (path : Path)
    (d : Nat) : Visit.ReachedWithin (visitBranches space query path d branches) W p ↔
      path.Within W ∧ p ∈ findBranches space (query.relax W) d branches := by
  match branches with
  | [] => simp [visitBranches, findBranches, Visit.reachedWithin_nil_iff]
  | (key, subtree) :: rest =>
    simp only [visitBranches, findBranches, Visit.reachedWithin_append_iff, List.mem_append,
      List.mem_ite_nil_right, and_or_left, Path.within_toSet_iff, and_assoc,
      reachedWithin_visits_iff subtree, reachedWithin_visitBranches_iff rest]

end

end Tree
end RuleIndex
