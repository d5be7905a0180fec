-- SUMMARY: Histories of bitsets: what a bitset shows is the set of the indices inserted on the way to it, and nothing of the way.
import Mathlib.Data.Finset.Card
import Mathlib.Data.List.Induction
import Mathlib.Logic.Function.Basic
import RuleIndex.Bitset

/-!
# Histories of bitsets

Bitsets are kept in registers. A step makes one in its target register, from nothing, from the one
that stands there, or from a copy of another (`Bitset.Step`). Along a run, `Bitset.inserted` keeps
for each register the set of the indices that were inserted.

Every question about a bitset is answered by that set alone (`Bitset.history_exact`): neither the
room it was given nor the words it has grown show, and its source does not change with a copy.
-/

namespace RuleIndex
namespace Bitset

/-! ## Bitsets and their sets -/

/-- The bitset has exactly the indices of the set. -/
def Holds (s : Bitset) (indices : Finset Nat) : Prop :=
  ∀ i, s.contains i = true ↔ i ∈ indices

/-- The indices that codes stand for. -/
def indicesOf (codes : List Int) : Finset Nat :=
  (codes.filterMap Int.toNat?).toFinset

theorem holds_empty : empty.Holds ∅ := by
  intro i
  simp

theorem holds_withCapacity (bits : Nat) : (withCapacity bits).Holds ∅ := by
  intro i
  simp

theorem mem_indicesOf_iff {codes : List Int} {i : Nat} :
    i ∈ indicesOf codes ↔ (i : Int) ∈ codes := by
  simp only [indicesOf, List.mem_toFinset, List.mem_filterMap]
  constructor
  · rintro ⟨code, hcode, hi⟩
    cases code with
    | ofNat n =>
      cases hi
      exact hcode
    | negSucc n => cases hi
  · intro hi
    exact ⟨_, hi, rfl⟩

theorem holds_ofCodes (bits : Nat) (codes : List Int) :
    (ofCodes bits codes).Holds (indicesOf codes) := by
  intro i
  rw [contains_ofCodes, mem_indicesOf_iff]

namespace Holds

variable {s t : Bitset} {S T : Finset Nat}

theorem insert (h : s.Holds S) (i : Nat) : (s.insert i).Holds (S ∪ {i}) := by
  intro j
  rw [contains_insert, Bool.or_eq_true, decide_eq_true_eq, h, Finset.mem_union,
    Finset.mem_singleton, or_comm]

theorem containsCode_iff (h : s.Holds S) {code : Int} :
    s.containsCode code = true ↔ 0 ≤ code ∧ code.toNat ∈ S := by
  rw [Bitset.containsCode_iff]
  constructor
  · rintro ⟨i, hi, rfl⟩
    exact ⟨Int.natCast_nonneg i, (h i).1 hi⟩
  · rintro ⟨hnonneg, hmem⟩
    exact ⟨code.toNat, (h _).2 hmem, Int.toNat_of_nonneg hnonneg⟩

theorem mem_toList_iff (h : s.Holds S) {i : Nat} : i ∈ s.toList ↔ i ∈ S :=
  mem_toList.trans (h i)

theorem size_eq (h : s.Holds S) : s.size = S.card := by
  have hset : s.toList.toFinset = S := by
    ext i
    rw [List.mem_toFinset, h.mem_toList_iff]
  have hnodup : s.toList.Nodup := s.pairwise_toList.imp Nat.ne_of_lt
  rw [size_eq_length_toList, ← List.toFinset_card_of_nodup hnodup, hset]

theorem isEmpty_iff (h : s.Holds S) : s.isEmpty = true ↔ S = ∅ := by
  rw [Bitset.isEmpty_iff, Finset.eq_empty_iff_forall_notMem]
  refine forall_congr' fun i => ?_
  rw [← h i, Bool.not_eq_true]

theorem beq_iff (h : s.Holds S) (h' : t.Holds T) : (s == t) = true ↔ S = T := by
  rw [Bitset.beq_iff, Finset.ext_iff]
  refine forall_congr' fun i => ?_
  rw [← h i, ← h' i, Bool.eq_iff_iff]

end Holds


/-! ## Steps and runs -/

/-- A step on registers that hold bitsets. -/
inductive Step (ρ : Type) where
  | empty (target : ρ)
  | withCapacity (target : ρ) (bits : Nat)
  | ofCodes (target : ρ) (bits : Nat) (codes : List Int)
  /-- Insert an index where the bitset stands. -/
  | insert (target : ρ) (i : Nat)
  /-- Insert an index into a copy of another register. -/
  | copyInsert (target source : ρ) (i : Nat)

namespace Step

variable {ρ : Type}

/-- The register that the step writes to. -/
def target : Step ρ → ρ
  | .empty r | .withCapacity r _ | .ofCodes r _ _ | .insert r _ | .copyInsert r _ _ => r

/-- The bitset that the step makes. -/
def made (registers : ρ → Bitset) : Step ρ → Bitset
  | .empty _ => .empty
  | .withCapacity _ bits => .withCapacity bits
  | .ofCodes _ bits codes => .ofCodes bits codes
  | .insert r i => (registers r).insert i
  | .copyInsert _ source i => (registers source).insert i

/-- The indices inserted on the way to the bitset that the step makes. -/
def indices (sets : ρ → Finset Nat) : Step ρ → Finset Nat
  | .empty _ | .withCapacity _ _ => ∅
  | .ofCodes _ _ codes => indicesOf codes
  | .insert r i => sets r ∪ {i}
  | .copyInsert _ source i => sets source ∪ {i}

variable {registers : ρ → Bitset} {sets : ρ → Finset Nat}

theorem made_holds (h : ∀ r, (registers r).Holds (sets r)) (step : Step ρ) :
    (step.made registers).Holds (step.indices sets) := by
  cases step with
  | empty r => exact holds_empty
  | withCapacity r bits => exact holds_withCapacity bits
  | ofCodes r bits codes => exact holds_ofCodes bits codes
  | insert r i => exact (h r).insert i
  | copyInsert r source i => exact (h source).insert i

end Step

section Runs

variable {ρ : Type} [DecidableEq ρ]

/-- The registers after some steps. They are empty at first. -/
def run (steps : List (Step ρ)) : ρ → Bitset :=
  steps.foldl (fun registers step => Function.update registers step.target (step.made registers))
    fun _ => .empty

/-- The indices inserted on the way to what the registers hold after some steps. -/
def inserted (steps : List (Step ρ)) : ρ → Finset Nat :=
  steps.foldl (fun sets step => Function.update sets step.target (step.indices sets)) fun _ => ∅

theorem run_concat (steps : List (Step ρ)) (step : Step ρ) : run (steps ++ [step]) =
    Function.update (run steps) step.target (step.made (run steps)) := by
  rw [run, List.foldl_concat]
  rfl

theorem inserted_concat (steps : List (Step ρ)) (step : Step ρ) : inserted (steps ++ [step]) =
    Function.update (inserted steps) step.target (step.indices (inserted steps)) := by
  rw [inserted, List.foldl_concat]
  rfl

/-- A step leaves all registers but its target as they are, to the last word. -/
theorem run_concat_of_ne (steps : List (Step ρ)) {step : Step ρ} {r : ρ} (h : step.target ≠ r) :
    run (steps ++ [step]) r = run steps r := by
  rw [run_concat, Function.update_of_ne h.symm]

/-- The registers hold what was inserted, after any number of steps. -/
theorem run_holds (steps : List (Step ρ)) (r : ρ) : (run steps r).Holds (inserted steps r) := by
  induction steps using List.reverseRecOn generalizing r with
  | nil => exact holds_empty
  | append_singleton steps step ih =>
    rw [run_concat, inserted_concat]
    by_cases hr : r = step.target
    · rw [hr, Function.update_self, Function.update_self]
      exact step.made_holds ih
    · rw [Function.update_of_ne hr, Function.update_of_ne hr]
      exact ih r

/-- Whatever steps have led to a bitset, it shows the set of the inserted indices and nothing else:
    they are its members, they are listed in ascending order and counted, and it equals the
    bitsets of the same set. A copy with one more index leaves the bitset as it was. -/
theorem history_exact (steps : List (Step ρ)) (r : ρ) :
    (∀ i, (run steps r).contains i = true ↔ i ∈ inserted steps r) ∧
    (∀ code : Int, (run steps r).containsCode code = true ↔
      0 ≤ code ∧ code.toNat ∈ inserted steps r) ∧
    (run steps r).toList.Pairwise (· < ·) ∧
    (∀ i, i ∈ (run steps r).toList ↔ i ∈ inserted steps r) ∧
    (run steps r).size = (inserted steps r).card ∧
    ((run steps r).isEmpty = true ↔ inserted steps r = ∅) ∧
    (∀ (steps' : List (Step ρ)) (r' : ρ),
      (run steps r == run steps' r') = true ↔ inserted steps r = inserted steps' r') ∧
    ∀ target i, target ≠ r →
      run (steps ++ [.copyInsert target r i]) r = run steps r ∧
      inserted (steps ++ [.copyInsert target r i]) target = inserted steps r ∪ {i} := by
  have hholds : (run steps r).Holds (inserted steps r) := run_holds steps r
  refine ⟨hholds, fun code => hholds.containsCode_iff, pairwise_toList _,
    fun i => hholds.mem_toList_iff, hholds.size_eq, hholds.isEmpty_iff, fun steps' r' => ?_,
    fun target i htarget => ⟨?_, ?_⟩⟩
  · exact hholds.beq_iff (run_holds steps' r')
  · exact run_concat_of_ne steps htarget
  · rw [inserted_concat]
    exact Function.update_self _ _ _

/-- Eight words that were asked for and two that were needed show the same set. -/
theorem history_exact_sample :
    let grown : List (Step Nat) := [.withCapacity 0 512, .insert 0 64, .insert 0 63]
    let listed : List (Step Nat) := [.ofCodes 1 8 [64, -1, 63]]
    (run grown 0).words.length = 8 ∧ (run listed 1).words.length = 2 ∧
    (run grown 0 == run listed 1) = true ∧
    (run grown 0).size = 2 ∧
    run (grown ++ [.copyInsert 2 0 128]) 0 = run grown 0 := by
  intro grown listed
  obtain ⟨-, -, -, -, hsize, -, hequal, hcopy⟩ := history_exact grown 0
  refine ⟨by decide, by decide, (hequal listed 1).2 (by decide), ?_, ?_⟩
  · rw [hsize]
    decide
  · exact (hcopy 2 128 (by decide)).1

end Runs

end Bitset
end RuleIndex
