-- SUMMARY: Placing values in bitsets: which lists of values make a set, what it holds, and that built-in domains have a place for every code.
import RuleIndex.Proofs.Dictionaries
import RuleIndex.Proofs.Refusals
import RuleIndex.Proofs.Satisfaction

/-!
# Placing values in bitsets

The values of a set constraint become the bitset of their codes. Each needs a code, and a place
for it within the capacity of the axis; of those that lack one the first is reported
(`Axis.toBitset_exact`). This much holds of any codec, also of a caller's own. The capacity of a
built-in domain exceeds all of its codes, so that its values fail for want of a code only.
-/

namespace RuleIndex

namespace Axis

variable {axis : Axis} {values : List Value}

/-- The value has a code and there is a place for it. -/
def Places (axis : Axis) (v : Value) : Prop :=
  ∃ code, axis.codec.encode v = some code ∧ 0 ≤ code ∧ code < axis.codec.capacity

theorem exists_fault_iff {v : Value} :
    (∃ e, axis.Fault (.including values) v e) ↔ ¬ axis.Places v := by
  constructor
  · rintro ⟨e, hfault⟩ ⟨code, hcode, hrange⟩
    cases hfault with
    | unknown hnone =>
      rw [hcode] at hnone
      cases hnone
    | unplaceable _ hown hout =>
      rw [hcode, Option.some.injEq] at hown
      exact hout (hown ▸ hrange)
  · intro hplaces
    cases hcode : axis.codec.encode v with
    | none => exact ⟨_, .unknown hcode⟩
    | some code => exact ⟨_, .unplaceable rfl hcode fun hrange => hplaces ⟨code, hcode, hrange⟩⟩

/-- The first value without a place is reported. -/
theorem toBitset_eq_error_iff {e : Error} : axis.toBitset values = .error e ↔
    FirstFailure (axis.Fault (.including values)) values e := by
  rw [fault_eq_place rfl]
  simp only [toBitset, bind_eq_error_iff, mapM_eq_error_iff, pure_ne_error, and_false,
    exists_false, or_false]

theorem exists_toBitset_iff :
    (∃ bits, axis.toBitset values = .ok bits) ↔ ∀ v ∈ values, axis.Places v := by
  have hfails : (∃ e, axis.toBitset values = .error e) ↔ ∃ v ∈ values, ¬ axis.Places v := by
    simp only [toBitset_eq_error_iff, exists_firstFailure_iff, exists_fault_iff]
  cases hbits : axis.toBitset values with
  | ok bits => simpa [hbits] using hfails
  | error e => simpa [hbits] using hfails

/-- The bitset holds the codes of the values and no others. -/
theorem containsCode_toBitset_iff {bits : Bitset} (h : axis.toBitset values = .ok bits)
    {code : Int} :
    bits.containsCode code = true ↔ ∃ v ∈ values, axis.codec.encode v = some code := by
  rw [← mem_toBitset_iff h, Bitset.containsCode_iff]
  simp only [List.mem_map, Bitset.mem_toList, Int.ofNat_eq_natCast]

end Axis

/-- No code of a built-in domain lacks a place, whatever the dimension has learned. -/
theorem Dimension.toBitset_refit_ne_unplaceable {d : Dimension} (h : d.domain.isBuiltIn = true)
    {lessons : List (List Value)} {values : List Value} {name : String} {code : Int} {v : Value}
    {capacity : Nat} :
    (d.refit lessons).toBitset values ≠ .error (.unplaceable name code v capacity) := by
  intro herror
  rw [refit_eq_fit, Axis.toBitset_eq_error_iff] at herror
  obtain ⟨_, v, _, hfault, _⟩ := herror
  cases hfault with
  | unplaceable _ hcode hrange =>
    exact hrange ⟨Domain.encode_nonneg h hcode, Domain.encode_lt_capacity h hcode⟩

namespace Axis

/-- Values make a bitset if all of them have places, and it then holds exactly their codes. If some
    have none, the first of these is reported, as unknown or for its code; the latter never happens
    in a built-in domain, however often the dimension was given values to learn. -/
theorem toBitset_exact (axis : Axis) (values : List Value) :
    ((∃ bits, axis.toBitset values = .ok bits) ↔ ∀ v ∈ values, axis.Places v) ∧
    (∀ bits, axis.toBitset values = .ok bits → ∀ code : Int,
      bits.containsCode code = true ↔ ∃ v ∈ values, axis.codec.encode v = some code) ∧
    (∀ e, axis.toBitset values = .error e ↔
      FirstFailure (axis.Fault (.including values)) values e) ∧
    ∀ (d : Dimension) (lessons : List (List Value)), d.domain.isBuiltIn = true →
      ∀ (values : List Value) (name : String) (code : Int) (v : Value) (capacity : Nat),
        (d.refit lessons).toBitset values ≠ .error (.unplaceable name code v capacity) := by
  refine ⟨exists_toBitset_iff, fun bits h code => ?_, fun e => ?_, fun d lessons h _ _ _ _ _ => ?_⟩
  · exact containsCode_toBitset_iff h
  · exact toBitset_eq_error_iff
  · exact Dimension.toBitset_refit_ne_unplaceable h

/-- An integer that is its own code has a place up to the capacity and no further, while a text
    dimension has one for its last entry too. -/
theorem toBitset_exact_sample :
    let codec : Codec := ⟨Value.integer?, 64, toString⟩
    let axis : Axis := ⟨"ts", .ordered, codec⟩
    let values := [Value.integer 63, .integer 0, .integer 63]
    let faulty := [Value.integer 63, .integer 64, .text "x"]
    (∃ bits, axis.toBitset values = .ok bits ∧ bits.containsCode 63 = true ∧
      ∀ v ∈ values, axis.Places v) ∧
    FirstFailure (axis.Fault (.including faulty)) faulty
      (.unplaceable "ts" 64 (.integer 64) 64) ∧
    (Dimension.refit ⟨"tags", .ordered, .text⟩ [[.text "z"], [.text "y", .text "x"]]).toBitset
      [.text "y", .text "z"] ≠ .error (.unplaceable "tags" 2 (.text "z") 2) := by
  intro codec axis values faulty
  obtain ⟨hplaces, hcodes, _, hbuiltIn⟩ := toBitset_exact axis values
  obtain ⟨_, _, hfirst, _⟩ := toBitset_exact axis faulty
  obtain ⟨bits, hbits⟩ : ∃ bits, axis.toBitset values = .ok bits := ⟨_, rfl⟩
  refine ⟨⟨bits, hbits, ?_, hplaces.1 ⟨bits, hbits⟩⟩, (hfirst _).1 rfl, hbuiltIn _ _ rfl _ _ _ _ _⟩
  exact (hcodes bits hbits 63).2 ⟨.integer 63, List.mem_cons_self, rfl⟩

end Axis
end RuleIndex
