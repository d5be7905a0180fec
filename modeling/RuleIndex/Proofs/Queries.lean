-- SUMMARY: Coded queries: what the codes of a query are, dimension by dimension.
import Mathlib.Data.List.GetD
import RuleIndex.Index
import RuleIndex.Proofs.Traversal

/-!
# Coded queries

A query is coded if it has one value per dimension and all values given have codes. On every
dimension the coded query then holds the codes of the values, and nothing else; so a question
about codes is one about values (`Axis.exists_code_iff`).
-/

namespace RuleIndex

variable {α : Type}

/-! ## One dimension -/

namespace Axis

variable {axis : Axis} {query : QueryValue} {codes : List Int}

theorem encode_eq_ok_iff {v : Value} {code : Int} :
    axis.encode v = .ok code ↔ axis.codec.encode v = some code := by
  unfold encode
  cases axis.codec.encode v <;> simp

theorem mem_codes_iff (h : axis.encodeQuery query = .ok codes) {code : Int} :
    code ∈ codes ↔ ∃ v ∈ query.values, axis.codec.encode v = some code := by
  simp only [← encode_eq_ok_iff]
  cases query with
  | wildcard =>
    obtain rfl := Except.ok.inj h
    simp [QueryValue.values]
  | single v =>
    simp only [encodeQuery, bind_eq_ok_iff, pure_eq_ok_iff] at h
    obtain ⟨own, hown, rfl⟩ := h
    simp [QueryValue.values, hown, eq_comm (a := code)]
  | many vs =>
    simp only [encodeQuery, bind_eq_ok_iff, pure_eq_ok_iff] at h
    obtain ⟨own, hown, rfl⟩ := h
    rw [Ascending.mem_ofList, mem_of_mapM_eq_ok_iff hown]
    rfl

theorem exists_code (h : axis.encodeQuery query = .ok codes) {v : Value} (hv : v ∈ query.values) :
    ∃ code, axis.codec.encode v = some code := by
  simp only [← encode_eq_ok_iff]
  cases query with
  | wildcard => cases hv
  | single own =>
    simp only [encodeQuery, bind_eq_ok_iff, pure_eq_ok_iff] at h
    obtain ⟨code, hcode, _⟩ := h
    obtain rfl : v = own := by simpa [QueryValue.values] using hv
    exact ⟨code, hcode⟩
  | many vs =>
    simp only [encodeQuery, bind_eq_ok_iff] at h
    obtain ⟨_, hown, _⟩ := h
    exact exists_of_mapM_eq_ok hown hv

/-- The query has a code with a property if it has a value whose code has it. -/
theorem exists_code_iff (h : axis.encodeQuery query = .ok codes) {P : Int → Prop}
    {Q : Value → Prop} (hPQ : ∀ v ∈ query.values, ∀ code, axis.codec.encode v = some code →
      (P code ↔ Q v)) :
    (∃ code ∈ codes, P code) ↔ ∃ v ∈ query.values, Q v := by
  constructor
  · intro ⟨code, hcode, hP⟩
    obtain ⟨v, hv, hencode⟩ := (mem_codes_iff h).1 hcode
    exact ⟨v, hv, (hPQ v hv code hencode).1 hP⟩
  · intro ⟨v, hv, hQ⟩
    obtain ⟨code, hencode⟩ := exists_code h hv
    exact ⟨code, (mem_codes_iff h).2 ⟨v, hv, hencode⟩, (hPQ v hv code hencode).2 hQ⟩

theorem codes_eq_nil_iff (h : axis.encodeQuery query = .ok codes) :
    codes = [] ↔ query.values = [] := by
  have hiff := exists_code_iff h (P := fun _ => True) (Q := fun _ => True) (by simp)
  simpa [List.eq_nil_iff_forall_not_mem, not_exists] using not_congr hiff

end Axis


/-! ## All dimensions -/

namespace Space

variable {space : Space} {query : List QueryValue} {coded : CodedQuery}

/-- Coding a query is coding its values dimension by dimension. -/
theorem encode_eq_ok_iff : space.encode query = .ok coded ↔
    query.length = space.size ∧ coded.size = space.size ∧
      ∀ (d : Nat) (axis : Axis), space.axes[d]? = some axis →
        axis.encodeQuery (query.getD d .wildcard) = .ok (coded.codesAt d) := by
  unfold encode
  split
  · next hsize =>
    have hlength : (space.axes.zip query).length = space.size := by
      rw [List.length_zip, hsize]
      exact Nat.min_self _
    simp only [bind_eq_ok_iff, pure_eq_ok_iff, mapM_eq_ok_iff, List.forall₂_iff_get]
    constructor
    · rintro ⟨codes, ⟨hcodes, hall⟩, rfl⟩
      have hcodes : codes.length = space.size := hcodes ▸ hlength
      refine ⟨hsize, hcodes, fun d axis hd => ?_⟩
      obtain ⟨hlt, rfl⟩ := List.getElem?_eq_some_iff.1 hd
      have hquery : d < query.length := hsize.symm ▸ hlt
      have hcode : d < codes.length := hcodes.symm ▸ hlt
      rw [CodedQuery.codesAt, List.getD_eq_getElem _ _ hquery, List.getD_eq_getElem _ _ hcode]
      simpa using hall d (hlength.symm ▸ hlt) hcode
    · rintro ⟨_, hcodes, hall⟩
      refine ⟨coded.codes, ⟨hlength.trans hcodes.symm, fun d hd hcode => ?_⟩, rfl⟩
      have hlt : d < space.size := hlength ▸ hd
      have hquery : d < query.length := hsize.symm ▸ hlt
      have haxis := hall d _ (List.getElem?_eq_getElem hlt)
      rw [CodedQuery.codesAt, List.getD_eq_getElem _ _ hquery, List.getD_eq_getElem _ _ hcode]
        at haxis
      simp only [List.get_eq_getElem, List.getElem_zip]
      exact haxis
  · next hsize =>
    simp [hsize]

end Space


/-! ## Answers -/

namespace Index

variable [DecidableEq α] {index : Index α} {query : List QueryValue} {coded : CodedQuery}

theorem find_eq_ok_iff {found : List α} : index.find query = .ok found ↔
    ∃ coded, index.encode query = .ok coded ∧ index.findCoded coded = found := by
  simp only [find, bind_eq_ok_iff, pure_eq_ok_iff]

/-- A search fails if the query cannot be coded, and with the same error. -/
theorem find_eq_error_iff {error : Error} :
    index.find query = .error error ↔ index.encode query = .error error := by
  simp only [find, bind_eq_error_iff, pure_ne_error, and_false, exists_false, or_false]

theorem find_eq_ok (h : index.encode query = .ok coded) :
    index.find query = .ok (index.findCoded coded) :=
  find_eq_ok_iff.2 ⟨coded, h, rfl⟩

theorem trace_eq_ok [ToString α] {report : Report α} (h : index.report query = .ok report) :
    index.trace query = .ok report.render := by
  rw [trace, h]
  rfl

end Index
end RuleIndex
