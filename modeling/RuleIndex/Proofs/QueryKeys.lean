-- SUMMARY: Coded queries as keys: which queries have one, and that spellings of a query have the same one exactly if they hold the same codes.
import Mathlib.Data.List.Sort
import RuleIndex.Proofs.Refusals

/-!
# Coded queries as keys

A coded query stands for all queries that hold the same codes, and a cache may use it as the key
of their common answer. This is sound because a coded query keeps neither order nor repetitions,
and because a list without codes belongs to a wildcard and to nothing else.

`Space.encode_canonical` says which queries have a code, what is reported of the others, and when
two queries have the same one.
-/

namespace RuleIndex

/-! ## Wildcards and codes -/

/-- Whether no value is given. A list of values may be empty. -/
def QueryValue.isWildcard : QueryValue → Bool
  | .wildcard | .many [] => true
  | _ => false

theorem QueryValue.values_eq_nil_iff {query : QueryValue} :
    query.values = [] ↔ query.isWildcard = true := by
  cases query with
  | wildcard => simp [values, isWildcard]
  | single v => simp [values, isWildcard]
  | many vs => cases vs <;> simp [values, isWildcard]

namespace Axis

/-- The value has no code, and `e` says so. -/
def Unknown (axis : Axis) (v : Value) (e : Error) : Prop :=
  axis.codec.encode v = none ∧ e = .unknownValue axis.name v

/-- Whether two query values are wildcards both, or else hold the same codes. -/
def SameCodes (axis : Axis) (query query' : QueryValue) : Prop :=
  query.isWildcard = true ∧ query'.isWildcard = true ∨
    query.isWildcard = false ∧ query'.isWildcard = false ∧
      ∀ code, (∃ v ∈ query.values, axis.codec.encode v = some code) ↔
        ∃ v ∈ query'.values, axis.codec.encode v = some code

variable {axis : Axis} {query query' : QueryValue} {codes codes' : List Int}

theorem exists_unknown_iff {v : Value} : (∃ e, axis.Unknown v e) ↔ axis.codec.encode v = none := by
  simp [Unknown]

/-- A query value is refused for the first of its values without a code. -/
theorem encodeQuery_eq_error_iff {e : Error} :
    axis.encodeQuery query = .error e ↔ FirstFailure axis.Unknown query.values e := by
  have hunknown : axis.Unknown = fun v e => axis.encode v = .error e := by
    funext v e
    rw [eq_iff_iff, encode_eq_error_iff, Unknown]
  rw [hunknown]
  cases query with
  | wildcard => simp [encodeQuery, QueryValue.values, firstFailure_nil_iff]
  | single v =>
    simp only [encodeQuery, QueryValue.values, bind_eq_error_iff, firstFailure_cons_iff,
      firstFailure_nil_iff, pure_ne_error, and_false, exists_false, or_false]
  | many vs =>
    simp only [encodeQuery, QueryValue.values, bind_eq_error_iff, mapM_eq_error_iff,
      pure_ne_error, and_false, exists_false, or_false]

theorem pairwise_codes (h : axis.encodeQuery query = .ok codes) : codes.Pairwise (· < ·) := by
  cases query with
  | wildcard =>
    obtain rfl := Except.ok.inj h
    exact List.Pairwise.nil
  | single v =>
    simp only [encodeQuery, bind_eq_ok_iff, pure_eq_ok_iff] at h
    obtain ⟨code, _, rfl⟩ := h
    exact List.pairwise_singleton _ _
  | many vs =>
    simp only [encodeQuery, bind_eq_ok_iff, pure_eq_ok_iff] at h
    obtain ⟨own, _, rfl⟩ := h
    exact Ascending.pairwise_ofList own

theorem codes_eq_nil_iff_isWildcard (h : axis.encodeQuery query = .ok codes) :
    codes = [] ↔ query.isWildcard = true :=
  (codes_eq_nil_iff h).trans QueryValue.values_eq_nil_iff

/-- Ascending lists of codes are equal if they hold the same codes, so nothing is left of the
    spelling. -/
theorem codes_eq_iff (h : axis.encodeQuery query = .ok codes)
    (h' : axis.encodeQuery query' = .ok codes') :
    codes = codes' ↔ axis.SameCodes query query' := by
  have hmem : codes = codes' ↔ ∀ code, code ∈ codes ↔ code ∈ codes' := by
    constructor
    · intro heq code
      rw [heq]
    · exact (pairwise_codes h).eq_of_mem_iff (pairwise_codes h')
  have hwild := codes_eq_nil_iff_isWildcard h
  have hwild' := codes_eq_nil_iff_isWildcard h'
  simp only [SameCodes, ← mem_codes_iff h, ← mem_codes_iff h', ← hmem]
  constructor
  · intro heq
    cases hquery : query.isWildcard with
    | true => exact .inl ⟨rfl, hwild'.1 (heq ▸ hwild.2 hquery)⟩
    | false =>
      refine .inr ⟨rfl, ?_, heq⟩
      rw [Bool.eq_false_iff, ne_eq, ← hwild', ← heq, hwild, hquery]
      exact Bool.false_ne_true
  · rintro (⟨hquery, hquery'⟩ | ⟨_, _, heq⟩)
    · rw [hwild.2 hquery, hwild'.2 hquery']
    · exact heq

end Axis


/-! ## Keys of queries -/

namespace Space

variable {space : Space} {query query' : List QueryValue} {coded coded' : CodedQuery} {e : Error}

/-- On the first dimension that has an unknown value, `e` reports the first one. -/
def FirstUnknown (space : Space) (query : List QueryValue) (e : Error) : Prop :=
  FirstFailure (fun (place : Axis × QueryValue) e => FirstFailure place.1.Unknown place.2.values e)
    (space.axes.zip query) e

/-- Why a query has no code: a wrong size before an unknown value. -/
inductive Refuses (space : Space) (query : List QueryValue) : Error → Prop where
  | size (wrong : query.length ≠ space.size) :
      Refuses space query (.dimensionCount space.size query.length)
  | unknown {e : Error} (right : query.length = space.size) (first : space.FirstUnknown query e) :
      Refuses space query e

theorem encode_eq_error_iff : space.encode query = .error e ↔ space.Refuses query e := by
  unfold encode
  split
  · next hsize =>
    simp only [bind_eq_error_iff, pure_ne_error, and_false, exists_false, or_false,
      mapM_eq_error_iff, Axis.encodeQuery_eq_error_iff]
    constructor
    · exact .unknown hsize
    · intro h
      cases h with
      | size wrong => exact absurd hsize wrong
      | unknown _ first => exact first
  · next hsize =>
    constructor
    · intro h
      obtain rfl := Except.error.inj h
      exact .size hsize
    · intro h
      cases h with
      | size => rfl
      | unknown right => exact absurd right hsize

/-- A query is refused if it has the wrong size or holds a value without a code. -/
theorem exists_refuses_iff : (∃ e, space.Refuses query e) ↔
    query.length ≠ space.size ∨
      ∃ (d : Nat) (axis : Axis) (value : QueryValue), space.axes[d]? = some axis ∧
        query[d]? = some value ∧ ∃ v ∈ value.values, axis.codec.encode v = none := by
  have hunknown : (∃ e, space.FirstUnknown query e) ↔
      ∃ (d : Nat) (axis : Axis) (value : QueryValue), space.axes[d]? = some axis ∧
        query[d]? = some value ∧ ∃ v ∈ value.values, axis.codec.encode v = none := by
    simp only [FirstUnknown, exists_firstFailure_iff, Axis.exists_unknown_iff,
      List.mem_iff_getElem?, Prod.exists, List.getElem?_zip_eq_some]
    constructor
    · rintro ⟨axis, value, ⟨d, haxis, hvalue⟩, hnone⟩
      exact ⟨d, axis, value, haxis, hvalue, hnone⟩
    · rintro ⟨d, axis, value, haxis, hvalue, hnone⟩
      exact ⟨axis, value, ⟨d, haxis, hvalue⟩, hnone⟩
  rw [← hunknown]
  constructor
  · rintro ⟨e, h⟩
    cases h with
    | size wrong => exact .inl wrong
    | unknown _ first => exact .inr ⟨e, first⟩
  · intro h
    by_cases hsize : query.length = space.size
    · obtain ⟨e, first⟩ := h.resolve_left (not_not_intro hsize)
      exact ⟨e, .unknown hsize first⟩
    · exact ⟨_, .size hsize⟩

/-- Coded queries are equal if they hold the same codes on every dimension. -/
theorem encode_eq_iff (h : space.encode query = .ok coded)
    (h' : space.encode query' = .ok coded') :
    coded = coded' ↔ ∀ (d : Nat) (axis : Axis), space.axes[d]? = some axis →
      axis.SameCodes (query.getD d .wildcard) (query'.getD d .wildcard) := by
  obtain ⟨_, hsize, hcodes⟩ := encode_eq_ok_iff.1 h
  obtain ⟨_, hsize', hcodes'⟩ := encode_eq_ok_iff.1 h'
  constructor
  · intro heq d axis haxis
    rw [← Axis.codes_eq_iff (hcodes d axis haxis) (hcodes' d axis haxis), heq]
  · intro hsame
    have hlength : coded.codes.length = coded'.codes.length := hsize.trans hsize'.symm
    have hcoded : coded.codes = coded'.codes := by
      refine List.ext_getElem hlength fun d hd hd' => ?_
      have hlt : d < space.axes.length := Nat.lt_of_lt_of_eq hd hsize
      have haxis : space.axes[d]? = some space.axes[d] := List.getElem?_eq_getElem hlt
      have heq := (Axis.codes_eq_iff (hcodes d _ haxis) (hcodes' d _ haxis)).2 (hsame d _ haxis)
      rwa [CodedQuery.codesAt, CodedQuery.codesAt, List.getD_eq_getElem _ _ hd,
        List.getD_eq_getElem _ _ hd'] at heq
    exact congrArg CodedQuery.mk hcoded

/-- A query has a code unless its size is wrong or one of its values has none, and then the first
    such fault is reported. The code is ascending on every dimension and empty for wildcards only,
    and queries share it exactly if they hold the same codes, however they are spelled. -/
theorem encode_canonical (space : Space) (query : List QueryValue) :
    (∀ e, space.encode query = .error e ↔ space.Refuses query e) ∧
    ((∃ e, space.encode query = .error e) ↔ query.length ≠ space.size ∨
      ∃ (d : Nat) (axis : Axis) (value : QueryValue), space.axes[d]? = some axis ∧
        query[d]? = some value ∧ ∃ v ∈ value.values, axis.codec.encode v = none) ∧
    ∀ coded, space.encode query = .ok coded →
      coded.size = space.size ∧
      (∀ d < space.size, (coded.codesAt d).Pairwise (· < ·) ∧
        (coded.codesAt d = [] ↔ (query.getD d .wildcard).isWildcard = true)) ∧
      ∀ query' coded', space.encode query' = .ok coded' →
        (coded = coded' ↔ ∀ (d : Nat) (axis : Axis), space.axes[d]? = some axis →
          axis.SameCodes (query.getD d .wildcard) (query'.getD d .wildcard)) := by
  refine ⟨fun _ => encode_eq_error_iff, ?_, fun coded h => ⟨?_, ?_, ?_⟩⟩
  · simp only [encode_eq_error_iff]
    exact exists_refuses_iff
  · exact (encode_eq_ok_iff.1 h).2.1
  · intro d hd
    have hlt : d < space.axes.length := hd
    have hcodes := (encode_eq_ok_iff.1 h).2.2 d _ (List.getElem?_eq_getElem hlt)
    exact ⟨Axis.pairwise_codes hcodes, Axis.codes_eq_nil_iff_isWildcard hcodes⟩
  · intro query' coded' h'
    exact encode_eq_iff h h'

/-- Order, repetitions, letters of a name and spellings of the wildcard leave no trace. Of several
    unknown values the first one is reported, on the first dimension that has one. -/
theorem encode_canonical_sample :
    let space := fit Sample.dimensions Sample.rules
    let query : List QueryValue :=
      [.many [.text "red", .text "blue", .text "red"], .many [], .single (.text "x"),
        .single (.text "EU")]
    let query' : List QueryValue :=
      [.many [.text "blue", .text "red"], .wildcard, .many [.text "x", .text "x"],
        .many [.text "eu"]]
    let unknown : List QueryValue :=
      [.single (.text "red"), .wildcard, .many [.text "x", .text "w", .text "v"],
        .single (.text "UK")]
    (∃ coded, space.encode query = .ok coded ∧ space.encode query' = .ok coded ∧
      coded.codesAt 1 = [] ∧ (coded.codesAt 0).Pairwise (· < ·) ∧
      ∀ (d : Nat) (axis : Axis), space.axes[d]? = some axis →
        axis.SameCodes (query.getD d .wildcard) (query'.getD d .wildcard)) ∧
    space.Refuses unknown (.unknownValue "tags" (.text "w")) := by
  intro space query query' unknown
  obtain ⟨coded, h⟩ : ∃ coded, space.encode query = .ok coded := ⟨_, rfl⟩
  obtain ⟨coded', h'⟩ : ∃ coded, space.encode query' = .ok coded := ⟨_, rfl⟩
  have heq : coded = coded' := by
    rw [← Except.ok.inj h, ← Except.ok.inj h']
    rfl
  obtain ⟨_, _, hcanonical⟩ := encode_canonical space query
  obtain ⟨_, hcodes, hsame⟩ := hcanonical coded h
  refine ⟨⟨coded, h, heq ▸ h', ?_, ?_, ?_⟩, ?_⟩
  · exact (hcodes 1 (by decide)).2.2 rfl
  · exact (hcodes 0 (by decide)).1
  · exact (hsame query' coded' h').1 heq
  · exact ((encode_canonical space unknown).1 _).1 rfl

end Space
end RuleIndex
