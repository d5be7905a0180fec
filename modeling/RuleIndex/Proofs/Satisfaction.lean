-- SUMMARY: Satisfaction of rules by queries on values, and that searches of built-in domains decide it.
import RuleIndex.Proofs.Codes
import RuleIndex.Proofs.Matching
import RuleIndex.Proofs.Queries

/-!
# Satisfaction

`Rule.Satisfied` says on values, without codes or trees, when a query satisfies a rule. Over
built-in domains a search finds the payloads of the satisfied rules (`Index.find_eq_satisfied`).

One dimension at a time, the values a constraint mentions have codes that stand for them
alone. So a query meets one of the cells of a constraint exactly if it satisfies it.
-/

namespace RuleIndex

variable {α : Type}

/-! ## On values -/

/-- Whether query values satisfy a scalar. -/
def Dimension.Holds (dimension : Dimension) (held : List Value) (v : Value) : Prop :=
  match dimension.operation with
  | .ordered => ∃ q ∈ held, dimension.domain.Same v q
  | .notContains => ∃ q ∈ held, ¬ dimension.domain.Same v q

/-- Whether a query satisfies a constraint. Without a value it satisfies every constraint. -/
def Constraint.Satisfied (dimension : Dimension) (query : QueryValue) (constraint : Constraint) :
    Prop :=
  query.values = [] ∨
    match constraint with
    | .any => True
    | .value v => dimension.Holds query.values v
    | .many vs => vs = [] ∨ ∃ v ∈ vs, dimension.Holds query.values v
    | .set vs inclusive => vs = [] ∨
        ((∃ q ∈ query.values, ∃ v ∈ vs, dimension.domain.Same v q) ↔ inclusive = true)

/-- Whether a query satisfies all constraints of a rule. -/
def Rule.Satisfied (rule : Rule α) (dimensions : List Dimension) (query : List QueryValue) :
    Prop :=
  ∀ d (h : d < dimensions.length),
    (rule.constraints.getD d .any).Satisfied dimensions[d] (query.getD d .wildcard)

instance (dimension : Dimension) (held : List Value) (v : Value) :
    Decidable (dimension.Holds held v) :=
  match dimension with
  | ⟨_, .ordered, domain⟩ => inferInstanceAs (Decidable (∃ q ∈ held, domain.Same v q))
  | ⟨_, .notContains, domain⟩ => inferInstanceAs (Decidable (∃ q ∈ held, ¬ domain.Same v q))

instance (dimension : Dimension) (query : QueryValue) (constraint : Constraint) :
    Decidable (constraint.Satisfied dimension query) :=
  match constraint with
  | .any => inferInstanceAs (Decidable (query.values = [] ∨ True))
  | .value v => inferInstanceAs (Decidable (query.values = [] ∨ dimension.Holds query.values v))
  | .many vs => inferInstanceAs (Decidable (query.values = [] ∨ vs = [] ∨
      ∃ v ∈ vs, dimension.Holds query.values v))
  | .set vs inclusive => inferInstanceAs (Decidable (query.values = [] ∨ vs = [] ∨
      ((∃ q ∈ query.values, ∃ v ∈ vs, dimension.domain.Same v q) ↔ inclusive = true)))

instance (rule : Rule α) (dimensions : List Dimension) (query : List QueryValue) :
    Decidable (rule.Satisfied dimensions query) :=
  inferInstanceAs (Decidable (∀ d (h : d < dimensions.length),
    (rule.constraints.getD d .any).Satisfied dimensions[d] (query.getD d .wildcard)))


/-! ## Cells of constraints -/

theorem Cell.ofCode_of_nonneg {code : Int} (h : 0 ≤ code) : Cell.ofCode code = .equal code := by
  rw [ofCode, if_neg (ne_anyCode_of_nonneg h)]

namespace Axis

variable {axis : Axis} {values : List Value}

/-- A value is placed by its code, which is not negative. -/
theorem place_eq_ok_iff {v : Value} {code : Int} : axis.place v = .ok code ↔
    axis.codec.encode v = some code ∧ 0 ≤ code ∧ code < axis.codec.capacity := by
  simp only [place, bind_eq_ok_iff, encode_eq_ok_iff]
  constructor
  · rintro ⟨own, hown, hplace⟩
    split at hplace
    · next hrange =>
      obtain rfl := Except.ok.inj hplace
      exact ⟨hown, hrange⟩
    · cases hplace
  · rintro ⟨hcode, hrange⟩
    exact ⟨code, hcode, by rw [if_pos hrange]⟩

variable {bits : Bitset}

theorem exists_code_of_toBitset (h : axis.toBitset values = .ok bits) {v : Value}
    (hv : v ∈ values) : ∃ code, axis.codec.encode v = some code := by
  simp only [toBitset, bind_eq_ok_iff] at h
  obtain ⟨_, hcodes, _⟩ := h
  obtain ⟨code, hplace⟩ := exists_of_mapM_eq_ok hcodes hv
  exact ⟨code, (place_eq_ok_iff.1 hplace).1⟩

/-- The codes read back from a bitset are those of the values put in. -/
theorem mem_toBitset_iff (h : axis.toBitset values = .ok bits) {code : Int} :
    code ∈ bits.toList.map Int.ofNat ↔ ∃ v ∈ values, axis.codec.encode v = some code := by
  simp only [toBitset, bind_eq_ok_iff, pure_eq_ok_iff] at h
  obtain ⟨codes, hcodes, rfl⟩ := h
  simp only [List.mem_map, Bitset.mem_toList, Bitset.contains_ofCodes,
    mem_of_mapM_eq_ok_iff hcodes]
  constructor
  · rintro ⟨i, ⟨v, hv, hplace⟩, hi⟩
    exact ⟨v, hv, hi ▸ (place_eq_ok_iff.1 hplace).1⟩
  · rintro ⟨v, hv, hcode⟩
    obtain ⟨own, hplace⟩ := exists_of_mapM_eq_ok hcodes hv
    obtain ⟨hown, hnonneg, _⟩ := place_eq_ok_iff.1 hplace
    rw [hcode, Option.some.injEq] at hown
    subst hown
    obtain ⟨i, rfl⟩ := Int.eq_ofNat_of_zero_le hnonneg
    exact ⟨i, ⟨v, hv, hplace⟩, rfl⟩

theorem toBitset_eq_nil_iff (h : axis.toBitset values = .ok bits) :
    bits.toList.map Int.ofNat = [] ↔ values = [] := by
  simp only [List.eq_nil_iff_forall_not_mem, mem_toBitset_iff h]
  constructor
  · intro hnone v hv
    obtain ⟨code, hcode⟩ := exists_code_of_toBitset h hv
    exact hnone code ⟨v, hv, hcode⟩
  · intro hnone code ⟨v, hv, _⟩
    exact hnone v hv

end Axis


/-! ## From codes to values -/

section Fitted

variable {dimension : Dimension} {mentioned : List Value} {query : QueryValue}
  {codes : List Int} {cells : List Cell}

/-- A scalar that the rules mention is met by codes if it is satisfied by values. -/
theorem Dimension.holds_iff_meets (hdomain : dimension.domain.isBuiltIn = true)
    (hquery : (dimension.fit mentioned).encodeQuery query = .ok codes)
    {v : Value} {code : Int} (hv : v ∈ mentioned)
    (hcode : (dimension.fit mentioned).codec.encode v = some code) :
    dimension.operation.Meets codes code ↔ dimension.Holds query.values v := by
  have hsame (q : Value) (c : Int) (hc : (dimension.fit mentioned).codec.encode q = some c) :
      code = c ↔ dimension.domain.Same v q :=
    Domain.encode_eq_iff hdomain hv hcode hc
  unfold Operation.Meets Dimension.Holds
  cases dimension.operation with
  | ordered =>
    have hexists := Axis.exists_code_iff hquery (P := (code = ·)) fun q _ c hc => hsame q c hc
    simpa using hexists
  | notContains =>
    refine Axis.exists_code_iff hquery fun q _ c hc => ?_
    rw [ne_comm, ne_eq, hsame q c hc]

/-- The cell of a scalar that the rules mention is met if the scalar is satisfied. -/
theorem Dimension.met_ofCode_iff (hdomain : dimension.domain.isBuiltIn = true)
    (hquery : (dimension.fit mentioned).encodeQuery query = .ok codes)
    {v : Value} {code : Int} (hv : v ∈ mentioned)
    (hcode : (dimension.fit mentioned).encode v = .ok code) :
    (Cell.ofCode code).Met dimension.operation codes ↔
      query.values = [] ∨ dimension.Holds query.values v := by
  rw [Axis.encode_eq_ok_iff] at hcode
  rw [Cell.ofCode_of_nonneg (Domain.encode_nonneg hdomain hcode)]
  exact or_congr (Axis.codes_eq_nil_iff hquery) (holds_iff_meets hdomain hquery hv hcode)

/-- One of the cells of several scalars is met if one of the scalars is satisfied. -/
theorem Dimension.exists_met_ofCode_iff (hdomain : dimension.domain.isBuiltIn = true)
    (hquery : (dimension.fit mentioned).encodeQuery query = .ok codes)
    {values : List Value} {own : List Int} (hvalues : ∀ v ∈ values, v ∈ mentioned)
    (hown : values.mapM (dimension.fit mentioned).encode = .ok own) :
    (∃ cell ∈ (Ascending.ofList own).map Cell.ofCode, cell.Met dimension.operation codes) ↔
      ∃ v ∈ values, query.values = [] ∨ dimension.Holds query.values v := by
  simp only [List.mem_map, Ascending.mem_ofList, exists_exists_and_eq_and]
  constructor
  · rintro ⟨code, hmem, hmet⟩
    obtain ⟨v, hv, hcode⟩ := (mem_of_mapM_eq_ok_iff hown).1 hmem
    exact ⟨v, hv, (met_ofCode_iff hdomain hquery (hvalues v hv) hcode).1 hmet⟩
  · rintro ⟨v, hv, hholds⟩
    obtain ⟨code, hcode⟩ := exists_of_mapM_eq_ok hown hv
    refine ⟨code, (mem_of_mapM_eq_ok_iff hown).2 ⟨v, hv, hcode⟩, ?_⟩
    exact (met_ofCode_iff hdomain hquery (hvalues v hv) hcode).2 hholds

/-- The cell of a set that the rules mention is met if the set is satisfied. -/
theorem Dimension.met_set_iff (hdomain : dimension.domain.isBuiltIn = true)
    (hquery : (dimension.fit mentioned).encodeQuery query = .ok codes)
    {values : List Value} {inclusive : Bool} {bits : Bitset} (hvalues : ∀ v ∈ values, v ∈ mentioned)
    (hbits : (dimension.fit mentioned).toBitset values = .ok bits) :
    (Cell.set ⟨bits.toList.map Int.ofNat, inclusive⟩).Met dimension.operation codes ↔
      query.values = [] ∨ values = [] ∨
        ((∃ q ∈ query.values, ∃ v ∈ values, dimension.domain.Same v q) ↔ inclusive = true) := by
  have hmeets : (∃ c ∈ codes, c ∈ bits.toList.map Int.ofNat) ↔
      ∃ q ∈ query.values, ∃ v ∈ values, dimension.domain.Same v q := by
    refine Axis.exists_code_iff hquery fun q _ c hc => ?_
    rw [Axis.mem_toBitset_iff hbits]
    refine exists_congr fun v => and_congr_right fun hv => ?_
    obtain ⟨code, hcode⟩ := Axis.exists_code_of_toBitset hbits hv
    rw [← Domain.encode_eq_iff hdomain (hvalues v hv) hcode hc]
    simp only [Dimension.fit] at hcode
    simp [Dimension.fit, hcode]
  exact or_congr (Axis.codes_eq_nil_iff hquery)
    (or_congr (Axis.toBitset_eq_nil_iff hbits) (iff_congr hmeets Iff.rfl))

/-- A query meets one of the cells of a constraint exactly if it satisfies the constraint. -/
theorem Constraint.exists_met_iff_satisfied {constraint : Constraint}
    (hdomain : dimension.domain.isBuiltIn = true)
    (hmentioned : ∀ v ∈ constraint.values, v ∈ mentioned)
    (hoptions : (dimension.fit mentioned).options constraint = .ok cells)
    (hquery : (dimension.fit mentioned).encodeQuery query = .ok codes) :
    (∃ cell ∈ cells, cell.Met dimension.operation codes) ↔
      constraint.Satisfied dimension query := by
  cases constraint with
  | any =>
    obtain rfl := Except.ok.inj hoptions
    simp [Satisfied, Cell.met_any]
  | value v =>
    simp only [Axis.options, bind_eq_ok_iff, pure_eq_ok_iff] at hoptions
    obtain ⟨code, hcode, rfl⟩ := hoptions
    simp only [List.mem_singleton, exists_eq_left]
    exact Dimension.met_ofCode_iff hdomain hquery (hmentioned v (List.mem_singleton_self v)) hcode
  | many vs =>
    -- No alternatives ask nothing; the alternatives of some are met one by one.
    cases vs with
    | nil =>
      obtain rfl := Except.ok.inj hoptions
      simp [Satisfied, Cell.met_any]
    | cons v vs =>
      simp only [Axis.options, bind_eq_ok_iff, pure_eq_ok_iff] at hoptions
      obtain ⟨own, hown, rfl⟩ := hoptions
      rw [Dimension.exists_met_ofCode_iff hdomain hquery hmentioned hown]
      by_cases hwild : query.values = []
      · simp [Satisfied, Constraint.values, hwild]
      · simp [Satisfied, Constraint.values, hwild]
  | set vs inclusive =>
    simp only [Axis.options, bind_eq_ok_iff, pure_eq_ok_iff] at hoptions
    obtain ⟨bits, hbits, rfl⟩ := hoptions
    simp only [List.mem_singleton, exists_eq_left]
    exact Dimension.met_set_iff hdomain hquery hmentioned hbits

end Fitted

/-- A query meets a cell of a rule on every dimension exactly if it satisfies the rule. -/
theorem Rule.exists_cells_met_iff_satisfied {dimensions : List Dimension} {rules : List (Rule α)}
    {entries : List (Entry α)}
    (hcoded : (Space.fit dimensions rules).entries rules = .ok entries)
    (hsize : ∀ rule ∈ rules, rule.constraints.length = (Space.fit dimensions rules).size)
    (hdomain : ∀ dimension ∈ dimensions, dimension.domain.isBuiltIn = true)
    {query : List QueryValue} {coded : CodedQuery}
    (hquery : (Space.fit dimensions rules).encode query = .ok coded)
    {rule : Rule α} (hrule : rule ∈ rules) :
    (∀ (d : Nat) (axis : Axis), (Space.fit dimensions rules).axes[d]? = some axis →
      ∃ cells, axis.options (rule.constraints.getD d .any) = .ok cells ∧
        ∃ cell ∈ cells, cell.Met ((Space.fit dimensions rules).operation d) (coded.codesAt d)) ↔
      rule.Satisfied dimensions query := by
  obtain ⟨_, _, hcodes⟩ := Space.encode_eq_ok_iff.1 hquery
  have hiff (d : Nat) (hd : d < dimensions.length) {cells : List Cell}
      (hcells : (dimensions[d].fit (Rule.valuesAt rules d)).options
        (rule.constraints.getD d .any) = .ok cells) :
      (∃ cell ∈ cells, cell.Met ((Space.fit dimensions rules).operation d) (coded.codesAt d)) ↔
        (rule.constraints.getD d .any).Satisfied dimensions[d] (query.getD d .wildcard) := by
    rw [Space.operation_fit hd]
    refine Constraint.exists_met_iff_satisfied (hdomain _ (List.getElem_mem hd)) ?_ hcells ?_
    · intro v hv
      exact List.mem_flatMap.2 ⟨rule, hrule, hv⟩
    · apply hcodes d
      exact Space.getElem?_axes_fit_eq_some_iff.2 ⟨hd, rfl⟩
  constructor
  · intro hall d hd
    obtain ⟨cells, hcells, hmet⟩ := hall d _ (Space.getElem?_axes_fit_eq_some_iff.2 ⟨hd, rfl⟩)
    exact (hiff d hd hcells).1 hmet
  · intro hall d axis haxis
    obtain ⟨cells, hcells⟩ := Space.exists_cells hcoded hsize hrule haxis
    obtain ⟨hd, rfl⟩ := Space.getElem?_axes_fit_eq_some_iff.1 haxis
    exact ⟨cells, hcells, (hiff d hd hcells).2 (hall d hd)⟩


/-! ## Searching a built index -/

namespace Index

variable [DecidableEq α] {dimensions : List Dimension} {rules : List (Rule α)}

/-- A search over built-in domains finds the payloads of the rules that the query satisfies. -/
theorem Represents.mem_findCoded_iff_satisfied {index : Index α} {entries : List (Entry α)}
    (h : index.Represents dimensions rules entries)
    (hdomain : ∀ dimension ∈ dimensions, dimension.domain.isBuiltIn = true)
    {query : List QueryValue} {coded : CodedQuery} (hquery : index.encode query = .ok coded)
    {p : α} : p ∈ index.findCoded coded ↔
      ∃ rule ∈ rules, rule.payload = p ∧ rule.Satisfied dimensions query := by
  have hsize : ∀ rule ∈ rules, rule.constraints.length = (Space.fit dimensions rules).size :=
    fun rule hrule => h.length_constraints hrule
  have hscan : Entry.Found entries index.space coded (List.range dimensions.length) p ↔
      ∃ entry ∈ entries, entry.payload = p ∧ ∀ d < (Space.fit dimensions rules).size,
        (entry.cell d).Met ((Space.fit dimensions rules).operation d) (coded.codesAt d) := by
    simp only [Entry.Found, Entry.MetOn, List.mem_range, h.space, Space.size_fit]
  rw [encode, h.space] at hquery
  rw [findCoded, List.mem_eraseDups, h.grown.mem_find_iff, hscan,
    Space.exists_entry_iff h.coded hsize]
  refine exists_congr fun rule => and_congr_right fun hrule => and_congr_right fun _ => ?_
  exact Rule.exists_cells_met_iff_satisfied h.coded hsize hdomain hquery hrule

theorem mem_iff_satisfied_of_find {built : Logged (Index α)}
    (h : build dimensions rules = .ok built)
    (hdomain : ∀ dimension ∈ dimensions, dimension.domain.isBuiltIn = true)
    {query : List QueryValue} {found : List α} (hfind : built.value.find query = .ok found)
    {p : α} : p ∈ found ↔ ∃ rule ∈ rules, rule.payload = p ∧ rule.Satisfied dimensions query := by
  obtain ⟨entries, hrep⟩ := exists_represents h
  obtain ⟨coded, hquery, rfl⟩ := find_eq_ok_iff.1 hfind
  exact hrep.mem_findCoded_iff_satisfied hdomain hquery

/-- Every query that can be coded finds exactly the payloads of the rules that it satisfies. -/
theorem find_eq_satisfied {built : Logged (Index α)} (h : build dimensions rules = .ok built)
    (hdomain : ∀ dimension ∈ dimensions, dimension.domain.isBuiltIn = true)
    {query : List QueryValue} {coded : CodedQuery} (hquery : built.value.encode query = .ok coded) :
    ∃ found, built.value.find query = .ok found ∧ found.Nodup ∧
      ∀ p, p ∈ found ↔ ∃ rule ∈ rules, rule.payload = p ∧ rule.Satisfied dimensions query := by
  have hfind := find_eq_ok hquery
  refine ⟨_, hfind, nodup_eraseDups _, fun p => ?_⟩
  exact mem_iff_satisfied_of_find h hdomain hfind

/-- One of two colors is enough, and so is a name in other letters. -/
theorem find_sample : ∃ built found, build Sample.dimensions Sample.rules = .ok built ∧
    built.value.find Sample.query = .ok found ∧
    ∀ p ∈ ["small", "large", "tagged", "abroad"], p ∈ found ↔ p = "large" ∨ p = "tagged" := by
  obtain ⟨built, h⟩ := Sample.exists_build
  obtain ⟨coded, hcoded⟩ := Sample.exists_encode h
  obtain ⟨found, hfound, _, hmem⟩ := find_eq_satisfied h (by decide) hcoded
  refine ⟨built, found, h, hfound, ?_⟩
  simp only [hmem]
  decide

end Index
end RuleIndex
