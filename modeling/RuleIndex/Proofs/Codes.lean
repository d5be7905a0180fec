-- SUMMARY: Codes of values: in the built-in domains, codes tell values apart from those that the rules mention.
import Mathlib.Data.List.Sort
import RuleIndex.Dimension
import RuleIndex.Proofs.Traversal

/-!
# Codes of values

A search compares codes only. This is as good as comparing values, because one of the two
always comes from a rule: an integer that no rule mentions shares its code with others of its
gap, but never with one that a rule mentions (`Domain.encode_eq_iff`). Names of a declared
domain are the same up to the case of their letters.

A numbering depends on which values the rules mention, and neither on their order nor on how
often they are mentioned (`Domain.codec_congr`). Of a numbering that the caller provides this is
an assumption, `Domain.Respects`: it may number by whatever it was shown first.
-/

namespace RuleIndex

/-! ## What a numbering depends on -/

theorem Ascending.ofList_congr {β : Type} [LT β] [DecidableLT β] [LE β] [Std.IsLinearOrder β]
    [Std.LawfulOrderLT β] {l l' : List β} (h : ∀ b, b ∈ l ↔ b ∈ l') : ofList l = ofList l' := by
  refine (pairwise_ofList l).eq_of_mem_iff (pairwise_ofList l') fun b => ?_
  rw [mem_ofList, mem_ofList, h]

/-- The lists mention the same values, in any order and any number of times. -/
def SameValues (values values' : List Value) : Prop :=
  ∀ v, v ∈ values ↔ v ∈ values'

theorem SameValues.of_perm {values values' : List Value} (h : values.Perm values') :
    SameValues values values' :=
  fun _ => h.mem_iff

namespace Value

variable {values : List Value}

theorem mem_texts_iff {s : String} : s ∈ values.filterMap text? ↔ .text s ∈ values := by
  rw [List.mem_filterMap]
  constructor
  · rintro ⟨v, hv, hs⟩
    cases v with
    | text t => exact Option.some.inj hs ▸ hv
    | bool b => cases hs
    | integer n => cases hs
  · exact fun hs => ⟨_, hs, rfl⟩

theorem mem_integers_iff {m : Int} :
    m ∈ values.filterMap integer? ↔ ∃ n, .integer n ∈ values ∧ n.toInt = m := by
  rw [List.mem_filterMap]
  constructor
  · rintro ⟨v, hv, hm⟩
    cases v with
    | integer n => exact ⟨n, hv, Option.some.inj hm⟩
    | bool b => cases hm
    | text s => cases hm
  · rintro ⟨n, hn, rfl⟩
    exact ⟨_, hn, rfl⟩

theorem toInt_mem_integers_iff {n : Int64} :
    n.toInt ∈ values.filterMap integer? ↔ .integer n ∈ values := by
  simp only [mem_integers_iff, Int64.toInt_inj, exists_eq_right]

end Value

namespace Domain

/-- Whether it matters to the numbering that a value is mentioned. Texts and integers are numbered
    by a dictionary of their own kind. -/
def Learns : Domain → Value → Prop
  | .text, .text _ => True
  | .integer, .integer _ => True
  | .provided init, v => ∃ values, init (v :: values) ≠ init values
  | _, _ => False

/-- Whether a numbering that the caller provides is the same for lists of values that are
    `related`. The library's own numberings are not restricted. -/
def Respects (related : List Value → List Value → Prop) : Domain → Prop
  | .provided init => ∀ values values', related values values' → init values = init values'
  | _ => True

theorem Respects.mono {related related' : List Value → List Value → Prop} {domain : Domain}
    (hrespects : domain.Respects related) (h : ∀ values values', related' values values' →
      related values values') : domain.Respects related' := by
  cases domain with
  | provided init => exact fun values values' h' => hrespects values values' (h values values' h')
  | text | integer | bool | variants => trivial

/-- A provided numbering does not change with values that are there already or do not matter. -/
theorem init_append {init : List Value → Codec} (h : (Domain.provided init).Respects SameValues)
    {values extra : List Value}
    (hextra : ∀ v ∈ extra, (Domain.provided init).Learns v → v ∈ values) :
    init (extra ++ values) = init values := by
  induction extra with
  | nil => rfl
  | cons v extra ih =>
    rw [List.forall_mem_cons] at hextra
    rw [List.cons_append, ← ih hextra.2]
    by_cases hv : (Domain.provided init).Learns v
    · apply h
      intro w
      simp only [List.mem_cons, List.mem_append]
      have hmem := hextra.1 hv
      constructor
      · rintro (rfl | hw)
        · exact .inr hmem
        · exact hw
      · exact .inr
    · exact Classical.not_not.1 fun hne => hv ⟨_, hne⟩

/-- The same values of the kind that matters yield the same numbering. -/
theorem codec_congr_of_learns (domain : Domain) (hrespects : domain.Respects SameValues)
    {values values' : List Value} (h : ∀ v, domain.Learns v → (v ∈ values ↔ v ∈ values')) :
    domain.codec values = domain.codec values' := by
  cases domain with
  | text =>
    have hmem (s : String) :
        s ∈ values.filterMap Value.text? ↔ s ∈ values'.filterMap Value.text? := by
      rw [Value.mem_texts_iff, Value.mem_texts_iff, h (.text s) trivial]
    simp only [codec, Codec.text, Ascending.ofList_congr hmem]
  | integer =>
    have hmem (m : Int) :
        m ∈ values.filterMap Value.integer? ↔ m ∈ values'.filterMap Value.integer? := by
      rw [Value.mem_integers_iff, Value.mem_integers_iff]
      exact exists_congr fun n => and_congr_left' (h (.integer n) trivial)
    simp only [codec, Codec.integer, Ascending.ofList_congr hmem]
  | bool => rfl
  | variants names => rfl
  | provided init =>
    have hswap : SameValues (values' ++ values) (values ++ values') := fun v => by
      simp only [List.mem_append, or_comm]
    calc init values
        _ = init (values' ++ values) := (init_append hrespects fun v hv hlearns =>
          (h v hlearns).2 hv).symm
        _ = init (values ++ values') := hrespects _ _ hswap
        _ = init values' := init_append hrespects fun v hv hlearns => (h v hlearns).1 hv

/-- Lists that differ in no value yield the same numbering, if a caller's own keeps to that. -/
theorem codec_congr (domain : Domain) {related : List Value → List Value → Prop}
    (hsame : ∀ values values', related values values' → SameValues values values')
    (hrespects : domain.Respects related) {values values' : List Value}
    (h : related values values') : domain.codec values = domain.codec values' := by
  have hlearned (hrespects : domain.Respects SameValues) :
      domain.codec values = domain.codec values' :=
    domain.codec_congr_of_learns hrespects fun v _ => hsame values values' h v
  cases domain with
  | provided init => exact hrespects values values' h
  | text | integer | bool | variants => exact hlearned trivial

end Domain


/-! ## What a codec encodes -/

namespace Codec

variable {v : Value} {code : Int}

theorem encode_ofTexts_eq_some_iff {dictionary : List String} :
    (ofTexts dictionary).encode v = some code ↔
      ∃ s ∈ dictionary, v = .text s ∧ (Ascending.below s dictionary : Int) = code := by
  cases v with
  | text s => simp [ofTexts]
  | bool b => simp [ofTexts]
  | integer n => simp [ofTexts]

theorem encode_ofIntegers_eq_some_iff {dictionary : List Int} :
    (ofIntegers dictionary).encode v = some code ↔
      ∃ n, v = .integer n ∧ integerCode dictionary n.toInt = code := by
  cases v with
  | text s => simp [ofIntegers]
  | bool b => simp [ofIntegers]
  | integer n => simp [ofIntegers]

theorem encode_bool_eq_some_iff :
    bool.encode v = some code ↔ ∃ b, v = .bool b ∧ (if b then 1 else 0) = code := by
  cases v with
  | text s => simp [bool]
  | bool b => simp [bool]
  | integer n => simp [bool]

theorem encode_variants_eq_some_iff {names : List String} :
    (variants names).encode v = some code ↔
      ∃ s, v = .text s ∧ ∃ i : Nat, names.findIdx? (sameLetters s) = some i ∧ (i : Int) = code := by
  cases v with
  | text s => simp [variants]
  | bool b => simp [variants]
  | integer n => simp [variants]


/-! ## Equal codes -/

theorem integerCode_nonneg (dictionary : List Int) (n : Int) : 0 ≤ integerCode dictionary n := by
  unfold integerCode
  split <;> omega

/-- The code of the gap above all entries is the greatest one. -/
theorem integerCode_lt (dictionary : List Int) (n : Int) :
    integerCode dictionary n < 2 * dictionary.length + 1 := by
  unfold integerCode
  split
  · next hn =>
    have hlt := Ascending.below_lt_length hn
    omega
  · have hle : Ascending.below n dictionary ≤ dictionary.length := List.countP_le_length
    omega

/-- The odd code of an entry is the code of no other integer. -/
theorem integerCode_eq_iff {dictionary : List Int} {n m : Int} (hn : n ∈ dictionary) :
    integerCode dictionary n = integerCode dictionary m ↔ n = m := by
  constructor
  · intro h
    simp only [integerCode, hn, if_true] at h
    by_cases hm : m ∈ dictionary
    · simp only [hm, if_true] at h
      exact (Ascending.below_inj hn hm).1 (by omega)
    · -- An odd code is the code of no gap.
      simp only [hm, if_false] at h
      omega
  · intro h
    rw [h]

theorem sameLetters_iff {s t : String} :
    sameLetters s t = true ↔ s.toList.map Char.toLower = t.toList.map Char.toLower := by
  simp [sameLetters]

/-- What has the same letters has them in common with the same texts. -/
theorem sameLetters_congr {s t : String} (h : sameLetters s t = true) :
    sameLetters s = sameLetters t := by
  funext name
  rw [Bool.eq_iff_iff, sameLetters_iff, sameLetters_iff, sameLetters_iff.1 h]

/-- Texts have one place in a list of names exactly if they have the same letters. -/
theorem findIdx?_sameLetters_eq_iff {names : List String} {s t : String} {i j : Nat}
    (hi : names.findIdx? (sameLetters s) = some i) (hj : names.findIdx? (sameLetters t) = some j) :
    i = j ↔ sameLetters s t = true := by
  constructor
  · intro h
    subst h
    obtain ⟨_, hs, _⟩ := List.findIdx?_eq_some_iff_getElem.1 hi
    obtain ⟨_, ht, _⟩ := List.findIdx?_eq_some_iff_getElem.1 hj
    rw [sameLetters_iff] at *
    exact hs.trans ht.symm
  · intro h
    rw [sameLetters_congr h, hj] at hi
    exact (Option.some.inj hi).symm

end Codec


/-! ## Built-in domains -/

/-- Whether two values are texts that are equal up to the case of letters. -/
def Value.sameLetters : Value → Value → Bool
  | .text s, .text t => Codec.sameLetters s t
  | _, _ => false

namespace Domain

/-- Whether the numbering of the domain is the library's own. -/
def isBuiltIn : Domain → Bool
  | .provided _ => false
  | _ => true

/-- Whether two values are one and the same to the domain. Names in other letters are. -/
def Same (domain : Domain) (v w : Value) : Prop :=
  match domain with
  | .variants _ => v.sameLetters w = true
  | _ => v = w

instance (domain : Domain) (v w : Value) : Decidable (domain.Same v w) :=
  match domain with
  | .variants _ => inferInstanceAs (Decidable (v.sameLetters w = true))
  | .text | .integer | .bool | .provided _ => inferInstanceAs (Decidable (v = w))

variable {domain : Domain} {values : List Value}

theorem encode_nonneg (h : domain.isBuiltIn = true) {v : Value} {code : Int}
    (hcode : (domain.codec values).encode v = some code) : 0 ≤ code := by
  cases domain with
  | text =>
    obtain ⟨s, _, rfl, rfl⟩ := Codec.encode_ofTexts_eq_some_iff.1 hcode
    exact Int.natCast_nonneg _
  | integer =>
    obtain ⟨n, rfl, rfl⟩ := Codec.encode_ofIntegers_eq_some_iff.1 hcode
    exact Codec.integerCode_nonneg _ _
  | bool =>
    obtain ⟨b, rfl, rfl⟩ := Codec.encode_bool_eq_some_iff.1 hcode
    cases b <;> decide
  | variants names =>
    obtain ⟨s, rfl, i, _, rfl⟩ := Codec.encode_variants_eq_some_iff.1 hcode
    exact Int.natCast_nonneg _
  | provided init => cases h

/-- The capacity of a built-in domain exceeds every code. -/
theorem encode_lt_capacity (h : domain.isBuiltIn = true) {v : Value} {code : Int}
    (hcode : (domain.codec values).encode v = some code) :
    code < (domain.codec values).capacity := by
  cases domain with
  | text =>
    obtain ⟨s, hs, rfl, rfl⟩ := Codec.encode_ofTexts_eq_some_iff.1 hcode
    exact Int.ofNat_lt.2 (Ascending.below_lt_length hs)
  | integer =>
    obtain ⟨n, rfl, rfl⟩ := Codec.encode_ofIntegers_eq_some_iff.1 hcode
    exact Codec.integerCode_lt _ _
  | bool =>
    obtain ⟨b, rfl, rfl⟩ := Codec.encode_bool_eq_some_iff.1 hcode
    have hcapacity : (Domain.bool.codec values).capacity = 2 := rfl
    rw [hcapacity]
    cases b <;> decide
  | variants names =>
    obtain ⟨s, rfl, i, hi, rfl⟩ := Codec.encode_variants_eq_some_iff.1 hcode
    obtain ⟨hlt, _⟩ := List.findIdx?_eq_some_iff_getElem.1 hi
    exact Int.ofNat_lt.2 hlt
  | provided init => cases h

/-- The code of a value that the rules mention is the code of that value alone. -/
theorem encode_eq_iff (h : domain.isBuiltIn = true) {v w : Value} {a b : Int} (hv : v ∈ values)
    (ha : (domain.codec values).encode v = some a) (hb : (domain.codec values).encode w = some b) :
    a = b ↔ domain.Same v w := by
  cases domain with
  | text =>
    obtain ⟨s, hs, rfl, rfl⟩ := Codec.encode_ofTexts_eq_some_iff.1 ha
    obtain ⟨t, ht, rfl, rfl⟩ := Codec.encode_ofTexts_eq_some_iff.1 hb
    rw [Int.natCast_inj, Ascending.below_inj hs ht]
    simp [Same]
  | integer =>
    obtain ⟨n, rfl, rfl⟩ := Codec.encode_ofIntegers_eq_some_iff.1 ha
    obtain ⟨m, rfl, rfl⟩ := Codec.encode_ofIntegers_eq_some_iff.1 hb
    have hn : n.toInt ∈ Ascending.ofList (values.filterMap Value.integer?) := by
      rwa [Ascending.mem_ofList, Value.toInt_mem_integers_iff]
    rw [Codec.integerCode_eq_iff hn, Int64.toInt_inj]
    simp [Same]
  | bool =>
    obtain ⟨x, rfl, rfl⟩ := Codec.encode_bool_eq_some_iff.1 ha
    obtain ⟨y, rfl, rfl⟩ := Codec.encode_bool_eq_some_iff.1 hb
    cases x <;> cases y <;> simp [Same]
  | variants names =>
    obtain ⟨s, rfl, i, hi, rfl⟩ := Codec.encode_variants_eq_some_iff.1 ha
    obtain ⟨t, rfl, j, hj, rfl⟩ := Codec.encode_variants_eq_some_iff.1 hb
    rw [Int.natCast_inj, Codec.findIdx?_sameLetters_eq_iff hi hj]
    rfl
  | provided init => cases h

end Domain
end RuleIndex
