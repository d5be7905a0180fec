-- SUMMARY: The order of codes: the codes of integers and of texts stand in the order of their values, whatever was learned before.
import Mathlib.Data.Finset.Card
import RuleIndex.Proofs.Dictionaries

/-!
# The order of codes

The codes of texts are their ranks among the texts that are known. Integers have codes whether
they are known or not: each known one has a code of its own, and those of a gap between known ones
share one. In both domains the order of codes is the order of values.

`Dictionary.codes_embed_order` says so of a dimension in use, and that nothing else shows in its
codes than which values of its kind were in the last list that it was given.
-/

namespace RuleIndex

theorem Ascending.length_ofList {β : Type} [LT β] [DecidableLT β] [LE β] [Std.IsLinearOrder β]
    [Std.LawfulOrderLT β] [DecidableEq β] (l : List β) : (ofList l).length = l.toFinset.card := by
  have hsame : (ofList l).toFinset = l.toFinset := by
    ext b
    rw [List.mem_toFinset, List.mem_toFinset, mem_ofList]
  rw [← hsame, List.toFinset_card_of_nodup (nodup_ofList l)]

namespace Codec

/-! ## Integers -/

section Integers

variable {dictionary : List Int} {n m : Int}

theorem integerCode_of_mem (h : n ∈ dictionary) :
    integerCode dictionary n = 2 * Ascending.below n dictionary + 1 := by
  rw [integerCode, if_pos h]

theorem integerCode_of_not_mem (h : n ∉ dictionary) :
    integerCode dictionary n = 2 * Ascending.below n dictionary := by
  rw [integerCode, if_neg h, Int.add_zero]

theorem integerCode_odd_iff : integerCode dictionary n % 2 = 1 ↔ n ∈ dictionary := by
  by_cases hn : n ∈ dictionary
  · rw [integerCode_of_mem hn]
    exact iff_of_true (by omega) hn
  · rw [integerCode_of_not_mem hn]
    exact iff_of_false (by omega) hn

theorem integerCode_le (h : n < m) : integerCode dictionary n ≤ integerCode dictionary m := by
  have hle : 2 * (Ascending.below m dictionary : Int) ≤ integerCode dictionary m := by
    unfold integerCode
    split <;> omega
  by_cases hn : n ∈ dictionary
  · -- The place of `m` is a later one, which makes up for the odd code of `n`.
    have hlt := Ascending.below_lt_below h hn
    rw [integerCode_of_mem hn]
    omega
  · have hplace := Ascending.below_le_below (Int.le_of_lt h) dictionary
    rw [integerCode_of_not_mem hn]
    omega

/-- Two integers share a code if they are in the same gap. -/
theorem integerCode_eq_iff_of_lt (h : n < m) :
    integerCode dictionary n = integerCode dictionary m ↔
      n ∉ dictionary ∧ m ∉ dictionary ∧ ∀ k, n < k → k < m → k ∉ dictionary := by
  by_cases hn : n ∈ dictionary
  · rw [integerCode_eq_iff hn]
    exact iff_of_false (Int.ne_of_lt h) fun hgap => hgap.1 hn
  by_cases hm : m ∈ dictionary
  · rw [eq_comm, integerCode_eq_iff hm]
    exact iff_of_false (Int.ne_of_gt h) fun hgap => hgap.2.1 hm
  have hbelow : integerCode dictionary n = integerCode dictionary m ↔
      Ascending.below n dictionary = Ascending.below m dictionary := by
    rw [integerCode_of_not_mem hn, integerCode_of_not_mem hm]
    omega
  rw [hbelow, Ascending.below_eq_below_iff (Int.le_of_lt h)]
  constructor
  · intro hnone
    exact ⟨hn, hm, fun k hnk hkm hk => Int.lt_asymm hnk (hnone k hk hkm)⟩
  · rintro ⟨_, _, hgap⟩ k hk hkm
    have hne : k ≠ n := fun heq => hn (heq ▸ hk)
    have hnot : ¬ n < k := fun hnk => hgap k hnk hkm hk
    omega

end Integers

/-- The codes of integers stand in the order of integers. Those of known ones are odd and are
    shared with no other, and other integers share theirs if nothing known is between them. -/
structure NumbersIntegers (codec : Codec) (known : List Value) : Prop where
  total (n : Int64) : ∃ code, codec.encode (.integer n) = some code
  odd_iff {n : Int64} {code : Int} (h : codec.encode (.integer n) = some code) :
    code % 2 = 1 ↔ .integer n ∈ known
  le {a b : Int64} {code code' : Int} (h : codec.encode (.integer a) = some code)
    (h' : codec.encode (.integer b) = some code') (hlt : a < b) : code ≤ code'
  eq_iff {a b : Int64} {code code' : Int} (h : codec.encode (.integer a) = some code)
    (h' : codec.encode (.integer b) = some code') (hlt : a < b) :
    code = code' ↔ .integer a ∉ known ∧ .integer b ∉ known ∧
      ∀ n, a < n → n < b → .integer n ∉ known

theorem integer_numbersIntegers (values : List Value) :
    (integer values).NumbersIntegers values := by
  have hmem (n : Int64) : n.toInt ∈ Ascending.ofList (values.filterMap Value.integer?) ↔
      .integer n ∈ values := by
    rw [Ascending.mem_ofList, Value.toInt_mem_integers_iff]
  constructor
  case total =>
    intro n
    exact ⟨_, rfl⟩
  case odd_iff =>
    intro n code h
    rw [← Option.some.inj h, integerCode_odd_iff, hmem]
  case le =>
    intro a b code code' h h' hlt
    rw [← Option.some.inj h, ← Option.some.inj h']
    exact integerCode_le (Int64.lt_iff_toInt_lt.1 hlt)
  case eq_iff =>
    intro a b code code' h h' hlt
    rw [← Option.some.inj h, ← Option.some.inj h',
      integerCode_eq_iff_of_lt (Int64.lt_iff_toInt_lt.1 hlt), hmem, hmem]
    refine and_congr_right' (and_congr_right' ⟨?_, ?_⟩)
    · intro hgap n han hnb
      rw [← hmem]
      exact hgap _ (Int64.lt_iff_toInt_lt.1 han) (Int64.lt_iff_toInt_lt.1 hnb)
    · intro hgap k hak hkb hk
      obtain ⟨n, hn, rfl⟩ := Value.mem_integers_iff.1 (Ascending.mem_ofList.1 hk)
      exact hgap n (Int64.lt_iff_toInt_lt.2 hak) (Int64.lt_iff_toInt_lt.2 hkb) hn


/-! ## Texts -/

/-- The codes of texts are their ranks among the known ones, by code points. -/
structure NumbersTexts (codec : Codec) (known : List Value) : Prop where
  known_iff (s : String) : (∃ code, codec.encode (.text s) = some code) ↔ .text s ∈ known
  lt_iff {s t : String} {code code' : Int} (h : codec.encode (.text s) = some code)
    (h' : codec.encode (.text t) = some code') : code < code' ↔ s < t
  range_iff (code : Int) :
    (∃ s, codec.encode (.text s) = some code) ↔ 0 ≤ code ∧ code < codec.capacity
  capacity_eq : codec.capacity = (known.filterMap Value.text?).toFinset.card

section Texts

variable {dictionary : List String} {s : String} {code : Int}

theorem encode_text_eq_some_iff : (ofTexts dictionary).encode (.text s) = some code ↔
    s ∈ dictionary ∧ (Ascending.below s dictionary : Int) = code := by
  simp [ofTexts]

/-- Every place in an ascending dictionary is the code of the text that stands there. -/
theorem exists_encode_text_iff (h : dictionary.Pairwise (· < ·)) :
    (∃ s, (ofTexts dictionary).encode (.text s) = some code) ↔
      0 ≤ code ∧ code < dictionary.length := by
  constructor
  · rintro ⟨s, hcode⟩
    obtain ⟨hs, rfl⟩ := encode_text_eq_some_iff.1 hcode
    exact ⟨Int.natCast_nonneg _, Int.ofNat_lt.2 (Ascending.below_lt_length hs)⟩
  · rintro ⟨hnonneg, hlt⟩
    obtain ⟨i, rfl⟩ := Int.eq_ofNat_of_zero_le hnonneg
    have hi : i < dictionary.length := Int.ofNat_lt.1 hlt
    refine ⟨dictionary[i], encode_text_eq_some_iff.2 ⟨List.getElem_mem hi, ?_⟩⟩
    rw [Ascending.below_getElem h hi]

end Texts

theorem text_numbersTexts (values : List Value) : (text values).NumbersTexts values := by
  constructor
  case known_iff =>
    intro s
    simp only [text, encode_text_eq_some_iff, exists_and_left, exists_eq', and_true,
      Ascending.mem_ofList, Value.mem_texts_iff]
  case lt_iff =>
    intro s t code code' h h'
    obtain ⟨hs, rfl⟩ := encode_text_eq_some_iff.1 h
    obtain ⟨_, rfl⟩ := encode_text_eq_some_iff.1 h'
    rw [Int.ofNat_lt, Ascending.below_lt_below_iff hs]
  case range_iff =>
    intro code
    exact exists_encode_text_iff (Ascending.pairwise_ofList _)
  case capacity_eq => exact Ascending.length_ofList _

end Codec


/-! ## Dimensions in use -/

namespace Dictionary

/-- Whatever was learned before, the codes of integers and of texts stand in the order of their
    values, and they depend on the last list alone, and there on which values of the kind are
    mentioned. The latter is assumed of a numbering that the caller provides. -/
theorem codes_embed_order (earlier : List (List Value)) (values : List Value) :
    (learnAll .integer (earlier ++ [values])).codec.NumbersIntegers values ∧
    (learnAll .text (earlier ++ [values])).codec.NumbersTexts values ∧
    ∀ domain : Domain,
      (learnAll domain (earlier ++ [values])).codec = domain.codec values ∧
      (domain.Respects SameValues → ∀ (earlier' : List (List Value)) (values' : List Value),
        (∀ v, domain.Learns v → (v ∈ values ↔ v ∈ values')) →
          (learnAll domain (earlier ++ [values])).codec =
            (learnAll domain (earlier' ++ [values'])).codec) := by
  have hlast (domain : Domain) (earlier : List (List Value)) (values : List Value) :
      (learnAll domain (earlier ++ [values])).codec = domain.codec values := by
    rw [codec_learnAll, List.getLast?_concat, Option.getD_some]
  simp only [hlast]
  refine ⟨Codec.integer_numbersIntegers values, Codec.text_numbersTexts values, fun domain => ?_⟩
  refine ⟨trivial, fun hrespects _ values' hsame => ?_⟩
  exact domain.codec_congr_of_learns hrespects hsame

/-- Nothing is left of 15 and 19 once 10 and 20 are known in their place. They share the code of
    the gap, and the known ones might have been given in another order and among others. -/
theorem codes_embed_order_sample :
    let values := [Value.integer 20, .text "b", .integer 10, .integer 20]
    let codec := (learnAll .integer ([[.integer 15], [.integer 19]] ++ [values])).codec
    codec.encode (.integer 15) = some 2 ∧ codec.encode (.integer 19) = some 2 ∧
      .integer 15 ∉ values ∧ .integer 19 ∉ values ∧
      (∀ n, 15 < n → n < 19 → .integer n ∉ values) ∧
      codec = (learnAll .integer ([] ++ [[.integer 10, .bool true, .integer 20]])).codec := by
  intro values codec
  obtain ⟨hnumbers, _, hlast⟩ := codes_embed_order [[.integer 15], [.integer 19]] values
  obtain ⟨hcodec, hsame⟩ := hlast .integer
  have h15 : codec.encode (.integer 15) = some 2 := congrArg (·.encode (.integer 15)) hcodec
  have h19 : codec.encode (.integer 19) = some 2 := congrArg (·.encode (.integer 19)) hcodec
  have hgap := (hnumbers.eq_iff h15 h19 (by decide)).1 rfl
  refine ⟨h15, h19, hgap.1, hgap.2.1, hgap.2.2, hsame trivial [] _ fun v hv => ?_⟩
  cases v with
  | integer n => grind
  | bool b => cases hv
  | text s => cases hv

end Dictionary
end RuleIndex
