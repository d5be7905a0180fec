-- SUMMARY: Rendering of codes: the written form of a code tells the value that was encoded, or the gap that it fell into.
import RuleIndex.Proofs.CodeOrder

/-!
# Rendering of codes

The code of a text is written as the text, and the code of a declared name in its first spelling.
The code of an integer is written as the integer if it is known. Otherwise the parity of the code
tells that it stands for a gap, and its half at which place of the dictionary, so that the known
integers on both sides can be written (`Codec.writtenAmong`).

`Domain.render_undoes_encode` collects these facts.
-/

namespace RuleIndex

/-! ## Neighbours in an ascending list -/

namespace Ascending

variable {β : Type} [LT β] [DecidableLT β] [LE β] [Std.IsLinearOrder β] [Std.LawfulOrderLT β]
  {l : List β} {a b : β}

theorem getElem_le_getElem (h : l.Pairwise (· < ·)) {i j : Nat} (hi : i < l.length)
    (hj : j < l.length) (hij : i ≤ j) : l[i] ≤ l[j] := by
  refine Std.not_lt.1 fun hlt => ?_
  rw [getElem_lt_iff h hj, below_getElem h hi] at hlt
  exact Nat.not_lt.2 hij hlt

/-- The elements above one that is missing begin at its place. -/
theorem lt_getElem_iff (h : l.Pairwise (· < ·)) (ha : a ∉ l) {i : Nat} (hi : i < l.length) :
    a < l[i] ↔ below a l ≤ i := by
  have hne : l[i] ≠ a := fun heq => ha (heq ▸ List.getElem_mem hi)
  rw [← Nat.not_lt, ← getElem_lt_iff h hi, Std.not_lt]
  exact ⟨Std.le_of_lt, fun hle => Std.lt_of_le_of_ne hle hne.symm⟩

/-- The place of a missing element is taken by the next one above it. -/
theorem next_eq_some_iff (h : l.Pairwise (· < ·)) (ha : a ∉ l) :
    l[below a l]? = some b ↔ b ∈ l ∧ a < b ∧ ∀ c ∈ l, a < c → b ≤ c := by
  constructor
  · intro hb
    obtain ⟨hi, rfl⟩ := List.getElem?_eq_some_iff.1 hb
    refine ⟨List.getElem_mem hi, (lt_getElem_iff h ha hi).2 (Nat.le_refl _), fun c hc hac => ?_⟩
    obtain ⟨j, hj, rfl⟩ := List.mem_iff_getElem.1 hc
    exact getElem_le_getElem h hi hj ((lt_getElem_iff h ha hj).1 hac)
  · rintro ⟨hb, hab, hleast⟩
    obtain ⟨j, hj, rfl⟩ := List.mem_iff_getElem.1 hb
    have hplace := (lt_getElem_iff h ha hj).1 hab
    have hi : below a l < l.length := Nat.lt_of_le_of_lt hplace hj
    have hle := hleast _ (List.getElem_mem hi) ((lt_getElem_iff h ha hi).2 (Nat.le_refl _))
    rw [List.getElem?_eq_getElem hi, Std.le_antisymm (getElem_le_getElem h hi hj hplace) hle]

/-- The place before is taken by the next one below it. -/
theorem previous_eq_some_iff (h : l.Pairwise (· < ·)) {i : Nat} (hplace : below a l = i + 1) :
    l[i]? = some b ↔ b ∈ l ∧ b < a ∧ ∀ c ∈ l, c < a → c ≤ b := by
  have hlength : i < l.length := by
    have hle : below a l ≤ l.length := List.countP_le_length
    omega
  have hlt : l[i] < a := (getElem_lt_iff h hlength).2 (by omega)
  constructor
  · intro hb
    obtain ⟨hi, rfl⟩ := List.getElem?_eq_some_iff.1 hb
    refine ⟨List.getElem_mem hi, hlt, fun c hc hca => ?_⟩
    obtain ⟨j, hj, rfl⟩ := List.mem_iff_getElem.1 hc
    have hji := (getElem_lt_iff h hj).1 hca
    exact getElem_le_getElem h hj hi (by omega)
  · rintro ⟨hb, hba, hgreatest⟩
    obtain ⟨j, hj, rfl⟩ := List.mem_iff_getElem.1 hb
    have hji := (getElem_lt_iff h hj).1 hba
    have hle := hgreatest _ (List.getElem_mem hlength) hlt
    rw [List.getElem?_eq_getElem hlength,
      Std.le_antisymm hle (getElem_le_getElem h hj hlength (by omega))]

end Ascending


/-! ## Integers -/

namespace Codec

/-- The written form of the code of a value, if it has one. -/
def rendered (codec : Codec) (v : Value) : Option String :=
  (codec.encode v).map codec.render

/-- An integer that is among others is written in decimal. Another one is written as the gap
    between the greatest one below it and the least one above it, as far as there are such. -/
def writtenAmong (known : List Int) (n : Int) : String :=
  if n ∈ known then toString n
  else
    "(" ++ ((known.filter (· < n)).max?).elim "" toString ++ ".." ++
      ((known.filter (n < ·)).min?).elim "" toString ++ ")"

section Integers

variable {dictionary known : List Int} {n : Int}

theorem renderInteger_odd (dictionary : List Int) (place : Nat) :
    renderInteger dictionary (2 * place + 1) =
      (dictionary[place]?).elim (unnamed (2 * place + 1)) toString := by
  have hany : (2 * place + 1 : Int) ≠ anyCode := ne_anyCode_of_nonneg (by omega)
  have hcode : (2 * place + 1 : Int) = (2 * place + 1 : Nat) := by omega
  have hhalf : (2 * place + 1) / 2 = place := by omega
  have hodd : (2 * place + 1) % 2 = 1 := by omega
  rw [renderInteger, if_neg hany, hcode]
  simp only [Int.toNat?, hodd, hhalf, if_true]

theorem renderInteger_even (dictionary : List Int) (place : Nat) :
    renderInteger dictionary (2 * place) = renderGap dictionary place := by
  have hany : (2 * place : Int) ≠ anyCode := ne_anyCode_of_nonneg (by omega)
  have hcode : (2 * place : Int) = (2 * place : Nat) := by omega
  have hhalf : 2 * place / 2 = place := by omega
  have heven : ¬ 2 * place % 2 = 1 := by omega
  rw [renderInteger, if_neg hany, hcode]
  simp only [Int.toNat?, heven, hhalf, if_false]

theorem next_eq_min? (h : dictionary.Pairwise (· < ·)) (hknown : ∀ m, m ∈ dictionary ↔ m ∈ known)
    (hn : n ∉ dictionary) :
    dictionary[Ascending.below n dictionary]? = (known.filter (n < ·)).min? := by
  ext m
  rw [Ascending.next_eq_some_iff h hn, List.min?_eq_some_iff]
  simp only [List.mem_filter, decide_eq_true_eq, hknown, and_assoc, and_imp]

theorem previous_eq_max? (h : dictionary.Pairwise (· < ·))
    (hknown : ∀ m, m ∈ dictionary ↔ m ∈ known) {i : Nat}
    (hplace : Ascending.below n dictionary = i + 1) :
    dictionary[i]? = (known.filter (· < n)).max? := by
  ext m
  rw [Ascending.previous_eq_some_iff h hplace, List.max?_eq_some_iff]
  simp only [List.mem_filter, decide_eq_true_eq, hknown, and_assoc, and_imp]

/-- The code of an integer tells whether it is known, and which ones are next to it. -/
theorem renderInteger_integerCode (h : dictionary.Pairwise (· < ·))
    (hknown : ∀ m, m ∈ dictionary ↔ m ∈ known) (n : Int) :
    renderInteger dictionary (integerCode dictionary n) = writtenAmong known n := by
  by_cases hn : n ∈ dictionary
  · rw [integerCode_of_mem hn, renderInteger_odd, (Ascending.getElem?_below_eq_some_iff h).2 hn,
      writtenAmong, if_pos ((hknown n).1 hn), Option.elim_some]
  · rw [integerCode_of_not_mem hn, renderInteger_even, writtenAmong, if_neg (hn ∘ (hknown n).2),
      ← next_eq_min? h hknown hn]
    cases hplace : Ascending.below n dictionary with
    | zero =>
      have hnone : known.filter (· < n) = [] := by
        refine List.filter_eq_nil_iff.2 fun m hm => ?_
        exact List.countP_eq_zero.1 hplace m ((hknown m).2 hm)
      rw [hnone]
      rfl
    | succ i =>
      rw [← previous_eq_max? h hknown hplace]
      rfl

end Integers


/-! ## Names -/

section Names

variable {names : List String} {s : String}

theorem nameIn_of_getElem? {i : Nat} (h : names[i]? = some s) : nameIn names i = s := by
  rw [nameIn, if_neg (ne_anyCode_of_nonneg (Int.natCast_nonneg i))]
  exact congrArg (·.getD (unnamed i)) h

/-- The code of a text is written as the text. -/
theorem rendered_ofTexts (h : names.Pairwise (· < ·)) (s : String) :
    (ofTexts names).rendered (.text s) = if s ∈ names then some s else none := by
  by_cases hs : s ∈ names
  · have hcode : (ofTexts names).encode (.text s) = some (Ascending.below s names : Int) :=
      encode_text_eq_some_iff.2 ⟨hs, rfl⟩
    rw [rendered, hcode, Option.map_some, if_pos hs]
    exact congrArg some (nameIn_of_getElem? ((Ascending.getElem?_below_eq_some_iff h).2 hs))
  · have hcode : (ofTexts names).encode (.text s) = none := if_neg hs
    rw [rendered, hcode, if_neg hs, Option.map_none]

/-- The code of a text is written as the first name in the same letters. -/
theorem rendered_variants (names : List String) (s : String) :
    (variants names).rendered (.text s) = names.find? (sameLetters s) := by
  have hrendered : (variants names).rendered (.text s) =
      (names.findIdx? (sameLetters s)).map fun i : Nat => nameIn names i := by
    rw [rendered, variants, Option.map_map]
    rfl
  rw [hrendered, List.find?_eq_bind_findIdx?_getElem?]
  cases hplace : names.findIdx? (sameLetters s) with
  | none => rfl
  | some i =>
    obtain ⟨hi, _⟩ := List.findIdx?_eq_some_iff_getElem.1 hplace
    have hname : names[i]? = some names[i] := List.getElem?_eq_getElem hi
    rw [Option.map_some, Option.bind_some, hname, nameIn_of_getElem? hname]

/-- Every code of a text is the code of what is written for it. -/
theorem encode_render_ofTexts (h : names.Pairwise (· < ·)) {code : Int} (hnonneg : 0 ≤ code)
    (hlt : code < (ofTexts names).capacity) :
    (ofTexts names).encode (.text ((ofTexts names).render code)) = some code := by
  obtain ⟨s, hcode⟩ := (exists_encode_text_iff h).2 ⟨hnonneg, hlt⟩
  obtain ⟨hs, rfl⟩ := encode_text_eq_some_iff.1 hcode
  have hname : (ofTexts names).render (Ascending.below s names) = s :=
    nameIn_of_getElem? ((Ascending.getElem?_below_eq_some_iff h).2 hs)
  rw [hname, hcode]

/-- Every code of a declared name is the code of what is written for it, although this need not
    be what was encoded. -/
theorem encode_render_variants {v : Value} {code : Int}
    (h : (variants names).encode v = some code) :
    (variants names).encode (.text ((variants names).render code)) = some code := by
  obtain ⟨s, rfl, i, hplace, rfl⟩ := encode_variants_eq_some_iff.1 h
  obtain ⟨hi, hsame, _⟩ := List.findIdx?_eq_some_iff_getElem.1 hplace
  have hname : (variants names).render i = names[i] :=
    nameIn_of_getElem? (List.getElem?_eq_getElem hi)
  rw [hname, encode_variants_eq_some_iff]
  exact ⟨names[i], rfl, i, sameLetters_congr hsame ▸ hplace, rfl⟩

end Names

end Codec


/-! ## Domains -/

namespace Domain

/-- The code of a known text is written as the text, that of a declared name as the first name in
    the same letters, and encoding what is written yields the code again. The code of an integer is
    written as the integer if it is known, and else as the gap between the known ones around it. -/
theorem render_undoes_encode (values : List Value) (names : List String) :
    (∀ s, (text.codec values).rendered (.text s) = if .text s ∈ values then some s else none) ∧
    (∀ code : Int, 0 ≤ code → code < (text.codec values).capacity →
      (text.codec values).encode (.text ((text.codec values).render code)) = some code) ∧
    (∀ n, (integer.codec values).rendered (.integer n) =
      some (Codec.writtenAmong (values.filterMap Value.integer?) n.toInt)) ∧
    (∀ s, ((variants names).codec values).rendered (.text s) =
      names.find? (Codec.sameLetters s)) ∧
    (∀ v code, ((variants names).codec values).encode v = some code →
      ((variants names).codec values).encode
        (.text (((variants names).codec values).render code)) = some code) := by
  have htexts := Ascending.pairwise_ofList (values.filterMap Value.text?)
  have hintegers := Ascending.pairwise_ofList (values.filterMap Value.integer?)
  refine ⟨fun s => ?_, fun code => ?_, fun n => ?_, fun s => ?_, fun v code => ?_⟩
  · rw [codec, Codec.text, Codec.rendered_ofTexts htexts]
    simp only [Ascending.mem_ofList, Value.mem_texts_iff]
  · exact Codec.encode_render_ofTexts htexts
  · exact congrArg some
      (Codec.renderInteger_integerCode hintegers (fun _ => Ascending.mem_ofList) n.toInt)
  · exact Codec.rendered_variants names s
  · exact Codec.encode_render_variants

/-- Repetitions leave no trace, and neither do other kinds. Gaps below and above all known
    integers are open on one side, and a name declared twice stands for its first place. -/
theorem render_undoes_encode_sample :
    let values := [Value.integer 20, .text "b", .integer (-10), .text "a", .integer 20, .text "b"]
    let names := ["low", "LOW", "high"]
    (text.codec values).rendered (.text "b") = some "b" ∧
      (text.codec values).encode (.text ((text.codec values).render 1)) = some 1 ∧
      (integer.codec values).rendered (.integer (-11)) = some "(..-10)" ∧
      (integer.codec values).rendered (.integer 15) = some "(-10..20)" ∧
      (integer.codec values).rendered (.integer 20) = some "20" ∧
      (integer.codec values).rendered (.integer 21) = some "(20..)" ∧
      ((variants names).codec values).rendered (.text "Low") = some "low" ∧
      ((variants names).codec values).encode
        (.text (((variants names).codec values).render 0)) = some 0 := by
  intro values names
  obtain ⟨htext, hcode, hinteger, hname, hvariant⟩ := render_undoes_encode values names
  refine ⟨htext "b", hcode 1 (by decide) (by decide), hinteger (-11), hinteger 15, hinteger 20,
    hinteger 21, hname "Low", hvariant (.text "Low") 0 rfl⟩

end Domain
end RuleIndex
