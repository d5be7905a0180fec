-- SUMMARY: Dictionaries: what dimensions learn from one list of values after another, and the codes that a search by halving finds.
import Mathlib.Data.List.Destutter
import RuleIndex.Proofs.Codes

/-!
# Dictionaries

A dimension may be given values more than once. It then learns a new dictionary each time, by
sorting the values of its kind and dropping repetitions, and a value gets its code from a search
by halving. `Dictionary` spells this out as a state that `learn` replaces.

None of it shows in the codes (`Dictionary.codec_learnAll`): the last list of values decides, and
its numbering is `Domain.codec`, which speaks of neither a state nor a search. A numbering that the
caller provides starts anew from every list, too.
-/

namespace RuleIndex

/-! ## Sorting and searching -/

namespace Ascending

variable {α : Type}

/-- Sort, and drop every element that equals the one before it. -/
def sortDistinct [LE α] [DecidableLE α] [DecidableEq α] (l : List α) : List α :=
  (l.mergeSort fun a b => decide (a ≤ b)).destutter (· ≠ ·)

variable [LT α] [DecidableLT α]

/-- The place of `a` among the places from `lo` up to `hi`, halving them until none is left. -/
def bisect (a : α) (l : List α) (lo hi : Nat) : Nat :=
  if lo < hi then
    let middle := (lo + hi) / 2
    if (l[middle]?).any (· < a) then bisect a l (middle + 1) hi else bisect a l lo middle
  else lo
termination_by hi - lo

/-- The place where `a` is found, or else the place where it belongs. -/
def search [DecidableEq α] (a : α) (l : List α) : Except Nat Nat :=
  let place := bisect a l 0 l.length
  if l[place]? = some a then .ok place else .error place

variable [LE α] [Std.IsLinearOrder α] [Std.LawfulOrderLT α] {l : List α}

/-- Once sorted, equal elements are neighbours, so that no repetition is left. -/
theorem sortDistinct_eq_ofList [DecidableLE α] [DecidableEq α] (l : List α) :
    sortDistinct l = ofList l := by
  have hsorted : (l.mergeSort fun a b => decide (a ≤ b)).Pairwise (· ≤ ·) := by
    have htrans (a b c : α) (hab : decide (a ≤ b) = true) (hbc : decide (b ≤ c) = true) :
        decide (a ≤ c) = true :=
      decide_eq_true (Std.le_trans (of_decide_eq_true hab) (of_decide_eq_true hbc))
    have htotal (a b : α) : (decide (a ≤ b) || decide (b ≤ a)) = true := by
      simpa using Std.le_total
    exact (List.pairwise_mergeSort htrans htotal l).imp of_decide_eq_true
  have hdedup : sortDistinct l = (l.mergeSort fun a b => decide (a ≤ b)).dedup :=
    hsorted.destutter_eq_dedup
  have hascending : (sortDistinct l).Pairwise (· < ·) := by
    have hle : (sortDistinct l).Pairwise (· ≤ ·) := hsorted.sublist (List.destutter_sublist _ _)
    have hne : (sortDistinct l).Pairwise (· ≠ ·) := hdedup ▸ List.nodup_dedup _
    refine (hle.and hne).imp fun ⟨hab, hab'⟩ => ?_
    exact Std.not_le.1 fun hba => hab' (Std.le_antisymm hab hba)
  refine hascending.eq_of_mem_iff (pairwise_ofList l) fun a => ?_
  rw [hdedup, List.mem_dedup, List.mem_mergeSort, mem_ofList]

/-- The place of `a` stays among the places that are left. -/
theorem bisect_eq_below (h : l.Pairwise (· < ·)) (a : α) {lo hi : Nat} (hlo : lo ≤ below a l)
    (hhi : below a l ≤ hi) (hlength : hi ≤ l.length) : bisect a l lo hi = below a l := by
  induction lo, hi using bisect.induct a l with
  | case1 lo hi hlt middle hless ih =>
    have hmiddle : middle < l.length := by omega
    rw [bisect, if_pos hlt, if_pos hless]
    rw [List.getElem?_eq_getElem hmiddle, Option.any_some, decide_eq_true_eq,
      getElem_lt_iff h hmiddle] at hless
    exact ih hless hhi hlength
  | case2 lo hi hlt middle hless ih =>
    have hmiddle : middle < l.length := by omega
    rw [bisect, if_pos hlt, if_neg hless]
    rw [List.getElem?_eq_getElem hmiddle, Option.any_some, decide_eq_true_eq,
      getElem_lt_iff h hmiddle] at hless
    exact ih hlo (Nat.not_lt.1 hless) (Nat.le_of_lt hmiddle)
  | case3 lo hi hlt =>
    rw [bisect, if_neg hlt]
    omega

theorem search_eq [DecidableEq α] (h : l.Pairwise (· < ·)) (a : α) :
    search a l = if a ∈ l then .ok (below a l) else .error (below a l) := by
  have hplace : bisect a l 0 l.length = below a l :=
    bisect_eq_below h a (Nat.zero_le _) List.countP_le_length (Nat.le_refl _)
  simp only [search, hplace, getElem?_below_eq_some_iff h]

end Ascending


/-! ## Learning -/

/-- What a dimension knows of its values. -/
inductive Dictionary where
  | texts (entries : List String)
  | integers (entries : List Int)
  /-- There is nothing to learn. -/
  | fixed (codec : Codec)
  /-- The caller's own numbering, which is shown the values as they are. -/
  | provided (init : List Value → Codec) (values : List Value)

namespace Dictionary

/-- Nothing is known before values are given. -/
def ofDomain : Domain → Dictionary
  | .text => .texts []
  | .integer => .integers []
  | .bool => .fixed .bool
  | .variants names => .fixed (.variants names)
  | .provided init => .provided init []

/-- Know the values of the own kind, in place of those known before. -/
def learn : Dictionary → List Value → Dictionary
  | .texts _, values => .texts (Ascending.sortDistinct (values.filterMap Value.text?))
  | .integers _, values => .integers (Ascending.sortDistinct (values.filterMap Value.integer?))
  | .fixed codec, _ => .fixed codec
  | .provided init _, values => .provided init values

/-- Learn from one list of values after another. -/
def learnAll (domain : Domain) (lessons : List (List Value)) : Dictionary :=
  lessons.foldl learn (ofDomain domain)

/-- A text has a code if it is found. -/
def textCode? (entries : List String) : Value → Option Int
  | .text s => (Ascending.search s entries).toOption.map Int.ofNat
  | _ => none

/-- An integer that is found has an odd code, another has the even code of its gap. -/
def integerCode? (entries : List Int) : Value → Option Int
  | .integer n =>
    match Ascending.search n.toInt entries with
    | .ok place => some (2 * place + 1)
    | .error place => some (2 * place)
  | _ => none

/-- The numbering by what is known. -/
def codec : Dictionary → Codec
  | .texts entries => { Codec.ofTexts entries with encode := textCode? entries }
  | .integers entries => { Codec.ofIntegers entries with encode := integerCode? entries }
  | .fixed codec => codec
  | .provided init values => init values

theorem codec_texts {entries : List String} (h : entries.Pairwise (· < ·)) :
    (texts entries).codec = .ofTexts entries := by
  have hencode : textCode? entries = (Codec.ofTexts entries).encode := by
    funext v
    cases v with
    | text s =>
      simp only [textCode?, Codec.ofTexts, Ascending.search_eq h]
      split <;> rfl
    | bool b => rfl
    | integer n => rfl
  rw [codec, hencode]

theorem codec_integers {entries : List Int} (h : entries.Pairwise (· < ·)) :
    (integers entries).codec = .ofIntegers entries := by
  have hencode : integerCode? entries = (Codec.ofIntegers entries).encode := by
    funext v
    cases v with
    | integer n =>
      simp only [integerCode?, Codec.ofIntegers, Codec.integerCode, Ascending.search_eq h]
      by_cases hn : n.toInt ∈ entries <;> simp [hn]
    | bool b => rfl
    | text s => rfl
  rw [codec, hencode]

/-- The codes found by searches are those of the numbering. -/
theorem codec_learn_ofDomain (domain : Domain) (values : List Value) :
    ((ofDomain domain).learn values).codec = domain.codec values := by
  cases domain with
  | text =>
    rw [ofDomain, learn, Ascending.sortDistinct_eq_ofList]
    exact codec_texts (Ascending.pairwise_ofList _)
  | integer =>
    rw [ofDomain, learn, Ascending.sortDistinct_eq_ofList]
    exact codec_integers (Ascending.pairwise_ofList _)
  | bool => rfl
  | variants names => rfl
  | provided init => rfl

theorem codec_ofDomain (domain : Domain) : (ofDomain domain).codec = domain.codec [] := by
  cases domain with
  | text => exact codec_texts List.Pairwise.nil
  | integer => exact codec_integers List.Pairwise.nil
  | bool => rfl
  | variants names => rfl
  | provided init => rfl

/-- A lesson leaves nothing of the one before it. -/
theorem learn_learn (dictionary : Dictionary) (values values' : List Value) :
    (dictionary.learn values).learn values' = dictionary.learn values' := by
  cases dictionary <;> rfl

/-- No number of lessons leaves anything for the next one. -/
theorem learn_foldl (lessons : List (List Value)) (dictionary : Dictionary) (values : List Value) :
    (lessons.foldl learn dictionary).learn values = dictionary.learn values := by
  induction lessons generalizing dictionary with
  | nil => rfl
  | cons lesson lessons ih => rw [List.foldl_cons, ih, learn_learn]

/-- The last lesson decides. Without one, it is as if no values had been given. -/
theorem codec_learnAll (domain : Domain) (lessons : List (List Value)) :
    (learnAll domain lessons).codec = domain.codec (lessons.getLast?.getD []) := by
  obtain rfl | ⟨earlier, last, rfl⟩ := List.eq_nil_or_concat lessons
  · exact codec_ofDomain domain
  · rw [learnAll, List.concat_eq_append, List.foldl_concat, learn_foldl, List.getLast?_concat]
    exact codec_learn_ofDomain domain last

end Dictionary


/-! ## Dimensions in use -/

/-- The axis of a dimension that is given one list of values after another. -/
def Dimension.refit (d : Dimension) (lessons : List (List Value)) : Axis :=
  ⟨d.name, d.operation, (Dictionary.learnAll d.domain lessons).codec⟩

theorem Dimension.refit_eq_fit (d : Dimension) (lessons : List (List Value)) :
    d.refit lessons = d.fit (lessons.getLast?.getD []) := by
  rw [refit, Dictionary.codec_learnAll, fit]

end RuleIndex
