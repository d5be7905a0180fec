-- SUMMARY: Selection: which dimension a node splits and at which code, found by a loop that keeps the best dimension so far.
import Mathlib.Data.Finset.Card
import Mathlib.Order.Bounds.Basic
import RuleIndex.Proofs.Dictionaries
import RuleIndex.Proofs.Refusals
import RuleIndex.Proofs.SearchTree

/-!
# Selection

A mask says which dimensions are settled. Of all others a node splits the first one with the
greatest score, at the code in the middle of those that the entries have there.

`Split.select` finds it in one loop, which stops at a dimension that mixes sets and scalars and
keeps the best dimension so far. It counts codes in a set, and sorts them anew afterwards to take
the one at the middle place. It would fail if there were no code at that place, but a dimension is
only chosen for its codes, and both ways of counting agree (`Split.select_exact`).

The mask is carried down the tree (`Tree.Selected`), and a built tree is made of nothing but such
selections (`Index.selected_of_build`).
-/

namespace RuleIndex

variable {α : Type}

/-! ## The greatest score -/

section Best

variable {score : Nat → Nat} {l : List Nat} {x : Nat}

/-- An element of a list with the greatest score, and the least one that has it. -/
structure FirstBest (score : Nat → Nat) (l : List Nat) (x : Nat) : Prop where
  mem : x ∈ l
  greatest : ∀ y ∈ l, score y ≤ score x
  first : ∀ y ∈ l, y < x → score y < score x

/-- The head of an ascending list is the best if no other element has a greater score. -/
theorem FirstBest.head (hx : ∀ y ∈ l, x < y) (h : ∀ y ∈ l, score y ≤ score x) :
    FirstBest score (x :: l) x where
  mem := List.mem_cons_self
  greatest := List.forall_mem_cons.2 ⟨le_refl _, h⟩
  first := List.forall_mem_cons.2
    ⟨fun hlt => absurd hlt (lt_irrefl x), fun y hy hlt => absurd hlt (hx y hy).asymm⟩

theorem FirstBest.of_firstBest? (hl : l.Pairwise (· < ·)) (h : firstBest? score l = some x) :
    FirstBest score l x := by
  induction l generalizing x with
  | nil => cases h
  | cons y l ih =>
    obtain ⟨hy, hl⟩ := List.pairwise_cons.1 hl
    rw [firstBest?] at h
    split at h
    · next best hbest =>
      have hrest := ih hl hbest
      split at h
      · next hle =>
        obtain rfl := Option.some.inj h
        exact .head hy fun z hz => (hrest.greatest z hz).trans hle
      · next hgreater =>
        obtain rfl := Option.some.inj h
        have hlt := not_le.1 hgreater
        exact ⟨List.mem_cons_of_mem _ hrest.mem, List.forall_mem_cons.2 ⟨hlt.le, hrest.greatest⟩,
          List.forall_mem_cons.2 ⟨fun _ => hlt, hrest.first⟩⟩
    · next hnone =>
      have hzero := Split.firstBest?_eq_none_iff.1 hnone
      split at h
      · cases h
      · obtain rfl := Option.some.inj h
        exact .head hy fun z hz => (hzero z hz).symm ▸ Nat.zero_le _

/-- Keep the best so far unless the score of `x` is greater. -/
def keepBest (score : Nat → Nat) (best : Option Nat) (x : Nat) : Option Nat :=
  if best.elim 0 score < score x then some x else best

theorem elim_keepBest (score : Nat → Nat) (best : Option Nat) (x : Nat) :
    (keepBest score best x).elim 0 score = max (best.elim 0 score) (score x) := by
  unfold keepBest
  split
  · next hlt => exact (max_eq_right hlt.le).symm
  · next hle => exact (max_eq_left (not_lt.1 hle)).symm

/-- Of two elements only the better one has to be compared, the first one if they are equal. -/
theorem keepBest_keepBest (score : Nat → Nat) (best : Option Nat) (x y : Nat) :
    keepBest score (keepBest score best x) y =
      keepBest score best (if score y ≤ score x then x else y) := by
  rw [keepBest.eq_1 score (keepBest score best x), elim_keepBest]
  split
  · next hlt =>
    obtain ⟨hbest, hx⟩ := max_lt_iff.1 hlt
    rw [if_neg (not_le.2 hx), keepBest, if_pos hbest]
  · next hle =>
    split
    · rfl
    · next hx =>
      have hbest : ¬ best.elim 0 score < score y := by
        rw [max_lt_iff] at hle
        exact fun h => hle ⟨h, not_le.1 hx⟩
      have hbest' : ¬ best.elim 0 score < score x := fun h => hbest (h.trans (not_le.1 hx))
      rw [keepBest, if_neg hbest', keepBest, if_neg hbest]

/-- A loop that keeps the best so far ends with the best of the list, unless it had one at least as
    good from the start. -/
theorem foldl_keepBest (score : Nat → Nat) (l : List Nat) (best : Option Nat) :
    l.foldl (keepBest score) best = (firstBest? score l).elim best (keepBest score best) := by
  -- The loop compares from the left and `firstBest?` from the right, hence any `best` to start with.
  induction l generalizing best with
  | nil => rfl
  | cons x l ih =>
    rw [List.foldl_cons, ih, firstBest?]
    cases firstBest? score l with
    | none =>
      by_cases hx : score x = 0
      · simp [keepBest, hx]
      · simp [hx]
    | some y =>
      simp only [Option.elim_some, keepBest_keepBest]
      split <;> rfl

theorem foldl_keepBest_none (score : Nat → Nat) (l : List Nat) :
    l.foldl (keepBest score) none = firstBest? score l := by
  rw [foldl_keepBest]
  cases h : firstBest? score l with
  | none => rfl
  | some x => simp [keepBest, Nat.pos_of_ne_zero (Split.firstBest?_score_ne_zero h)]

end Best


/-! ## Codes and scores of a dimension -/

namespace Entry

/-- The codes of the scalars on dimension `d`, entry by entry. That of an absent constraint is
    none of them. -/
def scalarsOn (entries : List (Entry α)) (d : Nat) : List Int :=
  entries.filterMap fun entry => (entry.cell d).code?.filter (· ≠ anyCode)

/-- The distinct codes on dimension `d`. -/
def codeSet (entries : List (Entry α)) (d : Nat) : Finset Int :=
  (scalarsOn entries d).toFinset

/-- The score of dimension `d`: one if some entry has a set there, else the number of codes. -/
def weight (entries : List (Entry α)) (d : Nat) : Nat :=
  if anySetOn entries d then 1 else (codeSet entries d).card

/-- An absent constraint is told by its cell, and never by its code. -/
def Plain (entries : List (Entry α)) : Prop :=
  ∀ entry ∈ entries, .equal anyCode ∉ entry.cells.toList

instance (entries : List (Entry α)) : Decidable (Plain entries) :=
  inferInstanceAs (Decidable (∀ entry ∈ entries, .equal anyCode ∉ entry.cells.toList))

/-- Plain entries are all those that are made of sets and of codes, be it the code of an absent
    constraint. -/
theorem plain_iff {entries : List (Entry α)} : Plain entries ↔
    ∀ entry ∈ entries, ∀ cell ∈ entry.cells.toList,
      cell.isSet = true ∨ ∃ code, cell = .ofCode code := by
  refine forall₂_congr fun entry _ => ⟨fun h cell hcell => ?_, fun h hmem => ?_⟩
  · cases cell with
    | any => exact .inr ⟨anyCode, (if_pos rfl).symm⟩
    | set key => exact .inl rfl
    | equal code =>
      have hcode : code ≠ anyCode := fun heq => h (heq ▸ hcell)
      exact .inr ⟨code, (if_neg hcode).symm⟩
  · rcases h _ hmem with hset | ⟨code, hcode⟩
    · cases hset
    · unfold Cell.ofCode at hcode
      split at hcode
      · cases hcode
      · next hne => exact hne (Cell.equal.inj hcode).symm

theorem Plain.filter {entries : List (Entry α)} (h : Plain entries) (p : Entry α → Bool) :
    Plain (entries.filter p) :=
  fun entry hentry => h entry (List.mem_of_mem_filter hentry)

theorem Plain.cell_ne {entries : List (Entry α)} (h : Plain entries) {entry : Entry α}
    (hentry : entry ∈ entries) (d : Nat) : entry.cell d ≠ .equal anyCode := by
  intro hcell
  rw [cell, Array.getD_eq_getD_getElem?] at hcell
  cases hd : entry.cells[d]? with
  | none => simp [hd] at hcell
  | some own =>
    obtain rfl : own = .equal anyCode := by simpa [hd] using hcell
    exact h entry hentry (Array.mem_toList_iff.2 (Array.mem_of_getElem? hd))

section Plain

variable {entries : List (Entry α)} (h : Plain entries) (d : Nat)

include h

theorem Plain.scalarsOn_eq :
    scalarsOn entries d = entries.filterMap fun entry => (entry.cell d).code? := by
  refine List.filterMap_congr fun entry hentry => ?_
  cases hcell : entry.cell d with
  | any => rfl
  | set key => rfl
  | equal code =>
    have hcode : code ≠ anyCode := fun heq => h.cell_ne hentry d (heq ▸ hcell)
    simp [Cell.code?, hcode]

theorem Plain.sortDistinct_scalarsOn :
    Ascending.sortDistinct (scalarsOn entries d) = codesOn entries d := by
  rw [Ascending.sortDistinct_eq_ofList, h.scalarsOn_eq, codesOn]

theorem Plain.codeSet_eq : codeSet entries d = (codesOn entries d).toFinset := by
  ext code
  simp [codeSet, codesOn, h.scalarsOn_eq]

/-- A set has as many codes as there are in ascending order. -/
theorem Plain.card_codeSet : (codeSet entries d).card = (codesOn entries d).length := by
  rw [h.codeSet_eq, codesOn, List.toFinset_card_of_nodup (Ascending.nodup_ofList _)]

theorem Plain.weight_eq_score : weight entries d = score entries d := by
  rw [weight, score, h.card_codeSet]

theorem Plain.codeSet_nonempty_iff :
    (codeSet entries d).Nonempty ↔ anyScalarOn entries d = true := by
  rw [← Finset.card_pos, h.card_codeSet, Nat.pos_iff_ne_zero, ne_eq, List.length_eq_zero_iff,
    codesOn_eq_nil_iff, ← anyScalarOn_eq_false_iff, Bool.not_eq_false]

end Plain

end Entry


/-! ## Selection in one loop -/

/-- The dimensions that a mask of settled ones leaves free. -/
def Space.free (space : Space) (settled : Bitset) : List Nat :=
  (List.range space.size).filter fun d => !settled.contains d

theorem Space.free_empty (space : Space) : space.free .empty = List.range space.size := by
  simp [free]

/-- A dimension that is marked is free no more. -/
theorem Space.free_insert (space : Space) (settled : Bitset) (d : Nat) :
    space.free (settled.insert d) = (space.free settled).erase d := by
  rw [free, free, (List.nodup_range.filter _).erase_eq_filter, List.filter_filter]
  refine List.filter_congr fun x _ => ?_
  rw [Bitset.contains_insert, Bool.not_or]
  rfl

theorem Space.pairwise_free (space : Space) (settled : Bitset) :
    (space.free settled).Pairwise (· < ·) :=
  List.pairwise_lt_range.filter _

namespace Split

/-- Why a selection ends without a result. -/
inductive Fault where
  /-- A free dimension mixes sets and scalars. -/
  | refused (e : Error)
  /-- There is no code at the place that was asked for. -/
  | outOfRange (place length : Nat)
  deriving DecidableEq, Repr

/-- A dimension that may be split, with its score and with whether it is split by sets. -/
structure Candidate where
  dimension : Nat
  score : Nat
  bySets : Bool

def Candidate.of (entries : List (Entry α)) (d : Nat) : Candidate :=
  ⟨d, Entry.weight entries d, Entry.anySetOn entries d⟩

/-- Look at one dimension after the best so far. Settled ones are passed over. -/
def consider (space : Space) (entries : List (Entry α)) (settled : Bitset)
    (best : Option Candidate) (d : Nat) : Except Fault (Option Candidate) :=
  if settled.contains d then return best
  else if Entry.anySetOn entries d ∧ (Entry.codeSet entries d).Nonempty then
    throw (.refused (.mixedConstraints (space.name d)))
  else
    let candidate := Candidate.of entries d
    return if best.elim 0 Candidate.score < candidate.score then some candidate else best

/-- Split the candidate by sets, or at the code in the middle. -/
def Candidate.split (entries : List (Entry α)) (candidate : Candidate) : Except Fault Split :=
  if candidate.bySets then return .sets candidate.dimension
  else
    let codes := Ascending.sortDistinct (Entry.scalarsOn entries candidate.dimension)
    match codes[codes.length / 2]? with
    | some code => return .scalar candidate.dimension code
    | none => throw (.outOfRange (codes.length / 2) codes.length)

/-- The split of the entries, where `settled` marks the dimensions that are not free. -/
def select (space : Space) (entries : List (Entry α)) (settled : Bitset) :
    Except Fault (Option Split) := do
  let best ← (List.range space.size).foldlM (consider space entries settled) none
  best.mapM (Candidate.split entries)

variable {space : Space} {entries : List (Entry α)} {settled : Bitset} {d : Nat}

theorem consider_of_settled (hd : settled.contains d = true) (best : Option Candidate) :
    consider space entries settled best d = .ok best := by
  rw [consider, if_pos hd]
  rfl

theorem consider_of_mixed (hd : settled.contains d = false)
    (hmixed : Entry.anySetOn entries d ∧ (Entry.codeSet entries d).Nonempty)
    (best : Option Candidate) :
    consider space entries settled best d =
      .error (.refused (.mixedConstraints (space.name d))) := by
  rw [consider, if_neg (Bool.eq_false_iff.1 hd), if_pos hmixed]
  rfl

theorem consider_of_free (hd : settled.contains d = false)
    (hmixed : ¬ (Entry.anySetOn entries d ∧ (Entry.codeSet entries d).Nonempty))
    (best : Option Nat) : consider space entries settled (best.map (.of entries)) d =
      .ok ((keepBest (Entry.weight entries) best d).map (.of entries)) := by
  have hscore : (best.map (Candidate.of entries)).elim 0 Candidate.score =
      best.elim 0 (Entry.weight entries) := by
    cases best <;> rfl
  rw [consider, if_neg (Bool.eq_false_iff.1 hd), if_neg hmixed, hscore, keepBest]
  simp only [apply_ite (Option.map (Candidate.of entries)), Option.map_some]
  rfl

/-- The loop stops at the first free dimension that is mixed, or ends with the best one. -/
theorem foldlM_consider (h : Entry.Plain entries) (l : List Nat) (best : Option Nat) :
    l.foldlM (consider space entries settled) (best.map (.of entries)) =
      match clash? (l.filter fun d => !settled.contains d) entries with
      | some d => .error (.refused (.mixedConstraints (space.name d)))
      | none => .ok (((l.filter fun d => !settled.contains d).foldl
          (keepBest (Entry.weight entries)) best).map (.of entries)) := by
  induction l generalizing best with
  | nil => rfl
  | cons d l ih =>
    rw [List.foldlM_cons]
    cases hd : settled.contains d with
    | true =>
      rw [consider_of_settled hd, List.filter_cons_of_neg (by simpa using hd)]
      exact ih best
    | false =>
      rw [List.filter_cons_of_pos (by simpa using hd), clash?, List.find?_cons]
      by_cases hmixed : Entry.anySetOn entries d ∧ (Entry.codeSet entries d).Nonempty
      · have hclash : (Entry.anySetOn entries d && Entry.anyScalarOn entries d) = true :=
          Bool.and_eq_true_iff.2 ⟨hmixed.1, (h.codeSet_nonempty_iff d).1 hmixed.2⟩
        rw [consider_of_mixed hd hmixed, hclash]
        rfl
      · have hclash : (Entry.anySetOn entries d && Entry.anyScalarOn entries d) = false := by
          rwa [Bool.eq_false_iff, ne_eq, Bool.and_eq_true_iff, ← h.codeSet_nonempty_iff]
        rw [consider_of_free hd hmixed, hclash]
        exact ih _

/-- A dimension with a score has codes or is split by sets, so that splitting it does not fail. -/
theorem Candidate.split_of (h : Entry.Plain entries) (hscore : Entry.score entries d ≠ 0) :
    ∃ split, (Candidate.of entries d).split entries = .ok split ∧ on? entries d = some split := by
  rw [Candidate.split, on?, Candidate.of]
  cases hset : Entry.anySetOn entries d with
  | true => exact ⟨.sets d, rfl, rfl⟩
  | false =>
    have hlt : (Entry.codesOn entries d).length / 2 < (Entry.codesOn entries d).length := by
      simp only [Entry.score, hset, Bool.false_eq_true, if_false] at hscore
      omega
    simp only [Bool.false_eq_true, if_false, h.sortDistinct_scalarsOn,
      List.getElem?_eq_getElem hlt, Option.map_some]
    exact ⟨_, rfl, rfl⟩

/-- The loop refuses what clashes, and else chooses as growth does. -/
theorem select_eq (h : Entry.Plain entries) : select space entries settled =
    match clash? (space.free settled) entries with
    | some d => .error (.refused (.mixedConstraints (space.name d)))
    | none => .ok (choose? (space.free settled) entries) := by
  -- The loop checks and scores at once, growth checks all dimensions before it scores any.
  have hloop := @foldlM_consider _ space _ settled h (List.range space.size) none
  have hweight : Entry.weight entries = Entry.score entries := funext h.weight_eq_score
  rw [hweight, foldl_keepBest_none, Option.map_none] at hloop
  rw [select, hloop, Space.free]
  cases clash? ((List.range space.size).filter fun d => !settled.contains d) entries with
  | some d => rfl
  | none =>
    rw [choose?]
    cases hbest : firstBest? (Entry.score entries)
        ((List.range space.size).filter fun d => !settled.contains d) with
    | none => rfl
    | some d =>
      obtain ⟨split, hsplit, hon⟩ := Candidate.split_of h (firstBest?_score_ne_zero hbest)
      rw [Option.bind_some, hon]
      show (Candidate.of entries d).split entries >>= _ = _
      rw [hsplit]
      rfl

theorem select_eq_error_iff (h : Entry.Plain entries) {e : Fault} :
    select space entries settled = .error e ↔ ∃ d, clash? (space.free settled) entries = some d ∧
      e = .refused (.mixedConstraints (space.name d)) := by
  rw [select_eq h]
  cases clash? (space.free settled) entries <;> simp [eq_comm]

theorem select_eq_ok_iff (h : Entry.Plain entries) {split : Option Split} :
    select space entries settled = .ok split ↔
      clash? (space.free settled) entries = none ∧ choose? (space.free settled) entries = split := by
  rw [select_eq h]
  cases clash? (space.free settled) entries <;> simp


/-! ## The best split -/

/-- A split by sets is one of a dimension with sets. A split at a code leaves half of the codes
    below it, rounded down, and the others above. -/
def Balanced (entries : List (Entry α)) : Split → Prop
  | .sets d => Entry.anySetOn entries d = true
  | .scalar d code =>
    Entry.anySetOn entries d = false ∧ code ∈ Entry.codeSet entries d ∧
      ((Entry.codeSet entries d).filter (· < code)).card = (Entry.codeSet entries d).card / 2 ∧
      ((Entry.codeSet entries d).filter (code < ·)).card =
        (Entry.codeSet entries d).card - 1 - (Entry.codeSet entries d).card / 2

/-- Of the codes of a dimension those with a property can be counted in ascending order. -/
theorem card_filter_codeSet (h : Entry.Plain entries) (p : Int → Bool) :
    ((Entry.codeSet entries d).filter (p · = true)).card =
      (Entry.codesOn entries d).countP p := by
  have hnodup : (Entry.codesOn entries d).Nodup := Ascending.nodup_ofList _
  rw [h.codeSet_eq, ← List.toFinset_filter, List.toFinset_card_of_nodup (hnodup.filter p),
    List.countP_eq_length_filter]

/-- The code in the middle of all codes in ascending order leaves half of them below it. -/
theorem balanced_of_on? (h : Entry.Plain entries) {split : Split} (hon : on? entries d = some split) :
    split.Balanced entries := by
  cases split with
  | sets d' =>
    obtain ⟨rfl, hset⟩ := on?_eq_some_sets_iff.1 hon
    exact hset
  | scalar d' code =>
    obtain ⟨rfl, hset, hmedian⟩ := on?_eq_some_scalar_iff.1 hon
    obtain ⟨hlt, hcode⟩ := List.getElem?_eq_some_iff.1 hmedian
    have hascending : (Entry.codesOn entries d).Pairwise (· < ·) := Ascending.pairwise_ofList _
    have hbelow := Ascending.below_getElem hascending hlt
    have habove := Ascending.countP_getElem_lt hascending hlt
    rw [hcode] at hbelow habove
    refine ⟨hset, ?_, ?_, ?_⟩
    · rw [h.codeSet_eq, List.mem_toFinset]
      exact List.mem_of_getElem? hmedian
    · rw [h.card_codeSet, ← hbelow, Ascending.below, ← card_filter_codeSet h]
      simp
    · rw [h.card_codeSet, ← habove, ← card_filter_codeSet h]
      simp

/-- On an ascending list, a clash is found on the least dimension that has one. -/
theorem clash?_isLeast {free : List Nat} (hfree : free.Pairwise (· < ·))
    (hclash : clash? free entries = some d) :
    IsLeast {d | d ∈ free ∧ Entry.MixedOn entries d} d := by
  obtain ⟨hmixed, before, after, rfl, hbefore⟩ := List.find?_eq_some_iff_append.1 hclash
  refine ⟨⟨List.mem_append_right _ List.mem_cons_self, Entry.mixedOn_iff.2 hmixed⟩, ?_⟩
  rintro d' ⟨hd', hmixed'⟩
  rcases List.mem_append.1 hd' with hd' | hd'
  · have hnot := hbefore d' hd'
    rw [Entry.mixedOn_iff.1 hmixed'] at hnot
    cases hnot
  · rcases List.mem_cons.1 hd' with rfl | hd'
    · exact le_refl _
    · exact ((List.pairwise_cons.1 (List.pairwise_append.1 hfree).2.1).1 d' hd').le

theorem clash?_eq_none_of_any {free : List Nat}
    (h : ∀ d ∈ free, ∀ entry ∈ entries, entry.cell d = .any) : clash? free entries = none := by
  refine clash?_eq_none_iff.2 fun d hd _ => Entry.anyScalarOn_eq_false_iff.2 fun entry hentry => ?_
  rw [h d hd entry hentry]
  rfl

theorem exists_clash?_iff {free : List Nat} :
    (∃ d, clash? free entries = some d) ↔ ∃ d ∈ free, Entry.MixedOn entries d := by
  rw [← Option.isSome_iff_exists, clash?, List.find?_isSome]
  simp only [Entry.mixedOn_iff]

/-- The loop refuses entries that mix sets and scalars on a free dimension, and names the least
    one. It finds nothing to split if no free dimension asks anything of any entry. Otherwise it
    splits the first free dimension with the greatest score, by its sets or at the code in the
    middle, which is always there. Growth makes the same choice. -/
theorem select_exact (space : Space) {entries : List (Entry α)} (h : Entry.Plain entries)
    (settled : Bitset) :
    (select space entries settled =
      match clash? (space.free settled) entries with
      | some d => .error (.refused (.mixedConstraints (space.name d)))
      | none => .ok (choose? (space.free settled) entries)) ∧
    ((∃ e, select space entries settled = .error e) ↔
      ∃ d ∈ space.free settled, Entry.MixedOn entries d) ∧
    (∀ e, select space entries settled = .error e →
      ∃ d, IsLeast {d | d ∈ space.free settled ∧ Entry.MixedOn entries d} d ∧
        e = .refused (.mixedConstraints (space.name d))) ∧
    (select space entries settled = .ok none ↔
      ∀ d ∈ space.free settled, ∀ entry ∈ entries, entry.cell d = .any) ∧
    (∀ split, select space entries settled = .ok (some split) →
      FirstBest (Entry.weight entries) (space.free settled) split.dimension ∧
        split.Balanced entries) ∧
    ∀ place length, select space entries settled ≠ .error (.outOfRange place length) := by
  refine ⟨select_eq h, ?_, fun e he => ?_, ?_, fun split hsplit => ?_, fun place length he => ?_⟩
  · rw [← exists_clash?_iff]
    simp only [select_eq_error_iff h]
    constructor
    · rintro ⟨e, d, hclash, _⟩
      exact ⟨d, hclash⟩
    · rintro ⟨d, hclash⟩
      exact ⟨_, d, hclash, rfl⟩
  · obtain ⟨d, hclash, rfl⟩ := (select_eq_error_iff h).1 he
    exact ⟨d, clash?_isLeast (space.pairwise_free settled) hclash, rfl⟩
  · rw [select_eq_ok_iff h, choose?_eq_none_iff, and_iff_right_iff_imp]
    exact clash?_eq_none_of_any
  · obtain ⟨_, hchoose⟩ := (select_eq_ok_iff h).1 hsplit
    obtain ⟨hbest, hon⟩ := choose?_eq_some_iff.1 hchoose
    have hweight : Entry.weight entries = Entry.score entries := funext h.weight_eq_score
    exact ⟨hweight ▸ .of_firstBest? (space.pairwise_free settled) hbest, balanced_of_on? h hon⟩
  · obtain ⟨_, _, hrefused⟩ := (select_eq_error_iff h).1 he
    cases hrefused

/-- Two sets count no more than one size, so the size is split first, and the sets once it is
    settled. -/
theorem select_exact_sample :
    let space := Space.fit (α := String) [⟨"color", .ordered, .text⟩, ⟨"size", .ordered, .integer⟩,
      ⟨"tags", .ordered, .text⟩] []
    let entries : List (Entry String) := [⟨#[.any, .equal 1, .set ⟨[0], true⟩], "first"⟩,
      ⟨#[.any, .equal 1, .set ⟨[1], true⟩], "second"⟩]
    Entry.Plain entries ∧ select space entries .empty = .ok (some (.scalar 1 1)) ∧
      select space entries (Bitset.empty.insert 1) = .ok (some (.sets 2)) := by
  intro space entries
  have hplain : Entry.Plain entries := by decide
  refine ⟨hplain, ?_, ?_⟩
  · rw [(select_exact space hplain _).1]
    cbv
  · rw [(select_exact space hplain _).1]
    cbv

end Split


/-! ## Trees grown by selections -/

/-- The tree takes the entries apart by one selection after another. A dimension is marked as
    settled below `equal`, `any` and the branches, and stays free to the left and to the right. -/
inductive Tree.Selected (space : Space) : Bitset → List (Entry α) → Tree α → Prop where
  | leaf {settled : Bitset} {entries : List (Entry α)}
      (selected : Split.select space entries settled = .ok none) :
      Selected space settled entries (.ofPayloads (entries.map Entry.payload))
  | scalar {settled : Bitset} {entries : List (Entry α)} {d : Nat} {code : Int}
      {left right equal any : Tree α}
      (selected : Split.select space entries settled = .ok (some (.scalar d code)))
      (onLeft : Selected space settled (Entry.onSide entries d code .left) left)
      (onRight : Selected space settled (Entry.onSide entries d code .right) right)
      (onEqual : Selected space (settled.insert d) (Entry.onSide entries d code .equal) equal)
      (onAny : Selected space (settled.insert d) (Entry.withoutCode entries d) any) :
      Selected space settled entries (.scalar d code left right equal any)
  | sets {settled : Bitset} {entries : List (Entry α)} {d : Nat}
      {branches : List (SetKey × Tree α)} {any : Tree α}
      (selected : Split.select space entries settled = .ok (some (.sets d)))
      (keys : branches.map Prod.fst = Entry.keysOn entries d)
      (onBranch : ∀ branch ∈ branches,
        Selected space (settled.insert d) (Entry.withKey entries d branch.1) branch.2)
      (onAny : Selected space (settled.insert d) (Entry.withoutKey entries d) any) :
      Selected space settled entries (.sets d branches any)

/-- Growth makes the selections of the loop, all the way down. -/
theorem Tree.Grown.selected {space : Space} {settled : Bitset} {free : List Nat}
    {entries : List (Entry α)} {tree : Tree α} (h : Grown free entries tree)
    (hfree : space.free settled = free) (hplain : Entry.Plain entries)
    (hclash : Split.clash? free entries = none) : Selected space settled entries tree := by
  induction h generalizing settled with
  | leaf unconstrained =>
    have hchoose := Split.choose?_eq_none_iff.2 unconstrained
    subst hfree
    exact .leaf ((Split.select_eq_ok_iff hplain).2 ⟨hclash, hchoose⟩)
  | @scalar free entries d code _ _ _ _ chosen _ _ _ _ _ ihLeft ihRight ihEqual ihAny =>
    have hsettled : space.free (settled.insert d) = free.erase d := by
      rw [Space.free_insert, hfree]
    have hclash' := Split.clash?_erase hclash d
    refine .scalar ((Split.select_eq_ok_iff hplain).2 (hfree ▸ ⟨hclash, chosen⟩)) ?_ ?_ ?_ ?_
    · exact ihLeft hfree (hplain.filter _) (Split.clash?_filter hclash _)
    · exact ihRight hfree (hplain.filter _) (Split.clash?_filter hclash _)
    · exact ihEqual hsettled (hplain.filter _) (Split.clash?_filter hclash' _)
    · exact ihAny hsettled (hplain.filter _) (Split.clash?_filter hclash' _)
  | @sets free entries d branches _ chosen _ keys _ _ ihBranch ihAny =>
    have hsettled : space.free (settled.insert d) = free.erase d := by
      rw [Space.free_insert, hfree]
    have hclash' := Split.clash?_erase hclash d
    refine .sets ((Split.select_eq_ok_iff hplain).2 (hfree ▸ ⟨hclash, chosen⟩)) keys ?_ ?_
    · intro branch hbranch
      exact ihBranch branch hbranch hsettled (hplain.filter _) (Split.clash?_filter hclash' _)
    · exact ihAny hsettled (hplain.filter _) (Split.clash?_filter hclash' _)

/-- The entries of rules are plain. -/
theorem Space.plain_of_entries {space : Space} {rules : List (Rule α)} {entries : List (Entry α)}
    (h : space.entries rules = .ok entries) : Entry.Plain entries := by
  intro entry hentry hmem
  obtain ⟨d, hd⟩ := List.mem_iff_getElem?.1 hmem
  have hcell : entry.cell d = .equal anyCode := by
    rw [Entry.cell, Array.getD_eq_getD_getElem?, ← Array.getElem?_toList, hd, Option.getD_some]
  have hproper := proper_of_mem_entries h hentry d
  rw [hcell] at hproper
  exact hproper rfl

/-- The tree of a built index is grown by selections that start with no dimension settled. -/
theorem Index.selected_of_build {dimensions : List Dimension} {rules : List (Rule α)}
    {built : Logged (Index α)} (h : build dimensions rules = .ok built) :
    ∃ entries, (Space.fit dimensions rules).entries rules = .ok entries ∧
      Tree.Selected built.value.space .empty entries built.value.root := by
  obtain ⟨_, entries, hentries, hclash, rfl⟩ := build_eq_ok_iff.1 h
  have hfree : (Space.fit dimensions rules).free .empty = List.range dimensions.length := by
    rw [Space.free_empty, Space.size_fit]
  exact ⟨entries, hentries,
    (Tree.grow_grown _ hclash).selected hfree (Space.plain_of_entries hentries) hclash⟩

end RuleIndex
