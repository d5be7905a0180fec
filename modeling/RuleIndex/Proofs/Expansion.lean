-- SUMMARY: Expansion: the entries of a rule are the product of the alternatives of its constraints, each combination once and in lexicographic order.
import Mathlib.Data.List.Lex
import RuleIndex.Proofs.Entries
import RuleIndex.Proofs.Satisfaction

/-!
# Expansion

A rule that allows several scalars on a dimension stands for several entries.
`Axis.Alternatives` says what a constraint allows without a computation: nothing, one code, the
distinct codes of several values in ascending order, or one set of codes. The entries of a rule
are all combinations of its alternatives, in lexicographic order (`Rule.Expands`).

The combinations can also be built up from the front, one dimension after the other, where a
single option is put behind all of them in place (`Space.entriesStepwise`). This yields the same
entries, or the same failure.
-/

namespace RuleIndex

variable {α : Type}

/-! ## Products of lists -/

section Choices

variable {β γ : Type} {lists : List (List β)}

/-- A choice takes one element of each list. -/
theorem mem_choices_iff {l : List β} : l ∈ choices lists ↔ List.Forall₂ (· ∈ ·) l lists := by
  induction lists generalizing l with
  | nil => simp [choices]
  | cons options rest ih =>
    simp only [choices, List.mem_flatMap, List.mem_map, ih, List.forall₂_cons_right_iff]
    constructor
    · rintro ⟨x, hx, tail, htail, rfl⟩
      exact ⟨x, tail, hx, htail, rfl⟩
    · rintro ⟨x, tail, hx, htail, rfl⟩
      exact ⟨x, hx, tail, htail, rfl⟩

theorem choices_ne_nil (h : ∀ options ∈ lists, options ≠ []) : choices lists ≠ [] := by
  induction lists with
  | nil => simp [choices]
  | cons options rest ih =>
    obtain ⟨hoptions, hrest⟩ := List.forall_mem_cons.1 h
    obtain ⟨x, hx⟩ := List.exists_mem_of_ne_nil _ hoptions
    obtain ⟨tail, htail⟩ := List.exists_mem_of_ne_nil _ (ih hrest)
    apply List.ne_nil_of_mem (a := x :: tail)
    simp only [choices, List.mem_flatMap, List.mem_map]
    exact ⟨x, hx, tail, htail, rfl⟩

/-- If every list is in the order of a key, the choices are in the lexicographic order of it. -/
theorem pairwise_choices [LinearOrder γ] (key : β → γ)
    (h : ∀ options ∈ lists, options.Pairwise fun x y => key x < key y) :
    (choices lists).Pairwise fun l l' => l.map key < l'.map key := by
  induction lists with
  | nil => exact List.pairwise_singleton _ _
  | cons options rest ih =>
    obtain ⟨hoptions, hrest⟩ := List.forall_mem_cons.1 h
    rw [choices, List.pairwise_flatMap]
    constructor
    · intro x _
      refine List.pairwise_map.2 ((ih hrest).imp fun hlt => ?_)
      exact List.cons_lt_cons_iff.2 (.inr ⟨rfl, hlt⟩)
    · refine hoptions.imp fun hlt => ?_
      simp only [List.forall_mem_map]
      intro tail _ tail' _
      exact List.cons_lt_cons_iff.2 (.inl hlt)

/-- Put every option behind every combination. A single option is put behind all in place. -/
def extend (combinations : List (List β)) : List β → List (List β)
  | [option] => combinations.map (· ++ [option])
  | options => combinations.flatMap fun front => options.map fun option => front ++ [option]

theorem extend_eq_flatMap (combinations : List (List β)) (options : List β) :
    extend combinations options =
      combinations.flatMap fun front => options.map fun option => front ++ [option] := by
  unfold extend
  split
  · simp [← List.map_eq_flatMap]
  · rfl

/-- Combinations that are extended by one list after another go on with every choice among the
    lists. -/
theorem foldl_extend (lists combinations : List (List β)) : lists.foldl extend combinations =
    combinations.flatMap fun front => (choices lists).map (front ++ ·) := by
  -- The loop grows its combinations at the end, and `choices` at the front.
  induction lists generalizing combinations with
  | nil => simp [choices]
  | cons options rest ih =>
    rw [List.foldl_cons, ih, extend_eq_flatMap]
    simp [choices, List.flatMap_assoc, List.map_flatMap, List.flatMap_map, Function.comp_def]

end Choices


/-! ## Alternatives -/

/-- The codes of the values, each once and in ascending order. -/
structure Axis.CodesOf (axis : Axis) (values : List Value) (codes : List Int) : Prop where
  ascending : codes.Pairwise (· < ·)
  mem_iff : ∀ code, code ∈ codes ↔ ∃ v ∈ values, axis.codec.encode v = some code

/-- What a constraint allows on an axis. -/
inductive Axis.Alternatives (axis : Axis) : Constraint → List Cell → Prop where
  | any : Alternatives axis .any [.any]
  | value {v : Value} {code : Int} (coded : axis.codec.encode v = some code) :
      Alternatives axis (.value v) [.ofCode code]
  | none : Alternatives axis (.many []) [.any]
  | many {values : List Value} {codes : List Int} (some : values ≠ [])
      (coded : axis.CodesOf values codes) : Alternatives axis (.many values) (codes.map .ofCode)
  | set {values : List Value} {inclusive : Bool} {codes : List Int}
      (coded : axis.CodesOf values codes) :
      Alternatives axis (.set values inclusive) [.set ⟨codes, inclusive⟩]

/-- Alternatives of one constraint are in the order of their codes. A set has no other beside it. -/
def Cell.rank : Cell → Int
  | .any => anyCode
  | .equal code => code
  | .set _ => 0

theorem Cell.rank_ofCode (code : Int) : (ofCode code).rank = code := by
  unfold ofCode
  split
  · next h => exact h.symm
  · rfl

namespace Axis

variable {axis : Axis} {constraint : Constraint} {cells : List Cell}

/-- The options of a constraint are its alternatives. -/
theorem alternatives_of_options (h : axis.options constraint = .ok cells) :
    axis.Alternatives constraint cells := by
  cases constraint with
  | any =>
    obtain rfl := Except.ok.inj h
    exact .any
  | value v =>
    simp only [options, bind_eq_ok_iff, pure_eq_ok_iff] at h
    obtain ⟨code, hcode, rfl⟩ := h
    exact .value (encode_eq_ok_iff.1 hcode)
  | many values =>
    cases values with
    | nil =>
      obtain rfl := Except.ok.inj h
      exact .none
    | cons v vs =>
      simp only [options, bind_eq_ok_iff, pure_eq_ok_iff] at h
      obtain ⟨codes, hcodes, rfl⟩ := h
      refine .many (List.cons_ne_nil v vs) ⟨Ascending.pairwise_ofList codes, fun code => ?_⟩
      rw [Ascending.mem_ofList, mem_of_mapM_eq_ok_iff hcodes]
      simp only [encode_eq_ok_iff]
  | set values inclusive =>
    simp only [options, bind_eq_ok_iff, pure_eq_ok_iff] at h
    obtain ⟨bits, hbits, rfl⟩ := h
    refine .set ⟨?_, fun code => mem_toBitset_iff hbits⟩
    exact List.pairwise_map.2 (bits.pairwise_toList.imp Int.ofNat_lt.2)

theorem Alternatives.pairwise_rank (h : axis.Alternatives constraint cells) :
    cells.Pairwise fun cell cell' => cell.rank < cell'.rank := by
  cases h with
  | any => exact List.pairwise_singleton _ _
  | value => exact List.pairwise_singleton _ _
  | none => exact List.pairwise_singleton _ _
  | set => exact List.pairwise_singleton _ _
  | many _ coded =>
    simpa only [List.pairwise_map, Cell.rank_ofCode] using coded.ascending

end Axis


/-! ## Entries of one rule -/

/-- The ranks of the cells of an entry, dimension by dimension. -/
def Entry.ranks (entry : Entry α) : List Int :=
  entry.cells.toList.map Cell.rank

/-- The entries stand for all combinations of the alternatives of a rule, in lexicographic order. -/
structure Rule.Expands (rule : Rule α) (alternatives : List (List Cell))
    (entries : List (Entry α)) : Prop where
  payload : ∀ entry ∈ entries, entry.payload = rule.payload
  mem_iff : ∀ cells : List Cell, ⟨cells.toArray, rule.payload⟩ ∈ entries ↔
    List.Forall₂ (· ∈ ·) cells alternatives
  ascending : entries.Pairwise fun entry entry' => entry.ranks < entry'.ranks

/-- No two entries of a rule are equal. -/
theorem Rule.Expands.nodup {rule : Rule α} {alternatives : List (List Cell)}
    {entries : List (Entry α)} (h : rule.Expands alternatives entries) : entries.Nodup := by
  refine h.ascending.imp ?_
  rintro entry _ hlt rfl
  exact lt_irrefl _ hlt

namespace Space

variable {space : Space} {rule : Rule α} {rules : List (Rule α)}

/-- What a rule allows, dimension by dimension. -/
def Alternatives (space : Space) (rule : Rule α) (alternatives : List (List Cell)) : Prop :=
  List.Forall₂ (fun place cells => place.1.Alternatives place.2 cells)
    (space.axes.zip rule.constraints) alternatives

theorem alternatives_of_options {options : List (List Cell)} (h : space.options rule = .ok options) :
    space.Alternatives rule options :=
  (mapM_eq_ok_iff.1 h).imp fun _ _ => Axis.alternatives_of_options

/-- The entries of a rule are the combinations of its alternatives, and there is at least one. -/
theorem expands_of_entriesOf {entries : List (Entry α)} (h : space.entriesOf rule = .ok entries) :
    entries ≠ [] ∧ ∃ alternatives, space.Alternatives rule alternatives ∧
      rule.Expands alternatives entries := by
  simp only [entriesOf, bind_eq_ok_iff, pure_eq_ok_iff] at h
  obtain ⟨options, hoptions, rfl⟩ := h
  have hplace (cells : List Cell) (hcells : cells ∈ options) :
      ∃ place : Axis × Constraint, place.1.options place.2 = .ok cells := by
    obtain ⟨place, _, hplace⟩ := (mem_of_mapM_eq_ok_iff hoptions).1 hcells
    exact ⟨place, hplace⟩
  refine ⟨?_, options, alternatives_of_options hoptions, ?_, fun cells => ?_, ?_⟩
  · rw [ne_eq, List.map_eq_nil_iff]
    apply choices_ne_nil
    intro cells hcells
    obtain ⟨place, hplace⟩ := hplace cells hcells
    exact Axis.options_ne_nil hplace
  · simp
  · rw [← mem_choices_iff]
    simp
  · refine List.pairwise_map.2 (pairwise_choices Cell.rank fun cells hcells => ?_)
    obtain ⟨place, hplace⟩ := hplace cells hcells
    exact (Axis.alternatives_of_options hplace).pairwise_rank


/-! ## Entries built up from the front -/

/-- The entries of a rule, built up dimension by dimension. -/
def entriesOfStepwise (space : Space) (rule : Rule α) : Except Error (List (Entry α)) := do
  let combinations ← (space.axes.zip rule.constraints).foldlM
    (fun combinations place => do return extend combinations (← place.1.options place.2)) [[]]
  return combinations.map fun cells => ⟨cells.toArray, rule.payload⟩

/-- The entries of all rules, built up rule by rule. -/
def entriesStepwise (space : Space) (rules : List (Rule α)) : Except Error (List (Entry α)) :=
  rules.foldlM (fun entries rule => do return entries ++ (← space.entriesOfStepwise rule)) []

theorem entriesOfStepwise_eq (space : Space) (rule : Rule α) :
    space.entriesOfStepwise rule = space.entriesOf rule := by
  rw [entriesOfStepwise, foldlM_eq_foldl_mapM, entriesOf, options]
  cases (space.axes.zip rule.constraints).mapM fun place => place.1.options place.2 with
  | error e => rfl
  | ok options =>
    show Except.ok ((options.foldl extend [[]]).map _) = Except.ok ((choices options).map _)
    have hchoices : options.foldl extend [[]] = choices options := by
      rw [foldl_extend]
      simp
    rw [hchoices]

theorem entriesStepwise_eq (space : Space) (rules : List (Rule α)) :
    space.entriesStepwise rules = space.entries rules := by
  simp only [entriesStepwise, entriesOfStepwise_eq]
  rw [foldlM_eq_foldl_mapM, entries]
  cases rules.mapM space.entriesOf with
  | error e => rfl
  | ok lists =>
    have hflatten : lists.foldl (· ++ ·) [] = lists.flatten := by
      simpa using @List.foldl_append_eq_append _ _ lists id []
    exact congrArg Except.ok hflatten


/-! ## Entries of all rules -/

/-- Rule after rule, the entries are the combinations of the alternatives of the rule, each once and
    in lexicographic order, with one cell per dimension. They are built up step by step as well. -/
theorem entries_expand {entries : List (Entry α)} (h : space.entries rules = .ok entries)
    (hsize : ∀ rule ∈ rules, rule.constraints.length = space.size) :
    space.entriesStepwise rules = .ok entries ∧
    (∀ entry ∈ entries, entry.cells.size = space.size) ∧
    ∃ parts : List (List (Entry α)), entries = parts.flatten ∧
      List.Forall₂ (fun rule part => part ≠ [] ∧ part.Nodup ∧
        ∃ alternatives, space.Alternatives rule alternatives ∧ rule.Expands alternatives part)
        rules parts := by
  refine ⟨(entriesStepwise_eq space rules).trans h, fun entry hentry => ?_, ?_⟩
  · obtain ⟨rule, hrule, options, hoptions, cells, hcells, rfl⟩ := (mem_entries_iff h).1 hentry
    rw [List.size_toArray, length_of_mem_choices hcells]
    exact length_options hoptions (hsize rule hrule)
  · simp only [Space.entries, bind_eq_ok_iff, pure_eq_ok_iff, mapM_eq_ok_iff] at h
    obtain ⟨parts, hparts, rfl⟩ := h
    refine ⟨parts, rfl, hparts.imp fun rule part hpart => ?_⟩
    obtain ⟨hne, alternatives, halternatives, hexpands⟩ := expands_of_entriesOf hpart
    exact ⟨hne, hexpands.nodup, alternatives, halternatives, hexpands⟩

/-- Two colors and two sizes, one of them given twice, make four entries with the same set; the
    colors come first in the order. -/
theorem entries_expand_sample :
    let dimensions : List Dimension := [⟨"color", .ordered, .text⟩, ⟨"size", .ordered, .integer⟩,
      ⟨"tags", .ordered, .text⟩]
    let rule : Rule String := ⟨[.many [.text "red", .text "blue"],
      .many [.integer 2, .integer 1, .integer 2], .set [.text "y", .text "x"] true], "both"⟩
    let space := Space.fit dimensions [rule]
    ∃ entries, space.entries [rule] = .ok entries ∧
      entries.map Entry.ranks = [[0, 1, 0], [0, 3, 0], [1, 1, 0], [1, 3, 0]] ∧
      ∃ alternatives, space.Alternatives rule alternatives ∧ rule.Expands alternatives entries := by
  intro dimensions rule space
  obtain ⟨entries, hentries⟩ : ∃ entries, space.entries [rule] = .ok entries := ⟨_, rfl⟩
  obtain ⟨_, _, parts, hflatten, hparts⟩ := entries_expand hentries (by decide)
  obtain ⟨part, rest, ⟨_, _, hexpands⟩, hrest, rfl⟩ := List.forall₂_cons_left_iff.1 hparts
  obtain rfl := List.forall₂_nil_left_iff.1 hrest
  rw [List.flatten_singleton] at hflatten
  refine ⟨entries, hentries, ?_, hflatten ▸ hexpands⟩
  obtain rfl := Except.ok.inj hentries
  decide

end Space
end RuleIndex
