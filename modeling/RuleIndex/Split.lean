-- SUMMARY: Splits: the dimension and the code by which a list of entries is best told apart.
import RuleIndex.Entry

/-!
# Splits

Entries are told apart on one free dimension at a time. The dimension with the most
distinct codes is taken, at its median code. A dimension with set constraints
counts as one code, and is taken apart set by set. Among equals the first
dimension wins; if every free dimension is unconstrained, nothing is left to split.

`clash?` finds a dimension that mixes both kinds. Entries without a clash have none
on fewer dimensions either, nor after entries have been dropped, so one check before
the first split is enough.
-/

namespace RuleIndex

variable {α : Type}

namespace Entry

/-- The distinct codes of the entries on dimension `d`, ascending. -/
def codesOn (entries : List (Entry α)) (d : Nat) : List Int :=
  Ascending.ofList (entries.filterMap fun entry => (entry.cell d).code?)

/-- Whether an entry has a set on dimension `d`, empty or not. -/
def anySetOn (entries : List (Entry α)) (d : Nat) : Bool :=
  entries.any fun entry => (entry.cell d).isSet

/-- Whether an entry has a scalar on dimension `d`. -/
def anyScalarOn (entries : List (Entry α)) (d : Nat) : Bool :=
  entries.any fun entry => (entry.cell d).code?.isSome

/-- How well dimension `d` tells the entries apart. -/
def score (entries : List (Entry α)) (d : Nat) : Nat :=
  if anySetOn entries d then 1 else (codesOn entries d).length

end Entry

/-- The first element with the greatest score, unless all scores are zero. -/
def firstBest? {β : Type} (score : β → Nat) : List β → Option β
  | [] => none
  | x :: rest =>
    match firstBest? score rest with
    | some best => if score best ≤ score x then some x else some best
    | none => if score x = 0 then none else some x

theorem firstBest?_mem {β : Type} {score : β → Nat} {l : List β} {x : β}
    (h : firstBest? score l = some x) : x ∈ l := by
  induction l with
  | nil => simp [firstBest?] at h
  | cons y l ih =>
    simp only [firstBest?] at h
    split at h
    · next best hbest =>
      split at h
      · simp_all
      · simp_all
    · split at h <;> simp_all

/-- How a node takes its entries apart. -/
inductive Split where
  /-- Into those left of, right of and at a code. -/
  | scalar (dimension : Nat) (code : Int)
  /-- Into those with the same set. -/
  | sets (dimension : Nat)
  deriving DecidableEq, Repr

namespace Split

def dimension : Split → Nat
  | .scalar d _ => d
  | .sets d => d

/-- The first free dimension on which some entries have sets and others scalars. -/
def clash? (free : List Nat) (entries : List (Entry α)) : Option Nat :=
  free.find? fun d => Entry.anySetOn entries d && Entry.anyScalarOn entries d

/-- The split of the entries on one dimension: by sets, or at the median code. -/
def on? (entries : List (Entry α)) (d : Nat) : Option Split :=
  if Entry.anySetOn entries d then some (.sets d)
  else
    let codes := Entry.codesOn entries d
    (codes[codes.length / 2]?).map (.scalar d)

/-- The split on the free dimension that tells the entries apart best. -/
def choose? (free : List Nat) (entries : List (Entry α)) : Option Split :=
  (firstBest? (Entry.score entries) free).bind (on? entries)


/-! ## What a split is made of -/

theorem on?_eq_some_scalar_iff {entries : List (Entry α)} {d d' : Nat} {code : Int} :
    on? entries d' = some (.scalar d code) ↔
      d' = d ∧ Entry.anySetOn entries d = false ∧
        (Entry.codesOn entries d)[(Entry.codesOn entries d).length / 2]? = some code := by
  unfold on?
  split
  · next hset =>
    simp only [Option.some.injEq, reduceCtorEq, false_iff]
    rintro ⟨rfl, hscalar, _⟩
    simp [hset] at hscalar
  · next hset =>
    simp only [Option.map_eq_some_iff, scalar.injEq]
    constructor
    · rintro ⟨c, hc, rfl, rfl⟩
      exact ⟨rfl, by simpa using hset, hc⟩
    · rintro ⟨rfl, _, hc⟩
      exact ⟨code, hc, rfl, rfl⟩

theorem on?_eq_some_sets_iff {entries : List (Entry α)} {d d' : Nat} :
    on? entries d' = some (.sets d) ↔ d' = d ∧ Entry.anySetOn entries d = true := by
  unfold on?
  split
  · next hset =>
    simp only [Option.some.injEq, sets.injEq]
    exact ⟨fun h => ⟨h, h ▸ hset⟩, And.left⟩
  · next hset =>
    simp only [Option.map_eq_some_iff, reduceCtorEq, and_false, exists_false, false_iff]
    rintro ⟨rfl, h⟩
    exact hset h

/-- A chosen split is the split on the best free dimension. -/
theorem choose?_eq_some_iff {free : List Nat} {entries : List (Entry α)} {split : Split} :
    choose? free entries = some split ↔
      firstBest? (Entry.score entries) free = some split.dimension ∧
        on? entries split.dimension = some split := by
  have hdim : ∀ d, on? entries d = some split → d = split.dimension := by
    intro d h
    cases split with
    | scalar d' code => exact (on?_eq_some_scalar_iff.1 h).1
    | sets d' => exact (on?_eq_some_sets_iff.1 h).1
  rw [choose?, Option.bind_eq_some_iff]
  constructor
  · rintro ⟨d, hbest, hsplit⟩
    obtain rfl := hdim d hsplit
    exact ⟨hbest, hsplit⟩
  · rintro ⟨hbest, hsplit⟩
    exact ⟨_, hbest, hsplit⟩

theorem choose?_mem_free {free : List Nat} {entries : List (Entry α)} {split : Split}
    (h : choose? free entries = some split) : split.dimension ∈ free :=
  firstBest?_mem (choose?_eq_some_iff.1 h).1

/-- The code of a scalar split is the code of an entry. -/
theorem choose?_scalar_code {free : List Nat} {entries : List (Entry α)} {d : Nat} {code : Int}
    (h : choose? free entries = some (.scalar d code)) :
    ∃ entry ∈ entries, (entry.cell d).code? = some code := by
  have hcode := (on?_eq_some_scalar_iff.1 (choose?_eq_some_iff.1 h).2).2.2
  have hmem := List.mem_of_getElem? hcode
  simpa [Entry.codesOn] using hmem

end Split
end RuleIndex
