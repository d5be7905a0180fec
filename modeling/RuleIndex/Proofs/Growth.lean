-- SUMMARY: Grown trees: what is known of the entries at every node, and that growth yields such a tree.
import RuleIndex.Proofs.Traversal
import RuleIndex.Tree.Growth

/-!
# Grown trees

`Tree.Grown free entries tree` says that `tree` takes `entries` apart while the dimensions
`free` are open. Each of its cases says what the split at the node tells about the cells of
the entries there, so a property of all grown trees is proved by one induction over it and
without a look at how a split is chosen.

Growth yields grown trees from entries without a clash: a clash below the root would be a
clash at the root already.
-/

namespace RuleIndex

variable {α : Type}

/-! ## Entries without a clash -/

namespace Entry

theorem anySetOn_eq_false_iff {entries : List (Entry α)} {d : Nat} :
    anySetOn entries d = false ↔ ∀ entry ∈ entries, (entry.cell d).isSet = false := by
  simp [anySetOn]

theorem anyScalarOn_eq_false_iff {entries : List (Entry α)} {d : Nat} :
    anyScalarOn entries d = false ↔ ∀ entry ∈ entries, (entry.cell d).code? = none := by
  simp [anyScalarOn]

theorem codesOn_eq_nil_iff {entries : List (Entry α)} {d : Nat} :
    codesOn entries d = [] ↔ ∀ entry ∈ entries, (entry.cell d).code? = none := by
  simp only [List.eq_nil_iff_forall_not_mem, codesOn, Ascending.mem_ofList, List.mem_filterMap,
    not_exists, not_and]
  constructor
  · intro h entry hentry
    exact Option.eq_none_iff_forall_ne_some.2 fun code => h code entry hentry
  · intro h code entry hentry hcode
    rw [h entry hentry] at hcode
    cases hcode

theorem score_eq_zero_iff {entries : List (Entry α)} {d : Nat} :
    score entries d = 0 ↔ ∀ entry ∈ entries, entry.cell d = .any := by
  unfold score
  split
  · next hset =>
    obtain ⟨entry, hentry, hcell⟩ := List.any_eq_true.1 hset
    refine ⟨fun h => absurd h Nat.one_ne_zero, fun h => ?_⟩
    rw [h entry hentry] at hcell
    cases hcell
  · next hset =>
    have hscalars := anySetOn_eq_false_iff.1 (Bool.eq_false_iff.2 hset)
    rw [List.length_eq_zero_iff, codesOn_eq_nil_iff]
    refine forall₂_congr fun entry hentry => ?_
    simp [Cell.eq_any_iff, hscalars entry hentry]

theorem nodup_keysOn (entries : List (Entry α)) (d : Nat) : (keysOn entries d).Nodup :=
  nodup_eraseDups _

end Entry

namespace Split

theorem clash?_eq_none_iff {free : List Nat} {entries : List (Entry α)} :
    clash? free entries = none ↔
      ∀ d ∈ free, Entry.anySetOn entries d = true → Entry.anyScalarOn entries d = false := by
  simp [clash?]

/-- Fewer dimensions bring no clash about. -/
theorem clash?_erase {free : List Nat} {entries : List (Entry α)}
    (h : clash? free entries = none) (d : Nat) : clash? (free.erase d) entries = none := by
  rw [clash?_eq_none_iff] at h ⊢
  exact fun d' hd' => h d' (List.mem_of_mem_erase hd')

/-- Fewer entries bring no clash about. -/
theorem clash?_filter {free : List Nat} {entries : List (Entry α)}
    (h : clash? free entries = none) (p : Entry α → Bool) :
    clash? free (entries.filter p) = none := by
  rw [clash?_eq_none_iff] at h ⊢
  intro d hd hset
  obtain ⟨entry, hentry, hcell⟩ := List.any_eq_true.1 hset
  have hsets : Entry.anySetOn entries d = true :=
    List.any_eq_true.2 ⟨entry, (List.mem_filter.1 hentry).1, hcell⟩
  have hscalars := Entry.anyScalarOn_eq_false_iff.1 (h d hd hsets)
  exact Entry.anyScalarOn_eq_false_iff.2 fun entry hentry =>
    hscalars entry (List.mem_filter.1 hentry).1


/-! ## What a choice tells about the entries -/

theorem firstBest?_eq_none_iff {β : Type} {score : β → Nat} {l : List β} :
    firstBest? score l = none ↔ ∀ x ∈ l, score x = 0 := by
  induction l with
  | nil => simp [firstBest?]
  | cons x l ih =>
    rw [List.forall_mem_cons, ← ih, firstBest?]
    split
    · next best hbest =>
      simp only [hbest, reduceCtorEq, and_false, iff_false]
      split <;> simp
    · next hbest => simp [hbest]

theorem firstBest?_score_ne_zero {β : Type} {score : β → Nat} {l : List β} {x : β}
    (h : firstBest? score l = some x) : score x ≠ 0 := by
  induction l generalizing x with
  | nil => simp [firstBest?] at h
  | cons y l ih =>
    rw [firstBest?] at h
    split at h
    · next best hbest =>
      have hscore := ih hbest
      split at h
      · next hle => cases h; omega
      · cases h; exact hscore
    · split at h
      · cases h
      · next hy => cases h; exact hy

/-- Without a split, no free dimension asks anything of any entry. -/
theorem choose?_eq_none_iff {free : List Nat} {entries : List (Entry α)} :
    choose? free entries = none ↔ ∀ d ∈ free, ∀ entry ∈ entries, entry.cell d = .any := by
  simp only [← Entry.score_eq_zero_iff, choose?]
  cases hbest : firstBest? (Entry.score entries) free with
  | none => simpa using firstBest?_eq_none_iff.1 hbest
  | some d =>
    have hscore := firstBest?_score_ne_zero hbest
    have hsplit : on? entries d ≠ none := by
      unfold on?
      split
      · simp
      · next hset =>
        have hlength : (Entry.codesOn entries d).length ≠ 0 := by
          simpa [Entry.score, hset] using hscore
        simp only [ne_eq, Option.map_eq_none_iff, List.getElem?_eq_none_iff]
        omega
    simp only [Option.bind_some, hsplit, false_iff]
    exact fun h => hscore (h d (firstBest?_mem hbest))

theorem choose?_scalar_isSet {free : List Nat} {entries : List (Entry α)} {d : Nat} {code : Int}
    (h : choose? free entries = some (.scalar d code)) :
    ∀ entry ∈ entries, (entry.cell d).isSet = false :=
  Entry.anySetOn_eq_false_iff.1 (on?_eq_some_scalar_iff.1 (choose?_eq_some_iff.1 h).2).2.1

theorem choose?_sets_code? {free : List Nat} {entries : List (Entry α)} {d : Nat}
    (hclash : clash? free entries = none) (h : choose? free entries = some (.sets d)) :
    ∀ entry ∈ entries, (entry.cell d).code? = none := by
  have hset := (on?_eq_some_sets_iff.1 (choose?_eq_some_iff.1 h).2).2
  exact Entry.anyScalarOn_eq_false_iff.1
    (clash?_eq_none_iff.1 hclash d (choose?_mem_free h) hset)

end Split


/-! ## Grown trees -/

namespace Tree

/-- The tree takes the entries apart, over the dimensions that are free. -/
inductive Grown : List Nat → List (Entry α) → Tree α → Prop where
  | leaf {free : List Nat} {entries : List (Entry α)}
      (settled : ∀ d ∈ free, ∀ entry ∈ entries, entry.cell d = .any) :
      Grown free entries (.ofPayloads (entries.map Entry.payload))
  | scalar {free : List Nat} {entries : List (Entry α)} {d : Nat} {code : Int}
      {left right equal any : Tree α}
      (chosen : Split.choose? free entries = some (.scalar d code))
      (scalars : ∀ entry ∈ entries, (entry.cell d).isSet = false)
      (onLeft : Grown free (Entry.onSide entries d code .left) left)
      (onRight : Grown free (Entry.onSide entries d code .right) right)
      (onEqual : Grown (free.erase d) (Entry.onSide entries d code .equal) equal)
      (onAny : Grown (free.erase d) (Entry.withoutCode entries d) any) :
      Grown free entries (.scalar d code left right equal any)
  | sets {free : List Nat} {entries : List (Entry α)} {d : Nat}
      {branches : List (SetKey × Tree α)} {any : Tree α}
      (chosen : Split.choose? free entries = some (.sets d))
      (sets : ∀ entry ∈ entries, (entry.cell d).code? = none)
      (keys : branches.map Prod.fst = Entry.keysOn entries d)
      (onBranch : ∀ branch ∈ branches,
        Grown (free.erase d) (Entry.withKey entries d branch.1) branch.2)
      (onAny : Grown (free.erase d) (Entry.withoutKey entries d) any) :
      Grown free entries (.sets d branches any)

theorem grow_grown (space : Space) {free : List Nat} {entries : List (Entry α)}
    (h : Split.clash? free entries = none) :
    Grown free entries (grow space free entries).value := by
  induction free, entries using growth_induct with
  | leaf free entries hchoose =>
    rw [value_grow_of_none hchoose]
    exact .leaf (Split.choose?_eq_none_iff.1 hchoose)
  | scalar free entries d code hchoose ihLeft ihRight ihEqual ihAny =>
    have hsettled := Split.clash?_erase h d
    rw [value_grow_of_scalar hchoose]
    refine .scalar hchoose (Split.choose?_scalar_isSet hchoose) ?_ ?_ ?_ ?_
    · exact ihLeft (Split.clash?_filter h _)
    · exact ihRight (Split.clash?_filter h _)
    · exact ihEqual (Split.clash?_filter hsettled _)
    · exact ihAny (Split.clash?_filter hsettled _)
  | sets free entries d hchoose ihKey ihAny =>
    have hsettled := Split.clash?_erase h d
    rw [value_grow_of_sets hchoose]
    refine .sets hchoose (Split.choose?_sets_code? h hchoose) ?_ ?_ ?_
    · simp [Function.comp_def]
    · intro branch hbranch
      obtain ⟨key, _, rfl⟩ := List.mem_map.1 hbranch
      exact ihKey key (Split.clash?_filter hsettled _)
    · exact ihAny (Split.clash?_filter hsettled _)

end Tree
end RuleIndex
