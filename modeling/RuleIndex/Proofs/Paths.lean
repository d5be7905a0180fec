-- SUMMARY: Paths down a tree: the turns from a node to its children, and what they tell about the entries that a path leads to.
import RuleIndex.Proofs.Leaves

/-!
# Paths

A path to a node is the list of turns taken on the way down. A turn leaves the dimension of its
node open if it goes to the left or to the right, and settles it if it goes anywhere else. All
entries at the end of a path go the way of every turn on it.

`Tree.Grown.turn` says what one turn does, `Tree.Grown.walk` what a whole path does.
-/

namespace RuleIndex

variable {α : Type}

/-! ## Turns -/

/-- The way from a node to one of its children. -/
inductive Way where
  | left (split : Int)
  | right (split : Int)
  | equal (split : Int)
  | any
  | set (key : SetKey)
  deriving DecidableEq, Repr

/-- A step from a node that splits a dimension to one of its children. -/
structure Turn where
  dimension : Nat
  way : Way
  deriving DecidableEq, Repr

namespace Way

/-- Whether the dimension is not split again further down. -/
def settles : Way → Bool
  | .left _ | .right _ => false
  | _ => true

/-- The cells that go this way. -/
def Takes : Way → Cell → Prop
  | .left split, cell => ∃ code, cell = .equal code ∧ code < split
  | .right split, cell => ∃ code, cell = .equal code ∧ split < code
  | .equal split, cell => cell = .equal split
  | .any, cell => cell.code? = none ∧ cell.key? = none
  | .set key, cell => cell = .set key

theorem settles_eq_false_iff {way : Way} :
    way.settles = false ↔ ∃ split, way = .left split ∨ way = .right split := by
  cases way <;> simp [settles]

/-- Only scalars turn to a side. -/
theorem takes_of_not_settles {way : Way} (h : way.settles = false) {cell : Cell}
    (htakes : way.Takes cell) : ∃ code, cell = .equal code := by
  obtain ⟨split, rfl | rfl⟩ := settles_eq_false_iff.1 h
  · exact htakes.imp fun _ => And.left
  · exact htakes.imp fun _ => And.left

end Way

/-- The dimensions that are free after a turn. -/
def Turn.remaining (turn : Turn) (free : List Nat) : List Nat :=
  if turn.way.settles then free.erase turn.dimension else free

theorem Turn.mem_remaining_iff {turn : Turn} {free : List Nat} (h : free.Nodup) {d : Nat} :
    d ∈ turn.remaining free ↔ d ∈ free ∧ (turn.way.settles = true → d ≠ turn.dimension) := by
  unfold remaining
  split
  · next hsettles => simp [hsettles, h.mem_erase_iff, and_comm]
  · next hsettles => simp [hsettles]

theorem Turn.nodup_remaining {turn : Turn} {free : List Nat} (h : free.Nodup) :
    (turn.remaining free).Nodup := by
  unfold remaining
  split
  · exact h.erase _
  · exact h


/-! ## Walks -/

namespace Tree

/-- The dimension that a node splits. -/
def dimension? : Tree α → Option Nat
  | .scalar d .. | .sets d .. => some d
  | _ => none

/-- The children of a node, absent ones included, each with the turn to it. -/
def children : Tree α → List (Turn × Tree α)
  | .empty | .leaf _ => []
  | .scalar d split left right equal any =>
    [(⟨d, .left split⟩, left), (⟨d, .right split⟩, right), (⟨d, .equal split⟩, equal),
      (⟨d, .any⟩, any)]
  | .sets d branches any =>
    branches.map (fun (key, tree) => (⟨d, .set key⟩, tree)) ++ [(⟨d, .any⟩, any)]

section Children

variable {d : Nat} {split : Int} {left right equal any child : Tree α} {turn : Turn}
  {branches : List (SetKey × Tree α)}

theorem mem_children_scalar_iff : (turn, child) ∈ (scalar d split left right equal any).children ↔
    turn = ⟨d, .left split⟩ ∧ child = left ∨ turn = ⟨d, .right split⟩ ∧ child = right ∨
      turn = ⟨d, .equal split⟩ ∧ child = equal ∨ turn = ⟨d, .any⟩ ∧ child = any := by
  simp only [children, List.mem_cons, List.not_mem_nil, Prod.mk.injEq, or_false]

theorem mem_children_sets_iff : (turn, child) ∈ (sets d branches any).children ↔
    (∃ key, turn = ⟨d, .set key⟩ ∧ (key, child) ∈ branches) ∨ turn = ⟨d, .any⟩ ∧ child = any := by
  simp only [children, List.mem_append, List.mem_map, List.mem_singleton, Prod.mk.injEq]
  apply or_congr_left
  constructor
  · rintro ⟨branch, hbranch, rfl, rfl⟩
    exact ⟨branch.1, rfl, hbranch⟩
  · rintro ⟨key, rfl, hbranch⟩
    exact ⟨(key, child), hbranch, rfl, rfl⟩

end Children

/-- The path leads from one node down to another. -/
inductive Walk : Tree α → List Turn → Tree α → Prop where
  | nil {tree : Tree α} : Walk tree [] tree
  | cons {tree child node : Tree α} {turn : Turn} {path : List Turn}
      (here : (turn, child) ∈ tree.children) (rest : Walk child path node) :
      Walk tree (turn :: path) node

theorem Walk.append_cons {tree node : Tree α} {before after : List Turn} {turn : Turn}
    (h : tree.Walk (before ++ turn :: after) node) :
    ∃ parent child, tree.Walk before parent ∧ (turn, child) ∈ parent.children ∧
      child.Walk after node := by
  induction before generalizing tree with
  | nil =>
    cases h with
    | cons here rest => exact ⟨tree, _, .nil, here, rest⟩
  | cons first before ih =>
    cases h with
    | cons here rest =>
      obtain ⟨parent, child, hparent, hchild, hrest⟩ := ih rest
      exact ⟨parent, child, .cons here hparent, hchild, hrest⟩

/-- There is no way down from an absent node. -/
theorem Walk.of_empty {path : List Turn} {node : Tree α} (h : empty.Walk path node) :
    node = .empty := by
  cases h with
  | nil => rfl
  | cons here => cases here

theorem dimension?_of_mem_children {tree child : Tree α} {turn : Turn}
    (h : (turn, child) ∈ tree.children) : tree.dimension? = some turn.dimension := by
  cases tree with
  | empty => cases h
  | leaf payloads => cases h
  | scalar d split left right equal any =>
    rcases mem_children_scalar_iff.1 h with ⟨rfl, _⟩ | ⟨rfl, _⟩ | ⟨rfl, _⟩ | ⟨rfl, _⟩ <;> rfl
  | sets d branches any =>
    rcases mem_children_sets_iff.1 h with ⟨key, rfl, _⟩ | ⟨rfl, _⟩ <;> rfl


/-! ## Walks down a grown tree -/

namespace Grown

variable {free : List Nat} {entries : List (Entry α)} {tree : Tree α}

/-- Without entries there is nothing to grow. -/
theorem eq_empty (h : Grown free ([] : List (Entry α)) tree) : tree = .empty := by
  have hempty : tree.isEmpty = true := h.isEmpty_iff.2 rfl
  cases tree with
  | empty => rfl
  | _ => cases hempty

theorem dimension_mem_free (h : Grown free entries tree) {d : Nat}
    (hd : tree.dimension? = some d) : d ∈ free := by
  cases h with
  | leaf => cases entries <;> cases hd
  | scalar chosen => exact Option.some.inj hd ▸ Split.choose?_mem_free chosen
  | sets chosen => exact Option.some.inj hd ▸ Split.choose?_mem_free chosen

/-- A turn leads to those of the entries that go its way. -/
theorem turn (h : Grown free entries tree) {turn : Turn} {child : Tree α}
    (hchild : (turn, child) ∈ tree.children) :
    ∃ entries', Grown (turn.remaining free) entries' child ∧
      ∀ entry ∈ entries', entry ∈ entries ∧ turn.way.Takes (entry.cell turn.dimension) := by
  cases h with
  | leaf => cases entries <;> cases hchild
  | @scalar _ _ d split left right equal any chosen scalars onLeft onRight onEqual onAny =>
    rcases mem_children_scalar_iff.1 hchild with
      ⟨rfl, rfl⟩ | ⟨rfl, rfl⟩ | ⟨rfl, rfl⟩ | ⟨rfl, rfl⟩
    · refine ⟨_, onLeft, fun entry hentry => ?_⟩
      obtain ⟨hmem, code, hcode, hside⟩ := Entry.mem_onSide.1 hentry
      exact ⟨hmem, code, hcode, Side.of_eq_left_iff.1 hside⟩
    · refine ⟨_, onRight, fun entry hentry => ?_⟩
      obtain ⟨hmem, code, hcode, hside⟩ := Entry.mem_onSide.1 hentry
      exact ⟨hmem, code, hcode, Side.of_eq_right_iff.1 hside⟩
    · refine ⟨_, onEqual, fun entry hentry => ?_⟩
      obtain ⟨hmem, code, hcode, hside⟩ := Entry.mem_onSide.1 hentry
      exact ⟨hmem, Side.of_eq_equal_iff.1 hside ▸ hcode⟩
    · refine ⟨_, onAny, fun entry hentry => ?_⟩
      obtain ⟨hmem, hcode⟩ := Entry.mem_withoutCode.1 hentry
      have hany : entry.cell d = .any := Cell.eq_any_iff.2 ⟨scalars entry hmem, hcode⟩
      exact ⟨hmem, hcode, by rw [hany]; rfl⟩
  | @sets _ _ d branches any chosen sets keys onBranch onAny =>
    rcases mem_children_sets_iff.1 hchild with ⟨key, rfl, hbranch⟩ | ⟨rfl, rfl⟩
    · refine ⟨_, onBranch _ hbranch, fun entry hentry => ?_⟩
      obtain ⟨hmem, hkey⟩ := Entry.mem_withKey.1 hentry
      exact ⟨hmem, (Cell.key?_eq_some_iff.1 hkey).1⟩
    · refine ⟨_, onAny, fun entry hentry => ?_⟩
      obtain ⟨hmem, hkey⟩ := Entry.mem_withoutKey.1 hentry
      exact ⟨hmem, sets entry hmem, hkey⟩

end Grown

/-- What is known at the end of a path: all entries went the way of every turn, and the
    dimensions that a turn settled are not free. -/
structure Arrives (path : List Turn) (free : List Nat) (entries : List (Entry α)) : Prop where
  nodup : free.Nodup
  taken : ∀ turn ∈ path, ∀ entry ∈ entries, turn.way.Takes (entry.cell turn.dimension)
  settled : ∀ turn ∈ path, turn.way.settles = true → turn.dimension ∉ free

theorem Arrives.root {free : List Nat} (h : free.Nodup) (entries : List (Entry α)) :
    Arrives [] free entries where
  nodup := h
  taken turn hturn := by cases hturn
  settled turn hturn := by cases hturn

theorem Arrives.turn {path : List Turn} {free : List Nat} {entries entries' : List (Entry α)}
    (h : Arrives path free entries) {turn : Turn}
    (htakes : ∀ entry ∈ entries', entry ∈ entries ∧ turn.way.Takes (entry.cell turn.dimension)) :
    Arrives (path ++ [turn]) (turn.remaining free) entries' where
  nodup := Turn.nodup_remaining h.nodup
  taken turn' hturn' entry hentry := by
    obtain ⟨hmem, htakes⟩ := htakes entry hentry
    rcases List.mem_append.1 hturn' with hturn' | hturn'
    · exact h.taken turn' hturn' entry hmem
    · rwa [List.mem_singleton.1 hturn']
  settled turn' hturn' hsettles := by
    rw [Turn.mem_remaining_iff h.nodup]
    rintro ⟨hfree, hne⟩
    rcases List.mem_append.1 hturn' with hturn' | hturn'
    · exact h.settled turn' hturn' hsettles hfree
    · obtain rfl := List.mem_singleton.1 hturn'
      exact hne hsettles rfl

/-- A path leads to a tree grown from some of the entries, which went the way of every turn. -/
theorem Grown.walk {free : List Nat} {entries : List (Entry α)} {tree node : Tree α}
    (h : Grown free entries tree) {before path : List Turn} (harrives : Arrives before free entries)
    (hwalk : tree.Walk path node) :
    ∃ free' entries', Grown free' entries' node ∧ Arrives (before ++ path) free' entries' ∧
      ∀ entry ∈ entries', entry ∈ entries := by
  induction hwalk generalizing before free entries with
  | nil => exact ⟨free, entries, h, by rwa [List.append_nil], fun _ => id⟩
  | @cons tree child node turn path here _ ih =>
    obtain ⟨own, hgrown, htakes⟩ := h.turn here
    obtain ⟨free', entries', hnode, hend, hsub⟩ := ih hgrown (harrives.turn htakes)
    rw [List.append_assoc, List.singleton_append] at hend
    exact ⟨free', entries', hnode, hend, fun entry hentry => (htakes entry (hsub entry hentry)).1⟩

end Tree
end RuleIndex
