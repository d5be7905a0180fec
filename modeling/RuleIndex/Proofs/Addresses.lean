-- SUMMARY: Addresses: the lines of an outline, each told by the way from the root to its text, and how the lines are read back from a drawing.
import Mathlib.Data.List.Lex
import RuleIndex.Outline

/-!
# Addresses

The address of a node is the list of places taken on the way down to it, one child a step. A
drawing of an outline has one line for every address, in lexicographic order: parents come before
children, and children in their order (`Outline.lines_eq`). What stands in front of a text follows
from which addresses there are: whether one with a greater last place exists.

A drawing of texts without line breaks can be read back line by line (`Outline.splitOn_render`),
and from a line how far down its text stands (`Outline.Line.indentation_render`).
-/

namespace RuleIndex

/-! ## The way down -/

namespace Address

variable {β γ : Type} {children : β → List β} {node child : β}

/-- What stands at an address below a node. -/
def descend? (children : β → List β) (node : β) : List Nat → Option β
  | [] => some node
  | i :: rest => (children node)[i]?.bind (descend? children · rest)

/-- Whether siblings still come after an address: something stands at the next place. `more` says
    so of the root. -/
def followed (children : β → List β) (more : Bool) (node : β) (address : List Nat) : Bool :=
  match address.getLast? with
  | none => more
  | some i => (descend? children node (address.dropLast ++ [i + 1])).isSome

theorem descend?_cons {i : Nat} (h : (children node)[i]? = some child) (rest : List Nat) :
    descend? children node (i :: rest) = descend? children child rest := by
  rw [descend?, h, Option.bind_some]

/-- What passes from nodes to their children holds of all that stands below them. -/
theorem descend?_invariant {motive : β → Prop}
    (step : ∀ node, motive node → ∀ child ∈ children node, motive child) (hnode : motive node)
    {address : List Nat} {found : β} (h : descend? children node address = some found) :
    motive found := by
  induction address generalizing node with
  | nil => exact Option.some.inj h ▸ hnode
  | cons i rest ih =>
    obtain ⟨child, hchild, hrest⟩ := Option.bind_eq_some_iff.1 h
    exact ih (step node hnode child (List.mem_of_getElem? hchild)) hrest

theorem followed_cons {i : Nat} (h : (children node)[i]? = some child) (more : Bool)
    (rest : List Nat) : followed children more node (i :: rest) =
      followed children (decide (i + 1 < (children node).length)) child rest := by
  unfold followed
  cases hlast : rest.getLast? with
  | none =>
    obtain rfl := List.getLast?_eq_none_iff.1 hlast
    simp only [List.getLast?_singleton, List.dropLast_singleton, List.nil_append, descend?,
      Option.bind_fun_some]
    rw [Bool.eq_iff_iff, decide_eq_true_iff, isSome_getElem?]
  | some j =>
    have hne : rest ≠ [] := by
      rintro rfl
      cases hlast
    rw [List.getLast?_cons_of_ne_nil hne, hlast, List.dropLast_cons_of_ne_nil hne]
    exact congrArg Option.isSome (descend?_cons h _)

section Map

variable {children' : γ → List γ} {f : β → γ}
  (h : ∀ node, children' (f node) = (children node).map f)

include h

/-- A map that keeps children keeps addresses. -/
theorem descend?_map (node : β) (address : List Nat) :
    descend? children' (f node) address = (descend? children node address).map f := by
  induction address generalizing node with
  | nil => rfl
  | cons i rest ih =>
    rw [descend?, descend?, h, List.getElem?_map]
    cases (children node)[i]? with
    | none => rfl
    | some child => exact ih child

theorem followed_map (more : Bool) (node : β) (address : List Nat) :
    followed children' more (f node) address = followed children more node address := by
  unfold followed
  split
  · rfl
  · rw [descend?_map h, Option.isSome_map]

end Map
end Address

namespace Outline

open Address

def text : Outline → String
  | .node text _ => text

def children : Outline → List Outline
  | .node _ children => children

/-- A property of outlines holds if it passes from all children to their parent. -/
@[elab_as_elim, induction_eliminator]
theorem induction {motive : Outline → Prop}
    (node : ∀ text children, (∀ child ∈ children, motive child) → motive (.node text children))
    (outline : Outline) : motive outline :=
  outline.rec (motive_2 := fun children => ∀ child ∈ children, motive child) node
    (fun _ h => absurd h List.not_mem_nil) fun _ _ head tail => List.forall_mem_cons.2 ⟨head, tail⟩


/-! ## All addresses in order -/

mutual

/-- The addresses of all parts of an outline, its own first. -/
def addresses : Outline → List (List Nat)
  | .node _ children => [] :: addressesFrom 0 children

/-- The addresses of all parts of children that stand at the places from `first` on. -/
def addressesFrom (first : Nat) : List Outline → List (List Nat)
  | [] => []
  | outline :: rest => outline.addresses.map (first :: ·) ++ addressesFrom (first + 1) rest

end

theorem addresses_eq (outline : Outline) :
    outline.addresses = [] :: addressesFrom 0 outline.children := by
  cases outline
  rfl

theorem mem_addressesFrom_iff {first : Nat} {outlines : List Outline} {address : List Nat} :
    address ∈ addressesFrom first outlines ↔ ∃ (i : Nat) (outline : Outline) (rest : List Nat),
      outlines[i]? = some outline ∧ rest ∈ outline.addresses ∧ address = (first + i) :: rest := by
  induction outlines generalizing first with
  | nil => simp [addressesFrom]
  | cons outline outlines ih =>
    rw [addressesFrom, List.mem_append, List.mem_map, ih]
    constructor
    · rintro (⟨rest, hrest, rfl⟩ | ⟨i, own, rest, hi, hrest, rfl⟩)
      · exact ⟨0, outline, rest, rfl, hrest, rfl⟩
      · exact ⟨i + 1, own, rest, hi, hrest, by rw [Nat.add_right_comm, Nat.add_assoc]⟩
    · rintro ⟨i, own, rest, hi, hrest, rfl⟩
      cases i with
      | zero =>
        obtain rfl := Option.some.inj hi
        exact .inl ⟨rest, hrest, rfl⟩
      | succ i => exact .inr ⟨i, own, rest, hi, hrest, by rw [Nat.add_right_comm, Nat.add_assoc]⟩

/-- Every address is listed. -/
theorem mem_addresses_iff {outline : Outline} {address : List Nat} :
    address ∈ outline.addresses ↔ (descend? children outline address).isSome = true := by
  induction outline generalizing address with
  | node text below ih =>
    rw [addresses, List.mem_cons, mem_addressesFrom_iff]
    cases address with
    | nil => simp [descend?]
    | cons i rest =>
      simp only [Nat.zero_add, List.cons.injEq, reduceCtorEq, false_or, descend?, children,
        Option.isSome_bind, Option.any_eq_true]
      constructor
      · rintro ⟨_, child, _, hi, hrest, rfl, rfl⟩
        exact ⟨child, hi, (ih child (List.mem_of_getElem? hi)).1 hrest⟩
      · rintro ⟨child, hi, hrest⟩
        exact ⟨i, child, rest, hi, (ih child (List.mem_of_getElem? hi)).2 hrest, rfl, rfl⟩

theorem pairwise_addressesFrom {outlines : List Outline} (first : Nat)
    (h : ∀ outline ∈ outlines, outline.addresses.Pairwise (· < ·)) :
    (addressesFrom first outlines).Pairwise (· < ·) := by
  induction outlines generalizing first with
  | nil => exact List.Pairwise.nil
  | cons outline outlines ih =>
    obtain ⟨houtline, hrest⟩ := List.forall_mem_cons.1 h
    rw [addressesFrom, List.pairwise_append]
    refine ⟨?_, ih (first + 1) hrest, ?_⟩
    · refine List.pairwise_map.2 (houtline.imp fun hlt => ?_)
      exact List.cons_lt_cons_iff.2 (.inr ⟨rfl, hlt⟩)
    · simp only [List.forall_mem_map]
      intro front _ address haddress
      obtain ⟨i, _, back, _, _, rfl⟩ := mem_addressesFrom_iff.1 haddress
      exact List.cons_lt_cons_iff.2 (.inl (by omega))

/-- The order of the list is the order of addresses. -/
theorem pairwise_addresses (outline : Outline) : outline.addresses.Pairwise (· < ·) := by
  induction outline with
  | node text below ih =>
    rw [addresses, List.pairwise_cons]
    refine ⟨fun address haddress => ?_, pairwise_addressesFrom 0 ih⟩
    obtain ⟨i, _, rest, _, _, rfl⟩ := mem_addressesFrom_iff.1 haddress
    exact List.nil_lt_cons _ _

example : (node "a" [node "b" [node "c" []], node "d" []]).addresses = [[], [0], [0, 0], [1]] :=
  rfl

/-- What stands at the addresses below children from some place on stands there child by child. -/
theorem filterMap_addressesFrom {β : Type} {next : β → List β} {node : β} (f : β → Outline)
    (before after : List β) (h : next node = before ++ after) :
    (addressesFrom before.length (after.map f)).filterMap (descend? next node) =
      after.flatMap fun child => (f child).addresses.filterMap (descend? next child) := by
  induction after generalizing before with
  | nil => rfl
  | cons child after ih =>
    have hplace : (next node)[before.length]? = some child := by simp [h]
    have hrest := ih (before ++ [child]) (by simp [h])
    rw [List.length_append, List.length_singleton] at hrest
    rw [List.map_cons, addressesFrom, List.filterMap_append, List.filterMap_map, hrest,
      List.flatMap_cons]
    simp only [Function.comp_def, descend?_cons hplace]


/-! ## Lines by address -/

/-- The line at an address, if the root has these guides. -/
def lineAt (guides : List Bool) (more : Bool) (outline : Outline) (address : List Nat) : Line where
  guides := guides ++
    (List.range address.length).map fun j => followed children more outline (address.take j)
  isLast := !followed children more outline address
  text := (descend? children outline address).elim "" text

/-- The line of a part below a child is the one that the child gives it. -/
theorem lineAt_cons {outline child : Outline} {i : Nat} (h : outline.children[i]? = some child)
    (guides : List Bool) (more : Bool) (rest : List Nat) :
    outline.lineAt guides more (i :: rest) =
      child.lineAt (guides ++ [more]) (decide (i + 1 < outline.children.length)) rest := by
  simp only [lineAt, followed_cons h, descend?_cons h, List.length_cons, List.range_succ_eq_map,
    List.map_cons, List.map_map, List.take_zero, List.take_succ_cons, Function.comp_def,
    Nat.succ_eq_add_one, List.append_assoc, List.singleton_append]
  rfl

/-- The lines of children from some place on are those of their addresses below the parent. -/
theorem forestLines_eq {guides : List Bool} {more : Bool} {outline : Outline}
    (before after : List Outline) (hchildren : outline.children = before ++ after)
    (h : ∀ child ∈ after, ∀ guides more,
      child.lines guides (!more) = child.addresses.map (child.lineAt guides more)) :
    forestLines (guides ++ [more]) after =
      (addressesFrom before.length after).map (outline.lineAt guides more) := by
  -- What comes before a child only tells its place, so it grows along with the induction.
  induction after generalizing before with
  | nil => rfl
  | cons child after ih =>
    obtain ⟨hchild, hafter⟩ := List.forall_mem_cons.1 h
    have hplace : outline.children[before.length]? = some child := by simp [hchildren]
    have hlast : after.isEmpty = !decide (before.length + 1 < outline.children.length) := by
      cases after <;> simp [hchildren]
    have hrest := ih (before ++ [child]) (by simp [hchildren]) hafter
    rw [List.length_append, List.length_singleton] at hrest
    rw [forestLines, addressesFrom, List.map_append, hlast, hchild, hrest, List.map_map]
    simp only [Function.comp_def, lineAt_cons hplace]

/-- A drawing has the line of every address, in their order. -/
theorem lines_eq (outline : Outline) (guides : List Bool) (more : Bool) :
    outline.lines guides (!more) = outline.addresses.map (outline.lineAt guides more) := by
  induction outline generalizing guides more with
  | node text below ih =>
    have hroot : (node text below).lineAt guides more [] = ⟨guides, !more, text⟩ := by
      rw [lineAt, List.length_nil, List.range_zero, List.map_nil, List.append_nil]
      rfl
    have hbelow : forestLines (guides ++ [more]) below =
        (addressesFrom 0 below).map ((node text below).lineAt guides more) :=
      forestLines_eq [] below rfl ih
    rw [lines, addresses, List.map_cons, Bool.not_not, hroot, hbelow]


/-! ## Reading a drawing -/

/-- How many guides a line begins with. -/
def indentation : List Char → Nat
  | '│' :: ' ' :: ' ' :: ' ' :: rest => indentation rest + 1
  | ' ' :: ' ' :: ' ' :: ' ' :: rest => indentation rest + 1
  | _ => 0

theorem Line.indentation_render (line : Line) :
    indentation line.render.toList = line.guides.length := by
  obtain ⟨guides, isLast, text⟩ := line
  induction guides with
  | nil => cases isLast <;> simp [Line.render, indentation]
  | cons bar guides ih =>
    rw [List.length_cons, ← ih]
    cases bar <;> simp [Line.render, indentation]

theorem Line.not_mem_render {line : Line} (h : '\n' ∉ line.text.toList) :
    '\n' ∉ line.render.toList := by
  obtain ⟨guides, isLast, text⟩ := line
  have hguides : '\n' ∉ guides.flatMap fun bar => (if bar then "│   " else "    ").toList := by
    rw [List.mem_flatMap]
    rintro ⟨bar, _, hbar⟩
    cases bar <;> simp at hbar
  cases isLast <;> simp_all [Line.render, String.toList_join, List.flatMap_map]

/-- The lines of a drawing of texts without breaks are read back, and nothing follows the last. -/
theorem splitOn_render {outline : Outline}
    (h : ∀ line ∈ outline.lines [] true, '\n' ∉ line.text.toList) :
    outline.render.toList.splitOn '\n' =
      (outline.lines [] true).map (fun line => line.render.toList) ++ [[]] := by
  rw [render, String.toList_join, List.flatMap_map]
  generalize outline.lines [] true = lines at h ⊢
  induction lines with
  | nil => rfl
  | cons line lines ih =>
    obtain ⟨hline, hlines⟩ := List.forall_mem_cons.1 h
    have hbreak : "\n".toList = ['\n'] := rfl
    rw [List.flatMap_cons, String.toList_append, hbreak, List.append_assoc, List.singleton_append,
      List.splitOn_append_cons_self_of_not_mem (Line.not_mem_render hline), ih hlines,
      List.map_cons, List.cons_append]

end Outline
end RuleIndex
