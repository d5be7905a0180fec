-- SUMMARY: Trees of splits with payloads at the leaves, and their depth.
import RuleIndex.Split

/-!
# Trees

A scalar node sends the codes of its dimension left, right or to its `equal` child,
and keeps the entries that ask nothing of the dimension apart, under `any`. A set
node has one branch per set instead. Absent children are `empty`.
-/

namespace RuleIndex

/-- The three places of a code relative to a split. -/
inductive Side where
  | left
  | right
  | equal
  deriving DecidableEq, Repr

/-- The side of `split` on which a code lies. -/
def Side.of (split code : Int) : Side :=
  if code < split then .left
  else if split < code then .right
  else .equal

theorem Side.of_eq_left_iff {split code : Int} : Side.of split code = .left ↔ code < split := by
  unfold Side.of
  split
  · simp [*]
  · split <;> simp [*]

theorem Side.of_eq_right_iff {split code : Int} : Side.of split code = .right ↔ split < code := by
  unfold Side.of
  split
  · simp; omega
  · split <;> simp [*]

theorem Side.of_eq_equal_iff {split code : Int} : Side.of split code = .equal ↔ code = split := by
  unfold Side.of
  split
  · simp; omega
  · split
    · simp; omega
    · simp; omega

inductive Tree (α : Type) where
  | empty
  /-- The payloads of entries that nothing tells apart. -/
  | leaf (payloads : List α)
  | scalar (dimension : Nat) (split : Int) (left right equal any : Tree α)
  | sets (dimension : Nat) (branches : List (SetKey × Tree α)) (any : Tree α)
  deriving Repr

namespace Tree

variable {α : Type}

/-- The leaf of a list of payloads; without payloads there is no leaf. -/
def ofPayloads : List α → Tree α
  | [] => .empty
  | payloads => .leaf payloads

def isEmpty : Tree α → Bool
  | .empty => true
  | _ => false

mutual

/-- The number of nodes on the longest path to a leaf. -/
def depth : Tree α → Nat
  | .empty => 0
  | .leaf _ => 1
  | .scalar _ _ left right equal any =>
    1 + max (max left.depth right.depth) (max equal.depth any.depth)
  | .sets _ branches any => 1 + max (branchDepth branches) any.depth

/-- The greatest depth among branches. -/
def branchDepth : List (SetKey × Tree α) → Nat
  | [] => 0
  | (_, subtree) :: rest => max subtree.depth (branchDepth rest)

end

theorem branchDepth_le_iff {branches : List (SetKey × Tree α)} {n : Nat} :
    branchDepth branches ≤ n ↔ ∀ branch ∈ branches, branch.2.depth ≤ n := by
  induction branches with
  | nil => simp [branchDepth]
  | cons branch rest ih => simp only [branchDepth, Nat.max_le, ih, List.forall_mem_cons]

end Tree
end RuleIndex
