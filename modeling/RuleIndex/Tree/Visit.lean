-- SUMMARY: Visits: all leaves of a tree, each with the constraints on the path to it and the dimensions on which a query left that path.
import RuleIndex.Tree.Search

/-!
# Visits

Unlike a search, a visit goes everywhere. The path to a leaf records what it asks of
every dimension, and where the query parted from it. A leaf whose path never failed
is one that the search reaches.
-/

namespace RuleIndex

variable {α : Type}

/-- What the path to a node asks of one dimension. -/
inductive PathConstraint where
  | any
  | equal (code : Int)
  /-- Codes strictly between two bounds, either of which may be absent. -/
  | range (above below : Option Int)
  | set (key : SetKey)
  deriving DecidableEq, Repr

/-- The constraint after a step to one side of `split`: its two outer sides narrow a
    range, and start one where there was none. -/
def PathConstraint.toward (constraint : PathConstraint) (split : Int) (side : Side) :
    PathConstraint :=
  let (above, below) := match constraint with
    | .range above below => (above, below)
    | _ => (none, none)
  match side with
  | .left => .range above (some (below.elim split (min split)))
  | .right => .range (some (above.elim split (max split))) below
  | .equal => .equal split

/-- A dimension on which a query parted from a path. -/
structure Failure where
  dimension : Nat
  /-- `notContains` if the query held something excluded, `ordered` if it lacked
      something required. -/
  kind : Operation
  deriving DecidableEq, Repr

/-- The way to a node, as far as a query is concerned. -/
structure Path where
  /-- What the path asks, dimension by dimension. -/
  constraints : List PathConstraint
  /-- Where the query parted from it, in the order of the path. -/
  failures : List Failure
  deriving DecidableEq, Repr

namespace Path

/-- The path to the root, over a number of dimensions. -/
def root (dimensions : Nat) : Path :=
  ⟨List.replicate dimensions .any, []⟩

def failedOn (path : Path) (d : Nat) : Bool :=
  path.failures.any (·.dimension == d)

/-- Note a failure unless the query is admitted. A dimension fails at most once. -/
def check (path : Path) (d : Nat) (kind : Operation) (admitted : Bool) : Path :=
  if admitted || path.failedOn d then path
  else { path with failures := path.failures ++ [⟨d, kind⟩] }

/-- The path to the child on one side of a scalar split. -/
def toSide (path : Path) (d : Nat) (op : Operation) (codes : List Int) (split : Int)
    (side : Side) : Path :=
  let narrowed := { path with constraints := path.constraints.modify d (·.toward split side) }
  narrowed.check d op (op.admits codes split side)

/-- The path to the branch of a set. -/
def toSet (path : Path) (d : Nat) (codes : List Int) (key : SetKey) : Path :=
  let narrowed := { path with constraints := path.constraints.set d (.set key) }
  narrowed.check d (if key.inclusive then .ordered else .notContains) (key.admits codes)

end Path

/-- A leaf and the path to it. -/
structure Visit (α : Type) where
  path : Path
  payloads : List α

/-- The order in which the sides of a split are visited. -/
def Operation.visitOrder (op : Operation) (codes : List Int) : List Side :=
  if codes.isEmpty then [.equal, .right, .left]
  else match op with
    | .ordered => [.left, .equal, .right]
    | .notContains => [.left, .right, .equal]

namespace Tree

mutual

/-- All leaves below a node that `path` leads to. -/
def visits (space : Space) (query : CodedQuery) (path : Path) : Tree α → List (Visit α)
  | .empty => []
  | .leaf payloads => [⟨path, payloads⟩]
  | .scalar d split left right equal any =>
    let op := space.operation d
    let codes := query.codesAt d
    let toSide := path.toSide d op codes split
    let onLeft := left.visits space query (toSide .left)
    let onRight := right.visits space query (toSide .right)
    let onEqual := equal.visits space query (toSide .equal)
    any.visits space query path ++ (op.visitOrder codes).flatMap fun
      | .left => onLeft
      | .right => onRight
      | .equal => onEqual
  | .sets d branches any =>
    any.visits space query path ++ visitBranches space query path d branches

/-- All leaves below the branches of a set node on dimension `d`. -/
def visitBranches (space : Space) (query : CodedQuery) (path : Path) (d : Nat) :
    List (SetKey × Tree α) → List (Visit α)
  | [] => []
  | (key, subtree) :: rest =>
    subtree.visits space query (path.toSet d (query.codesAt d) key) ++
      visitBranches space query path d rest

end

end Tree
end RuleIndex
