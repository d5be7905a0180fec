-- SUMMARY: Search: the payloads of the leaves that a coded query reaches.
import RuleIndex.Tree

/-!
# Search

A query descends into every child that may hold a matching entry. Entries that ask
nothing of the node's dimension are always reached, and a wildcard reaches all.
-/

namespace RuleIndex

variable {α : Type}

/-- Whether a query with these codes may match an entry on one side of a split. An ordered
    dimension needs a query code on that side. A dimension of excluded values is ruled out
    only at the split itself, when the query holds no other code. -/
def Operation.admits (op : Operation) (codes : List Int) (split : Int) (side : Side) : Bool :=
  codes.isEmpty ||
    match op, side with
    | .ordered, side => codes.any fun code => Side.of split code == side
    | .notContains, .equal => codes.any fun code => code != split
    | .notContains, _ => true

namespace Tree

mutual

/-- The payloads of all leaves that the query reaches. -/
def find (space : Space) (query : CodedQuery) : Tree α → List α
  | .empty => []
  | .leaf payloads => payloads
  | .scalar d split left right equal any =>
    let admits := (space.operation d).admits (query.codesAt d) split
    any.find space query ++
      (if admits .left then left.find space query else []) ++
      (if admits .equal then equal.find space query else []) ++
      (if admits .right then right.find space query else [])
  | .sets d branches any =>
    any.find space query ++ findBranches space query d branches

/-- The payloads reached through the branches of a set node on dimension `d`. -/
def findBranches (space : Space) (query : CodedQuery) (d : Nat) :
    List (SetKey × Tree α) → List α
  | [] => []
  | (key, subtree) :: rest =>
    (if key.admits (query.codesAt d) then subtree.find space query else []) ++
      findBranches space query d rest

end

end Tree
end RuleIndex
