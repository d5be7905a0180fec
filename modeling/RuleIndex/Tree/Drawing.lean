-- SUMMARY: The outline of a tree: one text per node, labelled by the way that leads to it.
import RuleIndex.Delimited
import RuleIndex.Outline
import RuleIndex.Tree

/-!
# Drawing a tree

A leaf shows its payloads, any other node its dimension and its split. Children are
listed left, right, equal, any, and then set by set. Absent children are left out.
-/

namespace RuleIndex

variable {α : Type}

/-- The label of a set branch on dimension `d`: its codes, to be met or to be avoided. -/
def SetKey.label (space : Space) (d : Nat) (key : SetKey) : String :=
  (if key.inclusive then "in:" else "not in:") ++ bracketed (key.codes.map (space.render d))

namespace Tree

/-- The text of a node that splits dimension `d` at a code. -/
def splitText (space : Space) (d : Nat) (code : Int) : String :=
  "kdn|d:" ++ space.name d ++ "/" ++ toString d ++ ",sv:" ++ space.render d code

mutual

/-- The outline of a tree under a label; an empty tree has none. -/
def outlines [ToString α] (space : Space) (label : String) : Tree α → List Outline
  | .empty => []
  | .leaf payloads => [.node (label ++ ":dn|" ++ bracketed (payloads.map toString)) []]
  | .scalar d split left right equal any =>
    [.node (label ++ ":" ++ splitText space d split)
      (left.outlines space "l" ++ right.outlines space "r" ++
        equal.outlines space "eq" ++ any.outlines space "a")]
  | .sets d branches any =>
    [.node (label ++ ":" ++ splitText space d anyCode)
      (any.outlines space "a" ++ branchOutlines space d branches)]

/-- The outlines of the branches of a set node. -/
def branchOutlines [ToString α] (space : Space) (d : Nat) :
    List (SetKey × Tree α) → List Outline
  | [] => []
  | (key, subtree) :: rest =>
    subtree.outlines space (key.label space d) ++ branchOutlines space d rest

end

/-- The outline of a whole tree; an empty one shows its root alone. -/
def outline [ToString α] (space : Space) (tree : Tree α) : Outline :=
  (tree.outlines space "root").headD (.node "root:" [])

end Tree
end RuleIndex
