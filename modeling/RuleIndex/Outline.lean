-- SUMMARY: Outlines: nested lines of text, drawn with a frame that shows the nesting.

/-!
# Outlines

An outline is a text with outlines below it. It is drawn one line per text, parents
before children. In front of a text stands one guide per ancestor, a bar where that
ancestor has siblings still to come, and a connector that bends at the last sibling.
-/

namespace RuleIndex

inductive Outline where
  | node (text : String) (children : List Outline)
  deriving Repr

namespace Outline

/-- One line of a drawing. -/
structure Line where
  /-- For every ancestor, outermost first, whether it has siblings still to come. -/
  guides : List Bool
  /-- Whether the text is the last among its siblings. -/
  isLast : Bool
  text : String
  deriving DecidableEq, Repr

def Line.render (line : Line) : String :=
  let guides := line.guides.map fun bar => if bar then "│   " else "    "
  String.join guides ++ (if line.isLast then "└── " else "├── ") ++ line.text

mutual

/-- The lines of an outline that stands below ancestors with these guides. -/
def lines (guides : List Bool) (isLast : Bool) : Outline → List Line
  | .node text children => ⟨guides, isLast, text⟩ :: forestLines (guides ++ [!isLast]) children

/-- The lines of sibling outlines. -/
def forestLines (guides : List Bool) : List Outline → List Line
  | [] => []
  | outline :: rest => outline.lines guides rest.isEmpty ++ forestLines guides rest

end

/-- The drawing of an outline; every line is ended. -/
def render (outline : Outline) : String :=
  String.join ((outline.lines [] true).map fun line => line.render ++ "\n")

end Outline
end RuleIndex
