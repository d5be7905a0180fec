-- SUMMARY: Lists of items written with commas between them, bare, in brackets or in braces.

/-!
# Delimited lists

Queries, constraints and payloads are written as lists of their parts, with commas
and without blanks.
-/

namespace RuleIndex

/-- Items with commas between them. -/
def commaList (items : List String) : String :=
  String.intercalate "," items

/-- Items with commas between them, in brackets. -/
def bracketed (items : List String) : String :=
  "[" ++ commaList items ++ "]"

/-- Items with commas between them, in braces. -/
def braced (items : List String) : String :=
  "\x7b" ++ commaList items ++ "\x7d"

/-- Items with commas between them, in parentheses. -/
def parenthesized (items : List String) : String :=
  "(" ++ commaList items ++ ")"

end RuleIndex
