-- SUMMARY: JSON values, and readers for the shapes that rules and queries are written in.

/-!
# JSON values

A JSON text stands for a value of type `Json`. Numbers written as plain integers
are told apart from all others (a point, an exponent, a negative zero), since
only the former denote integers of the rule format. Members of an object keep
their order; a reader takes the first member of a name.
-/

namespace RuleIndex

inductive Json where
  | null
  | bool (b : Bool)
  | integer (n : Int)
  /-- A number that is not written as an integer, with its text. -/
  | decimal (literal : String)
  | string (s : String)
  | array (items : List Json)
  | object (members : List (String × Json))
  deriving Repr

namespace Json

/-- The member of an object with a name. -/
def member? (name : String) : Json → Option Json
  | .object members => members.lookup name
  | _ => none

def string? : Json → Option String
  | .string s => some s
  | _ => none

def bool? : Json → Option Bool
  | .bool b => some b
  | _ => none

/-- The items of an array, each read by `read`; all of them must be readable. -/
def list? {β : Type} (read : Json → Option β) : Json → Option (List β)
  | .array items => items.mapM read
  | _ => none

end Json
end RuleIndex
