-- SUMMARY: The values that rules and queries speak of: booleans, 64-bit integers and texts, with their order and their written form.

/-!
# Values

A value belongs to one of three kinds. Kinds are ordered boolean, integer, text,
and values of one kind by their own order: `false` before `true`, integers by
size, texts by code point.
-/

namespace RuleIndex

/-- A domain value held by a rule or given in a query. -/
inductive Value where
  | bool (b : Bool)
  | integer (n : Int64)
  | text (s : String)
  deriving DecidableEq, Repr

namespace Value

/-- The integer of an integer value. -/
def integer? : Value → Option Int
  | .integer n => some n.toInt
  | _ => none

/-- The string of a text value. -/
def text? : Value → Option String
  | .text s => some s
  | _ => none

/-- The written form: a truth value in words, an integer in decimal, a text as it is. -/
def render : Value → String
  | .bool true => "true"
  | .bool false => "false"
  | .integer n => toString n.toInt
  | .text s => s

/-- The place of a value's kind among the kinds. -/
def kindRank : Value → Nat
  | .bool _ => 0
  | .integer _ => 1
  | .text _ => 2

/-- Values of one kind by their own order, values of two kinds by kind. -/
def compare : Value → Value → Ordering
  | .bool a, .bool b => Ord.compare a b
  | .integer a, .integer b => Ord.compare a b
  | .text a, .text b => Ord.compare a b
  | a, b => Ord.compare a.kindRank b.kindRank

instance : Ord Value := ⟨compare⟩

/-- The values of a list in ascending order; repetitions stay. -/
def sort (values : List Value) : List Value :=
  values.mergeSort fun a b => (a.compare b).isLE

end Value
end RuleIndex
