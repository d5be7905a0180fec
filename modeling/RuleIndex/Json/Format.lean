-- SUMMARY: The JSON form of values, constraints, query values and rules: how each is written and which JSON is read as it.
import RuleIndex.Json
import RuleIndex.Rule
import RuleIndex.Query

/-!
# The JSON format of rules and queries

Values are bare scalars. A query value is `null`, a value, or an array of values.
A constraint is the word `any` or an object whose only member names its form. A
rule is an object with its constraints and its payload, or an array of the two.

Readers accept what writers produce and a few spellings more: `any` may be an
object member holding `null`, and unknown members of a rule or of a set are
passed over.
-/

namespace RuleIndex

namespace Value

def toJson : Value → Json
  | .bool b => .bool b
  | .integer n => .integer n.toInt
  | .text s => .string s

/-- Only integers of 64 bits are values; other numbers, `null`, arrays and objects are not. -/
def ofJson? : Json → Option Value
  | .bool b => some (.bool b)
  | .integer n =>
    if Int64.minValue.toInt ≤ n ∧ n ≤ Int64.maxValue.toInt then some (.integer (Int64.ofInt n))
    else none
  | .string s => some (.text s)
  | _ => none

/-- A list of values as an array. -/
def listToJson (values : List Value) : Json := .array (values.map toJson)

end Value

namespace QueryValue

def toJson : QueryValue → Json
  | .wildcard => .null
  | .single v => v.toJson
  | .many vs => Value.listToJson vs

def ofJson? : Json → Option QueryValue
  | .null => some .wildcard
  | .array items => (items.mapM Value.ofJson?).map .many
  | j => (Value.ofJson? j).map .single

/-- A query as the array of its values. -/
def queryToJson (query : List QueryValue) : Json := .array (query.map toJson)

def queryOfJson? (j : Json) : Option (List QueryValue) := j.list? ofJson?

end QueryValue

namespace Constraint

def toJson : Constraint → Json
  | .any => .string "any"
  | .value v => .object [("value", v.toJson)]
  | .many vs => .object [("many", Value.listToJson vs)]
  | .set vs inclusive =>
    .object [("set", .object [("values", Value.listToJson vs), ("include", .bool inclusive)])]

/-- The constraint named by the single member of an object. -/
def ofMember? : String → Json → Option Constraint
  | "any", .null => some .any
  | "value", j => (Value.ofJson? j).map .value
  | "many", j => (j.list? Value.ofJson?).map .many
  | "set", j => do
    let values ← (← j.member? "values").list? Value.ofJson?
    let inclusive ← (← j.member? "include").bool?
    return .set values inclusive
  | _, _ => none

def ofJson? : Json → Option Constraint
  | .string "any" => some .any
  | .object [(name, j)] => ofMember? name j
  | _ => none

end Constraint

namespace Rule

def toJson (rule : Rule String) : Json :=
  .object [("constraints", .array (rule.constraints.map Constraint.toJson)),
    ("payload", .string rule.payload)]

/-- A rule from the JSON of its constraints and of its payload. -/
def ofParts? (constraints payload : Json) : Option (Rule String) := do
  let constraints ← constraints.list? Constraint.ofJson?
  let payload ← payload.string?
  return { constraints, payload }

def ofJson? : Json → Option (Rule String)
  | .array [constraints, payload] => ofParts? constraints payload
  | .object members => do
    ofParts? (← members.lookup "constraints") (← members.lookup "payload")
  | _ => none

/-- A list of rules as the array of its rules. -/
def listToJson (rules : List (Rule String)) : Json := .array (rules.map toJson)

def listOfJson? (j : Json) : Option (List (Rule String)) := j.list? ofJson?

end Rule
end RuleIndex
