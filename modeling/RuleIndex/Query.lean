-- SUMMARY: Queries: per dimension no value, one value, or several of which one is to match.
import RuleIndex.Delimited
import RuleIndex.Value

/-!
# Queries

A query gives one entry per dimension. `many` is an alternative: the query holds
all the listed values, and an empty list is the wildcard written another way.
-/

namespace RuleIndex

/-- What a query holds on one dimension. -/
inductive QueryValue where
  /-- No value given: every constraint is met. -/
  | wildcard
  | single (v : Value)
  /-- Any of the listed values. -/
  | many (values : List Value)
  deriving DecidableEq, Repr

namespace QueryValue

/-- A value that may be missing; a missing one is the wildcard. -/
def ofOption : Option Value → QueryValue
  | some v => .single v
  | none => .wildcard

/-- The values held, none for a wildcard. -/
def values : QueryValue → List Value
  | .wildcard => []
  | .single v => [v]
  | .many vs => vs

/-- The written form: a wildcard reads `ANY`, several values stand in brackets. -/
def render : QueryValue → String
  | .wildcard => "ANY"
  | .single v => v.render
  | .many [] => "ANY"
  | .many vs => bracketed (vs.map Value.render)

end QueryValue
end RuleIndex
