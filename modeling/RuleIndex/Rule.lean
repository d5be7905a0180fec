-- SUMMARY: Constraints on one dimension, and rules: one constraint per dimension and the payload a match yields.
import RuleIndex.Value

/-!
# Rules

A rule holds one constraint per dimension. A query meets the rule when it meets
every constraint, and the rule's payload is then part of the answer.
-/

namespace RuleIndex

/-- What a rule asks of one dimension. -/
inductive Constraint where
  /-- Nothing: every query value will do. -/
  | any
  /-- The query must hold this value. -/
  | value (v : Value)
  /-- The query must hold one of these values; an empty list asks nothing. -/
  | many (values : List Value)
  /-- The query values must meet (`inclusive`) or must avoid the set. -/
  | set (values : List Value) (inclusive : Bool)
  deriving DecidableEq, Repr

namespace Constraint

/-- Met when a query value is one of `values`. -/
def including (values : List Value) : Constraint := .set values true

/-- Met when no query value is one of `values`. -/
def excluding (values : List Value) : Constraint := .set values false

/-- Met when the query holds one of `values`, each taken as a scalar. -/
def anyOf (values : List Value) : Constraint := .many values

def isSet : Constraint → Bool
  | .set _ _ => true
  | _ => false

/-- Every value that the constraint mentions, as often as it does. -/
def values : Constraint → List Value
  | .any => []
  | .value v => [v]
  | .many vs => vs
  | .set vs _ => vs

end Constraint

/-- One constraint per dimension, and the payload returned on a match. -/
structure Rule (α : Type) where
  constraints : List Constraint
  payload : α
  deriving DecidableEq, Repr

/-- The values that `rules` mention on dimension `d`. -/
def Rule.valuesAt {α : Type} (rules : List (Rule α)) (d : Nat) : List Value :=
  rules.flatMap fun rule => (rule.constraints.getD d .any).values

end RuleIndex
