-- SUMMARY: The reasons for which rules or queries are refused, with their wording.
import RuleIndex.Value

/-!
# Errors

Each error names the dimension or the numbers that caused it, so that a caller can
react without reading the message.
-/

namespace RuleIndex

/-- Why rules cannot be indexed, or a query cannot be answered. -/
inductive Error where
  /-- The dimension has no code for the value. -/
  | unknownValue (dimension : String) (value : Value)
  /-- Some rules constrain the dimension by sets and others by scalars. -/
  | mixedConstraints (dimension : String)
  /-- A rule or a query has the wrong number of dimensions. -/
  | dimensionCount (expected actual : Nat)
  /-- A value of a set has a code outside the dimension's capacity. -/
  | unplaceable (dimension : String) (code : Int) (value : Value) (capacity : Nat)
  deriving DecidableEq, Repr

def Error.message : Error → String
  | .unknownValue dimension value =>
    "Unknown value '" ++ value.render ++ "' for dimension '" ++ dimension ++ "'"
  | .mixedConstraints dimension =>
    "Dimension '" ++ dimension ++ "' mixes set and scalar constraints"
  | .dimensionCount expected actual =>
    "Expected " ++ toString expected ++ " dimensions, got " ++ toString actual
  | .unplaceable dimension code value capacity =>
    "Invalid constraint: dimension '" ++ dimension ++ "' cannot place code " ++ toString code ++
      " of '" ++ value.render ++ "' in a set of " ++ toString capacity ++ " bits"

end RuleIndex
