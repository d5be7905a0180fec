-- SUMMARY: Dimensions as declared, and axes: dimensions fitted to the values that the rules mention.
import RuleIndex.Bitset
import RuleIndex.Codec
import RuleIndex.Error

/-!
# Dimensions and axes

A `Dimension` is declared before any rule is known: a name, the way its scalar
constraints are compared, and its domain. Fitting it to the values that the rules
mention yields an `Axis`, on which values have codes.
-/

namespace RuleIndex

/-- How a scalar constraint is compared with the values of a query. -/
inductive Operation where
  /-- The query must hold the value. -/
  | ordered
  /-- The query must hold some other value. -/
  | notContains
  deriving DecidableEq, Repr

namespace Operation

instance : Inhabited Operation := ⟨.ordered⟩

def text : Operation → String
  | .ordered => "ORDERED"
  | .notContains => "NOT_CONTAINS"

def label : Operation → String
  | .ordered => "Ordered"
  | .notContains => "NotContains"

end Operation

/-- The values that a dimension ranges over, and how they are numbered. -/
inductive Domain where
  /-- The texts that the rules mention. -/
  | text
  /-- All integers. -/
  | integer
  | bool
  /-- Declared names. -/
  | variants (names : List String)
  /-- Any values, numbered as the caller likes once it has been shown what the rules mention. -/
  | provided (init : List Value → Codec)

/-- A domain whose numbering takes no notice of the rules. -/
def Domain.custom (codec : Codec) : Domain :=
  .provided fun _ => codec

/-- The numbering of a domain, given the values that the rules mention. -/
def Domain.codec : Domain → List Value → Codec
  | .text, values => .text values
  | .integer, values => .integer values
  | .bool, _ => .bool
  | .variants names, _ => .variants names
  | .provided init, values => init values

/-- A dimension as declared. -/
structure Dimension where
  name : String
  operation : Operation := .ordered
  domain : Domain

/-- A dimension on which values have codes. -/
structure Axis where
  name : String
  operation : Operation
  codec : Codec

/-- The axis of a dimension whose rules mention `values`. -/
def Dimension.fit (d : Dimension) (values : List Value) : Axis :=
  ⟨d.name, d.operation, d.domain.codec values⟩

namespace Axis

/-- The code of a value; a value without one gets the code of an absent constraint. -/
def encodeOrAny (axis : Axis) (v : Value) : Int :=
  (axis.codec.encode v).getD anyCode

/-- The code of a value that must have one. -/
def encode (axis : Axis) (v : Value) : Except Error Int :=
  match axis.codec.encode v with
  | some code => .ok code
  | none => .error (.unknownValue axis.name v)

/-- The code of a value that must have one within the capacity of the axis. -/
def place (axis : Axis) (v : Value) : Except Error Int := do
  let code ← axis.encode v
  if 0 ≤ code ∧ code < axis.codec.capacity then .ok code
  else .error (.unplaceable axis.name code v axis.codec.capacity)

/-- The bitset of the codes of `values`. The first value that cannot be placed is reported. -/
def toBitset (axis : Axis) (values : List Value) : Except Error Bitset := do
  let codes ← values.mapM axis.place
  return .ofCodes axis.codec.capacity codes

/-- The name and the operation in record form. -/
def summary (axis : Axis) : String :=
  "Dimension \x7b name: \"" ++ axis.name ++ "\", operation: " ++ axis.operation.label ++ " \x7d"

end Axis
end RuleIndex
