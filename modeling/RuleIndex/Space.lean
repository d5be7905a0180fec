-- SUMMARY: Spaces: the axes that rules and queries share, and queries turned into codes.
import RuleIndex.Dimension
import RuleIndex.Query

/-!
# Spaces

A space is the list of axes that rules and queries are stated over; dimensions are
known by their place in it. A query is coded axis by axis. A coded query keeps
one ascending list of codes per dimension and no trace of how the query was
spelled, and the empty list is the wildcard: any value given has a code.
-/

namespace RuleIndex

/-- A query as codes: one ascending list per dimension, empty for a wildcard. -/
structure CodedQuery where
  codes : List (List Int)
  deriving DecidableEq, Repr

namespace CodedQuery

/-- The coded query with these codes, in any order and with any repetitions. -/
def ofCodes (codes : List (List Int)) : CodedQuery :=
  ⟨codes.map Ascending.ofList⟩

/-- The codes on dimension `d`. -/
def codesAt (query : CodedQuery) (d : Nat) : List Int :=
  query.codes.getD d []

def isWildcard (query : CodedQuery) (d : Nat) : Bool :=
  (query.codesAt d).isEmpty

/-- The number of dimensions. -/
def size (query : CodedQuery) : Nat :=
  query.codes.length

end CodedQuery

/-- The codes of a query value, ascending. The first value without a code is reported. -/
def Axis.encodeQuery (axis : Axis) : QueryValue → Except Error (List Int)
  | .wildcard => .ok []
  | .single v => do return [← axis.encode v]
  | .many vs => do return Ascending.ofList (← vs.mapM axis.encode)

/-- The axes that rules and queries are stated over. -/
structure Space where
  axes : List Axis

namespace Space

/-- The number of dimensions. -/
def size (space : Space) : Nat :=
  space.axes.length

/-- The name of dimension `d`. -/
def name (space : Space) (d : Nat) : String :=
  (space.axes[d]?).elim "" Axis.name

/-- The operation of dimension `d`. -/
def operation (space : Space) (d : Nat) : Operation :=
  (space.axes[d]?).elim .ordered Axis.operation

/-- The written form of a code on dimension `d`. -/
def render (space : Space) (d : Nat) (code : Int) : String :=
  (space.axes[d]?).elim "" fun axis => axis.codec.render code

/-- Code a query. The number of dimensions is checked first, then values are coded
    dimension by dimension. -/
def encode (space : Space) (query : List QueryValue) : Except Error CodedQuery :=
  if query.length = space.size then do
    let codes ← (space.axes.zip query).mapM fun (axis, value) => axis.encodeQuery value
    return ⟨codes⟩
  else .error (.dimensionCount space.size query.length)

end Space
end RuleIndex
