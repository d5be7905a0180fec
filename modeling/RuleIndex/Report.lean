-- SUMMARY: Reports: for every payload that a query does not match, the ways in which it was excluded.
import RuleIndex.Delimited
import RuleIndex.Tree.Visit

/-!
# Reports

A payload is excluded if it stands only in leaves whose path failed. The report lists
the excluded payloads in the order of the visit, each with its distinct failed paths.
-/

namespace RuleIndex

variable {α : Type}

/-- A payload and the failed paths that lead to it. -/
structure Exclusion (α : Type) where
  payload : α
  mismatches : List Path
  deriving DecidableEq, Repr

/-- The excluded payloads of a list of visits. -/
def Exclusion.ofVisits [DecidableEq α] (visits : List (Visit α)) : List (Exclusion α) :=
  let (reached, failed) := visits.partition fun visit => visit.path.failures.isEmpty
  let matched := reached.flatMap Visit.payloads
  let payloads := (failed.flatMap Visit.payloads).eraseDups.filter fun p => !matched.contains p
  payloads.map fun p =>
    ⟨p, ((failed.filter fun visit => visit.payloads.contains p).map Visit.path).eraseDups⟩

/-- Why payloads did not match a query. -/
structure Report (α : Type) where
  space : Space
  query : List QueryValue
  exclusions : List (Exclusion α)

namespace Report

/-- The mismatches of one payload, if it is excluded. -/
def mismatches? [DecidableEq α] (report : Report α) (payload : α) : Option (List Path) :=
  (report.exclusions.find? fun e => e.payload == payload).map Exclusion.mismatches

end Report


/-! ## Written form -/

/-- A set is written in braces, a range in parentheses. What must not be held has an
    exclamation mark before it. -/
def PathConstraint.render (axis : Axis) : PathConstraint → String
  | .any => "ANY"
  | .equal code =>
    (if axis.operation = .notContains then "!" else "") ++ braced [axis.codec.render code]
  | .range above below =>
    let bound (code : Option Int) := code.elim "" axis.codec.render
    "(" ++ bound above ++ ".." ++ bound below ++ ")"
  | .set key =>
    (if key.inclusive then "" else "!") ++ braced (key.codes.map axis.codec.render)

/-- The constraints of a failed path and the names of the dimensions it failed on. -/
def Path.render (space : Space) (path : Path) : String :=
  let constraints := (path.constraints.zip space.axes).map fun (c, axis) => c.render axis
  let names := path.failures.map fun failure => space.name failure.dimension
  parenthesized constraints ++ " on " ++ commaList names

namespace Report

/-- The query of the report in parentheses. -/
def renderQuery (report : Report α) : String :=
  parenthesized (report.query.map QueryValue.render)

/-- One line per excluded payload, or `ALL OK`. -/
def render [ToString α] (report : Report α) : String :=
  if report.exclusions.isEmpty then "ALL OK"
  else String.join <| report.exclusions.map fun e =>
    let mismatches := String.intercalate ", " (e.mismatches.map (Path.render report.space))
    toString e.payload ++ " -> " ++ report.renderQuery ++ " not in: [" ++ mismatches ++ "]\n"

end Report
end RuleIndex
