-- SUMMARY: Rule indexes: built once from rules, then asked which payloads a query matches and why others are excluded.
import RuleIndex.Report
import RuleIndex.Tree.Drawing
import RuleIndex.Tree.Growth

/-!
# Rule indexes

`Index.build` fits the dimensions to the rules, turns rules into entries and grows the
tree. All checks come before growth: the number of dimensions of every rule, the codes
of their values, and that no dimension mixes sets with scalars.
-/

namespace RuleIndex

variable {α : Type}

/-- The space of the dimensions, each fitted to the values that the rules mention on it. -/
def Space.fit (dimensions : List Dimension) (rules : List (Rule α)) : Space :=
  ⟨dimensions.mapIdx fun d dimension => dimension.fit (Rule.valuesAt rules d)⟩

structure Index (α : Type) where
  space : Space
  root : Tree α
  ruleCount : Nat

namespace Index

/-- The index with the tree that was grown for it. -/
def ofTree (space : Space) (ruleCount : Nat) (root : Tree α) : Logged (Index α) := do
  Logged.tell (.built ruleCount space.size root.depth)
  return ⟨space, root, ruleCount⟩

/-- Build the index of a list of rules, whose entries `grow` takes apart or refuses. -/
def buildBy (grow : Space → List Nat → List (Entry α) → Attempt (Tree α))
    (dimensions : List Dimension) (rules : List (Rule α)) : Attempt (Index α) := do
  match rules.find? fun rule => rule.constraints.length != dimensions.length with
  | some rule => throw (.dimensionCount dimensions.length rule.constraints.length)
  | none =>
    let space := Space.fit dimensions rules
    let entries ← space.entries rules
    let root ← grow space (List.range space.size) entries
    ofTree space rules.length root

/-- Build the index of a list of rules. -/
def build (dimensions : List Dimension) (rules : List (Rule α)) :
    Except Error (Logged (Index α)) :=
  (buildBy Tree.checkAndGrow dimensions rules).result

def isEmpty (index : Index α) : Bool :=
  index.root.isEmpty

/-- The depth of the deepest leaf. -/
def maxDepth (index : Index α) : Nat :=
  index.root.depth

/-- The coded form of a query. -/
def encode (index : Index α) (query : List QueryValue) : Except Error CodedQuery :=
  index.space.encode query

/-- The payloads of all rules that a coded query satisfies, each once. -/
def findCoded [DecidableEq α] (index : Index α) (query : CodedQuery) : List α :=
  (index.root.find index.space query).eraseDups

/-- The payloads of all rules that a query satisfies, each once. -/
def find [DecidableEq α] (index : Index α) (query : List QueryValue) : Except Error (List α) :=
  return index.findCoded (← index.encode query)

/-- Which payloads a query does not match, and why. -/
def report [DecidableEq α] (index : Index α) (query : List QueryValue) :
    Except Error (Report α) := do
  let coded ← index.encode query
  let visits := index.root.visits index.space coded (Path.root index.space.size)
  return ⟨index.space, query, Exclusion.ofVisits visits⟩

/-- The written form of the report on a query. -/
def trace [DecidableEq α] [ToString α] (index : Index α) (query : List QueryValue) :
    Except Error String :=
  return (← index.report query).render

/-- The drawing of the tree. -/
def render [ToString α] (index : Index α) : String :=
  (index.root.outline index.space).render

/-- The dimensions and the number of rules in record form. -/
def summary (index : Index α) : String :=
  "Tree \x7b dimensions: [" ++ String.intercalate ", " (index.space.axes.map Axis.summary) ++
    "], rule_count: " ++ toString index.ruleCount ++ " \x7d"

end Index
end RuleIndex
