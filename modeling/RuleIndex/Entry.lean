-- SUMMARY: Entries: rules turned into codes, one entry for every way of choosing among the alternatives of a rule.
import RuleIndex.Rule
import RuleIndex.Space

/-!
# Entries

An entry asks for one thing per dimension: nothing, one code, or a set of codes.
A rule that allows several scalars on a dimension stands for several entries; with
several such dimensions it stands for all combinations, in lexicographic order.
-/

namespace RuleIndex

/-- A set constraint in canonical form: ascending codes, to be met or to be avoided. -/
structure SetKey where
  codes : List Int
  inclusive : Bool
  deriving DecidableEq, Repr

/-- The codes of a query satisfy a set when they meet it, or avoid it if it is exclusive.
    A wildcard satisfies every set. -/
def SetKey.admits (key : SetKey) (codes : List Int) : Bool :=
  codes.isEmpty || codes.any (key.codes.contains ·) == key.inclusive

/-- What an entry asks of one dimension. -/
inductive Cell where
  | any
  | equal (code : Int)
  | set (key : SetKey)
  deriving DecidableEq, Repr

namespace Cell

/-- The cell of a scalar code. The code of an absent constraint asks nothing. -/
def ofCode (code : Int) : Cell :=
  if code = anyCode then .any else .equal code

/-- The code of a scalar cell. -/
def code? : Cell → Option Int
  | .equal code => some code
  | _ => none

/-- The key of a set cell, unless the set is empty and so asks nothing. -/
def key? : Cell → Option SetKey
  | .set key => if key.codes.isEmpty then none else some key
  | _ => none

def isSet : Cell → Bool
  | .set _ => true
  | _ => false

theorem code?_eq_some_iff {cell : Cell} {code : Int} :
    cell.code? = some code ↔ cell = .equal code := by
  cases cell <;> simp [code?]

theorem key?_eq_some_iff {cell : Cell} {key : SetKey} :
    cell.key? = some key ↔ cell = .set key ∧ key.codes ≠ [] := by
  cases cell with
  | any => simp [key?]
  | equal code => simp [key?]
  | set own =>
    simp only [key?, set.injEq]
    split
    · next hempty =>
      simp only [reduceCtorEq, false_iff]
      rintro ⟨rfl, hkey⟩
      exact hkey (List.isEmpty_iff.1 hempty)
    · next hempty =>
      simp only [Option.some.injEq, iff_self_and]
      rintro rfl
      exact fun h => hempty (List.isEmpty_iff.2 h)

/-- A cell without a set and without a code asks nothing. -/
theorem eq_any_iff {cell : Cell} : cell = .any ↔ cell.isSet = false ∧ cell.code? = none := by
  cases cell <;> simp [isSet, code?]

end Cell

/-- A rule with one cell per dimension. -/
structure Entry (α : Type) where
  cells : Array Cell
  payload : α
  deriving DecidableEq, Repr

/-- The cell of dimension `d`. -/
def Entry.cell {α : Type} (entry : Entry α) (d : Nat) : Cell :=
  entry.cells.getD d .any


/-! ## From rules to entries -/

/-- The alternatives that a constraint allows; there is always at least one. -/
def Axis.options (axis : Axis) : Constraint → Except Error (List Cell)
  | .any => .ok [.any]
  | .value v => do return [.ofCode (← axis.encode v)]
  | .many [] => .ok [.any]
  | .many vs => do return (Ascending.ofList (← vs.mapM axis.encode)).map .ofCode
  | .set vs inclusive => do
    let bits ← axis.toBitset vs
    return [.set ⟨bits.toList.map Int.ofNat, inclusive⟩]

/-- All ways of choosing one element from each list, in lexicographic order. -/
def choices {β : Type} : List (List β) → List (List β)
  | [] => [[]]
  | options :: rest =>
    let tails := choices rest
    options.flatMap fun x => tails.map (x :: ·)

/-- The alternatives of every constraint of a rule. -/
def Space.options {α : Type} (space : Space) (rule : Rule α) : Except Error (List (List Cell)) :=
  (space.axes.zip rule.constraints).mapM fun (axis, constraint) => axis.options constraint

/-- The entries of a rule: one for every choice among its alternatives. -/
def Space.entriesOf {α : Type} (space : Space) (rule : Rule α) : Except Error (List (Entry α)) := do
  let options ← space.options rule
  return (choices options).map fun cells => ⟨cells.toArray, rule.payload⟩

/-- The entries of all rules, rule after rule. The first failure is reported. -/
def Space.entries {α : Type} (space : Space) (rules : List (Rule α)) :
    Except Error (List (Entry α)) := do
  return (← rules.mapM space.entriesOf).flatten

end RuleIndex
