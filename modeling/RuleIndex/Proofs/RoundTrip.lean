-- SUMMARY: Round trips: what is written as JSON is read back as it was, for values, constraints, query values, rules and lists of them.
import Mathlib.Logic.Function.Basic
import RuleIndex.Json.Format

/-!
# Round trips

Every type of the format reads back what it writes (`RoundTrips`). So a JSON value that is
accepted in another spelling is settled after one round, and two values never share a written
form. Lists of any size inherit the round trip from their items (`RoundTrips.list`).

The forms of an untagged type are told apart by their shape alone: no JSON value is read by two
of them, so the order in which they are tried does not matter. A constraint carries the name of
its form.
-/

namespace RuleIndex

variable {β : Type}

/-! ## Round trips -/

/-- What is written is read back, and another spelling is gone after one round. -/
structure RoundTrips (write : β → Json) (read : Json → Option β) : Prop where
  read_write : ∀ b, read (write b) = some b
  /-- What was read is read again from its written form, -/
  reread : ∀ j, ((read j).map write).bind read = read j
  /-- and is then written as before. -/
  rewritten : ∀ j, (((read j).map write).bind read).map write = (read j).map write
  injective : Function.Injective write

namespace RoundTrips

variable {write : β → Json} {read : Json → Option β}

theorem of_read_write (h : ∀ b, read (write b) = some b) : RoundTrips write read where
  read_write := h
  reread j := by cases read j <;> simp [h]
  rewritten j := by cases read j <;> simp [h]
  injective b b' heq := by
    have hread : some b = some b' := by rw [← h, ← h, heq]
    exact Option.some.inj hread

theorem list (h : RoundTrips write read) :
    RoundTrips (fun l : List β => .array (l.map write)) (Json.list? read) := by
  refine of_read_write fun l => ?_
  have hread : read ∘ write = fun b => pure b := funext h.read_write
  rw [Json.list?, List.mapM_map, hread, List.mapM_pure, List.map_id']
  rfl

end RoundTrips


/-! ## Untagged and tagged forms -/

namespace Json

/-- Reading by several forms, of which the first that succeeds is taken. -/
def untagged (forms : List (Json → Option β)) (j : Json) : Option β :=
  forms.findSome? (· j)

/-- No JSON value is read by two of the forms. -/
def Exclusive (forms : List (Json → Option β)) : Prop :=
  forms.Pairwise fun form form' => ∀ j, form j = none ∨ form' j = none

theorem exclusive_three_iff {f g h : Json → Option β} : Exclusive [f, g, h] ↔
    ∀ j, (f j = none ∨ g j = none) ∧ (f j = none ∨ h j = none) ∧ (g j = none ∨ h j = none) := by
  simp [Exclusive, forall_and, and_assoc]

/-- One form of a tagged type. -/
structure Variant (β : Type) where
  name : String
  /-- What the name alone stands for, -/
  alone? : Option β
  /-- and what an object stands for that has it as its only member. -/
  content? : Json → Option β

/-- Reading by name: the name alone, or an object whose only member has it. -/
def tagged (variants : List (Variant β)) : Json → Option β
  | .string name => (variants.find? (·.name == name)).bind Variant.alone?
  | .object [(name, j)] => (variants.find? (·.name == name)).bind (·.content? j)
  | _ => none

def null? : Json → Option Unit
  | .null => some ()
  | _ => none

/-- The number of a JSON integer of 64 bits. -/
def int64? : Json → Option Int64
  | .integer n =>
    if Int64.minValue.toInt ≤ n ∧ n ≤ Int64.maxValue.toInt then some (.ofInt n) else none
  | _ => none

end Json


/-! ## Values -/

namespace Value

/-- The forms of a value: a truth value, an integer or a text. -/
def forms : List (Json → Option Value) :=
  [fun j => j.bool?.map .bool, fun j => j.int64?.map .integer, fun j => j.string?.map .text]

theorem ofJson?_eq_untagged : ofJson? = Json.untagged forms := by
  funext j
  cases j with
  | integer n =>
    simp only [ofJson?, Json.untagged, forms, Json.bool?, Json.int64?, List.findSome?_cons]
    split <;> rfl
  | _ => rfl

theorem exclusive_forms : Json.Exclusive forms := by
  refine Json.exclusive_three_iff.2 fun j => ?_
  cases j <;> simp [Json.bool?, Json.int64?, Json.string?]

theorem roundTrips : RoundTrips toJson ofJson? := by
  refine .of_read_write fun v => ?_
  cases v with
  | bool b => rfl
  | integer n => rw [toJson, ofJson?, if_pos ⟨n.minValue_le_toInt, n.toInt_le⟩, Int64.ofInt_toInt]
  | text s => rfl

theorem read_listToJson (vs : List Value) : (listToJson vs).list? ofJson? = some vs :=
  roundTrips.list.read_write vs

end Value


/-! ## Query values -/

namespace QueryValue

/-- The forms of a query value: nothing, one value or a list of values. -/
def forms : List (Json → Option QueryValue) :=
  [fun j => j.null?.map fun _ => .wildcard, fun j => (Value.ofJson? j).map .single,
    fun j => (j.list? Value.ofJson?).map .many]

theorem ofJson?_eq_untagged : ofJson? = Json.untagged forms := by
  funext j
  cases j with
  | integer n =>
    simp only [ofJson?, Json.untagged, forms, List.findSome?_cons]
    cases Value.ofJson? (.integer n) <;> rfl
  | array items =>
    simp only [ofJson?, Json.untagged, forms, List.findSome?_cons, Json.null?, Json.list?,
      Value.ofJson?, Option.map_none]
    cases items.mapM Value.ofJson? <;> rfl
  | _ => rfl

theorem exclusive_forms : Json.Exclusive forms := by
  refine Json.exclusive_three_iff.2 fun j => ?_
  cases j <;> simp [Json.null?, Value.ofJson?, Json.list?]

theorem roundTrips : RoundTrips toJson ofJson? := by
  refine .of_read_write fun q => ?_
  cases q with
  | wildcard => rfl
  | single v =>
    have hv := Value.roundTrips.read_write v
    cases v <;> simp_all [toJson, ofJson?, Value.toJson]
  | many vs => exact congrArg (Option.map many) (Value.read_listToJson vs)

/-- A query is written as the list of its values. -/
theorem roundTrips_query : RoundTrips queryToJson queryOfJson? :=
  roundTrips.list

end QueryValue


/-! ## Constraints -/

namespace Constraint

/-- The forms of a constraint, by name. -/
def variants : List (Json.Variant Constraint) :=
  [⟨"any", some .any, fun j => j.null?.map fun _ => .any⟩,
    ⟨"value", none, fun j => (Value.ofJson? j).map .value⟩,
    ⟨"many", none, fun j => (j.list? Value.ofJson?).map .many⟩,
    ⟨"set", none, fun j => do
      let values ← (← j.member? "values").list? Value.ofJson?
      let inclusive ← (← j.member? "include").bool?
      return .set values inclusive⟩]

/-- The names of the forms. -/
def names : List String :=
  variants.map Json.Variant.name

theorem mem_names_iff {name : String} :
    name ∈ names ↔ name = "any" ∨ name = "value" ∨ name = "many" ∨ name = "set" := by
  simp [names, variants]

/-- A name of no form reads nothing, be it alone or with content. -/
theorem tagged_of_unknown {name : String} (h : name ∉ names) :
    Json.tagged variants (.string name) = none ∧
      ∀ j, Json.tagged variants (.object [(name, j)]) = none := by
  have hfind : variants.find? (·.name == name) = none := by
    refine List.find?_eq_none.2 fun variant hvariant heq => h ?_
    exact beq_iff_eq.1 heq ▸ List.mem_map_of_mem hvariant
  simp only [Json.tagged, hfind, Option.bind_none, implies_true, and_self]

theorem ofJson?_of_unknown {name : String} (h : name ∉ names) :
    ofJson? (.string name) = none ∧ ∀ j, ofJson? (.object [(name, j)]) = none := by
  simp only [mem_names_iff, not_or] at h
  obtain ⟨hany, hvalue, hmany, hset⟩ := h
  refine ⟨?_, fun j => ?_⟩
  · unfold ofJson?
    split <;> simp_all
  · show ofMember? name j = none
    unfold ofMember?
    split <;> simp_all

theorem ofJson?_eq_tagged : ofJson? = Json.tagged variants := by
  funext j
  cases j with
  | string name =>
    by_cases hname : name ∈ names
    · obtain rfl | rfl | rfl | rfl := mem_names_iff.1 hname <;> rfl
    · rw [(ofJson?_of_unknown hname).1, (tagged_of_unknown hname).1]
  | object members =>
    match members with
    | [] | _ :: _ :: _ => rfl
    | [(name, j)] =>
      by_cases hname : name ∈ names
      · obtain rfl | rfl | rfl | rfl := mem_names_iff.1 hname
        case inl => cases j <;> rfl
        all_goals rfl
      · rw [(ofJson?_of_unknown hname).2, (tagged_of_unknown hname).2]
  | _ => rfl

theorem roundTrips : RoundTrips toJson ofJson? := by
  refine .of_read_write fun c => ?_
  cases c with
  | any => rfl
  | value v => exact congrArg (Option.map value) (Value.roundTrips.read_write v)
  | many vs => exact congrArg (Option.map many) (Value.read_listToJson vs)
  | set vs inclusive =>
    have hvs := Value.read_listToJson vs
    show (do
      let values ← (Value.listToJson vs).list? Value.ofJson?
      return Constraint.set values inclusive) = _
    rw [hvs]
    rfl

end Constraint


/-! ## Rules -/

namespace Rule

theorem roundTrips : RoundTrips toJson ofJson? := by
  refine .of_read_write fun rule => ?_
  have hconstraints : (Json.array (rule.constraints.map Constraint.toJson)).list? Constraint.ofJson? =
      some rule.constraints := Constraint.roundTrips.list.read_write rule.constraints
  show ofParts? _ _ = _
  rw [ofParts?, hconstraints]
  rfl

/-- Rules are written as the list of the rules. -/
theorem roundTrips_list : RoundTrips listToJson listOfJson? :=
  roundTrips.list

end Rule


/-! ## The whole format -/

/-- Values, constraints, query values, queries, rules and lists of rules are read back as they
    were written, and JSON in any accepted spelling is settled after one round. Values and query
    values are read by the first of their forms that succeeds, which is the only one. Constraints
    are read by the name of their form. -/
theorem Json.format_roundTrips :
    RoundTrips Value.toJson Value.ofJson? ∧
    RoundTrips Constraint.toJson Constraint.ofJson? ∧
    RoundTrips QueryValue.toJson QueryValue.ofJson? ∧
    RoundTrips QueryValue.queryToJson QueryValue.queryOfJson? ∧
    RoundTrips Rule.toJson Rule.ofJson? ∧
    RoundTrips Rule.listToJson Rule.listOfJson? ∧
    (Value.ofJson? = Json.untagged Value.forms ∧ Json.Exclusive Value.forms) ∧
    (QueryValue.ofJson? = Json.untagged QueryValue.forms ∧ Json.Exclusive QueryValue.forms) ∧
    Constraint.ofJson? = Json.tagged Constraint.variants := by
  refine ⟨Value.roundTrips, Constraint.roundTrips, QueryValue.roundTrips, ?_, Rule.roundTrips,
    Rule.roundTrips_list, ?_, ?_, Constraint.ofJson?_eq_tagged⟩
  · exact QueryValue.roundTrips_query
  · exact ⟨Value.ofJson?_eq_untagged, Value.exclusive_forms⟩
  · exact ⟨QueryValue.ofJson?_eq_untagged, QueryValue.exclusive_forms⟩

/-- A rule given as an array, with a constraint spelled as an object, settles as an object. -/
example : (Rule.ofJson? (.array [.array [.object [("any", .null)]], .string "all"])).map
      Rule.toJson =
    some (.object [("constraints", .array [.string "any"]), ("payload", .string "all")]) := rfl

end RuleIndex
