-- SUMMARY: Refused rules: which error building reports, and that a check at every node would report no other.
import RuleIndex.Proofs.Build
import RuleIndex.Proofs.Queries

/-!
# Refused rules

`Index.Refused` says without codes of other values and without a tree why rules are refused, and
which of their faults is reported: a wrong size before a fault of a value, and that before a mix
of sets and scalars, each time the first one. Building fails with exactly these errors
(`Index.build_refused`).

Growth may check for a mix at every node (`Tree.growChecking`). The check fails at the root or
nowhere, since below it there are fewer entries and fewer free dimensions. So growth with checks is
one check and then growth without any (`Tree.growIn_eq_liftM`), and it is no other attempt.
-/

namespace RuleIndex

variable {α : Type}

/-! ## Faults of values -/

/-- What is wrong with a value of a constraint: it has no code, or the constraint is a set and
    has no place for the code. -/
inductive Axis.Fault (axis : Axis) (constraint : Constraint) (v : Value) : Error → Prop where
  | unknown (h : axis.codec.encode v = none) :
      Fault axis constraint v (.unknownValue axis.name v)
  | unplaceable {code : Int} (hset : constraint.isSet = true)
      (hcode : axis.codec.encode v = some code)
      (hrange : ¬ (0 ≤ code ∧ code < axis.codec.capacity)) :
      Fault axis constraint v (.unplaceable axis.name code v axis.codec.capacity)

namespace Axis

variable {axis : Axis} {e : Error}

theorem encode_eq_error_iff {v : Value} :
    axis.encode v = .error e ↔ axis.codec.encode v = none ∧ e = .unknownValue axis.name v := by
  unfold encode
  cases axis.codec.encode v <;> simp [eq_comm]

/-- Outside a set, a value only needs a code. -/
theorem fault_eq_encode {constraint : Constraint} (hset : constraint.isSet = false) :
    axis.Fault constraint = fun v e => axis.encode v = .error e := by
  funext v e
  rw [eq_iff_iff, encode_eq_error_iff]
  constructor
  · intro h
    cases h with
    | unknown h => exact ⟨h, rfl⟩
    | unplaceable hset' => rw [hset] at hset'; cases hset'
  · rintro ⟨h, rfl⟩
    exact .unknown h

/-- In a set, the code of a value needs a place. -/
theorem fault_eq_place {constraint : Constraint} (hset : constraint.isSet = true) :
    axis.Fault constraint = fun v e => axis.place v = .error e := by
  funext v e
  simp only [eq_iff_iff, place, bind_eq_error_iff, encode_eq_error_iff, encode_eq_ok_iff]
  constructor
  · intro h
    cases h with
    | unknown h => exact .inl ⟨h, rfl⟩
    | @unplaceable code _ hcode hrange => exact .inr ⟨code, hcode, if_neg hrange⟩
  · rintro (⟨h, rfl⟩ | ⟨code, hcode, hplace⟩)
    · exact .unknown h
    · split at hplace
      · cases hplace
      · next hrange =>
        obtain rfl := Except.error.inj hplace
        exact .unplaceable hset hcode hrange

/-- The alternatives of a constraint fail with its first faulty value. -/
theorem options_eq_error_iff {constraint : Constraint} : axis.options constraint = .error e ↔
    FirstFailure (axis.Fault constraint) constraint.values e := by
  cases constraint with
  | any => simp [options, Constraint.values, firstFailure_nil_iff]
  | value v =>
    rw [fault_eq_encode rfl]
    simp only [options, Constraint.values, bind_eq_error_iff, firstFailure_cons_iff,
      firstFailure_nil_iff, pure_ne_error, and_false, exists_false, or_false]
  | many vs =>
    rw [fault_eq_encode rfl]
    cases vs with
    | nil => simp [options, Constraint.values, firstFailure_nil_iff]
    | cons v vs =>
      simp only [options, Constraint.values, bind_eq_error_iff, mapM_eq_error_iff, pure_ne_error,
        and_false, exists_false, or_false]
  | set vs inclusive =>
    rw [fault_eq_place rfl]
    simp only [options, toBitset, Constraint.values, bind_eq_error_iff, mapM_eq_error_iff,
      pure_ne_error, and_false, exists_false, or_false]

end Axis


/-! ## Faults of rules -/

namespace Space

variable {space : Space} {rules : List (Rule α)} {e : Error}

/-- The constraint of rule `r` on dimension `d` has a faulty value, and `e` is the fault of the
    first one. -/
def FaultAt (space : Space) (rules : List (Rule α)) (r d : Nat) (e : Error) : Prop :=
  ∃ rule axis constraint, rules[r]? = some rule ∧ space.axes[d]? = some axis ∧
    rule.constraints[d]? = some constraint ∧
    FirstFailure (axis.Fault constraint) constraint.values e

/-- The fault of the first rule that has one, on its first dimension that has one. -/
def FirstFault (space : Space) (rules : List (Rule α)) (e : Error) : Prop :=
  ∃ r d, space.FaultAt rules r d e ∧
    ∀ r' d', r' < r ∨ r' = r ∧ d' < d → ∀ e', ¬ space.FaultAt rules r' d' e'

theorem entriesOf_eq_error_iff {rule : Rule α} : space.entriesOf rule = .error e ↔
    FirstFailure (fun place e => place.1.options place.2 = .error e)
      (space.axes.zip rule.constraints) e := by
  simp only [entriesOf, options, bind_eq_error_iff, mapM_eq_error_iff, pure_ne_error, and_false,
    exists_false, or_false]

/-- The entries of a rule fail if one of its constraints has a fault. -/
theorem exists_entriesOf_eq_error_iff {r : Nat} {rule : Rule α} (hrule : rules[r]? = some rule) :
    (∃ e, space.entriesOf rule = .error e) ↔ ∃ d e, space.FaultAt rules r d e := by
  simp only [entriesOf_eq_error_iff]
  rw [exists_firstFailure_iff]
  simp only [Axis.options_eq_error_iff]
  constructor
  · intro ⟨⟨axis, constraint⟩, hplace, e, he⟩
    obtain ⟨d, hd⟩ := List.mem_iff_getElem?.1 hplace
    obtain ⟨haxis, hconstraint⟩ := List.getElem?_zip_eq_some.1 hd
    exact ⟨d, e, rule, axis, constraint, hrule, haxis, hconstraint, he⟩
  · intro ⟨d, e, rule', axis, constraint, hrule', haxis, hconstraint, he⟩
    obtain rfl : rule = rule' := by simpa [hrule] using hrule'
    have hplace : (space.axes.zip rule.constraints)[d]? = some (axis, constraint) :=
      List.getElem?_zip_eq_some.2 ⟨haxis, hconstraint⟩
    exact ⟨_, List.mem_of_getElem? hplace, e, he⟩

/-- The entries of rules fail with the first fault. -/
theorem entries_eq_error_iff : space.entries rules = .error e ↔ space.FirstFault rules e := by
  simp only [entries, bind_eq_error_iff, pure_ne_error, and_false, exists_false, or_false,
    mapM_eq_error_iff]
  constructor
  · intro ⟨r, rule, hrule, herror, hfirst⟩
    obtain ⟨d, ⟨axis, constraint⟩, hd, herror, hfirstPlace⟩ := entriesOf_eq_error_iff.1 herror
    obtain ⟨haxis, hconstraint⟩ := List.getElem?_zip_eq_some.1 hd
    refine ⟨r, d, ?_, ?_⟩
    · exact ⟨rule, axis, constraint, hrule, haxis, hconstraint, Axis.options_eq_error_iff.1 herror⟩
    · rintro r' d' (hlt | ⟨rfl, hlt⟩) e' hfault
      · have ⟨rule', _, _, hrule', _⟩ := hfault
        obtain ⟨e'', he''⟩ := (exists_entriesOf_eq_error_iff hrule').2 ⟨d', e', hfault⟩
        exact hfirst r' hlt rule' hrule' e'' he''
      · obtain ⟨rule', axis', constraint', hrule', haxis', hconstraint', he'⟩ := hfault
        obtain rfl : rule = rule' := by simpa [hrule] using hrule'
        have hplace : (space.axes.zip rule.constraints)[d']? = some (axis', constraint') :=
          List.getElem?_zip_eq_some.2 ⟨haxis', hconstraint'⟩
        exact hfirstPlace d' hlt _ hplace e' (Axis.options_eq_error_iff.2 he')
  · intro ⟨r, d, ⟨rule, axis, constraint, hrule, haxis, hconstraint, he⟩, hfirst⟩
    refine ⟨r, rule, hrule, ?_, ?_⟩
    · refine entriesOf_eq_error_iff.2 ⟨d, (axis, constraint),
        List.getElem?_zip_eq_some.2 ⟨haxis, hconstraint⟩, Axis.options_eq_error_iff.2 he, ?_⟩
      intro d' hlt ⟨axis', constraint'⟩ hplace e' he'
      obtain ⟨haxis', hconstraint'⟩ := List.getElem?_zip_eq_some.1 hplace
      exact hfirst r d' (.inr ⟨rfl, hlt⟩) e'
        ⟨rule, axis', constraint', hrule, haxis', hconstraint', Axis.options_eq_error_iff.1 he'⟩
    · intro r' hlt rule' hrule' e' he'
      obtain ⟨d', e'', hfault⟩ := (exists_entriesOf_eq_error_iff hrule').1 ⟨e', he'⟩
      exact hfirst r' d' (.inl hlt) e'' hfault

end Space


/-! ## Mixed constraints -/

/-- Some entries have a set on dimension `d`, be it empty, and others a scalar. -/
def Entry.MixedOn (entries : List (Entry α)) (d : Nat) : Prop :=
  (∃ entry ∈ entries, ∃ key, entry.cell d = .set key) ∧
    ∃ entry ∈ entries, ∃ code, entry.cell d = .equal code

theorem Entry.mixedOn_iff {entries : List (Entry α)} {d : Nat} :
    MixedOn entries d ↔ (anySetOn entries d && anyScalarOn entries d) = true := by
  have hset (cell : Cell) : cell.isSet = true ↔ ∃ key, cell = .set key := by
    cases cell <;> simp [Cell.isSet]
  simp [MixedOn, anySetOn, anyScalarOn, hset, Option.isSome_iff_exists, Cell.code?_eq_some_iff]

theorem Split.clash?_range_eq_some_iff {n d : Nat} {entries : List (Entry α)} :
    clash? (List.range n) entries = some d ↔
      d < n ∧ Entry.MixedOn entries d ∧ ∀ d' < d, ¬ Entry.MixedOn entries d' := by
  simp only [clash?, List.find?_range_eq_some, Entry.mixedOn_iff, List.mem_range]
  simp only [Bool.not_eq_true', Bool.not_eq_true, and_left_comm]


/-! ## A check at every node -/

namespace Tree

/-- Checks that let pass what mixes no sets and scalars do not change how such entries grow. -/
theorem growIn_eq_liftM {m : Type → Type} [Monad m] [LawfulMonad m] [MonadLiftT Logged m]
    [LawfulMonadLiftT Logged m] {check : List Nat → List (Entry α) → m Unit}
    (hcheck : ∀ free entries, Split.clash? free entries = none → check free entries = pure ())
    (space : Space) {free : List Nat} {entries : List (Entry α)}
    (h : Split.clash? free entries = none) :
    growIn check space free entries = liftM (grow space free entries) := by
  induction free, entries using growth_induct with
  | leaf free entries hchoose =>
    rw [growIn_of_none hchoose, hcheck _ _ h, grow_of_none hchoose, liftM_pure, pure_bind]
  | scalar free entries d code hchoose ihLeft ihRight ihEqual ihAny =>
    -- Fewer free dimensions and fewer entries mix no more than before.
    have hsettled := Split.clash?_erase h d
    rw [growIn_of_scalar hchoose, hcheck _ _ h, grow_of_scalar hchoose,
      ihLeft (Split.clash?_filter h _), ihRight (Split.clash?_filter h _),
      ihEqual (Split.clash?_filter hsettled _), ihAny (Split.clash?_filter hsettled _)]
    simp only [pure_bind, liftM_bind, liftM_pure]
  | sets free entries d hchoose ihKey ihAny =>
    have hsettled := Split.clash?_erase h d
    have hkey (key : SetKey) := ihKey key (Split.clash?_filter hsettled _)
    rw [growIn_of_sets hchoose, hcheck _ _ h, grow_of_sets hchoose,
      ihAny (Split.clash?_filter hsettled _)]
    simp only [hkey, pure_bind, liftM_bind, liftM_pure, liftM_mapM]

/-- Growth that checks at every node for a mix of sets and scalars, on the dimensions that are
    free there and the entries that reach it. -/
def growChecking (space : Space) (free : List Nat) (entries : List (Entry α)) :
    Attempt (Tree α) :=
  growIn (fun free entries => Split.check space free entries) space free entries

/-- No check below the root fails: one check is as good as all, also for what is logged. -/
theorem growChecking_eq (space : Space) (free : List Nat) (entries : List (Entry α)) :
    growChecking space free entries = checkAndGrow space free entries := by
  cases h : Split.clash? free entries with
  | some d =>
    rw [growChecking, growIn, checkAndGrow, Split.check, h]
    rfl
  | none =>
    have hpass (free : List Nat) (entries : List (Entry α)) (h : Split.clash? free entries = none) :
        (Split.check space free entries : Attempt Unit) = pure () := by
      rw [Split.check, h]
      rfl
    rw [growChecking, growIn_eq_liftM hpass space h, checkAndGrow, hpass _ _ h, pure_bind]

/-- What growth with a check at every node comes to. -/
def growChecked (space : Space) (free : List Nat) (entries : List (Entry α)) :
    Except Error (Logged (Tree α)) :=
  (growChecking space free entries).result

/-- Growth with a check at every node fails as the check at the root does, and else not at all. -/
theorem growChecked_eq (space : Space) (free : List Nat) (entries : List (Entry α)) :
    growChecked space free entries =
      match Split.clash? free entries with
      | some d => .error (.mixedConstraints (space.name d))
      | none => .ok (grow space free entries) := by
  rw [growChecked, growChecking_eq, checkAndGrow, Split.check]
  cases Split.clash? free entries with
  | some d => rfl
  | none => exact Attempt.result_ofResult (.ok (grow space free entries))

end Tree


/-! ## Refusal -/

namespace Index

/-- The error with which rules are refused. -/
inductive Refused (dimensions : List Dimension) (rules : List (Rule α)) : Error → Prop where
  /-- The first rule of the wrong size. -/
  | size {r : Nat} {rule : Rule α} (hrule : rules[r]? = some rule)
      (wrong : rule.constraints.length ≠ dimensions.length)
      (first : ∀ r' < r, ∀ rule', rules[r']? = some rule' →
        rule'.constraints.length = dimensions.length) :
      Refused dimensions rules (.dimensionCount dimensions.length rule.constraints.length)
  /-- All rules have the right size, and one has a fault. -/
  | fault {e : Error} (sized : ∀ rule ∈ rules, rule.constraints.length = dimensions.length)
      (fault : (Space.fit dimensions rules).FirstFault rules e) :
      Refused dimensions rules e
  /-- All rules have entries, and these mix sets and scalars on dimension `d` first. -/
  | mixed {entries : List (Entry α)} {d : Nat} (hd : d < dimensions.length)
      (sized : ∀ rule ∈ rules, rule.constraints.length = dimensions.length)
      (coded : (Space.fit dimensions rules).entries rules = .ok entries)
      (mixed : Entry.MixedOn entries d) (first : ∀ d' < d, ¬ Entry.MixedOn entries d') :
      Refused dimensions rules (.mixedConstraints dimensions[d].name)

variable {dimensions : List Dimension} {rules : List (Rule α)} {e : Error}

/-- The rule that the check of sizes finds is the first of the wrong size. -/
theorem find?_length_ne_eq_some_iff {n : Nat} {rule : Rule α} :
    rules.find? (fun rule => rule.constraints.length != n) = some rule ↔
      ∃ r : Nat, rules[r]? = some rule ∧ rule.constraints.length ≠ n ∧
        ∀ r' < r, ∀ rule', rules[r']? = some rule' → rule'.constraints.length = n := by
  simp only [List.find?_eq_some_iff_getElem, bne_iff_ne, Bool.not_eq_true', bne_eq_false_iff_eq]
  constructor
  · rintro ⟨hwrong, r, hr, rfl, hfirst⟩
    refine ⟨r, List.getElem?_eq_getElem hr, hwrong, fun r' hlt rule' hrule' => ?_⟩
    obtain ⟨_, rfl⟩ := List.getElem?_eq_some_iff.1 hrule'
    exact hfirst r' hlt
  · intro ⟨r, hrule, hwrong, hfirst⟩
    obtain ⟨hr, hget⟩ := List.getElem?_eq_some_iff.1 hrule
    refine ⟨hwrong, r, hr, hget, fun r' hlt => ?_⟩
    exact hfirst r' hlt _ (List.getElem?_eq_getElem (Nat.lt_trans hlt hr))

theorem build_eq_error_iff : build dimensions rules = .error e ↔ Refused dimensions rules e := by
  rw [build, buildBy_checkAndGrow, Attempt.result_ofResult]
  cases hfind : rules.find? fun rule => rule.constraints.length != dimensions.length with
  | some rule =>
    obtain ⟨r, hrule, hwrong, hfirst⟩ := find?_length_ne_eq_some_iff.1 hfind
    have hsize : ¬ ∀ rule ∈ rules, rule.constraints.length = dimensions.length :=
      fun h => hwrong (h rule (List.mem_of_getElem? hrule))
    constructor
    · intro h
      obtain rfl := Except.error.inj h
      exact .size hrule hwrong hfirst
    · intro h
      cases h with
      | @size r' rule' hrule' hwrong' hfirst' =>
        have hfind' := find?_length_ne_eq_some_iff.2 ⟨r', hrule', hwrong', hfirst'⟩
        obtain rfl : rule = rule' := Option.some.inj (hfind.symm.trans hfind')
        rfl
      | fault h => exact absurd h hsize
      | mixed _ h => exact absurd h hsize
  | none =>
    have hsize : ∀ rule ∈ rules, rule.constraints.length = dimensions.length := by
      simpa using hfind
    simp only [bind_eq_error_iff, Space.size_fit, Space.entries_eq_error_iff,
      Split.check_eq_error_iff, reduceCtorEq, and_false, exists_false, or_false]
    constructor
    · rintro (hfault | ⟨entries, hentries, d, hclash, rfl⟩)
      · exact .fault hsize hfault
      · obtain ⟨hlt, hmixed, hfirst⟩ := Split.clash?_range_eq_some_iff.1 hclash
        rw [Space.name_fit hlt]
        exact .mixed hlt hsize hentries hmixed hfirst
    · intro h
      cases h with
      | @size _ rule hrule wrong => exact absurd (hsize rule (List.mem_of_getElem? hrule)) wrong
      | fault _ hfault => exact .inl hfault
      | @mixed entries d hlt _ hentries hmixed hfirst =>
        exact .inr ⟨entries, hentries, d, Split.clash?_range_eq_some_iff.2 ⟨hlt, hmixed, hfirst⟩,
          congrArg Error.mixedConstraints (Space.name_fit hlt)⟩

/-- Building where growth checks at every node. -/
def buildChecking (dimensions : List Dimension) (rules : List (Rule α)) : Attempt (Index α) :=
  buildBy Tree.growChecking dimensions rules

/-- Building with checks at every node logs and returns what building does, and fails without a
    log. -/
theorem buildChecking_eq : buildChecking dimensions rules = .ofResult (build dimensions rules) := by
  have hgrow : @Tree.growChecking α = Tree.checkAndGrow := by
    funext space free entries
    exact Tree.growChecking_eq space free entries
  rw [buildChecking, hgrow, build, buildBy_checkAndGrow, Attempt.result_ofResult]

/-- What building with checks at every node comes to. -/
def buildChecked (dimensions : List Dimension) (rules : List (Rule α)) :
    Except Error (Logged (Index α)) :=
  (buildChecking dimensions rules).result

theorem buildChecked_eq_build : buildChecked dimensions rules = build dimensions rules := by
  rw [buildChecked, buildChecking_eq, Attempt.result_ofResult]

/-- Rules are refused with the error of their first fault, be it one of size, of a value or of
    kinds, and are accepted without one. Growth that checks kinds at every node refuses no
    others: the check fails at the root or nowhere. -/
theorem build_refused (dimensions : List Dimension) (rules : List (Rule α)) :
    (∀ e, build dimensions rules = .error e ↔ Refused dimensions rules e) ∧
    ((∃ built, build dimensions rules = .ok built) ↔ ∀ e, ¬ Refused dimensions rules e) ∧
    buildChecked dimensions rules = build dimensions rules ∧
    ∀ (space : Space) (free : List Nat) (entries : List (Entry α)),
      Tree.growChecked space free entries =
        match Split.clash? free entries with
        | some d => .error (.mixedConstraints (space.name d))
        | none => .ok (Tree.grow space free entries) := by
  refine ⟨fun _ => build_eq_error_iff, ?_, buildChecked_eq_build, Tree.growChecked_eq⟩
  simp only [← build_eq_error_iff]
  cases build dimensions rules <;> simp

/-- Even a set without values does not go with a scalar. -/
example : build [⟨"size", .ordered, .integer⟩]
      [⟨[.set [] true], "all"⟩, ⟨[.value (.integer 1)], "one"⟩] =
    .error (.mixedConstraints "size") := rfl

end Index
end RuleIndex
