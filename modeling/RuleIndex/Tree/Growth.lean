-- SUMMARY: Growth: the tree that takes a list of entries apart, split by split.
import RuleIndex.Log
import RuleIndex.Tree

/-!
# Growth

A tree grows from entries and the dimensions that are still free. Left and right
children keep the split dimension free and have fewer entries. All other children
have settled it. So the pair of free dimensions and entries decreases, and growth
ends when no free dimension constrains any entry.

`Tree.growIn` grows in any monad that can log, after a check at every node. An index
grows by `Tree.checkAndGrow`, which checks once and cannot fail from there on.
-/

namespace RuleIndex

variable {α : Type}

/-- The side of `split` on which a cell lies; none if it has no code. -/
def Cell.side? (split : Int) (cell : Cell) : Option Side :=
  cell.code?.map (Side.of split)

namespace Entry

/-- The entries whose cell on `d` lies on one side of `split`. -/
def onSide (entries : List (Entry α)) (d : Nat) (split : Int) (side : Side) : List (Entry α) :=
  entries.filter fun entry => (entry.cell d).side? split == some side

/-- The entries without a code on `d`. -/
def withoutCode (entries : List (Entry α)) (d : Nat) : List (Entry α) :=
  entries.filter fun entry => (entry.cell d).code?.isNone

/-- The sets of the entries on `d`, each once, in order of first appearance. -/
def keysOn (entries : List (Entry α)) (d : Nat) : List SetKey :=
  (entries.filterMap fun entry => (entry.cell d).key?).eraseDups

/-- The entries with one set on `d`. -/
def withKey (entries : List (Entry α)) (d : Nat) (key : SetKey) : List (Entry α) :=
  entries.filter fun entry => (entry.cell d).key? == some key

/-- The entries without a set that asks anything on `d`. -/
def withoutKey (entries : List (Entry α)) (d : Nat) : List (Entry α) :=
  entries.filter fun entry => (entry.cell d).key?.isNone

theorem mem_onSide {entries : List (Entry α)} {entry : Entry α} {d : Nat} {split : Int}
    {side : Side} : entry ∈ onSide entries d split side ↔
      entry ∈ entries ∧ ∃ code, entry.cell d = .equal code ∧ Side.of split code = side := by
  simp [onSide, Cell.side?, Cell.code?_eq_some_iff]

theorem mem_withoutCode {entries : List (Entry α)} {entry : Entry α} {d : Nat} :
    entry ∈ withoutCode entries d ↔ entry ∈ entries ∧ (entry.cell d).code? = none := by
  simp [withoutCode]

theorem mem_keysOn {entries : List (Entry α)} {d : Nat} {key : SetKey} :
    key ∈ keysOn entries d ↔ ∃ entry ∈ entries, (entry.cell d).key? = some key := by
  simp [keysOn]

theorem mem_withKey {entries : List (Entry α)} {entry : Entry α} {d : Nat} {key : SetKey} :
    entry ∈ withKey entries d key ↔ entry ∈ entries ∧ (entry.cell d).key? = some key := by
  simp [withKey]

theorem mem_withoutKey {entries : List (Entry α)} {entry : Entry α} {d : Nat} :
    entry ∈ withoutKey entries d ↔ entry ∈ entries ∧ (entry.cell d).key? = none := by
  simp [withoutKey]

end Entry

/-- Left and right of a chosen split there are fewer entries than before. -/
theorem Split.length_onSide_lt {free : List Nat} {entries : List (Entry α)} {d : Nat}
    {code : Int} {side : Side} (h : choose? free entries = some (.scalar d code))
    (hside : side ≠ .equal) : (Entry.onSide entries d code side).length < entries.length := by
  obtain ⟨entry, hmem, hcode⟩ := choose?_scalar_code h
  refine List.length_filter_lt_length_iff_exists.2 ⟨entry, hmem, ?_⟩
  simp [Cell.side?, hcode, Side.of, hside.symm]

/-- A settled dimension is free no more. -/
theorem Split.length_erase_lt {free : List Nat} {entries : List (Entry α)} {split : Split}
    (h : choose? free entries = some split) :
    (free.erase split.dimension).length < free.length := by
  have hmem := choose?_mem_free h
  have hpos := List.length_pos_of_mem hmem
  rw [List.length_erase_of_mem hmem]
  omega

/-- Grow the tree of `entries` over the dimensions that are free. At every node the free dimensions
    and the entries are checked first, and then a split is logged before those of its children. -/
def Tree.growIn {m : Type → Type} [Monad m] [MonadLiftT Logged m]
    (check : List Nat → List (Entry α) → m Unit) (space : Space) (free : List Nat)
    (entries : List (Entry α)) : m (Tree α) := do
  check free entries
  match _h : Split.choose? free entries with
  | none => return .ofPayloads (entries.map Entry.payload)
  | some (.scalar d code) =>
    Logged.tell (.scalarSplit (space.name d) (space.render d code) entries.length)
    let left ← growIn check space free (Entry.onSide entries d code .left)
    let right ← growIn check space free (Entry.onSide entries d code .right)
    let equal ← growIn check space (free.erase d) (Entry.onSide entries d code .equal)
    let any ← growIn check space (free.erase d) (Entry.withoutCode entries d)
    return .scalar d code left right equal any
  | some (.sets d) =>
    let keys := Entry.keysOn entries d
    Logged.tell (.setSplit (space.name d) keys.length)
    let branches ← keys.mapM fun key => do
      return (key, ← growIn check space (free.erase d) (Entry.withKey entries d key))
    let any ← growIn check space (free.erase d) (Entry.withoutKey entries d)
    return .sets d branches any
termination_by (free.length, entries.length)
decreasing_by
  · exact Prod.Lex.right _ (Split.length_onSide_lt _h (by decide))
  · exact Prod.Lex.right _ (Split.length_onSide_lt _h (by decide))
  · exact Prod.Lex.left _ _ (Split.length_erase_lt _h)
  · exact Prod.Lex.left _ _ (Split.length_erase_lt _h)
  · exact Prod.Lex.left _ _ (Split.length_erase_lt _h)
  · exact Prod.Lex.left _ _ (Split.length_erase_lt _h)

/-- Grow the tree of `entries` without any check. -/
def Tree.grow (space : Space) (free : List Nat) (entries : List (Entry α)) : Logged (Tree α) :=
  growIn (fun _ _ => pure ()) space free entries

/-- Refuse entries that mix sets and scalars on a free dimension. -/
def Split.check (space : Space) (free : List Nat) (entries : List (Entry α)) :
    Except Error Unit :=
  match clash? free entries with
  | some d => .error (.mixedConstraints (space.name d))
  | none => .ok ()

/-- Check the entries once, and then grow their tree. -/
def Tree.checkAndGrow (space : Space) (free : List Nat) (entries : List (Entry α)) :
    Attempt (Tree α) := do
  Split.check space free entries
  grow space free entries


/-! ## One step of growth -/

namespace Tree

/-- Induction along growth, over the free dimensions and the entries of a node. It is the same in
    every monad. -/
theorem growth_induct {motive : List Nat → List (Entry α) → Prop}
    (leaf : ∀ free entries, Split.choose? free entries = none → motive free entries)
    (scalar : ∀ free entries d code, Split.choose? free entries = some (.scalar d code) →
      motive free (Entry.onSide entries d code .left) →
      motive free (Entry.onSide entries d code .right) →
      motive (free.erase d) (Entry.onSide entries d code .equal) →
      motive (free.erase d) (Entry.withoutCode entries d) → motive free entries)
    (sets : ∀ free entries d, Split.choose? free entries = some (.sets d) →
      (∀ key, motive (free.erase d) (Entry.withKey entries d key)) →
      motive (free.erase d) (Entry.withoutKey entries d) → motive free entries)
    (free : List Nat) (entries : List (Entry α)) : motive free entries := by
  induction free, entries using growIn.induct with
  | case1 free entries ihLeft ihRight ihEqual ihNoCode ihKey ihNoKey =>
    cases h : Split.choose? free entries with
    | none => exact leaf free entries h
    | some split =>
      cases split with
      | scalar d code =>
        exact scalar free entries d code h (ihLeft d code h) (ihRight d code h) (ihEqual d code h)
          (ihNoCode d code h)
      | sets d => exact sets free entries d h (ihKey d h) (ihNoKey d h)

section InAnyMonad

variable {m : Type → Type} [Monad m] [MonadLiftT Logged m]
  {check : List Nat → List (Entry α) → m Unit} {space : Space} {free : List Nat}
  {entries : List (Entry α)}

theorem growIn_of_none (h : Split.choose? free entries = none) :
    growIn check space free entries = do
      check free entries
      return .ofPayloads (entries.map Entry.payload) := by
  rw [growIn]
  congr 1
  funext
  split <;> simp_all

theorem growIn_of_scalar {d : Nat} {code : Int}
    (h : Split.choose? free entries = some (.scalar d code)) :
    growIn check space free entries = do
      check free entries
      Logged.tell (.scalarSplit (space.name d) (space.render d code) entries.length)
      let left ← growIn check space free (Entry.onSide entries d code .left)
      let right ← growIn check space free (Entry.onSide entries d code .right)
      let equal ← growIn check space (free.erase d) (Entry.onSide entries d code .equal)
      let any ← growIn check space (free.erase d) (Entry.withoutCode entries d)
      return .scalar d code left right equal any := by
  rw [growIn]
  congr 1
  funext
  split <;> simp_all

theorem growIn_of_sets {d : Nat} (h : Split.choose? free entries = some (.sets d)) :
    growIn check space free entries = do
      check free entries
      Logged.tell (.setSplit (space.name d) (Entry.keysOn entries d).length)
      let branches ← (Entry.keysOn entries d).mapM fun key => do
        return (key, ← growIn check space (free.erase d) (Entry.withKey entries d key))
      let any ← growIn check space (free.erase d) (Entry.withoutKey entries d)
      return .sets d branches any := by
  rw [growIn]
  congr 1
  funext
  split <;> simp_all

end InAnyMonad

variable {space : Space} {free : List Nat} {entries : List (Entry α)}

theorem grow_of_none (h : Split.choose? free entries = none) :
    grow space free entries = pure (.ofPayloads (entries.map Entry.payload)) :=
  growIn_of_none h

theorem grow_of_scalar {d : Nat} {code : Int}
    (h : Split.choose? free entries = some (.scalar d code)) :
    grow space free entries = do
      Logged.tell (.scalarSplit (space.name d) (space.render d code) entries.length)
      let left ← grow space free (Entry.onSide entries d code .left)
      let right ← grow space free (Entry.onSide entries d code .right)
      let equal ← grow space (free.erase d) (Entry.onSide entries d code .equal)
      let any ← grow space (free.erase d) (Entry.withoutCode entries d)
      return .scalar d code left right equal any :=
  growIn_of_scalar h

theorem grow_of_sets {d : Nat} (h : Split.choose? free entries = some (.sets d)) :
    grow space free entries = do
      Logged.tell (.setSplit (space.name d) (Entry.keysOn entries d).length)
      let branches ← (Entry.keysOn entries d).mapM fun key => do
        return (key, ← grow space (free.erase d) (Entry.withKey entries d key))
      let any ← grow space (free.erase d) (Entry.withoutKey entries d)
      return .sets d branches any :=
  growIn_of_sets h

theorem value_grow_of_none (h : Split.choose? free entries = none) :
    (grow space free entries).value = .ofPayloads (entries.map Entry.payload) := by
  rw [grow_of_none h, Logged.value_pure]

theorem value_grow_of_scalar {d : Nat} {code : Int}
    (h : Split.choose? free entries = some (.scalar d code)) :
    (grow space free entries).value =
      .scalar d code (grow space free (Entry.onSide entries d code .left)).value
        (grow space free (Entry.onSide entries d code .right)).value
        (grow space (free.erase d) (Entry.onSide entries d code .equal)).value
        (grow space (free.erase d) (Entry.withoutCode entries d)).value := by
  simp [grow_of_scalar h]

theorem value_grow_of_sets {d : Nat} (h : Split.choose? free entries = some (.sets d)) :
    (grow space free entries).value =
      .sets d ((Entry.keysOn entries d).map fun key =>
          (key, (grow space (free.erase d) (Entry.withKey entries d key)).value))
        (grow space (free.erase d) (Entry.withoutKey entries d)).value := by
  simp [grow_of_sets h]

theorem log_grow_of_none (h : Split.choose? free entries = none) :
    (grow space free entries).log = [] := by
  rw [grow_of_none h, Logged.log_pure]

theorem log_grow_of_scalar {d : Nat} {code : Int}
    (h : Split.choose? free entries = some (.scalar d code)) :
    (grow space free entries).log =
      .scalarSplit (space.name d) (space.render d code) entries.length ::
        ((grow space free (Entry.onSide entries d code .left)).log ++
          (grow space free (Entry.onSide entries d code .right)).log ++
          (grow space (free.erase d) (Entry.onSide entries d code .equal)).log ++
          (grow space (free.erase d) (Entry.withoutCode entries d)).log) := by
  simp [grow_of_scalar h]

theorem log_grow_of_sets {d : Nat} (h : Split.choose? free entries = some (.sets d)) :
    (grow space free entries).log =
      .setSplit (space.name d) (Entry.keysOn entries d).length ::
        ((Entry.keysOn entries d).flatMap (fun key =>
            (grow space (free.erase d) (Entry.withKey entries d key)).log) ++
          (grow space (free.erase d) (Entry.withoutKey entries d)).log) := by
  simp [grow_of_sets h]

end Tree
end RuleIndex
