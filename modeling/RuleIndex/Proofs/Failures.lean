-- SUMMARY: Failures on a path: on the way to a leaf of a search tree, a query fails exactly on the cells that it does not meet.
import RuleIndex.Proofs.Matching
import RuleIndex.Proofs.SearchTree
import RuleIndex.Tree.Visit

/-!
# Failures on a path

A visit narrows what its path asks of a dimension turn by turn, and it may note a failure at a
side long before the dimension is settled. In a search tree this does no harm. The ways on one
dimension that lead to a leaf close in on a code (`Closes`): a query that has the code is refused
at no side on which the code lies, and the last way overwrites the range that the sides left.

So what the path asks in the end are cells, and its failures are those of the cells that the
query does not meet (`Tree.SearchTree.explains`).
-/

namespace RuleIndex

variable {α : Type}

/-! ## Cells as constraints -/

/-- A cell as the constraint of a path. -/
def PathConstraint.ofCell : Cell → PathConstraint
  | .any => .any
  | .equal code => .equal code
  | .set key => .set key

/-- The cell that a constraint settles on. A range settles nothing yet. -/
def PathConstraint.cell : PathConstraint → Cell
  | .any | .range _ _ => .any
  | .equal code => .equal code
  | .set key => .set key

@[simp] theorem PathConstraint.cell_ofCell (cell : Cell) : (ofCell cell).cell = cell := by
  cases cell <;> rfl

theorem PathConstraint.ofCell_injective {cell cell' : Cell} (h : ofCell cell = ofCell cell') :
    cell = cell' := by
  rw [← cell_ofCell cell, h, cell_ofCell]

/-- How a query fails on a set. -/
def SetKey.failureKind (key : SetKey) : Operation :=
  if key.inclusive then .ordered else .notContains

/-- How a query fails on a cell. -/
def Cell.failureKind (op : Operation) : Cell → Operation
  | .set key => key.failureKind
  | _ => op


/-! ## Paths and turns -/

namespace Way

/-- What is asked of a dimension after a turn on it. -/
def narrow : Way → PathConstraint → PathConstraint
  | .left split, constraint => constraint.toward split .left
  | .right split, constraint => constraint.toward split .right
  | .equal split, constraint => constraint.toward split .equal
  | .any, constraint => constraint
  | .set key, _ => .set key

/-- Whether a query may go this way. -/
def admits (op : Operation) (codes : List Int) : Way → Bool
  | .left split => op.admits codes split .left
  | .right split => op.admits codes split .right
  | .equal split => op.admits codes split .equal
  | .any => true
  | .set key => key.admits codes

/-- How a query fails that may not go this way. -/
def failureKind (op : Operation) : Way → Operation
  | .set key => key.failureKind
  | _ => op

/-- A query that meets a code is admitted to every side on which the code lies. -/
theorem admits_of_met {side : Way} (hside : side.settles = false) {code : Int}
    (htakes : side.Takes (.equal code)) {op : Operation} {codes : List Int}
    (hmet : (Cell.equal code).Met op codes) : side.admits op codes = true := by
  obtain ⟨split, rfl | rfl⟩ := settles_eq_false_iff.1 hside
  · obtain ⟨_, hcode, hlt⟩ := htakes
    obtain rfl := Cell.equal.inj hcode
    rw [admits, ← Side.of_eq_left_iff.2 hlt]
    exact Cell.admits_of_met_equal split hmet
  · obtain ⟨_, hcode, hlt⟩ := htakes
    obtain rfl := Cell.equal.inj hcode
    rw [admits, ← Side.of_eq_right_iff.2 hlt]
    exact Cell.admits_of_met_equal split hmet

end Way

/-- The ways that were taken on dimension `d`, in the order of the path. -/
def waysOn (turns : List Turn) (d : Nat) : List Way :=
  turns.filterMap fun turn => if turn.dimension = d then some turn.way else none

theorem waysOn_cons_self {turns : List Turn} {d : Nat} {way : Way} :
    waysOn (⟨d, way⟩ :: turns) d = way :: waysOn turns d := by
  simp [waysOn]

theorem waysOn_cons_of_ne {turns : List Turn} {d d' : Nat} {way : Way} (h : d' ≠ d) :
    waysOn (⟨d', way⟩ :: turns) d = waysOn turns d := by
  simp [waysOn, h]

theorem mem_waysOn {turns : List Turn} {d : Nat} {way : Way} :
    way ∈ waysOn turns d ↔ ⟨d, way⟩ ∈ turns := by
  simp only [waysOn, List.mem_filterMap, Option.ite_none_right_eq_some, Option.some.injEq]
  constructor
  · rintro ⟨⟨_, _⟩, hturn, rfl, rfl⟩
    exact hturn
  · intro hturn
    exact ⟨_, hturn, rfl, rfl⟩

/-- A dimension is not touched, or there is a last turn on it. -/
theorem exists_last_turn (turns : List Turn) (d : Nat) :
    waysOn turns d = [] ∨ ∃ before way after, turns = before ++ ⟨d, way⟩ :: after ∧
      waysOn turns d = waysOn before d ++ [way] ∧ waysOn after d = [] := by
  induction turns with
  | nil => exact .inl rfl
  | cons turn turns ih =>
    obtain ⟨dimension, way⟩ := turn
    by_cases hd : dimension = d
    · subst hd
      rw [waysOn_cons_self]
      rcases ih with hnil | ⟨before, last, after, rfl, hways, hafter⟩
      · exact .inr ⟨[], way, turns, rfl, by rw [hnil]; rfl, hnil⟩
      · refine .inr ⟨_ :: before, last, after, rfl, ?_, hafter⟩
        rw [waysOn_cons_self, hways]
        rfl
    · rw [waysOn_cons_of_ne hd]
      rcases ih with hnil | ⟨before, last, after, rfl, hways, hafter⟩
      · exact .inl hnil
      · refine .inr ⟨_ :: before, last, after, rfl, ?_, hafter⟩
        rw [waysOn_cons_of_ne hd, hways]

namespace Path

variable (space : Space) (query : CodedQuery)

/-- The path after a turn. -/
def take (path : Path) (turn : Turn) : Path :=
  let op := space.operation turn.dimension
  let narrowed := { path with
    constraints := path.constraints.modify turn.dimension turn.way.narrow }
  narrowed.check turn.dimension (turn.way.failureKind op)
    (turn.way.admits op (query.codesAt turn.dimension))

/-- The path after some turns. -/
def along (path : Path) (turns : List Turn) : Path :=
  turns.foldl (take space query) path

variable {space query} {path : Path} {d : Nat}

theorem take_any : path.take space query ⟨d, .any⟩ = path := by
  have hsame : path.constraints.modify d Way.any.narrow = path.constraints := by
    rw [show Way.any.narrow = id from rfl, List.modify_id]
  simp [take, hsame, Way.admits, check]

theorem take_set {key : SetKey} :
    path.take space query ⟨d, .set key⟩ = path.toSet d (query.codesAt d) key := by
  rw [take, toSet, List.set_eq_modify]
  rfl

theorem constraints_check {kind : Operation} {admitted : Bool} :
    (path.check d kind admitted).constraints = path.constraints := by
  unfold check
  split <;> rfl

/-- Every dimension is asked what the turns on it leave. -/
theorem getElem?_constraints_along (turns : List Turn) :
    (path.along space query turns).constraints[d]? =
      path.constraints[d]?.map fun constraint =>
        (waysOn turns d).foldl (fun constraint way => way.narrow constraint) constraint := by
  induction turns generalizing path with
  | nil => simp [along, waysOn]
  | cons turn turns ih =>
    have htake : (path.along space query (turn :: turns)).constraints[d]? =
        ((path.take space query turn).along space query turns).constraints[d]? := rfl
    rw [htake, ih, take, constraints_check, List.getElem?_modify]
    obtain ⟨dimension, way⟩ := turn
    by_cases hd : dimension = d
    · subst hd
      simp [waysOn_cons_self, Function.comp_def]
    · simp [waysOn_cons_of_ne hd, hd]

theorem failedOn_check {d' : Nat} {kind : Operation} {admitted : Bool} :
    (path.check d' kind admitted).failedOn d = true ↔
      path.failedOn d = true ∨ d' = d ∧ admitted = false := by
  unfold check
  split
  · next h =>
    rw [Bool.or_eq_true] at h
    constructor
    · exact .inl
    · rintro (hfailed | ⟨rfl, rfl⟩)
      · exact hfailed
      · exact h.resolve_left Bool.false_ne_true
  · next h =>
    rw [Bool.not_eq_true, Bool.or_eq_false_iff] at h
    simp [failedOn, h.1]

/-- A dimension fails if some way on it is not open to the query. -/
theorem failedOn_along_iff (turns : List Turn) :
    (path.along space query turns).failedOn d = true ↔
      path.failedOn d = true ∨
        ∃ way ∈ waysOn turns d, way.admits (space.operation d) (query.codesAt d) = false := by
  induction turns generalizing path with
  | nil => simp [along, waysOn]
  | cons turn turns ih =>
    have htake : path.along space query (turn :: turns) =
        (path.take space query turn).along space query turns := rfl
    rw [htake, ih, take, failedOn_check]
    obtain ⟨dimension, way⟩ := turn
    by_cases hd : dimension = d
    · subst hd
      simp [waysOn_cons_self, failedOn, or_assoc]
    · simp [waysOn_cons_of_ne hd, hd, failedOn]

theorem failedOn_iff : path.failedOn d = true ↔ ∃ kind, ⟨d, kind⟩ ∈ path.failures := by
  simp only [failedOn, List.any_eq_true, beq_iff_eq]
  constructor
  · rintro ⟨⟨dimension, kind⟩, hfailure, rfl⟩
    exact ⟨kind, hfailure⟩
  · rintro ⟨kind, hfailure⟩
    exact ⟨_, hfailure, rfl⟩

theorem mem_failures_check {d' : Nat} {kind : Operation} {admitted : Bool} {failure : Failure}
    (h : failure ∈ (path.check d' kind admitted).failures) :
    failure ∈ path.failures ∨ admitted = false ∧ failure = ⟨d', kind⟩ := by
  unfold check at h
  split at h
  · exact .inl h
  · next hrefused =>
    rw [Bool.not_eq_true, Bool.or_eq_false_iff] at hrefused
    rcases List.mem_append.1 h with h | h
    · exact .inl h
    · exact .inr ⟨hrefused.1, List.mem_singleton.1 h⟩

/-- What is noted of a failure tells a way on its dimension that was not open. -/
theorem exists_way_of_mem_failures (turns : List Turn) {kind : Operation}
    (h : ⟨d, kind⟩ ∈ (path.along space query turns).failures) :
    ⟨d, kind⟩ ∈ path.failures ∨ ∃ way ∈ waysOn turns d,
      way.admits (space.operation d) (query.codesAt d) = false ∧
        kind = way.failureKind (space.operation d) := by
  induction turns generalizing path with
  | nil => exact .inl h
  | cons turn turns ih =>
    have hrest : ⟨d, kind⟩ ∈ ((path.take space query turn).along space query turns).failures := h
    rcases ih hrest with h | ⟨way, hway, hrefused⟩
    · rcases mem_failures_check h with h | ⟨hrefused, heq⟩
      · exact .inl h
      · obtain ⟨rfl, rfl⟩ := Failure.mk.inj heq
        exact .inr ⟨turn.way, mem_waysOn.2 List.mem_cons_self, hrefused, rfl⟩
    · refine .inr ⟨way, ?_, hrefused⟩
      exact mem_waysOn.2 (List.mem_cons_of_mem _ (mem_waysOn.1 hway))

theorem nodup_failures_check {d : Nat} {kind : Operation} {admitted : Bool}
    (h : (path.failures.map Failure.dimension).Nodup) :
    ((path.check d kind admitted).failures.map Failure.dimension).Nodup := by
  unfold check
  split
  · exact h
  · next hnew =>
    have hfailed : ¬ path.failedOn d = true := fun hfailed => hnew (by simp [hfailed])
    simp only [failedOn, List.any_eq_true, beq_iff_eq] at hfailed
    simpa [List.nodup_append, h] using hfailed

/-- No dimension fails twice. -/
theorem nodup_failures_along (turns : List Turn)
    (h : (path.failures.map Failure.dimension).Nodup) :
    ((path.along space query turns).failures.map Failure.dimension).Nodup := by
  induction turns generalizing path with
  | nil => exact h
  | cons turn turns ih => exact ih (nodup_failures_check h)

end Path


/-! ## Ways to a leaf -/

/-- The ways on one dimension that lead to a leaf, and what they ask in the end: no way, or some
    sides and then the code that they close in on, or one way that settles the dimension. -/
inductive Closes : List Way → Cell → Prop where
  | untouched : Closes [] .any
  | equal {sides : List Way} {split : Int}
      (h : ∀ side ∈ sides, side.settles = false ∧ side.Takes (.equal split)) :
      Closes (sides ++ [.equal split]) (.equal split)
  | any : Closes [.any] .any
  | set {key : SetKey} (h : key.codes ≠ []) : Closes [.set key] (.set key)

namespace Closes

variable {ways : List Way} {cell : Cell}

/-- No range is left of the sides. -/
theorem foldl_narrow (h : Closes ways cell) :
    ways.foldl (fun constraint way => way.narrow constraint) .any = .ofCell cell := by
  cases h with
  | untouched => rfl
  | equal => rw [List.foldl_append]; rfl
  | any => rfl
  | set => rfl

/-- A query is refused somewhere on the way exactly if it does not meet what is asked in the
    end. -/
theorem refused_iff (h : Closes ways cell) {op : Operation} {codes : List Int} :
    (∃ way ∈ ways, way.admits op codes = false) ↔ ¬ cell.Met op codes := by
  cases h with
  | untouched => simp [Cell.met_any]
  | @equal sides split hsides =>
    rw [Cell.met_equal_iff]
    constructor
    · rintro ⟨way, hway, hrefused⟩ hadmits
      rcases List.mem_append.1 hway with hside | hlast
      · obtain ⟨hopen, htakes⟩ := hsides way hside
        have hside := Way.admits_of_met hopen htakes (Cell.met_equal_iff.2 hadmits)
        exact Bool.false_ne_true (hrefused.symm.trans hside)
      · obtain rfl := List.mem_singleton.1 hlast
        exact Bool.false_ne_true (hrefused.symm.trans hadmits)
    · intro hrefused
      exact ⟨.equal split, by simp, Bool.eq_false_iff.2 hrefused⟩
  | any => simp [Cell.met_any, Way.admits]
  | set hkey =>
    rw [Cell.met_set_iff hkey]
    simp [Way.admits]

theorem failureKind_eq (h : Closes ways cell) {way : Way} (hway : way ∈ ways) (op : Operation) :
    way.failureKind op = cell.failureKind op := by
  cases h with
  | untouched => cases hway
  | equal hsides =>
    rcases List.mem_append.1 hway with hside | hlast
    · obtain ⟨split, rfl | rfl⟩ := Way.settles_eq_false_iff.1 (hsides way hside).1 <;> rfl
    · obtain rfl := List.mem_singleton.1 hlast
      rfl
  | any =>
    obtain rfl := List.mem_singleton.1 hway
    rfl
  | set =>
    obtain rfl := List.mem_singleton.1 hway
    rfl

end Closes

theorem SetKey.codes_ne_nil_of_bits {key : SetKey}
    (h : ∀ capacity, (key.bits capacity).isEmpty = false) : key.codes ≠ [] := by
  obtain ⟨codes, inclusive⟩ := key
  rintro rfl
  cases h 0

namespace Tree

namespace SearchTree

variable {root : Tree α} {d : Nat}

/-- A dimension that a path left to a side is split again at a code on this side, and no entries
    are left over there. -/
theorem resplit (h : root.SearchTree) {path : List Turn} {node : Tree α}
    (hwalk : root.Walk path node) (hd : node.dimension? = some d) {side : Way}
    (hside : ⟨d, side⟩ ∈ path) : side.settles = false ∧
      ∃ code left right equal, node = .scalar d code left right equal .empty ∧
        side.Takes (.equal code) := by
  have hopen := h.settled path node d hwalk hd side hside
  refine ⟨hopen, ?_⟩
  obtain ⟨split, rfl | rfl⟩ := Way.settles_eq_false_iff.1 hopen
  · obtain ⟨code, left, right, equal, hnode, hlt⟩ := h.left path node d split hwalk hd hside
    exact ⟨code, left, right, equal, hnode, code, rfl, hlt⟩
  · obtain ⟨code, left, right, equal, hnode, hlt⟩ := h.right path node d split hwalk hd hside
    exact ⟨code, left, right, equal, hnode, code, rfl, hlt⟩

/-- A branch of a search tree has a set that is not empty. -/
theorem codes_ne_nil (h : root.SearchTree) {path : List Turn} {node child : Tree α}
    (hwalk : root.Walk path node) {key : SetKey} (hchild : (⟨d, .set key⟩, child) ∈ node.children) :
    key.codes ≠ [] := by
  have hwell := h.wellFormed path node hwalk
  cases node with
  | empty => cases hchild
  | leaf payloads => cases hchild
  | scalar => simp [mem_children_scalar_iff] at hchild
  | sets d branches any =>
    rcases mem_children_sets_iff.1 hchild with ⟨key', hkey, hbranch⟩ | ⟨hany, _⟩
    · obtain ⟨_, rfl⟩ : _ ∧ key = key' := by simpa using hkey
      exact SetKey.codes_ne_nil_of_bits (hwell.1 _ hbranch).2
    · simp at hany

/-- On the way to a leaf of a search tree, every side is closed in on. -/
theorem closes (h : root.SearchTree) {turns : List Turn} {payloads : List α}
    (hwalk : root.Walk turns (.leaf payloads)) (d : Nat) :
    ∃ cell, Closes (waysOn turns d) cell := by
  rcases exists_last_turn turns d with hnil | ⟨before, way, after, rfl, hways, hafter⟩
  · exact ⟨.any, hnil ▸ .untouched⟩
  obtain ⟨parent, child, hparent, hchild, hleaf⟩ := hwalk.append_cons
  have hd : parent.dimension? = some d := dimension?_of_mem_children hchild
  -- A last turn to a side would be followed by another one.
  have hsettles : way.settles = true := by
    by_contra hside
    obtain ⟨split, hsplit⟩ := h.decided before after d way payloads hwalk (by simpa using hside)
    rw [← mem_waysOn, hafter] at hsplit
    cases hsplit
  rw [hways]
  cases hbefore : waysOn before d with
  | nil =>
    cases way with
    | left split => cases hsettles
    | right split => cases hsettles
    | equal split => exact ⟨.equal split, .equal fun side hside => by cases hside⟩
    | any => exact ⟨.any, .any⟩
    | set key => exact ⟨.set key, .set (h.codes_ne_nil hparent hchild)⟩
  | cons side sides =>
    have hside : ⟨d, side⟩ ∈ before := mem_waysOn.1 (hbefore ▸ List.mem_cons_self)
    obtain ⟨_, code, left, right, equal, rfl, _⟩ := h.resplit hparent hd hside
    have hway : way = .equal code := by
      simp only [mem_children_scalar_iff, Turn.mk.injEq, true_and] at hchild
      rcases hchild with ⟨rfl, _⟩ | ⟨rfl, _⟩ | ⟨rfl, _⟩ | ⟨_, rfl⟩
      · cases hsettles
      · cases hsettles
      · rfl
      · cases hleaf.of_empty
    rw [hway, ← hbefore]
    refine ⟨.equal code, .equal fun side hside => ?_⟩
    obtain ⟨hopen, code', _, _, _, hnode, htakes⟩ :=
      h.resplit hparent hd (mem_waysOn.1 hside)
    obtain rfl := (Tree.scalar.inj hnode).2.1
    exact ⟨hopen, htakes⟩

end SearchTree

/-- A path turns on dimensions that are free at its start. -/
theorem Grown.dimension_mem_of_walk {free : List Nat} {entries : List (Entry α)}
    {tree node : Tree α} (h : Grown free entries tree) {path : List Turn}
    (hwalk : tree.Walk path node) {turn : Turn} (hturn : turn ∈ path) : turn.dimension ∈ free := by
  induction hwalk generalizing free entries with
  | nil => cases hturn
  | @cons tree child node first path here _ ih =>
    rcases List.mem_cons.1 hturn with rfl | hturn
    · exact h.dimension_mem_free (dimension?_of_mem_children here)
    · obtain ⟨_, hgrown, _⟩ := h.turn here
      have hmem := ih hgrown hturn
      unfold Turn.remaining at hmem
      split at hmem
      · exact List.mem_of_mem_erase hmem
      · exact hmem

end Tree


/-! ## Exact paths -/

/-- The path asks for a vector of cells, and its failures are the cells that the query does not
    meet. -/
structure Path.Explains (path : Path) (space : Space) (query : CodedQuery) (vector : List Cell) :
    Prop where
  constraints : path.constraints = vector.map .ofCell
  once : (path.failures.map Failure.dimension).Nodup
  failures : ∀ d kind, ⟨d, kind⟩ ∈ path.failures ↔ ∃ cell, vector[d]? = some cell ∧
    ¬ cell.Met (space.operation d) (query.codesAt d) ∧ kind = cell.failureKind (space.operation d)

namespace Tree.SearchTree

variable {root : Tree α} {turns : List Turn} {payloads : List α} {n : Nat} {space : Space}
  {query : CodedQuery} {path : Path}

/-- What a path to a leaf asks of a dimension is what the ways on it close in on. -/
theorem exists_closed (h : root.SearchTree) (hwalk : root.Walk turns (.leaf payloads))
    (hpath : path = (Path.root n).along space query turns) {d : Nat} (hd : d < n) :
    ∃ cell, Closes (waysOn turns d) cell ∧ path.constraints[d]? = some (.ofCell cell) := by
  obtain ⟨cell, hcloses⟩ := h.closes hwalk d
  refine ⟨cell, hcloses, ?_⟩
  rw [hpath, Path.getElem?_constraints_along, ← hcloses.foldl_narrow]
  simp [Path.root, hd]

/-- A failure tells that the query does not meet what the ways on the dimension close in on. -/
theorem missed_of_failure (h : root.SearchTree) (hwalk : root.Walk turns (.leaf payloads))
    (hn : ∀ turn ∈ turns, turn.dimension < n)
    (hpath : path = (Path.root n).along space query turns) {d : Nat} {kind : Operation}
    (hfailure : ⟨d, kind⟩ ∈ path.failures) :
    ∃ cell, path.constraints[d]? = some (.ofCell cell) ∧
      ¬ cell.Met (space.operation d) (query.codesAt d) ∧
      kind = cell.failureKind (space.operation d) := by
  rw [hpath] at hfailure
  rcases Path.exists_way_of_mem_failures turns hfailure with hroot | ⟨way, hway, hrefused, hkind⟩
  · cases hroot
  · obtain ⟨cell, hcloses, hcell⟩ := h.exists_closed hwalk hpath (hn _ (mem_waysOn.1 hway))
    rw [hcloses.failureKind_eq hway] at hkind
    exact ⟨cell, hcell, hcloses.refused_iff.1 ⟨way, hway, hrefused⟩, hkind⟩

/-- On a path to a leaf of a search tree the failures are exact: the sides are closed in on, and a
    query that is refused at a side does not meet the code at the end. -/
theorem explains (h : root.SearchTree) (hwalk : root.Walk turns (.leaf payloads))
    (hn : ∀ turn ∈ turns, turn.dimension < n)
    (hpath : path = (Path.root n).along space query turns) :
    path.Explains space query (path.constraints.map PathConstraint.cell) := by
  have hlength (d : Nat) (hd : ¬ d < n) : path.constraints[d]? = none := by
    rw [hpath, Path.getElem?_constraints_along]
    simp [Path.root, hd]
  constructor
  case constraints =>
    refine List.ext_getElem? fun d => ?_
    by_cases hd : d < n
    · obtain ⟨cell, _, hcell⟩ := h.exists_closed hwalk hpath hd
      simp [hcell]
    · simp [hlength d hd]
  case once =>
    rw [hpath]
    exact Path.nodup_failures_along turns List.nodup_nil
  case failures =>
    intro d kind
    rw [List.getElem?_map]
    constructor
    · intro hfailure
      obtain ⟨cell, hcell, hmissed, hkind⟩ := h.missed_of_failure hwalk hn hpath hfailure
      exact ⟨cell, by simp [hcell], hmissed, hkind⟩
    · rintro ⟨cell, hvector, hmissed, rfl⟩
      have hd : d < n := by
        by_contra hd
        simp [hlength d hd] at hvector
      obtain ⟨own, hcloses, hown⟩ := h.exists_closed hwalk hpath hd
      obtain rfl : own = cell := by simpa [hown] using hvector
      have hfailed : path.failedOn d = true := by
        rw [hpath, Path.failedOn_along_iff]
        exact .inr (hcloses.refused_iff.2 hmissed)
      obtain ⟨kind, hfailure⟩ := Path.failedOn_iff.1 hfailed
      obtain ⟨cell, hcell, _, rfl⟩ := h.missed_of_failure hwalk hn hpath hfailure
      obtain rfl := PathConstraint.ofCell_injective (Option.some.inj (hown.symm.trans hcell))
      exact hfailure

end Tree.SearchTree


/-! ## Visits -/

namespace Tree

variable {space : Space} {query : CodedQuery}

mutual

/-- A visit comes down a path to its leaf. -/
theorem exists_walk_of_mem_visits (tree : Tree α) (path : Path) {visit : Visit α}
    (h : visit ∈ tree.visits space query path) :
    ∃ turns, tree.Walk turns (.leaf visit.payloads) ∧
      visit.path = path.along space query turns := by
  match tree with
  | .empty => cases h
  | .leaf payloads =>
    rw [visits, List.mem_singleton] at h
    subst h
    exact ⟨[], .nil, rfl⟩
  | .scalar d split left right equal any =>
    simp only [visits, List.mem_append, List.mem_flatMap] at h
    rcases h with hany | ⟨side, _, hside⟩
    · obtain ⟨turns, hwalk, hpath⟩ := exists_walk_of_mem_visits any path hany
      refine ⟨⟨d, .any⟩ :: turns, .cons (by simp [mem_children_scalar_iff]) hwalk, ?_⟩
      rw [hpath, Path.along, Path.along, List.foldl_cons, Path.take_any]
    · cases side with
      | left =>
        obtain ⟨turns, hwalk, hpath⟩ := exists_walk_of_mem_visits left _ hside
        exact ⟨⟨d, .left split⟩ :: turns, .cons (by simp [mem_children_scalar_iff]) hwalk, hpath⟩
      | right =>
        obtain ⟨turns, hwalk, hpath⟩ := exists_walk_of_mem_visits right _ hside
        exact ⟨⟨d, .right split⟩ :: turns, .cons (by simp [mem_children_scalar_iff]) hwalk, hpath⟩
      | equal =>
        obtain ⟨turns, hwalk, hpath⟩ := exists_walk_of_mem_visits equal _ hside
        exact ⟨⟨d, .equal split⟩ :: turns, .cons (by simp [mem_children_scalar_iff]) hwalk, hpath⟩
  | .sets d branches any =>
    simp only [visits, List.mem_append] at h
    rcases h with hany | hbranch
    · obtain ⟨turns, hwalk, hpath⟩ := exists_walk_of_mem_visits any path hany
      refine ⟨⟨d, .any⟩ :: turns, .cons (mem_children_sets_iff.2 (.inr ⟨rfl, rfl⟩)) hwalk, ?_⟩
      rw [hpath, Path.along, Path.along, List.foldl_cons, Path.take_any]
    · obtain ⟨key, subtree, hmem, turns, hwalk, hpath⟩ :=
        exists_walk_of_mem_visitBranches branches path d hbranch
      refine ⟨⟨d, .set key⟩ :: turns, .cons ?_ hwalk, hpath⟩
      exact mem_children_sets_iff.2 (.inl ⟨key, rfl, hmem⟩)

theorem exists_walk_of_mem_visitBranches (branches : List (SetKey × Tree α)) (path : Path)
    (d : Nat) {visit : Visit α} (h : visit ∈ visitBranches space query path d branches) :
    ∃ key subtree, (key, subtree) ∈ branches ∧ ∃ turns, subtree.Walk turns (.leaf visit.payloads) ∧
      visit.path = path.along space query (⟨d, .set key⟩ :: turns) := by
  match branches with
  | [] => cases h
  | (key, subtree) :: rest =>
    rw [visitBranches, List.mem_append] at h
    rcases h with hfirst | hrest
    · obtain ⟨turns, hwalk, hpath⟩ := exists_walk_of_mem_visits subtree _ hfirst
      refine ⟨key, subtree, List.mem_cons_self, turns, hwalk, ?_⟩
      rw [hpath, Path.along, Path.along, List.foldl_cons, Path.take_set]
    · obtain ⟨key', subtree', hmem, hrest⟩ := exists_walk_of_mem_visitBranches rest path d hrest
      exact ⟨key', subtree', List.mem_cons_of_mem _ hmem, hrest⟩

end

end Tree
end RuleIndex
