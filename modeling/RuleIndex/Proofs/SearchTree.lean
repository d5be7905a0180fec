-- SUMMARY: The search-tree order of a built tree: what every path from the root obeys, and what every node is made of.
import Mathlib.Data.List.Sort
import RuleIndex.Proofs.Paths

/-!
# Search trees

A search may skip one side of a split because all codes there lie on that side of all splits
above it, and it may leave a dimension alone once it is settled. `Tree.SearchTree` collects what
makes this sound, path by path and node by node, and every built tree is one
(`Index.build_searchTree`).

The entries at a node went the way of every turn on the path to it. So a dimension that the path
left to a side has scalars only, within the bounds of the path: it is split again by such a
scalar, has no entries under `any`, and cannot be free at a leaf.

A branch keeps its set as a list of codes. The bitset of these codes tells the same
(`Index.admits_eq_bits_of_build`).
-/

namespace RuleIndex

variable {α : Type}

/-! ## Cells of coded rules -/

/-- The bitset of a set, with room for `capacity` codes. -/
def SetKey.bits (key : SetKey) (capacity : Nat) : Bitset :=
  .ofCodes capacity key.codes

/-- The codes are listed as those of a bitset are. -/
def SetKey.Canonical (key : SetKey) : Prop :=
  key.codes.Pairwise (· < ·) ∧ ∀ code ∈ key.codes, 0 ≤ code

theorem SetKey.isEmpty_bits {key : SetKey} (h : key.Canonical) (hcodes : key.codes ≠ [])
    (capacity : Nat) : (key.bits capacity).isEmpty = false := by
  obtain ⟨code, hcode⟩ := List.exists_mem_of_ne_nil _ hcodes
  obtain ⟨i, rfl⟩ := Int.eq_ofNat_of_zero_le (h.2 code hcode)
  have hbit : (key.bits capacity).contains i = true := Bitset.contains_ofCodes.2 hcode
  rw [Bool.eq_false_iff]
  intro hempty
  rw [Bitset.isEmpty_iff.1 hempty i] at hbit
  cases hbit

theorem SetKey.containsCode_bits {key : SetKey} (h : key.Canonical) (capacity : Nat) :
    (key.bits capacity).containsCode = fun code => key.codes.contains code := by
  funext code
  rw [Bool.eq_iff_iff, Bitset.containsCode_iff, List.contains_iff_mem]
  constructor
  · rintro ⟨i, hbit, rfl⟩
    exact Bitset.contains_ofCodes.1 hbit
  · intro hcode
    obtain ⟨i, rfl⟩ := Int.eq_ofNat_of_zero_le (h.2 code hcode)
    exact ⟨i, Bitset.contains_ofCodes.2 hcode, rfl⟩

/-- Whether a query satisfies a set is read off its bitset: some code of the query has its bit, or
    none has, as the set asks. -/
theorem SetKey.admits_eq_bits {key : SetKey} (h : key.Canonical) (capacity : Nat)
    (codes : List Int) : key.admits codes =
      (codes.isEmpty || codes.any (key.bits capacity).containsCode == key.inclusive) := by
  rw [admits, containsCode_bits h]

/-- A canonical set is determined by its bitset and its kind. -/
theorem SetKey.eq_of_bits {key key' : SetKey} (h : key.Canonical) (h' : key'.Canonical)
    {capacity : Nat} (hbits : (key.bits capacity == key'.bits capacity) = true)
    (hkind : key.inclusive = key'.inclusive) : key = key' := by
  have hmem (i : Nat) : (i : Int) ∈ key.codes ↔ (i : Int) ∈ key'.codes := by
    have hcontains := Bitset.beq_iff.1 hbits i
    rw [Bool.eq_iff_iff] at hcontains
    exact Bitset.contains_ofCodes.symm.trans (hcontains.trans Bitset.contains_ofCodes)
  have hcodes : key.codes = key'.codes := by
    refine h.1.eq_of_mem_iff h'.1 fun code => ⟨fun hcode => ?_, fun hcode => ?_⟩
    · obtain ⟨i, rfl⟩ := Int.eq_ofNat_of_zero_le (h.2 code hcode)
      exact (hmem i).1 hcode
    · obtain ⟨i, rfl⟩ := Int.eq_ofNat_of_zero_le (h'.2 code hcode)
      exact (hmem i).2 hcode
  cases key
  cases key'
  exact congr (congrArg SetKey.mk hcodes) hkind

/-- What the cells of coded rules have in common: the code of an absent constraint is no scalar,
    and sets are canonical. -/
def Cell.Proper : Cell → Prop
  | .any => True
  | .equal code => code ≠ anyCode
  | .set key => key.Canonical

theorem Cell.proper_ofCode (code : Int) : (ofCode code).Proper := by
  unfold ofCode
  split
  · trivial
  · next hcode => exact hcode

theorem Axis.proper_of_mem_options {axis : Axis} {constraint : Constraint} {cells : List Cell}
    (h : axis.options constraint = .ok cells) {cell : Cell} (hcell : cell ∈ cells) :
    cell.Proper := by
  rcases mem_options_cases h hcell with ⟨code, rfl⟩ | ⟨_, inclusive, bits, _, rfl⟩
  · exact Cell.proper_ofCode code
  · refine ⟨List.pairwise_map.2 (bits.pairwise_toList.imp Int.ofNat_lt.2), fun code hcode => ?_⟩
    obtain ⟨i, _, rfl⟩ := List.mem_map.1 hcode
    exact Int.natCast_nonneg i

theorem Space.proper_of_mem_entries {space : Space} {rules : List (Rule α)}
    {entries : List (Entry α)} (h : space.entries rules = .ok entries) {entry : Entry α}
    (hentry : entry ∈ entries) (d : Nat) : (entry.cell d).Proper := by
  obtain ⟨rule, _, options, hoptions, cells, hcells, rfl⟩ := (mem_entries_iff h).1 hentry
  have hcell : Entry.cell ⟨cells.toArray, rule.payload⟩ d = cells.getD d .any := by
    simp [Entry.cell]
  rw [hcell]
  cases hd : cells[d]? with
  | none => simp [List.getD, hd, Cell.Proper]
  | some cell =>
    obtain ⟨alternatives, halternatives, hmem⟩ :=
      exists_mem_of_mem_choices hcells (List.mem_of_getElem? hd)
    obtain ⟨⟨axis, constraint⟩, _, haxis⟩ :=
      (mem_of_mapM_eq_ok_iff hoptions).1 halternatives
    simpa [List.getD, hd] using Axis.proper_of_mem_options haxis hmem


/-! ## The order of a search tree -/

/-- The sets by which proper entries are sorted are canonical and not empty, and entries have them. -/
theorem Entry.canonical_of_mem_keysOn {entries : List (Entry α)}
    (hproper : ∀ entry ∈ entries, ∀ d, (entry.cell d).Proper) {d : Nat} {key : SetKey}
    (h : key ∈ keysOn entries d) :
    key.Canonical ∧ key.codes ≠ [] ∧ ∃ entry, entry ∈ withKey entries d key := by
  obtain ⟨entry, hentry, hkey⟩ := mem_keysOn.1 h
  obtain ⟨hcell, hcodes⟩ := Cell.key?_eq_some_iff.1 hkey
  have hown := hproper entry hentry d
  rw [hcell] at hown
  exact ⟨hown, hcodes, entry, mem_withKey.2 ⟨hentry, hkey⟩⟩

namespace Tree

/-- What a node is made of. A leaf has payloads. A scalar node splits at the code of a constraint,
    and some entry has this code. The branches of a set node have sets that are not empty and
    differ, and a subtree each; without branches there is an `any` child. -/
def WellFormed : Tree α → Prop
  | .empty => True
  | .leaf payloads => payloads ≠ []
  | .scalar _ split _ _ equal _ => split ≠ anyCode ∧ equal.isEmpty = false
  | .sets _ branches any =>
    (∀ branch ∈ branches, branch.2.isEmpty = false ∧
      ∀ capacity, (branch.1.bits capacity).isEmpty = false) ∧
    branches.Pairwise (fun branch branch' => ∀ capacity,
      ¬ ((branch.1.bits capacity == branch'.1.bits capacity) = true ∧
        branch.1.inclusive = branch'.1.inclusive)) ∧
    (branches ≠ [] ∨ any.isEmpty = false)

/-- The order of a search tree, told of all paths from the root. -/
structure SearchTree (root : Tree α) : Prop where
  /-- A dimension that a path settled is not split again. -/
  settled : ∀ path node d, root.Walk path node → node.dimension? = some d →
    ∀ way, ⟨d, way⟩ ∈ path → way.settles = false
  /-- A dimension that a path left to the left is split again further left only, and by scalars
      that all entries have. -/
  left : ∀ path node d split, root.Walk path node → node.dimension? = some d →
    ⟨d, .left split⟩ ∈ path →
    ∃ code left right equal, node = .scalar d code left right equal .empty ∧ code < split
  /-- A dimension that a path left to the right is split again further right only, and by scalars
      that all entries have. -/
  right : ∀ path node d split, root.Walk path node → node.dimension? = some d →
    ⟨d, .right split⟩ ∈ path →
    ∃ code left right equal, node = .scalar d code left right equal .empty ∧ split < code
  /-- On the way to a leaf, a dimension left to a side is settled by a scalar later on. -/
  decided : ∀ before after d way payloads,
    root.Walk (before ++ ⟨d, way⟩ :: after) (.leaf payloads) → way.settles = false →
    ∃ split, ⟨d, .equal split⟩ ∈ after
  wellFormed : ∀ path node, root.Walk path node → node.WellFormed

namespace Grown

variable {free : List Nat} {entries : List (Entry α)} {tree : Tree α}

/-- Where all entries have scalars, the dimension is split by one of these, and there is nothing
    under `any`. -/
theorem eq_scalar (h : Grown free entries tree) {d : Nat} (hd : tree.dimension? = some d)
    (hscalars : ∀ entry ∈ entries, ∃ code, entry.cell d = .equal code) :
    ∃ code left right equal, tree = .scalar d code left right equal .empty ∧
      ∃ entry ∈ entries, entry.cell d = .equal code := by
  cases h with
  | leaf => cases entries <;> cases hd
  | @scalar _ _ own code left right equal any chosen _ _ _ _ onAny =>
    obtain rfl : own = d := Option.some.inj hd
    have hnone : Entry.withoutCode entries own = [] := by
      refine List.eq_nil_iff_forall_not_mem.2 fun entry hentry => ?_
      obtain ⟨hmem, hcode⟩ := Entry.mem_withoutCode.1 hentry
      obtain ⟨code', hcode'⟩ := hscalars entry hmem
      rw [hcode'] at hcode
      cases hcode
    rw [hnone] at onAny
    obtain ⟨entry, hentry, hcode⟩ := Split.choose?_scalar_code chosen
    refine ⟨code, left, right, equal, ?_, entry, hentry, Cell.code?_eq_some_iff.1 hcode⟩
    rw [onAny.eq_empty]
  | sets chosen =>
    obtain rfl := Option.some.inj hd
    have hset := (Split.on?_eq_some_sets_iff.1 (Split.choose?_eq_some_iff.1 chosen).2).2
    obtain ⟨entry, hentry, hcell⟩ := List.any_eq_true.1 hset
    obtain ⟨code, hcode⟩ := hscalars entry hentry
    rw [hcode] at hcell
    cases hcell

/-- A leaf has entries, and nothing is asked of the dimensions that are free there. -/
theorem settled_of_leaf {payloads : List α} (h : Grown free entries tree)
    (hleaf : tree = .leaf payloads) :
    entries ≠ [] ∧ ∀ d ∈ free, ∀ entry ∈ entries, entry.cell d = .any := by
  cases h with
  | leaf settled =>
    refine ⟨?_, settled⟩
    rintro rfl
    cases hleaf
  | scalar => cases hleaf
  | sets => cases hleaf

/-- Where all entries have scalars on a free dimension, no path comes to a leaf without settling
    the dimension by a scalar. -/
theorem exists_equal_turn (h : Grown free entries tree) (hnodup : free.Nodup) {d : Nat}
    (hd : d ∈ free) (hscalars : ∀ entry ∈ entries, ∃ code, entry.cell d = .equal code)
    {path : List Turn} {payloads : List α} (hwalk : tree.Walk path (.leaf payloads)) :
    ∃ split, ⟨d, .equal split⟩ ∈ path := by
  generalize hleaf : Tree.leaf payloads = node at hwalk
  induction hwalk generalizing free entries with
  | nil =>
    obtain ⟨hentries, hsettled⟩ := h.settled_of_leaf hleaf.symm
    obtain ⟨entry, hentry⟩ := List.exists_mem_of_ne_nil _ hentries
    obtain ⟨code, hcode⟩ := hscalars entry hentry
    rw [hsettled d hd entry hentry] at hcode
    cases hcode
  | @cons tree child node turn path here rest ih =>
    obtain ⟨entries', hgrown, htakes⟩ := h.turn here
    have hscalars' : ∀ entry ∈ entries', ∃ code, entry.cell d = .equal code :=
      fun entry hentry => hscalars entry (htakes entry hentry).1
    by_cases hopen : d ∈ turn.remaining free
    · obtain ⟨split, hsplit⟩ := ih hgrown (Turn.nodup_remaining hnodup) hopen hscalars' hleaf
      exact ⟨split, List.mem_cons_of_mem _ hsplit⟩
    · have hsettles : turn.way.settles = true ∧ d = turn.dimension := by
        rw [Turn.mem_remaining_iff hnodup] at hopen
        by_cases hsettles : turn.way.settles = true
        · exact ⟨hsettles, by simpa [hd, hsettles] using hopen⟩
        · simp [hd, hsettles] at hopen
      obtain ⟨hsettles, rfl⟩ := hsettles
      obtain ⟨dimension, way⟩ := turn
      obtain ⟨entry, hentry⟩ : ∃ entry, entry ∈ entries' := by
        refine List.exists_mem_of_ne_nil _ fun hnil => ?_
        subst hnil
        rw [hgrown.eq_empty] at rest
        cases hleaf.trans rest.of_empty
      obtain ⟨code, hcode⟩ := hscalars' entry hentry
      have hway := (htakes entry hentry).2
      rw [hcode] at hway
      cases way with
      | left split => cases hsettles
      | right split => cases hsettles
      | equal split => exact ⟨split, List.mem_cons_self⟩
      | any => cases hway.1
      | set key => cases hway

theorem wellFormed (h : Grown free entries tree)
    (hproper : ∀ entry ∈ entries, ∀ d, (entry.cell d).Proper) : tree.WellFormed := by
  have hpresent {free : List Nat} {entries : List (Entry α)} {tree : Tree α} {entry : Entry α}
      (h : Grown free entries tree) (hentry : entry ∈ entries) : tree.isEmpty = false := by
    rw [Bool.eq_false_iff, ne_eq, h.isEmpty_iff]
    exact List.ne_nil_of_mem hentry
  cases h with
  | leaf =>
    cases entries with
    | nil => trivial
    | cons entry rest => exact List.cons_ne_nil _ _
  | @scalar _ _ d code _ _ _ _ chosen _ _ _ onEqual =>
    obtain ⟨entry, hentry, hcode⟩ := Split.choose?_scalar_code chosen
    have hcell : entry.cell d = .equal code := Cell.code?_eq_some_iff.1 hcode
    have hproper : code ≠ anyCode := by
      have hown := hproper entry hentry d
      rwa [hcell] at hown
    have hequal : entry ∈ Entry.onSide entries d code .equal :=
      Entry.mem_onSide.2 ⟨hentry, code, hcell, Side.of_eq_equal_iff.2 rfl⟩
    exact ⟨hproper, hpresent onEqual hequal⟩
  | @sets _ _ d branches any chosen _ keys onBranch onAny =>
    have hkey : ∀ branch ∈ branches, branch.1.Canonical ∧ branch.1.codes ≠ [] ∧
        ∃ entry, entry ∈ Entry.withKey entries d branch.1 := by
      intro branch hbranch
      exact Entry.canonical_of_mem_keysOn hproper (keys ▸ List.mem_map_of_mem hbranch)
    refine ⟨fun branch hbranch => ?_, ?_, ?_⟩
    · obtain ⟨hcanonical, hcodes, entry, hentry⟩ := hkey branch hbranch
      exact ⟨hpresent (onBranch branch hbranch) hentry, SetKey.isEmpty_bits hcanonical hcodes⟩
    · have hdistinct : (branches.map Prod.fst).Pairwise (· ≠ ·) := keys ▸ Entry.nodup_keysOn _ _
      refine (List.pairwise_map.1 hdistinct).imp_of_mem fun hbranch hbranch' hne capacity => ?_
      rintro ⟨hbits, hkind⟩
      exact hne (SetKey.eq_of_bits (hkey _ hbranch).1 (hkey _ hbranch').1 hbits hkind)
    · -- The set on which the split was chosen has a branch, or it is empty.
      have hset := (Split.on?_eq_some_sets_iff.1 (Split.choose?_eq_some_iff.1 chosen).2).2
      obtain ⟨entry, hentry, _⟩ := List.any_eq_true.1 hset
      cases hcell : (entry.cell d).key? with
      | none => exact .inr (hpresent onAny (Entry.mem_withoutKey.2 ⟨hentry, hcell⟩))
      | some key =>
        refine .inl fun hnil => ?_
        have hmem : key ∈ Entry.keysOn entries d := Entry.mem_keysOn.2 ⟨entry, hentry, hcell⟩
        rw [← keys, hnil] at hmem
        cases hmem

/-- The branches of a set node have the sets by which its entries are sorted. -/
theorem keys_eq {d : Nat} {branches : List (SetKey × Tree α)} {any : Tree α}
    (h : Grown free entries (.sets d branches any)) :
    branches.map Prod.fst = Entry.keysOn entries d := by
  generalize hsets : Tree.sets d branches any = node at h
  cases h with
  | leaf => cases hpayloads : entries.map Entry.payload <;> simp [ofPayloads, hpayloads] at hsets
  | scalar => cases hsets
  | sets _ _ keys =>
    obtain ⟨rfl, rfl, rfl⟩ := Tree.sets.inj hsets
    exact keys

/-- A dimension that a path left to a side is split again by a scalar that goes the same way. -/
theorem resplit (h : Grown free entries tree) (hnodup : free.Nodup) {path : List Turn}
    {node : Tree α} (hwalk : tree.Walk path node) {d : Nat} (hd : node.dimension? = some d)
    {way : Way} (hway : ⟨d, way⟩ ∈ path) (hsettles : way.settles = false) :
    ∃ code left right equal, node = .scalar d code left right equal .empty ∧
      way.Takes (.equal code) := by
  obtain ⟨free', entries', hnode, hend, _⟩ := h.walk (.root hnodup entries) hwalk
  have htaken : ∀ entry ∈ entries', way.Takes (entry.cell d) := hend.taken _ hway
  obtain ⟨code, left, right, equal, hscalar, entry, hentry, hcell⟩ :=
    hnode.eq_scalar hd fun entry hentry => Way.takes_of_not_settles hsettles (htaken entry hentry)
  exact ⟨code, left, right, equal, hscalar, hcell ▸ htaken entry hentry⟩

/-- What grows from coded rules is a search tree. -/
theorem searchTree (h : Grown free entries tree) (hnodup : free.Nodup)
    (hproper : ∀ entry ∈ entries, ∀ d, (entry.cell d).Proper) : tree.SearchTree := by
  have hroot : Arrives [] free entries := .root hnodup entries
  constructor
  case settled =>
    intro path node d hwalk hd way hway
    obtain ⟨free', entries', hnode, hend, _⟩ := h.walk hroot hwalk
    rw [Bool.eq_false_iff]
    exact fun hsettles => hend.settled _ hway hsettles (hnode.dimension_mem_free hd)
  case left =>
    intro path node d split hwalk hd hway
    obtain ⟨code, left, right, equal, hnode, htakes⟩ := h.resplit hnodup hwalk hd hway rfl
    obtain ⟨_, hcode, hlt⟩ := htakes
    exact ⟨code, left, right, equal, hnode, Cell.equal.inj hcode ▸ hlt⟩
  case right =>
    intro path node d split hwalk hd hway
    obtain ⟨code, left, right, equal, hnode, htakes⟩ := h.resplit hnodup hwalk hd hway rfl
    obtain ⟨_, hcode, hlt⟩ := htakes
    exact ⟨code, left, right, equal, hnode, Cell.equal.inj hcode ▸ hlt⟩
  case decided =>
    intro before after d way payloads hwalk hsettles
    obtain ⟨parent, child, hparent, hchild, hafter⟩ := hwalk.append_cons
    obtain ⟨free', entries', hgrown, hend, _⟩ := h.walk hroot hparent
    obtain ⟨own, hown, htakes⟩ := hgrown.turn hchild
    have hd : d ∈ free' := hgrown.dimension_mem_free (dimension?_of_mem_children hchild)
    refine hown.exists_equal_turn (Turn.nodup_remaining hend.nodup) ?_ ?_ hafter
    · exact (Turn.mem_remaining_iff hend.nodup).2 ⟨hd, by simp [hsettles]⟩
    · exact fun entry hentry => Way.takes_of_not_settles hsettles (htakes entry hentry).2
  case wellFormed =>
    intro path node hwalk
    obtain ⟨free', entries', hnode, _, hsub⟩ := h.walk hroot hwalk
    exact hnode.wellFormed fun entry hentry => hproper entry (hsub entry hentry)

end Grown
end Tree


/-! ## Built trees -/

namespace Index

variable {dimensions : List Dimension} {rules : List (Rule α)}

/-- A search that reads the sets of branches off their bitsets goes the same way at every set node of
    a built tree. -/
theorem admits_eq_bits_of_build {built : Logged (Index α)} (h : build dimensions rules = .ok built)
    {path : List Turn} {d : Nat} {branches : List (SetKey × Tree α)} {any : Tree α}
    (hwalk : built.value.root.Walk path (.sets d branches any)) {branch : SetKey × Tree α}
    (hbranch : branch ∈ branches) (capacity : Nat) (codes : List Int) :
    branch.1.admits codes = (codes.isEmpty ||
      codes.any (branch.1.bits capacity).containsCode == branch.1.inclusive) := by
  obtain ⟨entries, hrep⟩ := exists_represents h
  obtain ⟨_, entries', hnode, _, hsub⟩ := hrep.grown.walk (.root List.nodup_range entries) hwalk
  have hproper (entry : Entry α) (hentry : entry ∈ entries') (d : Nat) : (entry.cell d).Proper :=
    Space.proper_of_mem_entries hrep.coded (hsub entry hentry) d
  have hmem : branch.1 ∈ Entry.keysOn entries' d := hnode.keys_eq ▸ List.mem_map_of_mem hbranch
  exact SetKey.admits_eq_bits (Entry.canonical_of_mem_keysOn hproper hmem).1 capacity codes

/-- Every built tree is a search tree. -/
theorem build_searchTree {built : Logged (Index α)} (h : build dimensions rules = .ok built) :
    built.value.root.SearchTree := by
  obtain ⟨entries, hrep⟩ := exists_represents h
  exact hrep.grown.searchTree List.nodup_range fun entry hentry =>
    Space.proper_of_mem_entries hrep.coded hentry

/-- The colors are split at `green`, to its left at `blue`, and there once more, while the sizes
    are split among the blue rules only. -/
theorem build_searchTree_sample :
    let dimensions : List Dimension := [⟨"color", .ordered, .text⟩, ⟨"size", .ordered, .text⟩]
    let rules : List (Rule String) :=
      [⟨[.value (.text "blue"), .value (.text "S")], "first"⟩,
        ⟨[.value (.text "blue"), .value (.text "L")], "second"⟩,
        ⟨[.many [.text "green", .text "red"], .any], "third"⟩,
        ⟨[.value (.text "amber"), .any], "fourth"⟩]
    ∃ built, build dimensions rules = .ok built ∧ built.value.root.SearchTree := by
  intro dimensions rules
  obtain ⟨built, h⟩ : ∃ built, build dimensions rules = .ok built :=
    exists_eq_ok_iff.2 (by decide +kernel)
  exact ⟨built, h, build_searchTree h⟩

end Index
end RuleIndex
