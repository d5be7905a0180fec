-- SUMMARY: Leaves and what their paths ask: a built tree has one leaf for every class of entries that ask the same.
import Mathlib.Data.List.Nodup
import RuleIndex.Proofs.Build

/-!
# Leaves

The path to a leaf asks for a code on every dimension that it passed at a split, for a set on
every dimension that it passed through the branch of the set, and for nothing on all others.
An entry asks the same way, cell by cell. The leaves of a built tree are the classes of the
entries that ask the same (`Index.leaves_classify`).

A node sorts its entries by something that the vector of an entry tells: the side of the split
on which its cell lies, or its set. So the leaves below the children classify the parts, and
together the whole (`Classifies.flatMap`).
-/

namespace RuleIndex

variable {α : Type}

/-! ## What entries and leaves ask -/

/-- What a cell asks. A set without codes asks nothing. -/
def Cell.canonical : Cell → Cell
  | .set key => if key.codes.isEmpty then .any else .set key
  | cell => cell

/-- What an entry asks of the first `n` dimensions. -/
def Entry.vector (entry : Entry α) (n : Nat) : List Cell :=
  (List.range n).map fun d => (entry.cell d).canonical

/-- A leaf of a tree: what the path to it asks, and its payloads. -/
structure Leaf (α : Type) where
  vector : List Cell
  payloads : List α
  deriving DecidableEq, Repr

namespace Tree

mutual

/-- The leaves below a node, whose own path asks for `path`. -/
def leaves (path : List Cell) : Tree α → List (Leaf α)
  | .empty => []
  | .leaf payloads => [⟨path, payloads⟩]
  | .scalar d split left right equal any =>
    left.leaves path ++ right.leaves path ++ equal.leaves (path.set d (.equal split)) ++
      any.leaves path
  | .sets d branches any => leavesOfBranches path d branches ++ any.leaves path

/-- The leaves below the branches of a set node on dimension `d`. -/
def leavesOfBranches (path : List Cell) (d : Nat) : List (SetKey × Tree α) → List (Leaf α)
  | [] => []
  | (key, subtree) :: rest =>
    subtree.leaves (path.set d (.set key)) ++ leavesOfBranches path d rest

end

end Tree

/-- The leaves of an index. -/
def Index.leaves (index : Index α) : List (Leaf α) :=
  index.root.leaves (List.replicate index.space.size .any)

namespace Cell

@[simp] theorem side?_canonical (split : Int) (cell : Cell) :
    cell.canonical.side? split = cell.side? split := by
  cases cell with
  | any => rfl
  | equal code => rfl
  | set key => simp only [canonical]; split <;> rfl

@[simp] theorem key?_canonical (cell : Cell) : cell.canonical.key? = cell.key? := by
  cases cell with
  | any => rfl
  | equal code => rfl
  | set key =>
    simp only [canonical]
    split
    · next hempty => simp [key?, hempty]
    · rfl

/-- A cell on the `equal` side of a split asks for its code. -/
theorem canonical_of_side? {split : Int} {cell : Cell} (h : cell.side? split = some .equal) :
    cell.canonical = .equal split := by
  obtain ⟨code, hcode, hside⟩ := Option.map_eq_some_iff.1 h
  obtain rfl := code?_eq_some_iff.1 hcode
  rw [Side.of_eq_equal_iff.1 hside]
  rfl

theorem canonical_of_key? {cell : Cell} {key : SetKey} (h : cell.key? = some key) :
    cell.canonical = .set key := by
  obtain ⟨rfl, hcodes⟩ := key?_eq_some_iff.1 h
  simp [canonical, hcodes]

/-- A cell without a code asks nothing unless it has a set that is not empty. -/
theorem canonical_of_asks_nothing {cell : Cell} (hcode : cell.code? = none)
    (hkey : cell.key? = none) : cell.canonical = .any := by
  cases cell with
  | any => rfl
  | equal code => cases hcode
  | set key =>
    have hempty : key.codes = [] := by simpa [key?] using hkey
    simp [canonical, hempty]

end Cell

/-- The entries on no side of a split are those without a code. -/
theorem Entry.filter_side?_eq_none (entries : List (Entry α)) (d : Nat) (split : Int) :
    (entries.filter fun entry => (entry.cell d).side? split == none) = withoutCode entries d := by
  refine List.filter_congr fun entry _ => ?_
  cases hcode : (entry.cell d).code? <;> simp [Cell.side?, hcode]

/-- The entries with no set are those that a set split leaves over. -/
theorem Entry.filter_key?_eq_none (entries : List (Entry α)) (d : Nat) :
    (entries.filter fun entry => (entry.cell d).key? == none) = withoutKey entries d := by
  refine List.filter_congr fun entry _ => ?_
  cases hkey : (entry.cell d).key? <;> simp

/-- A cell lies on one of the three sides of a split or on none. -/
theorem Cell.side?_mem (split : Int) (cell : Cell) :
    cell.side? split ∈ [some .left, some .right, some .equal, none] := by
  cases cell.side? split with
  | none => simp
  | some side => cases side <;> simp

/-- The entries of a list have one of its sets or none. -/
theorem Entry.key?_mem {entries : List (Entry α)} {entry : Entry α} (hentry : entry ∈ entries)
    (d : Nat) : (entry.cell d).key? ∈ (keysOn entries d).map some ++ [none] := by
  cases hkey : (entry.cell d).key? with
  | none => simp
  | some key => simpa using mem_keysOn.2 ⟨entry, hentry, hkey⟩

theorem Entry.nodup_keysOn_append_none (entries : List (Entry α)) (d : Nat) :
    ((keysOn entries d).map some ++ [none]).Nodup := by
  have hkeys : ((keysOn entries d).map some).Nodup :=
    (nodup_keysOn entries d).map fun _ _ => Option.some.inj
  simpa [List.nodup_append] using hkeys

theorem Entry.getElem?_vector {entry : Entry α} {n d : Nat} (hd : d < n) :
    (entry.vector n)[d]? = some (entry.cell d).canonical := by
  simp [vector, hd]


/-! ## Classes of entries -/

/-- The leaves are the classes of the entries by what they ask of `n` dimensions: one leaf per
    class, with the payloads of the class in the order of the entries. -/
structure Classifies (n : Nat) (entries : List (Entry α)) (leaves : List (Leaf α)) : Prop where
  distinct : (leaves.map Leaf.vector).Nodup
  vectors : ∀ vector, vector ∈ leaves.map Leaf.vector ↔
    ∃ entry ∈ entries, entry.vector n = vector
  payloads : ∀ leaf ∈ leaves, leaf.payloads =
    (entries.filter fun entry => entry.vector n == leaf.vector).map Entry.payload

/-- Sorting a list by key rearranges it. -/
theorem perm_flatMap_filter {β κ : Type} [BEq κ] [LawfulBEq κ] (key : β → κ) {keys : List κ}
    (hkeys : keys.Nodup) {l : List β} (hall : ∀ b ∈ l, key b ∈ keys) :
    (keys.flatMap fun k => l.filter fun b => key b == k).Perm l := by
  induction keys generalizing l with
  | nil =>
    obtain rfl := List.eq_nil_iff_forall_not_mem.2 fun b hb => List.not_mem_nil (hall b hb)
    exact .nil
  | cons k keys ih =>
    obtain ⟨hk, hkeys⟩ := List.nodup_cons.1 hkeys
    have hrest : ∀ b ∈ l.filter (fun b => !(key b == k)), key b ∈ keys := by
      intro b hb
      obtain ⟨hmem, hne⟩ := List.mem_filter.1 hb
      exact (List.mem_cons.1 (hall b hmem)).resolve_left (by simpa using hne)
    have hsame : ∀ k' ∈ keys, (l.filter fun b => !(key b == k)).filter (key · == k') =
        l.filter (key · == k') := by
      intro k' hk'
      rw [List.filter_filter]
      refine List.filter_congr fun b _ => ?_
      have hne : k' ≠ k := fun h => hk (h ▸ hk')
      by_cases hb : key b = k' <;> simp [hb, hne]
    rw [List.flatMap_cons, ← List.flatMap_congr hsame]
    exact ((ih hkeys hrest).append_left _).trans (List.filter_append_perm _ _)

namespace Classifies

variable {n : Nat} {entries : List (Entry α)} {leaves : List (Leaf α)}

theorem nil : Classifies n ([] : List (Entry α)) [] where
  distinct := List.nodup_nil
  vectors := by simp
  payloads := by simp

/-- Entries that all ask the same are one class. -/
theorem singleton {path : List Cell} (hnil : entries ≠ [])
    (h : ∀ entry ∈ entries, entry.vector n = path) :
    Classifies n entries [⟨path, entries.map Entry.payload⟩] where
  distinct := List.nodup_singleton _
  vectors vector := by
    rw [List.map_singleton, List.mem_singleton]
    constructor
    · rintro rfl
      obtain ⟨entry, hentry⟩ := List.exists_mem_of_ne_nil _ hnil
      exact ⟨entry, hentry, h entry hentry⟩
    · rintro ⟨entry, hentry, rfl⟩
      exact h entry hentry
  payloads leaf hleaf := by
    obtain rfl := List.mem_singleton.1 hleaf
    rw [List.filter_eq_self.2]
    simpa using h

/-- If entries are sorted by something that their vectors tell, the classes of the parts are
    the classes of the whole. -/
theorem flatMap {κ : Type} [BEq κ] [LawfulBEq κ] (key : List Cell → κ)
    {parts : List (κ × List (Leaf α))} (hkeys : (parts.map Prod.fst).Nodup)
    (hall : ∀ entry ∈ entries, key (entry.vector n) ∈ parts.map Prod.fst)
    (h : ∀ part ∈ parts,
      Classifies n (entries.filter fun entry => key (entry.vector n) == part.1) part.2) :
    Classifies n entries (parts.flatMap Prod.snd) := by
  have hkey : ∀ part ∈ parts, ∀ vector ∈ part.2.map Leaf.vector, key vector = part.1 := by
    intro part hpart vector hvector
    obtain ⟨entry, hentry, rfl⟩ := ((h part hpart).vectors vector).1 hvector
    simpa using (List.mem_filter.1 hentry).2
  constructor
  case distinct =>
    rw [List.map_flatMap, List.nodup_flatMap]
    refine ⟨fun part hpart => (h part hpart).distinct, ?_⟩
    refine (List.pairwise_map.1 hkeys).imp_of_mem fun {part part'} hpart hpart' hne => ?_
    intro vector hvector hvector'
    exact hne ((hkey part hpart vector hvector).symm.trans (hkey part' hpart' vector hvector'))
  case vectors =>
    intro vector
    rw [List.map_flatMap, List.mem_flatMap]
    constructor
    · intro ⟨part, hpart, hvector⟩
      obtain ⟨entry, hentry, heq⟩ := ((h part hpart).vectors vector).1 hvector
      exact ⟨entry, (List.mem_filter.1 hentry).1, heq⟩
    · intro ⟨entry, hentry, heq⟩
      obtain ⟨part, hpart, hfst⟩ := List.mem_map.1 (hall entry hentry)
      refine ⟨part, hpart, ((h part hpart).vectors vector).2 ⟨entry, ?_, heq⟩⟩
      exact List.mem_filter.2 ⟨hentry, beq_iff_eq.2 hfst.symm⟩
  case payloads =>
    intro leaf hleaf
    obtain ⟨part, hpart, hleaf⟩ := List.mem_flatMap.1 hleaf
    rw [(h part hpart).payloads leaf hleaf, List.filter_filter]
    congr 1
    refine List.filter_congr fun entry _ => ?_
    have hfst := hkey part hpart leaf.vector (List.mem_map_of_mem hleaf)
    by_cases heq : entry.vector n = leaf.vector <;> simp [heq, hfst]

/-- Entries can be sorted by the side of a split on which their cells lie. -/
theorem scalar {d : Nat} (hd : d < n) (split : Int) {left right equal any : List (Leaf α)}
    (hleft : Classifies n (Entry.onSide entries d split .left) left)
    (hright : Classifies n (Entry.onSide entries d split .right) right)
    (hequal : Classifies n (Entry.onSide entries d split .equal) equal)
    (hany : Classifies n (Entry.withoutCode entries d) any) :
    Classifies n entries (left ++ right ++ equal ++ any) := by
  have hside (entry : Entry α) :
      Cell.side? split ((entry.vector n).getD d .any) = (entry.cell d).side? split := by
    simp [List.getD, Entry.getElem?_vector hd]
  have hparts : left ++ right ++ equal ++ any = [(some Side.left, left), (some .right, right),
      (some .equal, equal), (none, any)].flatMap Prod.snd := by
    simp
  rw [hparts]
  refine flatMap (fun vector => (vector.getD d .any).side? split) (by simp) ?_ ?_
  · exact fun entry _ => Cell.side?_mem split _
  · simp only [hside, List.forall_mem_cons, List.not_mem_nil, false_imp_iff, implies_true,
      and_true, Entry.filter_side?_eq_none]
    exact ⟨hleft, hright, hequal, hany⟩

/-- Entries can be sorted by their sets. -/
theorem sets {d : Nat} (hd : d < n) {branches : List (SetKey × List (Leaf α))}
    {any : List (Leaf α)} (keys : branches.map Prod.fst = Entry.keysOn entries d)
    (hbranch : ∀ branch ∈ branches, Classifies n (Entry.withKey entries d branch.1) branch.2)
    (hany : Classifies n (Entry.withoutKey entries d) any) :
    Classifies n entries (branches.flatMap Prod.snd ++ any) := by
  have hkey (entry : Entry α) : ((entry.vector n).getD d .any).key? = (entry.cell d).key? := by
    simp [List.getD, Entry.getElem?_vector hd]
  have hparts : branches.flatMap Prod.snd ++ any =
      (branches.map (Prod.map some id) ++ [(none, any)]).flatMap Prod.snd := by
    simp [List.flatMap_map]
  have hfst : (branches.map (Prod.map some id) ++ [(none, any)]).map Prod.fst =
      (Entry.keysOn entries d).map some ++ [none] := by
    simp [← keys]
  rw [hparts]
  refine flatMap (fun vector => (vector.getD d .any).key?) ?_ ?_ ?_
  · rw [hfst]
    exact Entry.nodup_keysOn_append_none entries d
  · intro entry hentry
    rw [hfst, hkey]
    exact Entry.key?_mem hentry d
  · simp only [hkey, List.forall_mem_append, List.forall_mem_map, List.forall_mem_singleton,
      Entry.filter_key?_eq_none]
    exact ⟨hbranch, hany⟩

/-- No entry is lost, and none is in two leaves. -/
theorem perm (h : Classifies n entries leaves) :
    (leaves.flatMap Leaf.payloads).Perm (entries.map Entry.payload) := by
  have hall : ∀ entry ∈ entries, entry.vector n ∈ leaves.map Leaf.vector :=
    fun entry hentry => (h.vectors _).2 ⟨entry, hentry, rfl⟩
  have hparts : leaves.flatMap Leaf.payloads =
      ((leaves.map Leaf.vector).flatMap fun vector =>
        entries.filter fun entry => entry.vector n == vector).map Entry.payload := by
    rw [List.map_flatMap, List.flatMap_map]
    exact List.flatMap_congr h.payloads
  rw [hparts]
  exact (perm_flatMap_filter _ h.distinct hall).map _

end Classifies


/-! ## Leaves of a grown tree -/

/-- What a path knows of the entries that it leads to. It asks nothing yet of the dimensions
    that are free, and on all others it asks what the entries ask. -/
structure Leads (path : List Cell) (free : List Nat) (entries : List (Entry α)) : Prop where
  nodup : free.Nodup
  unasked : ∀ d ∈ free, path[d]? = some .any
  settled : ∀ entry ∈ entries, ∀ d ∉ free, ∀ cell, path[d]? = some cell →
    (entry.cell d).canonical = cell

namespace Leads

variable {path : List Cell} {free : List Nat} {entries : List (Entry α)} {d : Nat}

theorem root (n : Nat) (entries : List (Entry α)) :
    Leads (List.replicate n .any) (List.range n) entries where
  nodup := List.nodup_range
  unasked d hd := by simpa [List.getElem?_replicate] using hd
  settled entry _ d hd cell hcell := by
    have hlt := (List.getElem?_eq_some_iff.1 hcell).1
    rw [List.length_replicate] at hlt
    exact absurd (List.mem_range.2 hlt) hd

theorem filter (h : Leads path free entries) (p : Entry α → Bool) :
    Leads path free (entries.filter p) where
  nodup := h.nodup
  unasked := h.unasked
  settled entry hentry := h.settled entry (List.mem_filter.1 hentry).1

theorem lt_length (h : Leads path free entries) (hd : d ∈ free) : d < path.length :=
  (List.getElem?_eq_some_iff.1 (h.unasked d hd)).1

/-- A step settles a dimension on which all entries ask the same. -/
theorem settle (h : Leads path free entries) (hd : d ∈ free) {cell : Cell}
    (hcell : ∀ entry ∈ entries, (entry.cell d).canonical = cell) :
    Leads (path.set d cell) (free.erase d) entries where
  nodup := h.nodup.erase d
  unasked d' hd' := by
    obtain ⟨hne, hd'⟩ := (h.nodup.mem_erase_iff).1 hd'
    rw [List.getElem?_set_ne hne.symm]
    exact h.unasked d' hd'
  settled entry hentry d' hd' cell' hcell' := by
    by_cases heq : d' = d
    · subst heq
      rw [List.getElem?_set_self (h.lt_length hd), Option.some.injEq] at hcell'
      exact hcell' ▸ hcell entry hentry
    · rw [List.getElem?_set_ne (Ne.symm heq)] at hcell'
      have hfree : d' ∉ free := fun hmem => hd' ((List.mem_erase_of_ne heq).2 hmem)
      exact h.settled entry hentry d' hfree cell' hcell'

/-- The path need not change where the entries ask nothing. -/
theorem settle_any (h : Leads path free entries) (hd : d ∈ free)
    (hcell : ∀ entry ∈ entries, (entry.cell d).canonical = .any) :
    Leads path (free.erase d) entries := by
  have hset : path.set d .any = path := by
    obtain ⟨hlt, hany⟩ := List.getElem?_eq_some_iff.1 (h.unasked d hd)
    rw [← hany, List.set_getElem_self]
  exact hset ▸ h.settle hd hcell

/-- Once nothing is asked of a free dimension, the path asks what the entries ask. -/
theorem vector_eq (h : Leads path free entries)
    (hfree : ∀ d ∈ free, ∀ entry ∈ entries, entry.cell d = .any) {entry : Entry α}
    (hentry : entry ∈ entries) : entry.vector path.length = path := by
  refine List.ext_getElem (by simp [Entry.vector]) fun d _ hd => ?_
  have hcell : path[d]? = some path[d] := List.getElem?_eq_getElem hd
  simp only [Entry.vector, List.getElem_map, List.getElem_range]
  by_cases hmem : d ∈ free
  · have hany := h.unasked d hmem
    rw [hcell, Option.some.injEq] at hany
    rw [hany, hfree d hmem entry hentry]
    rfl
  · exact h.settled entry hentry d hmem _ hcell

end Leads

namespace Tree

theorem leavesOfBranches_eq_flatMap (path : List Cell) (d : Nat)
    (branches : List (SetKey × Tree α)) : leavesOfBranches path d branches =
      (branches.map fun branch =>
        (branch.1, branch.2.leaves (path.set d (.set branch.1)))).flatMap Prod.snd := by
  induction branches with
  | nil => rfl
  | cons branch rest ih => simp [leavesOfBranches, ih]

/-- The leaves below a node classify the entries that reach it. -/
theorem Grown.classifies {free : List Nat} {entries : List (Entry α)} {tree : Tree α}
    (h : Grown free entries tree) {path : List Cell} (hpath : Leads path free entries) :
    Classifies path.length entries (tree.leaves path) := by
  induction h generalizing path with
  | @leaf free entries settled =>
    cases entries with
    | nil => exact .nil
    | cons entry rest =>
      exact .singleton (List.cons_ne_nil _ _) fun entry' hentry' =>
        hpath.vector_eq settled hentry'
  | @scalar free entries d code _ _ _ _ chosen scalars _ _ _ _ ihLeft ihRight ihEqual ihAny =>
    have hd : d ∈ free := Split.choose?_mem_free chosen
    -- To the left and right the dimension stays free; the other children settle it.
    refine .scalar (hpath.lt_length hd) code (ihLeft (hpath.filter _)) (ihRight (hpath.filter _))
      ?_ ?_
    · have hequal := ihEqual <| (hpath.filter _).settle hd fun entry hentry =>
        Cell.canonical_of_side? (beq_iff_eq.1 (List.mem_filter.1 hentry).2)
      rwa [List.length_set] at hequal
    · refine ihAny ((hpath.filter _).settle_any hd fun entry hentry => ?_)
      obtain ⟨hentry, hcode⟩ := Entry.mem_withoutCode.1 hentry
      rw [Cell.eq_any_iff.2 ⟨scalars entry hentry, hcode⟩]
      rfl
  | @sets free entries d branches _ chosen sets keys _ _ ihBranch ihAny =>
    have hd : d ∈ free := Split.choose?_mem_free chosen
    rw [leaves, leavesOfBranches_eq_flatMap]
    refine .sets (hpath.lt_length hd) ?_ ?_ ?_
    · simpa [Function.comp_def] using keys
    · simp only [List.forall_mem_map]
      intro branch hbranch
      have hset := ihBranch branch hbranch <| (hpath.filter _).settle hd fun entry hentry =>
        Cell.canonical_of_key? (Entry.mem_withKey.1 hentry).2
      rwa [List.length_set] at hset
    · refine ihAny ((hpath.filter _).settle_any hd fun entry hentry => ?_)
      obtain ⟨hentry, hkey⟩ := Entry.mem_withoutKey.1 hentry
      exact Cell.canonical_of_asks_nothing (sets entry hentry) hkey

/-- Only the tree of no entries is empty. -/
theorem Grown.isEmpty_iff {free : List Nat} {entries : List (Entry α)} {tree : Tree α}
    (h : Grown free entries tree) : tree.isEmpty = true ↔ entries = [] := by
  have hchosen {split : Split} (chosen : Split.choose? free entries = some split) :
      entries ≠ [] := by
    rintro rfl
    rw [Split.choose?_eq_none_iff.2 (by simp)] at chosen
    cases chosen
  cases h with
  | leaf => cases entries <;> simp [ofPayloads, isEmpty]
  | scalar chosen => simp [isEmpty, hchosen chosen]
  | sets chosen => simp [isEmpty, hchosen chosen]

end Tree


/-! ## Leaves of a built index -/

namespace Index

variable {dimensions : List Dimension} {rules : List (Rule α)}

theorem Represents.isEmpty_iff {index : Index α} {entries : List (Entry α)}
    (h : index.Represents dimensions rules entries) : index.isEmpty = true ↔ rules = [] := by
  have hpayload (p : α) := Space.exists_entry_payload_iff (p := p) h.coded
    fun rule hrule => h.length_constraints hrule
  rw [isEmpty, h.grown.isEmpty_iff, List.eq_nil_iff_forall_not_mem, List.eq_nil_iff_forall_not_mem]
  constructor
  · intro hnone rule hrule
    obtain ⟨entry, hentry, _⟩ := (hpayload rule.payload).2 ⟨rule, hrule, rfl⟩
    exact hnone entry hentry
  · intro hnone entry hentry
    obtain ⟨rule, hrule, _⟩ := (hpayload entry.payload).1 ⟨entry, hentry, rfl⟩
    exact hnone rule hrule

/-- A built index has one leaf for every class of entries that ask the same, and keeps every
    entry in one leaf. It is empty only if there are no rules. -/
theorem leaves_classify {built : Logged (Index α)} (h : build dimensions rules = .ok built) :
    ∃ entries, (Space.fit dimensions rules).entries rules = .ok entries ∧
      Classifies dimensions.length entries built.value.leaves ∧
      (built.value.leaves.flatMap Leaf.payloads).Perm (entries.map Entry.payload) ∧
      (built.value.isEmpty = true ↔ rules = []) := by
  obtain ⟨entries, hrep⟩ := exists_represents h
  have hclasses : Classifies dimensions.length entries built.value.leaves := by
    have hroot := hrep.grown.classifies (.root dimensions.length entries)
    rw [List.length_replicate] at hroot
    rwa [leaves, hrep.space, Space.size_fit]
  exact ⟨entries, hrep.coded, hclasses, hclasses.perm, hrep.isEmpty_iff⟩

/-- An empty set asks nothing, and each of several scalars what it asks alone. So `mixed`
    stands in the leaf of `plain`, behind it as in the rules. -/
theorem leaves_sample :
    let dimensions : List Dimension := [⟨"color", .ordered, .text⟩, ⟨"tag", .ordered, .text⟩]
    let rules : List (Rule String) :=
      [⟨[.value (.text "red"), .set [] true], "plain"⟩,
        ⟨[.many [.text "red", .text "blue"], .any], "mixed"⟩]
    ∃ built, build dimensions rules = .ok built ∧ built.value.isEmpty = false ∧
      ⟨[.equal 1, .any], ["plain", "mixed"]⟩ ∈ built.value.leaves := by
  intro dimensions rules
  obtain ⟨built, h⟩ : ∃ built, build dimensions rules = .ok built :=
    exists_eq_ok_iff.2 (by decide +kernel)
  obtain ⟨entries, hentries, hclasses, _, hempty⟩ := leaves_classify h
  obtain rfl := Except.ok.inj hentries
  refine ⟨built, h, by simp [Bool.eq_false_iff, hempty, rules], ?_⟩
  obtain ⟨leaf, hleaf, hvector⟩ :=
    List.mem_map.1 ((hclasses.vectors [.equal 1, .any]).2 (by decide))
  have hpayloads := hclasses.payloads leaf hleaf
  rw [hvector] at hpayloads
  have heq : leaf = ⟨[.equal 1, .any], ["plain", "mixed"]⟩ := by
    rw [Leaf.mk.injEq]
    exact ⟨hvector, hpayloads.trans (by decide)⟩
  exact heq ▸ hleaf

end Index
end RuleIndex
