-- SUMMARY: Depth: how many splits the way to a leaf can take, and that the depth of a built tree is the length of its longest path.
import Mathlib
import RuleIndex.Proofs.SearchTree

/-!
# Depth

A scalar split takes the median of the codes, so at most half of them lie on either side of it, and
a dimension with `k` codes is split at most `⌊log₂ k⌋ + 1` times on the way down. Splits of other
dimensions may come in between. `Entry.splitsLeft` bounds the splits that are still to come; every
turn to a child uses up one of them (`Tree.Grown.depth_le`).

The depth is also computed by a loop over a stack of nodes (`Tree.deepest`), in which absent
children count at their parent. In a built tree every node has a child, so this makes no
difference: the depth is the number of nodes on the longest path to a leaf.
-/

namespace RuleIndex

variable {α : Type}

/-! ## Splits that are still to come -/

/-- How often `n` things can be halved until none is left. -/
def halvings (n : Nat) : Nat :=
  if n = 0 then 0 else Nat.log 2 n + 1

theorem halvings_mono {m n : Nat} (h : m ≤ n) : halvings m ≤ halvings n := by
  unfold halvings
  split
  · exact Nat.zero_le _
  · have hlog : Nat.log 2 m ≤ Nat.log 2 n := Nat.log_mono_right h
    split
    · omega
    · omega

/-- Half of the things can be halved once less often. -/
theorem halvings_lt_of_half {m n : Nat} (hn : n ≠ 0) (h : 2 * m ≤ n) : halvings m < halvings n := by
  unfold halvings
  rw [if_neg hn]
  split
  · exact Nat.succ_pos _
  · next hm =>
    have hlog : Nat.log 2 (m * 2) ≤ Nat.log 2 n := Nat.log_mono_right (by omega)
    rw [Nat.log_mul_base Nat.one_lt_two hm] at hlog
    omega

namespace Entry

/-- How many splits of dimension `d` the way to a leaf may take: one by sets, or halvings of the
    codes. -/
def splitsOn (entries : List (Entry α)) (d : Nat) : Nat :=
  (if anySetOn entries d then 1 else 0) + halvings (codesOn entries d).length

/-- How many splits of free dimensions the way to a leaf may take. -/
def splitsLeft (free : List Nat) (entries : List (Entry α)) : Nat :=
  (free.map (splitsOn entries)).sum

variable {entries entries' : List (Entry α)} {free : List Nat} {d : Nat}

theorem nodup_codesOn (entries : List (Entry α)) (d : Nat) : (codesOn entries d).Nodup :=
  Ascending.nodup_ofList _

theorem length_codesOn_le (h : entries' ⊆ entries) (d : Nat) :
    (codesOn entries' d).length ≤ (codesOn entries d).length := by
  apply List.Subperm.length_le
  apply (nodup_codesOn entries' d).subperm
  intro code hcode
  simp only [codesOn, Ascending.mem_ofList] at hcode ⊢
  exact List.filterMap_subset _ h hcode

theorem splitsOn_mono (h : entries' ⊆ entries) (d : Nat) :
    splitsOn entries' d ≤ splitsOn entries d := by
  have hsets : anySetOn entries' d = true → anySetOn entries d = true := by
    simp only [anySetOn, List.any_eq_true]
    rintro ⟨entry, hentry, hset⟩
    exact ⟨entry, h hentry, hset⟩
  apply Nat.add_le_add
  · split
    · next hset => rw [if_pos (hsets hset)]
    · exact Nat.zero_le _
  · exact halvings_mono (length_codesOn_le h d)

theorem splitsLeft_mono (h : entries' ⊆ entries) (free : List Nat) :
    splitsLeft free entries' ≤ splitsLeft free entries :=
  List.sum_le_sum fun d _ => splitsOn_mono h d

theorem splitsOn_add_splitsLeft_erase (hd : d ∈ free) :
    splitsOn entries d + splitsLeft (free.erase d) entries = splitsLeft free entries :=
  List.sum_map_erase (splitsOn entries) hd

/-- A turn that settles a dimension uses up a split of it. -/
theorem splitsLeft_settle_lt (hd : d ∈ free) (hsplit : splitsOn entries d ≠ 0)
    (h : entries' ⊆ entries) : splitsLeft (free.erase d) entries' < splitsLeft free entries := by
  have hrest := splitsLeft_mono h (free.erase d)
  have hsum : splitsOn entries d + splitsLeft (free.erase d) entries = _ :=
    splitsOn_add_splitsLeft_erase hd
  omega

/-- So does a turn after which there are fewer splits of the dimension. -/
theorem splitsLeft_lt (hd : d ∈ free) (hsplit : splitsOn entries' d < splitsOn entries d)
    (h : entries' ⊆ entries) : splitsLeft free entries' < splitsLeft free entries := by
  have hrest := splitsLeft_mono h (free.erase d)
  have hsum : splitsOn entries d + splitsLeft (free.erase d) entries = _ :=
    splitsOn_add_splitsLeft_erase hd
  have hsum' : splitsOn entries' d + splitsLeft (free.erase d) entries' = _ :=
    splitsOn_add_splitsLeft_erase hd
  omega

end Entry

namespace Split

variable {free : List Nat} {entries : List (Entry α)} {d : Nat} {code : Int}

/-- On either side of a split there are at most half of the codes. -/
theorem length_codesOn_onSide_le (h : choose? free entries = some (.scalar d code)) {side : Side}
    (hside : side ≠ .equal) :
    2 * (Entry.codesOn (Entry.onSide entries d code side) d).length ≤
      (Entry.codesOn entries d).length := by
  obtain ⟨_, _, hmedian⟩ := on?_eq_some_scalar_iff.1 (choose?_eq_some_iff.1 h).2
  obtain ⟨hlt, hcode⟩ := List.getElem?_eq_some_iff.1 hmedian
  have hascending : (Entry.codesOn entries d).Pairwise (· < ·) := Ascending.pairwise_ofList _
  have hbelow := Ascending.below_getElem hascending hlt
  have habove := Ascending.countP_getElem_lt hascending hlt
  rw [hcode] at hbelow habove
  have hpart (p : Int → Bool) (hp : ∀ c, Side.of code c = side → p c = true) :
      (Entry.codesOn (Entry.onSide entries d code side) d).length ≤
        (Entry.codesOn entries d).countP p := by
    rw [List.countP_eq_length_filter]
    apply List.Subperm.length_le
    apply (Entry.nodup_codesOn _ d).subperm
    intro c hc
    simp only [Entry.codesOn, Ascending.mem_ofList, List.mem_filterMap] at hc
    obtain ⟨entry, hentry, hcell⟩ := hc
    obtain ⟨hmem, c', hcell', hc'⟩ := Entry.mem_onSide.1 hentry
    obtain rfl : c' = c := by simpa [hcell', Cell.code?] using hcell
    simp only [Entry.codesOn, List.mem_filter, Ascending.mem_ofList, List.mem_filterMap]
    exact ⟨⟨entry, hmem, hcell⟩, hp c' hc'⟩
  cases side with
  | equal => exact absurd rfl hside
  | left =>
    have hlength := hpart (· < code) fun c hc => decide_eq_true (Side.of_eq_left_iff.1 hc)
    simp only [Ascending.below] at hbelow
    omega
  | right =>
    have hlength := hpart (code < ·) fun c hc => decide_eq_true (Side.of_eq_right_iff.1 hc)
    omega

theorem splitsOn_ne_zero_of_scalar (h : choose? free entries = some (.scalar d code)) :
    Entry.splitsOn entries d ≠ 0 := by
  obtain ⟨_, _, hmedian⟩ := on?_eq_some_scalar_iff.1 (choose?_eq_some_iff.1 h).2
  obtain ⟨hlt, _⟩ := List.getElem?_eq_some_iff.1 hmedian
  have hlength : (Entry.codesOn entries d).length ≠ 0 := by omega
  simp [Entry.splitsOn, halvings, hlength]

theorem splitsOn_ne_zero_of_sets (h : choose? free entries = some (.sets d)) :
    Entry.splitsOn entries d ≠ 0 := by
  obtain ⟨_, hset⟩ := on?_eq_some_sets_iff.1 (choose?_eq_some_iff.1 h).2
  simp [Entry.splitsOn, hset]

/-- On either side of a split the codes can be halved once less often. -/
theorem splitsOn_onSide_lt (h : choose? free entries = some (.scalar d code)) {side : Side}
    (hside : side ≠ .equal) :
    Entry.splitsOn (Entry.onSide entries d code side) d < Entry.splitsOn entries d := by
  have hscalars := choose?_scalar_isSet h
  have hnone : Entry.anySetOn (Entry.onSide entries d code side) d = false :=
    Entry.anySetOn_eq_false_iff.2 fun entry hentry =>
      hscalars entry (Entry.mem_onSide.1 hentry).1
  have hcodes : (Entry.codesOn entries d).length ≠ 0 := by
    intro hzero
    apply splitsOn_ne_zero_of_scalar h
    simp [Entry.splitsOn, Entry.anySetOn_eq_false_iff.2 hscalars, hzero, halvings]
  have hhalf := halvings_lt_of_half hcodes (length_codesOn_onSide_le h hside)
  simp only [Entry.splitsOn, hnone, Entry.anySetOn_eq_false_iff.2 hscalars]
  omega

end Split

namespace Tree

/-- No path is longer than the splits that are still to come. -/
theorem Grown.depth_le {free : List Nat} {entries : List (Entry α)} {tree : Tree α}
    (h : Grown free entries tree) : tree.depth ≤ Entry.splitsLeft free entries + 1 := by
  induction h with
  | @leaf free entries settled =>
    cases entries with
    | nil => exact Nat.zero_le _
    | cons entry rest => exact Nat.succ_le_succ (Nat.zero_le _)
  | @scalar free entries d code left right equal any chosen _ _ _ _ _ ihLeft ihRight ihEqual ihAny =>
    have hd : d ∈ free := Split.choose?_mem_free chosen
    have hsplit := Split.splitsOn_ne_zero_of_scalar chosen
    have hleft : Entry.splitsLeft free (Entry.onSide entries d code .left) < _ :=
      Entry.splitsLeft_lt hd (Split.splitsOn_onSide_lt chosen (by decide))
        (List.filter_subset_self _)
    have hright : Entry.splitsLeft free (Entry.onSide entries d code .right) < _ :=
      Entry.splitsLeft_lt hd (Split.splitsOn_onSide_lt chosen (by decide))
        (List.filter_subset_self _)
    have hequal : Entry.splitsLeft (free.erase d) (Entry.onSide entries d code .equal) < _ :=
      Entry.splitsLeft_settle_lt hd hsplit (List.filter_subset_self _)
    have hany : Entry.splitsLeft (free.erase d) (Entry.withoutCode entries d) < _ :=
      Entry.splitsLeft_settle_lt hd hsplit (List.filter_subset_self _)
    simp only [depth]
    omega
  | @sets free entries d branches any chosen _ _ _ _ ihBranch ihAny =>
    have hd : d ∈ free := Split.choose?_mem_free chosen
    have hsplit := Split.splitsOn_ne_zero_of_sets chosen
    have hbranches : branchDepth branches ≤ Entry.splitsLeft free entries := by
      refine branchDepth_le_iff.2 fun branch hbranch => ?_
      have hbranchLt : Entry.splitsLeft (free.erase d) (Entry.withKey entries d branch.1) < _ :=
        Entry.splitsLeft_settle_lt hd hsplit (List.filter_subset_self _)
      have hdepth := ihBranch branch hbranch
      omega
    have hany : Entry.splitsLeft (free.erase d) (Entry.withoutKey entries d) < _ :=
      Entry.splitsLeft_settle_lt hd hsplit (List.filter_subset_self _)
    simp only [depth]
    omega


/-! ## Longest paths -/

theorem depth_eq_zero_iff {tree : Tree α} : tree.depth = 0 ↔ tree.isEmpty = true := by
  cases tree with
  | empty => simp [depth, isEmpty]
  | leaf payloads => simp [depth, isEmpty]
  | scalar d split left right equal any => simp [depth, isEmpty]
  | sets d branches any => simp [depth, isEmpty]

/-- The children of a node are one level less deep at most. -/
theorem depth_le_succ_iff {tree : Tree α} (h : tree.children ≠ []) {n : Nat} :
    tree.depth ≤ n + 1 ↔ ∀ turn child, (turn, child) ∈ tree.children → child.depth ≤ n := by
  cases tree with
  | empty => exact absurd rfl h
  | leaf payloads => exact absurd rfl h
  | scalar d split left right equal any =>
    simp only [mem_children_scalar_iff, depth, or_imp, forall_and, and_imp, forall_eq,
      forall_eq_apply_imp_iff]
    omega
  | sets d branches any =>
    have hparts : (sets d branches any).depth ≤ n + 1 ↔
        (∀ branch ∈ branches, branch.2.depth ≤ n) ∧ any.depth ≤ n := by
      rw [← branchDepth_le_iff, depth]
      omega
    rw [hparts]
    constructor
    · rintro ⟨hbranches, hany⟩ turn child hchild
      rcases mem_children_sets_iff.1 hchild with ⟨key, _, hbranch⟩ | ⟨_, rfl⟩
      · exact hbranches _ hbranch
      · exact hany
    · intro hall
      refine ⟨fun branch hbranch => ?_, hall _ _ (mem_children_sets_iff.2 (.inr ⟨rfl, rfl⟩))⟩
      exact hall _ _ (mem_children_sets_iff.2 (.inl ⟨branch.1, rfl, hbranch⟩))

/-- A child is less deep than its parent. -/
theorem depth_lt_of_mem_children {tree child : Tree α} {turn : Turn}
    (h : (turn, child) ∈ tree.children) : child.depth < tree.depth := by
  have hdepth : tree.depth ≠ 0 := by
    rw [ne_eq, depth_eq_zero_iff]
    cases tree with
    | empty => cases h
    | _ => exact Bool.false_ne_true
  have hle : tree.depth ≤ tree.depth - 1 + 1 := by omega
  have hchild := (depth_le_succ_iff (List.ne_nil_of_mem h)).1 hle turn child h
  omega

/-- Some child is only one level less deep than its parent. -/
theorem exists_deepest_child {tree : Tree α} (h : tree.children ≠ []) :
    ∃ turn child, (turn, child) ∈ tree.children ∧ tree.depth = child.depth + 1 := by
  obtain ⟨⟨turn, child⟩, hchild⟩ := List.exists_mem_of_ne_nil _ h
  have hlt := depth_lt_of_mem_children hchild
  by_contra hnone
  have hless : ∀ turn child, (turn, child) ∈ tree.children → child.depth ≤ tree.depth - 2 := by
    intro turn child hchild
    have hlt := depth_lt_of_mem_children hchild
    have hne : tree.depth ≠ child.depth + 1 := fun heq => hnone ⟨turn, child, hchild, heq⟩
    omega
  have hle := (depth_le_succ_iff h).2 hless
  have hne : tree.depth ≠ child.depth + 1 := fun heq => hnone ⟨turn, child, hchild, heq⟩
  omega

/-- No path down a tree has more nodes than the tree is deep. -/
theorem Walk.length_add_depth_le {tree node : Tree α} {path : List Turn}
    (h : tree.Walk path node) : path.length + node.depth ≤ tree.depth := by
  induction h with
  | nil => simp
  | cons here _ ih =>
    have hlt := depth_lt_of_mem_children here
    simp only [List.length_cons]
    omega

/-- A node that is made as the nodes of a search tree are has a child that is there. -/
theorem WellFormed.exists_child {tree : Tree α} (h : tree.WellFormed) (hne : tree.children ≠ []) :
    ∃ turn child, (turn, child) ∈ tree.children ∧ child.isEmpty = false := by
  cases tree with
  | empty => exact absurd rfl hne
  | leaf payloads => exact absurd rfl hne
  | scalar d split left right equal any =>
    exact ⟨⟨d, .equal split⟩, equal, by simp [mem_children_scalar_iff], h.2⟩
  | sets d branches any =>
    obtain ⟨hbranches, _, hsome⟩ := h
    rcases hsome with hne | hany
    · obtain ⟨⟨key, subtree⟩, hbranch⟩ := List.exists_mem_of_ne_nil _ hne
      refine ⟨⟨d, .set key⟩, subtree, ?_, (hbranches _ hbranch).1⟩
      exact mem_children_sets_iff.2 (.inl ⟨key, rfl, hbranch⟩)
    · exact ⟨⟨d, .any⟩, any, mem_children_sets_iff.2 (.inr ⟨rfl, rfl⟩), hany⟩

/-- In a search tree some path to a leaf has as many nodes as the tree is deep. -/
theorem exists_longest_walk {tree : Tree α}
    (h : ∀ path node, tree.Walk path node → node.WellFormed) (hne : tree.isEmpty = false) :
    ∃ path payloads, tree.Walk path (.leaf payloads) ∧ path.length + 1 = tree.depth := by
  induction hdepth : tree.depth using Nat.strong_induction_on generalizing tree with
  | _ n ih =>
    subst hdepth
    by_cases hchildren : tree.children = []
    · cases tree with
      | empty => cases hne
      | leaf payloads => exact ⟨[], payloads, .nil, rfl⟩
      | scalar => cases hchildren
      | sets => simp [children] at hchildren
    · obtain ⟨turn, child, hchild, hdepth⟩ := exists_deepest_child hchildren
      -- The deepest child is there, since some child is.
      have hpresent : child.isEmpty = false := by
        obtain ⟨turn', child', hchild', hpresent'⟩ := (h [] tree .nil).exists_child hchildren
        have hlt := depth_lt_of_mem_children hchild'
        rw [Bool.eq_false_iff, ne_eq, ← depth_eq_zero_iff] at hpresent' ⊢
        omega
      have hbelow : ∀ path node, child.Walk path node → node.WellFormed :=
        fun path node hwalk => h (turn :: path) node (.cons hchild hwalk)
      obtain ⟨path, payloads, hwalk, hlength⟩ :=
        ih child.depth (by omega) hbelow hpresent rfl
      refine ⟨turn :: path, payloads, .cons hchild hwalk, ?_⟩
      simp only [List.length_cons]
      omega


/-! ## The depth as a loop computes it -/

/-- The places for children that every node has, absent children included, and then its branches. -/
def slots : Tree α → List (Tree α)
  | .empty | .leaf _ => []
  | .scalar _ _ left right equal any => [left, right, equal, any]
  | .sets _ branches any => [.empty, .empty, .empty, any] ++ branches.map Prod.snd

theorem mem_slots_of_mem_children {tree child : Tree α} {turn : Turn}
    (h : (turn, child) ∈ tree.children) : child ∈ tree.slots := by
  cases tree with
  | empty => cases h
  | leaf payloads => cases h
  | scalar d split left right equal any =>
    rcases mem_children_scalar_iff.1 h with ⟨_, rfl⟩ | ⟨_, rfl⟩ | ⟨_, rfl⟩ | ⟨_, rfl⟩ <;>
      simp [slots]
  | sets d branches any =>
    rcases mem_children_sets_iff.1 h with ⟨key, _, hbranch⟩ | ⟨_, rfl⟩
    · exact List.mem_append_right _ (List.mem_map.2 ⟨_, hbranch, rfl⟩)
    · simp [slots]

/-- Besides its children, a node has places for absent ones only. -/
theorem eq_empty_or_mem_children {tree child : Tree α} (h : child ∈ tree.slots) :
    child = .empty ∨ ∃ turn, (turn, child) ∈ tree.children := by
  cases tree with
  | empty => cases h
  | leaf payloads => cases h
  | scalar d split left right equal any =>
    simp only [slots, List.mem_cons, List.not_mem_nil, or_false] at h
    rcases h with rfl | rfl | rfl | rfl
    · exact .inr ⟨⟨d, .left split⟩, by simp [mem_children_scalar_iff]⟩
    · exact .inr ⟨⟨d, .right split⟩, by simp [mem_children_scalar_iff]⟩
    · exact .inr ⟨⟨d, .equal split⟩, by simp [mem_children_scalar_iff]⟩
    · exact .inr ⟨⟨d, .any⟩, by simp [mem_children_scalar_iff]⟩
  | sets d branches any =>
    simp only [slots, List.mem_append, List.mem_cons, List.not_mem_nil, or_false,
      List.mem_map] at h
    rcases h with (rfl | rfl | rfl | rfl) | ⟨branch, hbranch, rfl⟩
    · exact .inl rfl
    · exact .inl rfl
    · exact .inl rfl
    · exact .inr ⟨⟨d, .any⟩, mem_children_sets_iff.2 (.inr ⟨rfl, rfl⟩)⟩
    · exact .inr ⟨⟨d, .set branch.1⟩, mem_children_sets_iff.2 (.inl ⟨branch.1, rfl, hbranch⟩)⟩

theorem one_le_sizeOf (tree : Tree α) : 1 ≤ sizeOf tree := by
  cases tree <;> simp +arith

/-- All places of a node together are smaller than the node, though absent children count. -/
theorem sum_sizeOf_slots_lt (tree : Tree α) :
    (tree.slots.map fun child => 2 * sizeOf child - 1).sum < 2 * sizeOf tree - 1 := by
  cases tree with
  | empty => simp [slots]
  | leaf payloads =>
    simp only [slots, List.map_nil, List.sum_nil, leaf.sizeOf_spec]
    omega
  | scalar d split left right equal any =>
    have hany := one_le_sizeOf any
    simp only [slots, List.map_cons, List.map_nil, List.sum_cons, List.sum_nil,
      scalar.sizeOf_spec]
    omega
  | sets d branches any =>
    have hany := one_le_sizeOf any
    have hbranches : ((branches.map Prod.snd).map fun child => 2 * sizeOf child - 1).sum + 1 <
        2 * sizeOf branches := by
      induction branches with
      | nil => simp
      | cons branch rest ih =>
        obtain ⟨key, subtree⟩ := branch
        simp only [List.map_cons, List.sum_cons, List.cons.sizeOf_spec, Prod.mk.sizeOf_spec]
        omega
    simp only [slots, List.map_append, List.map_cons, List.map_nil, List.sum_append,
      List.sum_cons, List.sum_nil, sets.sizeOf_spec, empty.sizeOf_spec]
    omega

/-- The greatest depth on a stack of places that are still to be seen, each with its own depth. An
    absent child counts at the depth of its parent. -/
def deepest (found : Nat) : List (Tree α × Nat) → Nat
  | [] => found
  | (.empty, depth) :: stack => deepest (max found (depth - 1)) stack
  | (.leaf _, depth) :: stack => deepest (max found depth) stack
  | (node, depth) :: stack => deepest found (node.slots.reverse.map (·, depth + 1) ++ stack)
termination_by stack => (stack.map fun place => 2 * sizeOf place.1 - 1).sum
decreasing_by
  · simp
  · simp +arith
  · simpa [Function.comp_def, List.sum_reverse] using sum_sizeOf_slots_lt node

/-- A node is as deep as its places require, one level up. -/
theorem add_depth_le_iff {tree : Tree α} (h : tree.children ≠ []) {k n : Nat} :
    k + tree.depth ≤ n ↔ ∀ child ∈ tree.slots, k + 1 + child.depth ≤ n := by
  obtain ⟨turn, child, hchild, hdepth⟩ := exists_deepest_child h
  constructor
  · intro hle child' hchild'
    rcases eq_empty_or_mem_children hchild' with rfl | ⟨turn', hturn'⟩
    · simp only [depth]
      omega
    · have hlt := depth_lt_of_mem_children hturn'
      omega
  · intro hall
    have hle := hall child (mem_slots_of_mem_children hchild)
    omega

/-- What is still to be seen counts from the depth above it. -/
theorem deepest_le_iff {found n : Nat} {stack : List (Tree α × Nat)}
    (h : ∀ place ∈ stack, 1 ≤ place.2) :
    deepest found stack ≤ n ↔ found ≤ n ∧ ∀ place ∈ stack, place.2 - 1 + place.1.depth ≤ n := by
  induction found, stack using deepest.induct with
  | case1 found => simp [deepest]
  | case2 found depth stack ih =>
    obtain ⟨_, hstack⟩ := List.forall_mem_cons.1 h
    simp only [deepest, ih hstack, List.forall_mem_cons, Tree.depth, max_le_iff, and_assoc]
    rfl
  | case3 found payloads depth stack ih =>
    obtain ⟨hdepth, hstack⟩ := List.forall_mem_cons.1 h
    have hleaf : depth - 1 + 1 = depth := Nat.sub_add_cancel hdepth
    simp only [deepest, ih hstack, List.forall_mem_cons, Tree.depth, max_le_iff, and_assoc, hleaf]
  | case4 found node depth stack hempty hleaf ih =>
    obtain ⟨hdepth, hstack⟩ := List.forall_mem_cons.1 h
    have hchildren : node.children ≠ [] := by
      cases node with
      | empty => exact absurd rfl hempty
      | leaf payloads => exact absurd rfl (hleaf payloads)
      | scalar => exact List.cons_ne_nil _ _
      | sets => simp [children]
    have hnode : depth - 1 + node.depth ≤ n ↔
        ∀ place ∈ node.slots.reverse.map (·, depth + 1), place.2 - 1 + place.1.depth ≤ n := by
      rw [add_depth_le_iff hchildren, Nat.sub_add_cancel hdepth]
      simp
    have hpushed : ∀ place ∈ node.slots.reverse.map (·, depth + 1) ++ stack, 1 ≤ place.2 := by
      simp only [List.mem_append, List.mem_map]
      rintro place (⟨child, _, rfl⟩ | hplace)
      · exact Nat.succ_le_succ (Nat.zero_le depth)
      · exact hstack place hplace
    rw [deepest.eq_4 _ _ _ _ hempty hleaf, ih hpushed, List.forall_mem_append, ← hnode,
      List.forall_mem_cons]

/-- The loop finds the depth of the root. -/
theorem deepest_eq_depth (root : Tree α) : deepest 0 [(root, 1)] = root.depth := by
  apply eq_of_forall_ge_iff
  intro n
  rw [deepest_le_iff (by simp)]
  simp

end Tree


/-! ## Built trees -/

/-- Only a set has an alternative that is a set. -/
theorem Axis.isSet_of_mem_options {axis : Axis} {constraint : Constraint} {cells : List Cell}
    (h : axis.options constraint = .ok cells) {cell : Cell} (hcell : cell ∈ cells)
    (hset : cell.isSet = true) : constraint.isSet = true := by
  rcases mem_options_cases h hcell with ⟨code, rfl⟩ | ⟨_, _, _, rfl, _⟩
  · unfold Cell.ofCode at hset
    split at hset <;> cases hset
  · rfl

/-- Some rule has a set on dimension `d`. -/
def Rule.anySetOn (rules : List (Rule α)) (d : Nat) : Bool :=
  rules.any fun rule => (rule.constraints.getD d .any).isSet

/-- The number of codes that the entries have on dimension `d`, without the code that asks
    nothing. -/
def Entry.codeCount (entries : List (Entry α)) (d : Nat) : Nat :=
  ((entries.filterMap fun entry => (entry.cell d).code?).toFinset.erase anyCode).card

namespace Space

variable {space : Space} {rules : List (Rule α)} {entries : List (Entry α)} {d : Nat}

/-- Only rules with sets have entries with sets. -/
theorem anySetOn_of_entries (h : space.entries rules = .ok entries)
    (hsize : ∀ rule ∈ rules, rule.constraints.length = space.size) (hd : d < space.size)
    (hset : Entry.anySetOn entries d = true) : Rule.anySetOn rules d = true := by
  obtain ⟨entry, hentry, hcell⟩ := List.any_eq_true.1 hset
  obtain ⟨rule, hrule, _, hall⟩ := (exists_entry_iff h hsize
      (P := fun d' cell => d' = d → cell.isSet = true)).1
    ⟨entry, hentry, rfl, fun d' _ heq => heq ▸ hcell⟩
  obtain ⟨cells, hcells, cell, hmem, hown⟩ := hall d _ (List.getElem?_eq_getElem hd)
  exact List.any_eq_true.2 ⟨rule, hrule, Axis.isSet_of_mem_options hcells hmem (hown rfl)⟩

theorem codeCount_eq_length (h : space.entries rules = .ok entries) (d : Nat) :
    Entry.codeCount entries d = (Entry.codesOn entries d).length := by
  have hcodes : (Entry.codesOn entries d).toFinset =
      (entries.filterMap fun entry => (entry.cell d).code?).toFinset.erase anyCode := by
    ext code
    simp only [Entry.codesOn, List.mem_toFinset, Ascending.mem_ofList, Finset.mem_erase,
      iff_and_self, List.mem_filterMap, Cell.code?_eq_some_iff]
    rintro ⟨entry, hentry, hcell⟩
    have hproper := proper_of_mem_entries h hentry d
    rwa [hcell] at hproper
  rw [Entry.codeCount, ← hcodes, List.toFinset_card_of_nodup (Entry.nodup_codesOn entries d)]

/-- The splits on all dimensions: one for every dimension with a set, and halvings of codes. -/
theorem splitsLeft_le (h : space.entries rules = .ok entries)
    (hsize : ∀ rule ∈ rules, rule.constraints.length = space.size) :
    Entry.splitsLeft (List.range space.size) entries ≤
      ((Finset.range space.size).filter fun d => Rule.anySetOn rules d).card +
        ∑ d ∈ Finset.range space.size with 1 ≤ Entry.codeCount entries d,
          (Nat.log 2 (Entry.codeCount entries d) + 1) := by
  have hsum : Entry.splitsLeft (List.range space.size) entries =
      ∑ d ∈ Finset.range space.size, Entry.splitsOn entries d := by
    rw [← List.toFinset_range, List.sum_toFinset _ List.nodup_range]
    rfl
  rw [hsum, Finset.card_filter, Finset.sum_filter, ← Finset.sum_add_distrib]
  apply Finset.sum_le_sum
  intro d hd
  apply Nat.add_le_add
  · split
    · next hset => rw [if_pos (anySetOn_of_entries h hsize (Finset.mem_range.1 hd) hset)]
    · exact Nat.zero_le _
  · rw [codeCount_eq_length h, halvings]
    split
    · exact Nat.zero_le _
    · next hne => rw [if_pos (Nat.one_le_iff_ne_zero.2 hne)]

end Space

namespace Index

variable {dimensions : List Dimension} {rules : List (Rule α)}

/-- The depth of a built tree, as the loop finds it, is zero without rules only. Otherwise it is
    the number of nodes on the longest path to a leaf, and no more than one split for every
    dimension with a set, and one for every halving of the codes on a dimension, allow. -/
theorem maxDepth_logarithmic {built : Logged (Index α)} (h : build dimensions rules = .ok built) :
    ∃ entries, (Space.fit dimensions rules).entries rules = .ok entries ∧
      built.value.maxDepth = Tree.deepest 0 [(built.value.root, 1)] ∧
      (built.value.maxDepth = 0 ↔ rules = []) ∧
      (rules ≠ [] →
        (∃ path payloads, built.value.root.Walk path (.leaf payloads) ∧
          path.length + 1 = built.value.maxDepth) ∧
        (∀ path payloads, built.value.root.Walk path (.leaf payloads) →
          path.length + 1 ≤ built.value.maxDepth) ∧
        1 ≤ built.value.maxDepth ∧
        built.value.maxDepth ≤
          1 + ((Finset.range dimensions.length).filter fun d => Rule.anySetOn rules d).card +
            ∑ d ∈ Finset.range dimensions.length with 1 ≤ Entry.codeCount entries d,
              (Nat.log 2 (Entry.codeCount entries d) + 1)) := by
  obtain ⟨entries, hrep⟩ := exists_represents h
  have hempty : built.value.maxDepth = 0 ↔ rules = [] := by
    rw [maxDepth, Tree.depth_eq_zero_iff]
    exact hrep.isEmpty_iff
  refine ⟨entries, hrep.coded, (Tree.deepest_eq_depth _).symm, hempty, fun hrules => ?_⟩
  have hpresent : built.value.root.isEmpty = false := by
    rw [Bool.eq_false_iff, ne_eq, ← Tree.depth_eq_zero_iff]
    exact fun hzero => hrules (hempty.1 hzero)
  have hsearch : built.value.root.SearchTree :=
    hrep.grown.searchTree List.nodup_range fun entry hentry =>
      Space.proper_of_mem_entries hrep.coded hentry
  have hsplits := Space.splitsLeft_le hrep.coded fun rule => hrep.length_constraints
  rw [Space.size_fit] at hsplits
  refine ⟨Tree.exists_longest_walk hsearch.wellFormed hpresent, fun path payloads hwalk => ?_,
    Nat.pos_of_ne_zero fun hzero => hrules (hempty.1 hzero), ?_⟩
  · exact hwalk.length_add_depth_le
  · have hdepth := hrep.grown.depth_le
    rw [maxDepth]
    omega

/-- The longest paths among the rules with every kind of constraint have four nodes. -/
theorem maxDepth_sample :
    ∃ built, build Sample.dimensions Sample.rules = .ok built ∧
      Tree.deepest 0 [(built.value.root, 1)] = 4 ∧
      ∃ path payloads, built.value.root.Walk path (.leaf payloads) ∧ path.length + 1 = 4 := by
  obtain ⟨built, h⟩ := Sample.exists_build
  have hdepth : built.value.maxDepth = 4 := by
    have hbuilt : (build Sample.dimensions Sample.rules).toOption.map (·.value.maxDepth) =
        some 4 := by cbv
    rw [h] at hbuilt
    exact Option.some.inj hbuilt
  obtain ⟨_, _, hloop, _, hrules⟩ := maxDepth_logarithmic h
  obtain ⟨hlongest, _⟩ := hrules (List.cons_ne_nil _ _)
  exact ⟨built, h, hloop ▸ hdepth, hdepth ▸ hlongest⟩

end Index
end RuleIndex
