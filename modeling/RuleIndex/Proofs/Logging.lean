-- SUMMARY: Logging: the log of a build is its finished tree, read node by node, and a build that fails has logged nothing.
import Mathlib
import RuleIndex.Proofs.Paths
import RuleIndex.Proofs.Refusals

/-!
# Logging

Growth logs a split before it grows the children, from the entries that reach the node. Once the
tree is there the log can be read off it (`Tree.log_grow`): entries are neither lost nor doubled
on the way to the leaves, so as many payloads end below a node as entries reach it.

The log of `Index.buildChecking` outlives a failure. It is empty then (`Index.run_buildChecking`),
because no split comes before the last check that can fail.
-/

namespace RuleIndex

variable {α : Type}

/-! ## The events of a tree -/

namespace Tree

mutual

/-- The nodes of a tree in preorder: each before its children, absent children left out. -/
def nodes : Tree α → List (Tree α)
  | .empty => []
  | .leaf payloads => [.leaf payloads]
  | .scalar d split left right equal any =>
    .scalar d split left right equal any ::
      (left.nodes ++ right.nodes ++ equal.nodes ++ any.nodes)
  | .sets d branches any => .sets d branches any :: (nodesOfBranches branches ++ any.nodes)

/-- The nodes below the branches of a set node. -/
def nodesOfBranches : List (SetKey × Tree α) → List (Tree α)
  | [] => []
  | (_, subtree) :: rest => subtree.nodes ++ nodesOfBranches rest

end

/-- The payloads that a node keeps itself. -/
def ownPayloads : Tree α → List α
  | .leaf payloads => payloads
  | _ => []

/-- The payloads of all leaves of a tree. -/
def payloads (tree : Tree α) : List α :=
  tree.nodes.flatMap ownPayloads

/-- What a node says of its split; a leaf says nothing. -/
def event? (space : Space) : Tree α → Option Event
  | .empty | .leaf _ => none
  | tree@(.scalar d split ..) =>
    some (.scalarSplit (space.name d) (space.render d split) tree.payloads.length)
  | .sets d branches _ => some (.setSplit (space.name d) branches.length)

/-- What the nodes of a tree say of their splits, in preorder. -/
def events (space : Space) (tree : Tree α) : List Event :=
  tree.nodes.filterMap (event? space)

theorem nodesOfBranches_eq (branches : List (SetKey × Tree α)) :
    nodesOfBranches branches = branches.flatMap fun branch => branch.2.nodes := by
  induction branches with
  | nil => rfl
  | cons branch rest ih => rw [nodesOfBranches, ih, List.flatMap_cons]

section Shapes

variable {d : Nat} {split : Int} {left right equal any : Tree α}
  {branches : List (SetKey × Tree α)} {space : Space}

theorem payloads_ofPayloads (l : List α) : (ofPayloads l).payloads = l := by
  cases l <;> simp [ofPayloads, payloads, nodes, ownPayloads]

theorem payloads_scalar : (scalar d split left right equal any).payloads =
    left.payloads ++ right.payloads ++ equal.payloads ++ any.payloads := by
  simp [payloads, nodes, ownPayloads]

theorem payloads_sets : (sets d branches any).payloads =
    (branches.flatMap fun branch => branch.2.payloads) ++ any.payloads := by
  simp [payloads, nodes, nodesOfBranches_eq, ownPayloads, List.flatMap_assoc]

theorem events_ofPayloads (l : List α) : (ofPayloads l).events space = [] := by
  cases l <;> rfl

theorem events_scalar : (scalar d split left right equal any).events space =
    .scalarSplit (space.name d) (space.render d split)
        (scalar d split left right equal any).payloads.length ::
      (left.events space ++ right.events space ++ equal.events space ++ any.events space) := by
  simp [events, nodes, event?]

theorem events_sets : (sets d branches any).events space =
    .setSplit (space.name d) branches.length ::
      ((branches.flatMap fun branch => branch.2.events space) ++ any.events space) := by
  simp [events, nodes, nodesOfBranches_eq, event?, List.filterMap_flatMap]

/-- Splits are told at the level of traces. -/
theorem level_of_mem_events {tree : Tree α} {event : Event} (h : event ∈ tree.events space) :
    event.level = .trace := by
  obtain ⟨node, _, hnode⟩ := List.mem_filterMap.1 h
  cases node with
  | empty => cases hnode
  | leaf payloads => cases hnode
  | scalar d split left right equal any => exact Option.some.inj hnode ▸ rfl
  | sets d branches any => exact Option.some.inj hnode ▸ rfl

end Shapes
end Tree


/-! ## Every entry comes to a leaf -/

namespace Entry

/-- A scalar split rearranges the entries. -/
theorem sides_perm (entries : List (Entry α)) (d : Nat) (split : Int) :
    (onSide entries d split .left ++ onSide entries d split .right ++
      onSide entries d split .equal ++ withoutCode entries d).Perm entries := by
  have hsides : [some Side.left, some .right, some .equal, none].Nodup := by decide
  have hperm := perm_flatMap_filter (fun entry : Entry α => (entry.cell d).side? split) hsides
    (fun entry (_ : entry ∈ entries) => Cell.side?_mem split _)
  simpa only [onSide, List.flatMap_cons, List.flatMap_nil, filter_side?_eq_none,
    List.append_assoc, List.append_nil] using hperm

/-- A set split rearranges the entries. -/
theorem keys_perm (entries : List (Entry α)) (d : Nat) :
    ((keysOn entries d).flatMap (withKey entries d) ++ withoutKey entries d).Perm entries := by
  have hperm := perm_flatMap_filter (fun entry : Entry α => (entry.cell d).key?)
    (nodup_keysOn_append_none entries d) (fun entry hentry => key?_mem hentry d)
  simp only [List.flatMap_append, List.flatMap_map, List.flatMap_cons, List.flatMap_nil,
    filter_key?_eq_none, List.append_nil] at hperm
  exact hperm

end Entry

namespace Tree

/-- The leaves of a grown tree keep the payload of every entry. -/
theorem Grown.payloads_perm {free : List Nat} {entries : List (Entry α)} {tree : Tree α}
    (h : Grown free entries tree) : tree.payloads.Perm (entries.map Entry.payload) := by
  induction h with
  | leaf settled => rw [payloads_ofPayloads]
  | @scalar _ entries d split left right equal any _ _ _ _ _ _ ihLeft ihRight ihEqual ihAny =>
    rw [payloads_scalar]
    refine (((ihLeft.append ihRight).append ihEqual).append ihAny).trans ?_
    simpa using (Entry.sides_perm entries d split).map Entry.payload
  | @sets _ entries d branches any _ _ keys _ _ ihBranch ihAny =>
    have hbranches : (branches.flatMap fun branch => branch.2.payloads).Perm
        (((Entry.keysOn entries d).flatMap (Entry.withKey entries d)).map Entry.payload) := by
      rw [← keys, List.flatMap_map, List.map_flatMap]
      exact List.Perm.flatMap_left _ ihBranch
    rw [payloads_sets]
    refine (hbranches.append ihAny).trans ?_
    simpa using (Entry.keys_perm entries d).map Entry.payload

/-- Below a node only free dimensions are split. -/
theorem Grown.mem_free {free : List Nat} {entries : List (Entry α)} {tree node : Tree α}
    (h : Grown free entries tree) (hnode : node ∈ tree.nodes) {d : Nat}
    (hd : node.dimension? = some d) : d ∈ free := by
  induction h with
  | @leaf _ entries settled =>
    cases hpayloads : entries.map Entry.payload <;> simp_all [ofPayloads, nodes, dimension?]
  | @scalar free _ split code _ _ _ _ chosen _ _ _ _ _ ihLeft ihRight ihEqual ihAny =>
    simp only [nodes, List.mem_cons, List.mem_append] at hnode
    rcases hnode with rfl | ((hleft | hright) | hequal) | hany
    · exact Option.some.inj hd ▸ Split.choose?_mem_free chosen
    · exact ihLeft hleft
    · exact ihRight hright
    · exact List.mem_of_mem_erase (ihEqual hequal)
    · exact List.mem_of_mem_erase (ihAny hany)
  | @sets free _ split branches _ chosen _ _ _ _ ihBranch ihAny =>
    simp only [nodes, nodesOfBranches_eq, List.mem_cons, List.mem_append, List.mem_flatMap] at hnode
    rcases hnode with rfl | ⟨branch, hbranch, hnode⟩ | hany
    · exact Option.some.inj hd ▸ Split.choose?_mem_free chosen
    · exact List.mem_of_mem_erase (ihBranch branch hbranch hnode)
    · exact List.mem_of_mem_erase (ihAny hany)

/-- The log of growth is what the nodes of the grown tree say of their splits. -/
theorem log_grow (space : Space) {free : List Nat} {entries : List (Entry α)}
    (h : Split.clash? free entries = none) :
    (grow space free entries).log = (grow space free entries).value.events space := by
  induction free, entries using growth_induct with
  | leaf free entries hchoose =>
    rw [log_grow_of_none hchoose, value_grow_of_none hchoose, events_ofPayloads]
  | scalar free entries d code hchoose ihLeft ihRight ihEqual ihAny =>
    have hsettled := Split.clash?_erase h d
    have hrules := (grow_grown space h).payloads_perm.length_eq
    rw [value_grow_of_scalar hchoose, List.length_map] at hrules
    rw [log_grow_of_scalar hchoose, value_grow_of_scalar hchoose, events_scalar, hrules,
      ihLeft (Split.clash?_filter h _), ihRight (Split.clash?_filter h _),
      ihEqual (Split.clash?_filter hsettled _), ihAny (Split.clash?_filter hsettled _)]
  | sets free entries d hchoose ihKey ihAny =>
    have hsettled := Split.clash?_erase h d
    have hkey (key : SetKey) := ihKey key (Split.clash?_filter hsettled _)
    rw [log_grow_of_sets hchoose, value_grow_of_sets hchoose, events_sets, List.length_map,
      List.flatMap_map, ihAny (Split.clash?_filter hsettled _)]
    simp only [hkey]

end Tree


/-! ## The log of a build -/

namespace Index

variable {dimensions : List Dimension} {rules : List (Rule α)}

/-- Building with checks at every node, with a log that outlives a failure. -/
theorem run_buildChecking : (buildChecking dimensions rules).run =
    match build dimensions rules with
    | .ok built => ⟨.ok built.value, built.log⟩
    | .error e => ⟨.error e, []⟩ := by
  rw [buildChecking_eq]
  cases build dimensions rules with
  | ok built => exact Attempt.run_lift built
  | error e => rfl

/-- The log of a build tells of every split of the finished tree, in preorder, and then of the
    index, which is all that it tells at the level of debugging. The nodes split dimensions that
    there are, and names and written codes are those of the dimensions. A build that fails has
    logged nothing. -/
theorem build_logged (dimensions : List Dimension) (rules : List (Rule α)) :
    (∀ built, build dimensions rules = .ok built →
      (buildChecking dimensions rules).run = ⟨.ok built.value, built.log⟩ ∧
      built.log = built.value.root.events built.value.space ++
        [.built rules.length dimensions.length built.value.maxDepth] ∧
      built.log.filter (·.level = .debug) =
        [.built rules.length dimensions.length built.value.maxDepth] ∧
      (∀ node ∈ built.value.root.nodes, ∀ d, node.dimension? = some d → d < dimensions.length) ∧
      ∀ (d : Nat) (hd : d < dimensions.length), built.value.space.name d = dimensions[d].name ∧
        ∀ code, built.value.space.render d code =
          (dimensions[d].domain.codec (Rule.valuesAt rules d)).render code) ∧
    ∀ e, build dimensions rules = .error e →
      (buildChecking dimensions rules).run = ⟨.error e, []⟩ := by
  constructor
  · intro built hbuilt
    have ⟨hsize, entries, hentries, hclash, hof⟩ := build_eq_ok_iff.1 hbuilt
    have hlog : built.log = built.value.root.events built.value.space ++
        [.built rules.length dimensions.length built.value.maxDepth] := by
      rw [← hof, Logged.log_bind, Tree.log_grow _ hclash]
      simp [ofTree, maxDepth]
    obtain ⟨_, hrep⟩ := exists_represents hbuilt
    refine ⟨?_, hlog, ?_, fun node hnode d hd => ?_, fun d hd => ?_⟩
    · rw [run_buildChecking, hbuilt]
    · have htraces : (built.value.root.events built.value.space).filter (·.level = .debug) = [] :=
        List.filter_eq_nil_iff.2 fun event hevent => by simp [Tree.level_of_mem_events hevent]
      rw [hlog, List.filter_append, htraces]
      rfl
    · exact List.mem_range.1 (hrep.grown.mem_free hnode hd)
    · rw [hrep.space]
      exact ⟨Space.name_fit hd, Space.render_fit hd⟩
  · intro e he
    rw [run_buildChecking, he]

/-- The sample tells of seven splits and of four rules; rules that mix kinds tell nothing. -/
theorem build_logged_sample :
    (∃ built, build Sample.dimensions Sample.rules = .ok built ∧
      built.value.root.events built.value.space =
        [.scalarSplit "color" "red" 5, .scalarSplit "color" "blue" 1, .scalarSplit "size" "2" 1,
          .scalarSplit "size" "2" 2, .scalarSplit "size" "1" 1, .setSplit "tags" 1,
          .scalarSplit "region" "EU" 1] ∧
      built.log.filter (·.level = .debug) = [.built 4 4 4]) ∧
    (buildChecking [⟨"size", .ordered, .integer⟩]
        [⟨[.set [.integer 1] true], "all"⟩, ⟨[.value (.integer 1)], "one"⟩]).run =
      ⟨.error (.mixedConstraints "size"), []⟩ := by
  constructor
  · obtain ⟨built, hbuilt⟩ := Sample.exists_build
    have hlog : (build Sample.dimensions Sample.rules).map Logged.log =
        .ok ([.scalarSplit "color" "red" 5, .scalarSplit "color" "blue" 1,
          .scalarSplit "size" "2" 1, .scalarSplit "size" "2" 2, .scalarSplit "size" "1" 1,
          .setSplit "tags" 1, .scalarSplit "region" "EU" 1] ++ [.built 4 4 4]) := by
      cbv
    obtain ⟨_, hevents, hdebug, _⟩ := (build_logged _ _).1 built hbuilt
    rw [hbuilt] at hlog
    obtain ⟨hsplits, hlast⟩ := List.append_inj' (hevents.symm.trans (Except.ok.inj hlog)) rfl
    exact ⟨built, hbuilt, hsplits, hdebug.trans hlast⟩
  · exact (build_logged _ _).2 _ (by cbv)

end Index
end RuleIndex
