-- SUMMARY: Reordered rules: an index does not depend on the order in which its rules are given.
import Mathlib
import RuleIndex.Proofs.Codes
import RuleIndex.Proofs.Matching

/-!
# Reordered rules

Numberings, splits and parts of entries depend on which values, codes and sets there are, and not
on their order. So the same rules in another order are taken apart by the same splits. What keeps
the order of the rules are the payloads of a leaf and the branches of a set node. Trees that
differ in nothing else are `Tree.Alike`; they are equally deep and are searched alike.

The main statement is `Index.build_alike_of_perm`. It assumes of a numbering that the caller
provides what is known of all others: `Domain.fromLeast` may be used, and `Domain.fromFirst` tells
the order of the rules.
-/

namespace RuleIndex

variable {α : Type}

/-! ## Trees that are alike -/

namespace Tree

/-- The trees are the same node by node, up to the order of the payloads of a leaf and of the
    branches of a set node. -/
inductive Alike : Tree α → Tree α → Prop where
  | empty : Alike .empty .empty
  | leaf {payloads payloads' : List α} (order : payloads.Perm payloads') :
      Alike (.leaf payloads) (.leaf payloads')
  | scalar {d : Nat} {split : Int} {left right equal any left' right' equal' any' : Tree α}
      (onLeft : Alike left left') (onRight : Alike right right') (onEqual : Alike equal equal')
      (onAny : Alike any any') :
      Alike (.scalar d split left right equal any) (.scalar d split left' right' equal' any')
  | sets {d : Nat} {branches branches' : List (SetKey × Tree α)} {any any' : Tree α}
      (distinct : (branches.map Prod.fst).Nodup)
      (order : (branches.map Prod.fst).Perm (branches'.map Prod.fst))
      (onBranch : ∀ key tree tree', (key, tree) ∈ branches → (key, tree') ∈ branches' →
        Alike tree tree')
      (onAny : Alike any any') :
      Alike (.sets d branches any) (.sets d branches' any')

theorem Alike.ofPayloads {payloads payloads' : List α} (h : payloads.Perm payloads') :
    Alike (ofPayloads payloads) (ofPayloads payloads') := by
  cases payloads with
  | nil =>
    obtain rfl := h.nil_eq
    exact .empty
  | cons p rest =>
    cases payloads' with
    | nil => exact absurd h.eq_nil (List.cons_ne_nil p rest)
    | cons p' rest' => exact .leaf h

/-- Every branch has a partner with the same set. -/
theorem exists_branch_of_perm {branches branches' : List (SetKey × Tree α)}
    (order : (branches.map Prod.fst).Perm (branches'.map Prod.fst)) {key : SetKey} {tree : Tree α}
    (h : (key, tree) ∈ branches) : ∃ tree', (key, tree') ∈ branches' := by
  have hkey : key ∈ branches'.map Prod.fst := order.mem_iff.1 (List.mem_map_of_mem h)
  obtain ⟨⟨_, tree'⟩, htree', rfl⟩ := List.mem_map.1 hkey
  exact ⟨tree', htree'⟩

theorem Alike.depth_eq {tree tree' : Tree α} (h : tree.Alike tree') : tree.depth = tree'.depth := by
  induction h with
  | empty => rfl
  | leaf => rfl
  | scalar _ _ _ _ ihLeft ihRight ihEqual ihAny =>
    simp only [depth, ihLeft, ihRight, ihEqual, ihAny]
  | @sets d branches branches' any any' distinct order _ _ ihBranch ihAny =>
    have hle : branchDepth branches ≤ branchDepth branches' := by
      refine branchDepth_le_iff.2 fun ⟨key, tree⟩ htree => ?_
      obtain ⟨tree', htree'⟩ := exists_branch_of_perm order htree
      rw [ihBranch key tree tree' htree htree']
      exact branchDepth_le_iff.1 le_rfl (key, tree') htree'
    have hge : branchDepth branches' ≤ branchDepth branches := by
      refine branchDepth_le_iff.2 fun ⟨key, tree'⟩ htree' => ?_
      obtain ⟨tree, htree⟩ := exists_branch_of_perm order.symm htree'
      rw [← ihBranch key tree tree' htree htree']
      exact branchDepth_le_iff.1 le_rfl (key, tree) htree
    simp only [depth, le_antisymm hle hge, ihAny]

/-- Trees that are alike are searched alike. -/
theorem Alike.mem_find_iff {tree tree' : Tree α} (h : tree.Alike tree') {space : Space}
    {query : CodedQuery} {p : α} : p ∈ tree.find space query ↔ p ∈ tree'.find space query := by
  induction h with
  | empty => rfl
  | leaf order => exact order.mem_iff
  | scalar _ _ _ _ ihLeft ihRight ihEqual ihAny =>
    simp only [find, List.mem_append, List.mem_ite_nil_right, ihLeft, ihRight, ihEqual, ihAny]
  | @sets d branches branches' any any' distinct order _ _ ihBranch ihAny =>
    simp only [find, List.mem_append, mem_findBranches_iff, ihAny]
    refine or_congr_right ⟨?_, ?_⟩
    · rintro ⟨⟨key, tree⟩, htree, hadmits, hp⟩
      obtain ⟨tree', htree'⟩ := exists_branch_of_perm order htree
      exact ⟨_, htree', hadmits, (ihBranch key tree tree' htree htree').1 hp⟩
    · rintro ⟨⟨key, tree'⟩, htree', hadmits, hp⟩
      obtain ⟨tree, htree⟩ := exists_branch_of_perm order.symm htree'
      exact ⟨_, htree, hadmits, (ihBranch key tree tree' htree htree').2 hp⟩

end Tree


/-! ## Splits of reordered entries -/

section Splits

variable {entries entries' : List (Entry α)}

theorem Entry.anySetOn_perm (h : entries.Perm entries') (d : Nat) :
    anySetOn entries d = anySetOn entries' d :=
  h.any_eq

theorem Entry.anyScalarOn_perm (h : entries.Perm entries') (d : Nat) :
    anyScalarOn entries d = anyScalarOn entries' d :=
  h.any_eq

theorem Entry.codesOn_perm (h : entries.Perm entries') (d : Nat) :
    codesOn entries d = codesOn entries' d :=
  Ascending.ofList_congr fun _ => (h.filterMap _).mem_iff

theorem Entry.keysOn_perm (h : entries.Perm entries') (d : Nat) :
    (keysOn entries d).Perm (keysOn entries' d) := by
  rw [List.perm_ext_iff_of_nodup (nodup_keysOn _ _) (nodup_keysOn _ _)]
  intro key
  simp only [mem_keysOn, h.mem_iff]

theorem Split.clash?_perm (h : entries.Perm entries') (free : List Nat) :
    clash? free entries = clash? free entries' := by
  simp only [clash?, Entry.anySetOn_perm h, Entry.anyScalarOn_perm h]

theorem Split.choose?_perm (h : entries.Perm entries') (free : List Nat) :
    choose? free entries = choose? free entries' := by
  have hscore : Entry.score entries = Entry.score entries' := by
    funext d
    simp only [Entry.score, Entry.anySetOn_perm h, Entry.codesOn_perm h]
  have hon : on? entries = on? entries' := by
    funext d
    simp only [on?, Entry.anySetOn_perm h, Entry.codesOn_perm h]
  rw [choose?, choose?, hscore, hon]

end Splits

/-- Reordered entries are taken apart by the same splits. -/
theorem Tree.grow_alike (space : Space) {free : List Nat} {entries entries' : List (Entry α)}
    (h : entries.Perm entries') :
    (grow space free entries).value.Alike (grow space free entries').value := by
  induction free, entries using growth_induct generalizing entries' with
  | leaf free entries hchoose =>
    have hchoose' := (Split.choose?_perm h free).symm.trans hchoose
    rw [value_grow_of_none hchoose, value_grow_of_none hchoose']
    exact .ofPayloads (h.map _)
  | scalar free entries d code hchoose ihLeft ihRight ihEqual ihAny =>
    have hchoose' := (Split.choose?_perm h free).symm.trans hchoose
    rw [value_grow_of_scalar hchoose, value_grow_of_scalar hchoose']
    exact .scalar (ihLeft (h.filter _)) (ihRight (h.filter _)) (ihEqual (h.filter _))
      (ihAny (h.filter _))
  | sets free entries d hchoose ihKey ihAny =>
    have hchoose' := (Split.choose?_perm h free).symm.trans hchoose
    rw [value_grow_of_sets hchoose, value_grow_of_sets hchoose']
    refine .sets ?_ ?_ ?_ (ihAny (h.filter _))
    · simpa [Function.comp_def] using Entry.nodup_keysOn entries d
    · simpa [Function.comp_def] using Entry.keysOn_perm h d
    · intro key tree tree' htree htree'
      obtain ⟨_, _, hbranch⟩ := List.mem_map.1 htree
      obtain ⟨_, _, hbranch'⟩ := List.mem_map.1 htree'
      obtain ⟨rfl, rfl⟩ := Prod.mk.inj hbranch
      obtain ⟨rfl, rfl⟩ := Prod.mk.inj hbranch'
      exact ihKey _ (h.filter _)


/-! ## Numberings that a caller may provide -/

/-- Integers numbered by their distance from `base`; sets of them have no place. -/
def Codec.distance (base : Int) : Codec where
  encode
    | .integer n => some (n.toInt - base)
    | _ => none
  capacity := 0
  render code := toString (base + code)

namespace Domain

/-- Integers numbered from the first one that the rules mention. -/
def fromFirst : Domain :=
  .provided fun values => .distance ((values.filterMap Value.integer?).headD 0)

/-- Integers numbered from the least one that the rules mention. -/
def fromLeast : Domain :=
  .provided fun values => .distance ((Ascending.ofList (values.filterMap Value.integer?)).headD 0)

theorem respects_fromLeast : fromLeast.Respects SameValues := by
  intro values values' h
  have hmem (m : Int) :
      m ∈ values.filterMap Value.integer? ↔ m ∈ values'.filterMap Value.integer? := by
    simp only [List.mem_filterMap, h _]
  exact congrArg (fun dictionary => Codec.distance (dictionary.headD 0))
    (Ascending.ofList_congr hmem)

end Domain


/-! ## Indexes of reordered rules -/

namespace Space

variable {dimensions : List Dimension} {rules rules' : List (Rule α)}

/-- A space is fitted to the values that the rules mention. -/
theorem fit_congr {related : List Value → List Value → Prop}
    (hsame : ∀ values values', related values values' → SameValues values values')
    (hrespects : ∀ dimension ∈ dimensions, dimension.domain.Respects related)
    (h : ∀ d, related (Rule.valuesAt rules d) (Rule.valuesAt rules' d)) :
    fit dimensions rules = fit dimensions rules' := by
  refine congrArg Space.mk (List.mapIdx_eq_mapIdx_iff.2 fun d hd => ?_)
  rw [Dimension.fit, Dimension.fit,
    Domain.codec_congr _ hsame (hrespects _ (List.getElem_mem hd)) (h d)]

theorem fit_perm (hrespects : ∀ dimension ∈ dimensions, dimension.domain.Respects List.Perm)
    (h : rules.Perm rules') : fit dimensions rules = fit dimensions rules' :=
  fit_congr (fun _ _ => .of_perm) hrespects fun _ => h.flatMap_right _

/-- Reordered rules have the same entries, reordered. -/
theorem entries_perm {space : Space} {entries : List (Entry α)} (h : rules.Perm rules')
    (hentries : space.entries rules = .ok entries) :
    ∃ entries', space.entries rules' = .ok entries' ∧ entries.Perm entries' := by
  simp only [Space.entries, bind_eq_ok_iff, pure_eq_ok_iff, mapM_eq_ok_iff] at hentries
  obtain ⟨lists, hlists, rfl⟩ := hentries
  obtain ⟨lists', hlists', hperm⟩ := List.perm_comp_forall₂ h.symm hlists
  refine ⟨lists'.flatten, ?_, hperm.symm.flatten⟩
  simp only [Space.entries, bind_eq_ok_iff, pure_eq_ok_iff, mapM_eq_ok_iff]
  exact ⟨lists', hlists', rfl⟩

end Space

namespace Index

variable {dimensions : List Dimension} {rules rules' : List (Rule α)}

/-- The indexes number values in the same way, and their trees are alike. -/
structure Alike (index index' : Index α) : Prop where
  space : index.space = index'.space
  root : index.root.Alike index'.root
  ruleCount : index.ruleCount = index'.ruleCount

/-- Indexes that are alike give the same answers, and refuse the same queries. -/
theorem Alike.find_eq [DecidableEq α] {index index' : Index α} (h : index.Alike index')
    (query : List QueryValue) :
    (index.find query).map List.toFinset = (index'.find query).map List.toFinset := by
  simp only [find, encode, h.space]
  cases index'.space.encode query with
  | error e => rfl
  | ok coded =>
    refine congrArg Except.ok (Finset.ext fun p => ?_)
    rw [List.mem_toFinset, List.mem_toFinset, findCoded, findCoded, List.mem_eraseDups,
      List.mem_eraseDups, h.root.mem_find_iff, h.space]

theorem exists_alike_of_perm
    (hrespects : ∀ dimension ∈ dimensions, dimension.domain.Respects List.Perm)
    (h : rules.Perm rules') {built : Logged (Index α)}
    (hbuilt : build dimensions rules = .ok built) :
    ∃ built', build dimensions rules' = .ok built' ∧ built.value.Alike built'.value := by
  obtain ⟨hsize, entries, hentries, hclash, rfl⟩ := build_eq_ok_iff.1 hbuilt
  have hspace : Space.fit dimensions rules = Space.fit dimensions rules' :=
    Space.fit_perm hrespects h
  rw [hspace] at hentries
  obtain ⟨entries', hentries', hperm⟩ := Space.entries_perm h hentries
  refine ⟨_, build_eq_ok_iff.2 ⟨fun rule hrule => hsize rule (h.mem_iff.2 hrule), entries',
    hentries', Split.clash?_perm hperm _ ▸ hclash, rfl⟩, ?_⟩
  rw [hspace, h.length_eq]
  exact ⟨rfl, Tree.grow_alike _ hperm, rfl⟩

/-- Rules can be indexed in all orders or in none, and the indexes are the same up to the order of
    set branches and of payloads in a leaf. They are equally deep, count the same rules and
    answer every query with the same payloads. A numbering that the caller provides is assumed not
    to depend on the order in which it is shown the values. -/
theorem build_alike_of_perm [DecidableEq α]
    (hrespects : ∀ dimension ∈ dimensions, dimension.domain.Respects List.Perm)
    (h : rules.Perm rules') :
    ((∃ built, build dimensions rules = .ok built) ↔
      ∃ built', build dimensions rules' = .ok built') ∧
    ∀ built built', build dimensions rules = .ok built → build dimensions rules' = .ok built' →
      built.value.Alike built'.value ∧
      built.value.maxDepth = built'.value.maxDepth ∧
      built.value.ruleCount = built'.value.ruleCount ∧
      ∀ query, (built.value.find query).map List.toFinset =
        (built'.value.find query).map List.toFinset := by
  constructor
  · constructor
    · rintro ⟨built, hbuilt⟩
      obtain ⟨built', hbuilt', _⟩ := exists_alike_of_perm hrespects h hbuilt
      exact ⟨built', hbuilt'⟩
    · rintro ⟨built', hbuilt'⟩
      obtain ⟨built, hbuilt, _⟩ := exists_alike_of_perm hrespects h.symm hbuilt'
      exact ⟨built, hbuilt⟩
  · intro built built' hbuilt hbuilt'
    obtain ⟨other, hother, halike⟩ := exists_alike_of_perm hrespects h hbuilt
    obtain rfl : other = built' := Except.ok.inj (hother.symm.trans hbuilt')
    exact ⟨halike, halike.root.depth_eq, halike.ruleCount, halike.find_eq⟩

/-- Backwards, the set of `second` comes first, and `third` stands before `first` in their leaf. The
    times are numbered from the least one on, in any order. -/
theorem build_alike_sample :
    let dimensions : List Dimension :=
      [⟨"color", .ordered, .text⟩, ⟨"tag", .ordered, .text⟩, ⟨"time", .ordered, .fromLeast⟩]
    let rules : List (Rule String) :=
      [⟨[.any, .set [.text "x"] true, .value (.integer 9)], "first"⟩,
        ⟨[.many [.text "red", .text "blue"], .set [.text "y"] true, .value (.integer 5)], "second"⟩,
        ⟨[.any, .set [.text "x"] true, .value (.integer 9)], "third"⟩]
    (∀ dimension ∈ dimensions, dimension.domain.Respects List.Perm) ∧ rules.Perm rules.reverse ∧
    ∃ built built', build dimensions rules = .ok built ∧
      build dimensions rules.reverse = .ok built' ∧ built.value.Alike built'.value ∧
      (built.value.find [.wildcard, .wildcard, .wildcard]).map List.toFinset =
        (built'.value.find [.wildcard, .wildcard, .wildcard]).map List.toFinset := by
  intro dimensions rules
  have hrespects : ∀ dimension ∈ dimensions, dimension.domain.Respects List.Perm := by
    have hleast : Domain.fromLeast.Respects List.Perm :=
      Domain.respects_fromLeast.mono fun _ _ => .of_perm
    simpa [dimensions, Domain.Respects] using hleast
  have horder : rules.Perm rules.reverse := rules.reverse_perm.symm
  obtain ⟨hbuilds, halike⟩ := build_alike_of_perm hrespects horder
  obtain ⟨built, h⟩ : ∃ built, build dimensions rules = .ok built :=
    exists_eq_ok_iff.2 (by decide +kernel)
  obtain ⟨built', h'⟩ := hbuilds.1 ⟨built, h⟩
  obtain ⟨hroot, _, _, hfind⟩ := halike built built' h h'
  exact ⟨hrespects, horder, built, built', h, h', hroot, hfind _⟩

/-- What is assumed of a provided numbering is needed: numbered from the first one on, two times are
    split at another code when they are mentioned the other way round. -/
example :
    let dimensions : List Dimension := [⟨"time", .ordered, .fromFirst⟩]
    let rules : List (Rule String) :=
      [⟨[.value (.integer 5)], "early"⟩, ⟨[.value (.integer 9)], "late"⟩]
    (build dimensions rules).map (·.value.root) =
      .ok (.scalar 0 4 (.scalar 0 0 .empty .empty (.leaf ["early"]) .empty) .empty
        (.leaf ["late"]) .empty) ∧
    (build dimensions rules.reverse).map (·.value.root) =
      .ok (.scalar 0 0 (.scalar 0 (-4) .empty .empty (.leaf ["early"]) .empty) .empty
        (.leaf ["late"]) .empty) := by
  cbv
  exact ⟨rfl, rfl⟩

end Index
end RuleIndex
