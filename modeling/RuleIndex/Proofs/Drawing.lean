-- SUMMARY: Drawing: a tree is drawn with one line per node, from which its shape, its depth and its payloads are read back.
import RuleIndex.Proofs.Addresses
import RuleIndex.Proofs.Depth
import RuleIndex.Proofs.Logging

/-!
# Drawing

A node is drawn under the label of the way to it. `Tree.Part` is a node with its label, and the
address of a part counts only the children that are there. The outline of a part has the outlines
of its children below it (`Tree.Part.children_sketch`), so what is known of the lines of an outline
holds of the lines of a tree, told by its own children (`Tree.Part.line`).

`Index.render_draws` collects what the drawing of a built tree shows. The sample is drawn as

```
└── root:kdn|d:color/0,sv:red
    ├── l:kdn|d:color/0,sv:blue
    │   └── eq:kdn|d:size/1,sv:2
    │       └── eq:dn|[large]
    ├── eq:kdn|d:size/1,sv:2
    │   ├── l:kdn|d:size/1,sv:1
    │   │   └── eq:dn|[small]
    │   └── eq:dn|[large]
    └── a:kdn|d:tags/2,sv:ANY
        ├── a:kdn|d:region/3,sv:EU
        │   └── eq:dn|[abroad]
        └── in:[x,y]:dn|[tagged]
```
-/

namespace RuleIndex

open Address

variable {α : Type}

/-! ## Texts without line breaks -/

section Breaks

theorem not_mem_intercalate {items : List String} (h : ∀ item ∈ items, '\n' ∉ item.toList) :
    '\n' ∉ (String.intercalate "," items).toList := by
  induction items with
  | nil => simp
  | cons first rest ih =>
    obtain ⟨hfirst, hrest⟩ := List.forall_mem_cons.1 h
    have hlist := ih hrest
    cases rest with
    | nil => simpa using hfirst
    | cons second rest =>
      simp only [String.intercalate_cons_cons, String.toList_append, List.mem_append, not_or]
      exact ⟨⟨hfirst, by simp⟩, hlist⟩

theorem not_mem_toDigits (n : Nat) : '\n' ∉ Nat.toDigits 10 n := by
  intro h
  have hdigit := Nat.isDigit_of_mem_toDigits (by decide) (by decide) h
  exact absurd hdigit (by decide)

end Breaks


/-! ## Parts -/

namespace Tree

/-- A tree and the label of the way to it. -/
structure Part (α : Type) where
  label : String
  tree : Tree α

/-- What a node writes of itself: a leaf its payloads, and any other node the name and the place of
    its dimension and a code. -/
def ownText [ToString α] (space : Space) : Tree α → String
  | .empty => ""
  | .leaf payloads => "dn|[" ++ String.intercalate "," (payloads.map toString) ++ "]"
  | .scalar d split .. =>
    "kdn|d:" ++ space.name d ++ "/" ++ toString d ++ ",sv:" ++ space.render d split
  | .sets d .. =>
    "kdn|d:" ++ space.name d ++ "/" ++ toString d ++ ",sv:" ++ space.render d anyCode

/-- The names, codes and payloads that a node writes of itself and in the labels of its children. -/
def ownTexts [ToString α] (space : Space) : Tree α → List String
  | .empty => []
  | .leaf payloads => payloads.map toString
  | .scalar d split .. => [space.name d, space.render d split]
  | .sets d branches _ =>
    space.name d :: space.render d anyCode ::
      branches.flatMap fun (key, _) => key.codes.map (space.render d)

/-- No name, code or payload that is written has a line break. -/
def Unbroken [ToString α] (space : Space) (tree : Tree α) : Prop :=
  ∀ node ∈ tree.nodes, ∀ text ∈ node.ownTexts space, '\n' ∉ text.toList

instance [ToString α] (space : Space) (tree : Tree α) : Decidable (tree.Unbroken space) :=
  inferInstanceAs (Decidable (∀ node ∈ tree.nodes, ∀ text ∈ node.ownTexts space, _))

/-- The places below a node with their labels, absent children included: left, right, equal, any,
    and then set by set. -/
def parts (space : Space) : Tree α → List (Part α)
  | .empty | .leaf _ => []
  | .scalar _ _ left right equal any => [⟨"l", left⟩, ⟨"r", right⟩, ⟨"eq", equal⟩, ⟨"a", any⟩]
  | .sets d branches any =>
    ⟨"a", any⟩ :: branches.map fun (key, subtree) =>
      ⟨(if key.inclusive then "in:[" else "not in:[") ++
        String.intercalate "," (key.codes.map (space.render d)) ++ "]", subtree⟩

namespace Part

/-- The part that is a whole tree. -/
def root (tree : Tree α) : Part α :=
  ⟨"root", tree⟩

/-- The children that are there. -/
def children (space : Space) (part : Part α) : List (Part α) :=
  (part.tree.parts space).filter fun child => !child.tree.isEmpty

def text [ToString α] (space : Space) (part : Part α) : String :=
  part.label ++ ":" ++ part.tree.ownText space

/-- The line of the part at an address: one group for each part above it, a bar if that one has
    siblings still to come, then the connector, and then the text. -/
def line [ToString α] (space : Space) (root : Part α) (address : List Nat) : String :=
  let followed := followed (children space) false root
  let groups := (List.range address.length).map fun j =>
    if followed (address.take j) then "│   " else "    "
  String.join groups ++ (if followed address then "├── " else "└── ") ++
    (descend? (children space) root address).elim "" (text space)

end Part


/-! ## The outline of a part -/

namespace Part

section Children

variable {β : Type} {space : Space} {part child : Part α}

theorem mem_children_iff : child ∈ part.children space ↔
    child ∈ part.tree.parts space ∧ child.tree.isEmpty = false := by
  simp [children]

/-- Absent children do not show in what is empty for them. -/
theorem flatMap_children (f : Part α → List β) (h : ∀ label, f ⟨label, .empty⟩ = [])
    (part : Part α) : (part.children space).flatMap f = (part.tree.parts space).flatMap f := by
  rw [children]
  induction part.tree.parts space with
  | nil => rfl
  | cons first rest ih =>
    obtain ⟨label, tree⟩ := first
    rw [List.filter_cons, List.flatMap_cons, ← ih]
    cases tree with
    | empty => rw [h]; rfl
    | _ => rfl

end Children

variable [ToString α] (space : Space)

/-- The outline of a part, be it there or not. -/
def sketch (part : Part α) : Outline :=
  (part.tree.outlines space part.label).headD (.node (part.label ++ ":") [])

theorem outlines_eq_singleton {part : Part α} (h : part.tree.isEmpty = false) :
    part.tree.outlines space part.label = [part.sketch space] := by
  obtain ⟨label, tree⟩ := part
  cases tree with
  | empty => cases h
  | _ => rfl

theorem label_eq (d : Nat) (key : SetKey) : key.label space d =
    (if key.inclusive then "in:[" else "not in:[") ++
      String.intercalate "," (key.codes.map (space.render d)) ++ "]" := by
  rw [SetKey.label, bracketed, commaList, ← String.append_assoc, ← String.append_assoc]
  cases key.inclusive <;> rfl

theorem branchOutlines_eq (d : Nat) (branches : List (SetKey × Tree α)) :
    branchOutlines space d branches = branches.flatMap fun (key, subtree) =>
      subtree.outlines space (key.label space d) := by
  induction branches with
  | nil => rfl
  | cons branch rest ih => rw [branchOutlines, ih, List.flatMap_cons]

/-- The outline of a part has the outlines of its children below it. -/
theorem children_sketch (part : Part α) :
    (part.sketch space).children = (part.children space).map (sketch space) := by
  -- The outlines of absent children are empty lists, and so need not be left out.
  have hpresent : (part.children space).map (sketch space) =
      (part.children space).flatMap fun child => child.tree.outlines space child.label := by
    rw [List.map_eq_flatMap]
    apply List.flatMap_congr
    intro child hchild
    exact (outlines_eq_singleton space (mem_children_iff.1 hchild).2).symm
  rw [hpresent, flatMap_children _ fun _ => rfl]
  obtain ⟨label, tree⟩ := part
  cases tree with
  | empty => rfl
  | leaf payloads => rfl
  | scalar d split left right equal any => simp [sketch, outlines, Outline.children, parts]
  | sets d branches any =>
    simp [sketch, outlines, Outline.children, parts, branchOutlines_eq, label_eq, List.flatMap_map]

theorem text_sketch (part : Part α) : (part.sketch space).text = part.text space := by
  obtain ⟨label, tree⟩ := part
  cases tree with
  | empty =>
    rw [text, ownText, String.append_empty]
    rfl
  | leaf payloads =>
    have hleaf (items : List String) :
        ":dn|" ++ bracketed items = ":" ++ ("dn|[" ++ String.intercalate "," items ++ "]") := by
      simp only [bracketed, commaList, ← String.append_assoc]
      rfl
    change label ++ ":dn|" ++ bracketed _ = label ++ ":" ++ _
    rw [String.append_assoc, hleaf, ← String.append_assoc]
    rfl
  | scalar d split left right equal any => rfl
  | sets d branches any => rfl

/-- The lines of a part are those of its outline. -/
theorem render_lineAt_sketch (root : Part α) (address : List Nat) :
    ((root.sketch space).lineAt [] false address).render = root.line space address := by
  have hfollowed := followed_map (children_sketch (α := α) space) false root
  have hdescend := descend?_map (children_sketch (α := α) space) root address
  simp only [Outline.lineAt, Outline.Line.render, line, hfollowed, hdescend, List.nil_append,
    List.map_map, Function.comp_def, Option.elim_map, text_sketch]
  cases followed (children space) false root address <;> rfl

end Part


/-! ## Ways down a tree -/

/-- The parts below a node are its children. -/
theorem exists_mem_parts_iff {space : Space} {tree child : Tree α} :
    (∃ label, ⟨label, child⟩ ∈ tree.parts space) ↔ ∃ turn, (turn, child) ∈ tree.children := by
  cases tree with
  | empty => simp [parts, children]
  | leaf payloads => simp [parts, children]
  | scalar d split left right equal any => simp [parts, mem_children_scalar_iff, exists_or]
  | sets d branches any => simp [parts, mem_children_sets_iff, exists_or, or_comm]

theorem isEmpty_of_mem_children {tree child : Tree α} {turn : Turn}
    (h : (turn, child) ∈ tree.children) : tree.isEmpty = false := by
  cases tree with
  | empty => cases h
  | _ => rfl

section Descent

variable {space : Space} {part child found : Part α} {address : List Nat}

/-- A child has fewer levels than its parent. -/
theorem Part.depth_lt_of_mem_children (h : child ∈ part.children space) :
    child.tree.depth < part.tree.depth := by
  obtain ⟨turn, hturn⟩ := exists_mem_parts_iff.1 ⟨child.label, (mem_children_iff.1 h).1⟩
  exact Tree.depth_lt_of_mem_children hturn

/-- No address is as long as the tree is deep. -/
theorem Part.length_add_depth_le (h : descend? (children space) part address = some found) :
    address.length + found.tree.depth ≤ part.tree.depth := by
  induction address generalizing part with
  | nil =>
    obtain rfl := Option.some.inj h
    exact Nat.le_of_eq (Nat.zero_add _)
  | cons i rest ih =>
    obtain ⟨child, hchild, hrest⟩ := Option.bind_eq_some_iff.1 h
    have hlt := depth_lt_of_mem_children (List.mem_of_getElem? hchild)
    have hle := ih hrest
    rw [List.length_cons]
    omega

theorem Part.isEmpty_of_descend? (hpart : part.tree.isEmpty = false)
    (h : descend? (children space) part address = some found) : found.tree.isEmpty = false :=
  descend?_invariant (fun _ _ _ hchild => (mem_children_iff.1 hchild).2) hpart h

/-- A walk to a node that is there has an address of its length. -/
theorem Walk.exists_address {tree node : Tree α} {path : List Turn} (h : tree.Walk path node)
    (space : Space) (hnode : node.isEmpty = false) (label : String) :
    ∃ address found, descend? (Part.children space) ⟨label, tree⟩ address = some found ∧
      address.length = path.length := by
  induction h generalizing label with
  | nil => exact ⟨[], _, rfl, rfl⟩
  | @cons tree child node turn path here rest ih =>
    -- A node is there if the walk ends at it or goes on from it.
    have hchild : child.isEmpty = false := by
      cases rest with
      | nil => exact hnode
      | cons next _ => exact isEmpty_of_mem_children next
    obtain ⟨own, hown⟩ := exists_mem_parts_iff.2 ⟨turn, here⟩
    have hmem : ⟨own, child⟩ ∈ Part.children space ⟨label, tree⟩ :=
      Part.mem_children_iff.2 ⟨hown, hchild⟩
    obtain ⟨i, hi⟩ := List.mem_iff_getElem?.1 hmem
    obtain ⟨address, found, hfound, hlength⟩ := ih hnode own
    exact ⟨i :: address, found, (descend?_cons hi address).trans hfound, congrArg _ hlength⟩

end Descent


/-! ## All parts of a tree -/

theorem flatMap_nodes_parts (space : Space) {tree : Tree α} (h : tree.isEmpty = false) :
    (tree :: (tree.parts space).flatMap fun part => part.tree.nodes).Perm tree.nodes := by
  cases tree with
  | empty => cases h
  | leaf payloads => exact .refl _
  | scalar d split left right equal any => simp [parts, nodes]
  | sets d branches any =>
    simpa [parts, nodes, nodesOfBranches_eq, List.flatMap_map] using List.perm_append_comm

/-- The nodes of a child are nodes of its parent. -/
theorem Part.nodes_subset_of_mem_children {space : Space} {part child : Part α}
    (h : child ∈ part.children space) : child.tree.nodes ⊆ part.tree.nodes := by
  have hmem := (mem_children_iff.1 h).1
  obtain ⟨_, hturn⟩ := exists_mem_parts_iff.1 ⟨child.label, hmem⟩
  have hnodes := (flatMap_nodes_parts space (isEmpty_of_mem_children hturn)).subset
  exact fun _ hnode => hnodes (List.mem_cons_of_mem _ (List.mem_flatMap.2 ⟨child, hmem, hnode⟩))

namespace Part

variable [ToString α] {space : Space} {part : Part α}

/-- The parts of a tree in the order of their lines. -/
def all (space : Space) (part : Part α) : List (Part α) :=
  (part.sketch space).addresses.filterMap (descend? (children space) part)

theorem all_eq (part : Part α) :
    part.all space = part :: (part.children space).flatMap (all space) := by
  have hbelow : (Outline.addressesFrom 0 ((part.children space).map (sketch space))).filterMap
      (descend? (children space) part) = (part.children space).flatMap (all space) :=
    Outline.filterMap_addressesFrom (sketch space) [] (part.children space) rfl
  have hself : descend? (children space) part [] = some part := rfl
  rw [all, Outline.addresses_eq, children_sketch, List.filterMap_cons_some hself, hbelow]

/-- Every node is one of the parts, and no part is listed twice. -/
theorem nodes_perm (h : part.tree.isEmpty = false) :
    ((part.all space).map Part.tree).Perm part.tree.nodes := by
  -- On the depth: the children of a part are filtered, and no subterms of it.
  induction hdepth : part.tree.depth using Nat.strong_induction_on generalizing part with
  | _ n ih =>
    subst hdepth
    have hbelow : ((part.children space).flatMap fun child => (child.all space).map Part.tree).Perm
        ((part.children space).flatMap fun child => child.tree.nodes) :=
      List.Perm.flatMap_left _ fun child hchild =>
        ih _ (depth_lt_of_mem_children hchild) (mem_children_iff.1 hchild).2 rfl
    rw [flatMap_children (fun child => child.tree.nodes) fun _ => rfl] at hbelow
    rw [all_eq, List.map_cons, List.map_flatMap]
    exact (hbelow.cons _).trans (flatMap_nodes_parts space h)

end Part


/-! ## Lines without breaks -/

section Unbroken

variable [ToString α] {space : Space} {tree : Tree α}

/-- The texts of the root are among those of the tree. -/
theorem Unbroken.own (h : tree.Unbroken space) :
    ∀ text ∈ tree.ownTexts space, '\n' ∉ text.toList := by
  cases tree with
  | empty => exact List.forall_mem_nil _
  | _ => exact h _ List.mem_cons_self

theorem not_mem_splitText {d : Nat} {code : Int} (hname : '\n' ∉ (space.name d).toList)
    (hcode : '\n' ∉ (space.render d code).toList) :
    '\n' ∉ (splitText space d code).toList := by
  have hd := not_mem_toDigits d
  simp [splitText, hname, hcode, hd]

theorem not_mem_ownText (h : ∀ text ∈ tree.ownTexts space, '\n' ∉ text.toList) :
    '\n' ∉ (tree.ownText space).toList := by
  cases tree with
  | empty => simp [ownText]
  | leaf payloads =>
    simp only [ownText, String.toList_append, List.mem_append, not_or]
    exact ⟨⟨by simp, not_mem_intercalate h⟩, by simp⟩
  | scalar d split left right equal any =>
    exact not_mem_splitText (h _ (by simp [ownTexts])) (h _ (by simp [ownTexts]))
  | sets d branches any =>
    exact not_mem_splitText (h _ (by simp [ownTexts])) (h _ (by simp [ownTexts]))

theorem not_mem_label (h : ∀ text ∈ tree.ownTexts space, '\n' ∉ text.toList) {part : Part α}
    (hpart : part ∈ tree.parts space) : '\n' ∉ part.label.toList := by
  cases tree with
  | empty => cases hpart
  | leaf payloads => cases hpart
  | scalar d split left right equal any =>
    simp only [parts, List.mem_cons, List.not_mem_nil, or_false] at hpart
    rcases hpart with rfl | rfl | rfl | rfl <;> simp
  | sets d branches any =>
    simp only [parts, List.mem_cons, List.mem_map] at hpart
    rcases hpart with rfl | ⟨⟨key, subtree⟩, hbranch, rfl⟩
    · simp
    · have hcodes : '\n' ∉ (String.intercalate "," (key.codes.map (space.render d))).toList := by
        refine not_mem_intercalate fun text htext => h text ?_
        simp only [ownTexts, List.mem_cons, List.mem_flatMap]
        exact .inr (.inr ⟨_, hbranch, htext⟩)
      have hinclusive : '\n' ∉ (if key.inclusive then "in:[" else "not in:[").toList := by
        cases key.inclusive <;> simp
      simp only [String.toList_append, List.mem_append, not_or]
      exact ⟨⟨hinclusive, hcodes⟩, by simp⟩

/-- Neither the label of a part nor a text in it has a line break. -/
structure Part.Unbroken (space : Space) (part : Part α) : Prop where
  label : '\n' ∉ part.label.toList
  tree : part.tree.Unbroken space

theorem Part.Unbroken.child {part child : Part α} (h : part.Unbroken space)
    (hchild : child ∈ part.children space) : child.Unbroken space where
  label := not_mem_label h.tree.own (mem_children_iff.1 hchild).1
  tree node hnode := h.tree node (nodes_subset_of_mem_children hchild hnode)

theorem Part.Unbroken.not_mem_text {part : Part α} (h : part.Unbroken space) :
    '\n' ∉ (part.text space).toList := by
  have htext := not_mem_ownText h.tree.own
  simp [text, h.label, htext]

end Unbroken


/-! ## Drawn trees -/

/-- The text is a drawing of the tree: it has one line for each of these addresses. -/
structure DrawnBy [ToString α] (space : Space) (tree : Tree α) (text : String)
    (addresses : List (List Nat)) : Prop where
  /-- Parents come before children, and children in their order. -/
  preorder : addresses.Pairwise (· < ·)
  /-- There is a line wherever there is a part. -/
  mem_iff : ∀ address, address ∈ addresses ↔
    (descend? (Part.children space) (.root tree) address).isSome = true
  /-- The parts are the nodes of the tree. -/
  nodes : ((addresses.filterMap (descend? (Part.children space) (.root tree))).map Part.tree).Perm
    tree.nodes
  /-- Every line is ended. -/
  lines : text.toList.splitOn '\n' =
    addresses.map (fun address => ((Part.root tree).line space address).toList) ++ [[]]
  /-- The line of a leaf ends with its payloads. -/
  leafLine : ∀ address label payloads,
    descend? (Part.children space) (.root tree) address = some ⟨label, .leaf payloads⟩ →
      ∃ before, (Part.root tree).line space address =
        before ++ (label ++ ":dn|[" ++ String.intercalate "," (payloads.map toString) ++ "]")

section Drawing

variable [ToString α] {space : Space} {tree : Tree α}

theorem indentation_line (root : Part α) (address : List Nat) :
    Outline.indentation (root.line space address).toList = address.length := by
  rw [← Part.render_lineAt_sketch, Outline.Line.indentation_render]
  simp [Outline.lineAt]

theorem mem_addresses_sketch_iff {root : Part α} {address : List Nat} :
    address ∈ (root.sketch space).addresses ↔
      (descend? (Part.children space) root address).isSome = true := by
  rw [Outline.mem_addresses_iff, descend?_map (Part.children_sketch space), Option.isSome_map]

/-- The lines of an unbroken tree are read back from its drawing. -/
theorem Unbroken.splitOn_render (h : tree.Unbroken space) :
    (tree.outline space).render.toList.splitOn '\n' =
      ((Part.root tree).sketch space).addresses.map
        (fun address => ((Part.root tree).line space address).toList) ++ [[]] := by
  have hroot : tree.outline space = (Part.root tree).sketch space := rfl
  have hlines : ((Part.root tree).sketch space).lines [] true =
      ((Part.root tree).sketch space).addresses.map
        (((Part.root tree).sketch space).lineAt [] false) := Outline.lines_eq _ [] false
  have hunbroken : ∀ line ∈ ((Part.root tree).sketch space).lines [] true,
      '\n' ∉ line.text.toList := by
    rw [hlines, List.forall_mem_map]
    intro address haddress
    obtain ⟨found, hfound⟩ := Option.isSome_iff_exists.1 (mem_addresses_sketch_iff.1 haddress)
    have hroot : (Part.root tree).Unbroken space := ⟨by simp [Part.root], h⟩
    have htext := (descend?_invariant (fun _ hpart _ => hpart.child) hroot hfound).not_mem_text
    simpa [Outline.lineAt, descend?_map (Part.children_sketch space), hfound, Part.text_sketch]
      using htext
  rw [hroot, Outline.splitOn_render hunbroken, hlines, List.map_map]
  simp only [Function.comp_def, Part.render_lineAt_sketch]

theorem max?_indentation (space : Space)
    (hwell : ∀ path node, tree.Walk path node → node.WellFormed) (hempty : tree.isEmpty = false) :
    (((Part.root tree).sketch space).addresses.map fun address =>
      Outline.indentation ((Part.root tree).line space address).toList + 1).max? =
        some tree.depth := by
  simp only [indentation_line, List.max?_eq_some_iff, List.forall_mem_map]
  constructor
  · obtain ⟨path, payloads, hwalk, hlength⟩ := exists_longest_walk hwell hempty
    obtain ⟨address, found, hfound, haddress⟩ := hwalk.exists_address space rfl "root"
    refine List.mem_map.2 ⟨address, ?_, by rw [haddress, hlength]⟩
    exact mem_addresses_sketch_iff.2 (Option.isSome_iff_exists.2 ⟨found, hfound⟩)
  · intro address haddress
    obtain ⟨found, hfound⟩ := Option.isSome_iff_exists.1 (mem_addresses_sketch_iff.1 haddress)
    have hle : address.length + found.tree.depth ≤ tree.depth := Part.length_add_depth_le hfound
    have hroot : (Part.root tree).tree.isEmpty = false := hempty
    have hpresent := Part.isEmpty_of_descend? hroot hfound
    rw [Bool.eq_false_iff, ne_eq, ← depth_eq_zero_iff] at hpresent
    omega

theorem exists_line_leaf {address : List Nat} {label : String} {payloads : List α}
    (h : descend? (Part.children space) (.root tree) address = some ⟨label, .leaf payloads⟩) :
    ∃ before, (Part.root tree).line space address =
      before ++ (label ++ ":dn|[" ++ String.intercalate "," (payloads.map toString) ++ "]") := by
  rw [Part.line, h]
  refine ⟨_, congrArg _ ?_⟩
  rw [Option.elim_some, Part.text, ownText, ← String.append_assoc, ← String.append_assoc,
    @String.append_assoc label ":"]
  rfl

/-- A tree whose texts have no breaks is drawn. -/
theorem Unbroken.render_drawnBy (h : tree.Unbroken space) (hempty : tree.isEmpty = false) :
    tree.DrawnBy space (tree.outline space).render ((Part.root tree).sketch space).addresses where
  preorder := Outline.pairwise_addresses _
  mem_iff _ := mem_addresses_sketch_iff
  nodes := Part.nodes_perm hempty
  lines := h.splitOn_render
  leafLine _ _ _ := exists_line_leaf

end Drawing
end Tree


/-! ## The drawing of an index -/

/-- The drawing at the head of this file. -/
def Sample.drawing : String :=
  String.join [
    "└── root:kdn|d:color/0,sv:red\n",
    "    ├── l:kdn|d:color/0,sv:blue\n",
    "    │   └── eq:kdn|d:size/1,sv:2\n",
    "    │       └── eq:dn|[large]\n",
    "    ├── eq:kdn|d:size/1,sv:2\n",
    "    │   ├── l:kdn|d:size/1,sv:1\n",
    "    │   │   └── eq:dn|[small]\n",
    "    │   └── eq:dn|[large]\n",
    "    └── a:kdn|d:tags/2,sv:ANY\n",
    "        ├── a:kdn|d:region/3,sv:EU\n",
    "        │   └── eq:dn|[abroad]\n",
    "        └── in:[x,y]:dn|[tagged]\n"]

namespace Index

variable {dimensions : List Dimension} {rules : List (Rule α)}

/-- A built index that is not empty, and whose texts have no line breaks, is drawn with one line per
    node, with names and codes as the dimensions write them. The lines that are furthest in stand at
    the depth that the loop over the tree finds, and the leaf lines tell the payload of every entry
    once. -/
theorem render_draws [ToString α] {built : Logged (Index α)}
    (h : build dimensions rules = .ok built) (hempty : built.value.isEmpty = false)
    (hunbroken : built.value.root.Unbroken built.value.space) :
    ∃ entries addresses, (Space.fit dimensions rules).entries rules = .ok entries ∧
      built.value.root.DrawnBy built.value.space built.value.render addresses ∧
      (addresses.map fun address => Outline.indentation
        ((Tree.Part.root built.value.root).line built.value.space address).toList + 1).max? =
          some built.value.maxDepth ∧
      built.value.maxDepth = Tree.deepest 0 [(built.value.root, 1)] ∧
      ((addresses.filterMap
          (descend? (Tree.Part.children built.value.space) (.root built.value.root))).flatMap
        fun part => part.tree.ownPayloads).Perm (entries.map Entry.payload) ∧
      ∀ (d : Nat) (hd : d < dimensions.length), built.value.space.name d = dimensions[d].name ∧
        ∀ code, built.value.space.render d code =
          (dimensions[d].domain.codec (Rule.valuesAt rules d)).render code := by
  obtain ⟨entries, hrep⟩ := exists_represents h
  have hsearch : built.value.root.SearchTree :=
    hrep.grown.searchTree List.nodup_range fun entry hentry =>
      Space.proper_of_mem_entries hrep.coded hentry
  have hdrawn := hunbroken.render_drawnBy hempty
  have hdepth := Tree.max?_indentation built.value.space hsearch.wellFormed hempty
  refine ⟨entries, _, hrep.coded, hdrawn, hdepth, (Tree.deepest_eq_depth _).symm, ?_, ?_⟩
  · have hpayloads := hdrawn.nodes.flatMap_right Tree.ownPayloads
    rw [List.flatMap_map] at hpayloads
    exact hpayloads.trans hrep.grown.payloads_perm
  · intro d hd
    rw [hrep.space]
    exact ⟨Space.name_fit hd, Space.render_fit hd⟩

set_option maxRecDepth 4000 in
/-- The sample is drawn with four levels. -/
theorem render_draws_sample : ∃ built addresses,
    build Sample.dimensions Sample.rules = .ok built ∧ built.value.isEmpty = false ∧
    built.value.root.Unbroken built.value.space ∧
    built.value.root.DrawnBy built.value.space built.value.render addresses ∧
    (addresses.map fun address => Outline.indentation
      ((Tree.Part.root built.value.root).line built.value.space address).toList + 1).max? =
        some 4 ∧
    built.value.render = Sample.drawing := by
  obtain ⟨built, h⟩ := Sample.exists_build
  have hfacts : (build Sample.dimensions Sample.rules).toOption.map (fun built =>
      (built.value.isEmpty, decide (built.value.root.Unbroken built.value.space),
        built.value.maxDepth, built.value.render)) =
      some (false, true, 4, Sample.drawing) := by cbv
  rw [h] at hfacts
  have hvalues := Option.some.inj hfacts
  simp only [Prod.mk.injEq, decide_eq_true_eq] at hvalues
  obtain ⟨hempty, htexts, hdepth, hdrawing⟩ := hvalues
  obtain ⟨_, addresses, _, hdrawn, hdeepest, _⟩ := render_draws h hempty htexts
  exact ⟨built, addresses, h, hempty, htexts, hdrawn, hdepth ▸ hdeepest, hdrawing⟩

end Index
end RuleIndex
