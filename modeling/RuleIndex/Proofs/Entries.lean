-- SUMMARY: Entries of rules: which entries a list of rules has, told dimension by dimension.
import RuleIndex.Entry
import RuleIndex.Proofs.Traversal

/-!
# Entries of rules

A rule stands for all combinations of its alternatives, and what is asked of an entry is
asked of its cells one by one. So a rule has an entry with a property of cells exactly if
on every dimension one of its alternatives has it (`Space.exists_entry_iff`). In particular
every rule has an entry, since every constraint has an alternative.
-/

namespace RuleIndex

/-! ## Choices -/

section Choices

variable {β : Type} {lists : List (List β)}

theorem length_of_mem_choices {l : List β} (h : l ∈ choices lists) : l.length = lists.length := by
  induction lists generalizing l with
  | nil => simpa [choices] using h
  | cons options rest ih =>
    simp only [choices, List.mem_flatMap, List.mem_map] at h
    obtain ⟨x, _, tail, htail, rfl⟩ := h
    simp [ih htail]

/-- Every element of a choice was among the alternatives. -/
theorem exists_mem_of_mem_choices {l : List β} (h : l ∈ choices lists) {x : β} (hx : x ∈ l) :
    ∃ options ∈ lists, x ∈ options := by
  induction lists generalizing l with
  | nil =>
    obtain rfl : l = [] := by simpa [choices] using h
    cases hx
  | cons options rest ih =>
    simp only [choices, List.mem_flatMap, List.mem_map] at h
    obtain ⟨y, hy, tail, htail, rfl⟩ := h
    rcases List.mem_cons.1 hx with rfl | hx
    · exact ⟨options, List.mem_cons_self, hy⟩
    · obtain ⟨own, hown, hmem⟩ := ih htail hx
      exact ⟨own, List.mem_cons_of_mem _ hown, hmem⟩

/-- A choice is free at every place: what is asked place by place can be met by one choice
    if every list has an element that meets it. -/
theorem exists_mem_choices_iff {P : Nat → β → Prop} :
    (∃ l ∈ choices lists, ∀ i x, l[i]? = some x → P i x) ↔
      ∀ i options, lists[i]? = some options → ∃ x ∈ options, P i x := by
  induction lists generalizing P with
  | nil => simp [choices]
  | cons options rest ih =>
    simp only [choices, List.mem_flatMap, List.mem_map]
    constructor
    · rintro ⟨_, ⟨x, hx, tail, htail, rfl⟩, hall⟩ i options' hi
      cases i with
      | zero =>
        obtain rfl : options = options' := by simpa using hi
        exact ⟨x, hx, hall 0 x rfl⟩
      | succ i =>
        exact (ih (P := fun i => P (i + 1))).1 ⟨tail, htail, fun i y hy => hall (i + 1) y hy⟩ i
          options' hi
    · intro h
      obtain ⟨x, hx, hPx⟩ := h 0 options rfl
      obtain ⟨tail, htail, hall⟩ :=
        (ih (P := fun i => P (i + 1))).2 fun i options' hi => h (i + 1) options' hi
      refine ⟨x :: tail, ⟨x, hx, tail, htail, rfl⟩, fun i y hy => ?_⟩
      cases i with
      | zero =>
        obtain rfl : x = y := by simpa using hy
        exact hPx
      | succ i => exact hall i y hy

end Choices


/-! ## Alternatives of a constraint -/

theorem Axis.options_ne_nil {axis : Axis} {constraint : Constraint} {cells : List Cell}
    (h : axis.options constraint = .ok cells) : cells ≠ [] := by
  cases constraint with
  | any => simp only [options, Except.ok.injEq] at h; subst h; simp
  | value v =>
    simp only [options, bind_eq_ok_iff, pure_eq_ok_iff] at h
    obtain ⟨code, _, rfl⟩ := h
    simp
  | many vs =>
    cases vs with
    | nil => simp only [options, Except.ok.injEq] at h; subst h; simp
    | cons v vs =>
      simp only [options, bind_eq_ok_iff, pure_eq_ok_iff, mapM_eq_ok_iff] at h
      obtain ⟨codes, hcodes, rfl⟩ := h
      cases hcodes
      rw [ne_eq, List.map_eq_nil_iff, Ascending.ofList_eq_nil_iff]
      simp
  | set vs inclusive =>
    simp only [options, bind_eq_ok_iff, pure_eq_ok_iff] at h
    obtain ⟨bits, _, rfl⟩ := h
    simp

/-- An alternative is the cell of a code, which may ask nothing, or the set of a constraint. -/
theorem Axis.mem_options_cases {axis : Axis} {constraint : Constraint} {cells : List Cell}
    (h : axis.options constraint = .ok cells) {cell : Cell} (hcell : cell ∈ cells) :
    (∃ code, cell = .ofCode code) ∨ ∃ (vs : List Value) (inclusive : Bool) (bits : Bitset),
      constraint = .set vs inclusive ∧ cell = .set ⟨bits.toList.map Int.ofNat, inclusive⟩ := by
  have hany : Cell.any = .ofCode anyCode := by rw [Cell.ofCode, if_pos rfl]
  cases constraint with
  | any =>
    obtain rfl := Except.ok.inj h
    exact .inl ⟨anyCode, (List.mem_singleton.1 hcell).trans hany⟩
  | value v =>
    simp only [options, bind_eq_ok_iff, pure_eq_ok_iff] at h
    obtain ⟨code, _, rfl⟩ := h
    exact .inl ⟨code, List.mem_singleton.1 hcell⟩
  | many vs =>
    cases vs with
    | nil =>
      obtain rfl := Except.ok.inj h
      exact .inl ⟨anyCode, (List.mem_singleton.1 hcell).trans hany⟩
    | cons v vs =>
      simp only [options, bind_eq_ok_iff, pure_eq_ok_iff] at h
      obtain ⟨codes, _, rfl⟩ := h
      obtain ⟨code, _, rfl⟩ := List.mem_map.1 hcell
      exact .inl ⟨code, rfl⟩
  | set vs inclusive =>
    simp only [options, bind_eq_ok_iff, pure_eq_ok_iff] at h
    obtain ⟨bits, _, rfl⟩ := h
    exact .inr ⟨vs, inclusive, bits, rfl, List.mem_singleton.1 hcell⟩

namespace Space

variable {α : Type} {space : Space}

theorem length_options {rule : Rule α} {options : List (List Cell)}
    (h : space.options rule = .ok options) (hsize : rule.constraints.length = space.size) :
    options.length = space.size := by
  rw [length_of_mapM_eq_ok h, List.length_zip, hsize]
  exact Nat.min_self _

/-- The alternatives of a rule on one dimension are those of its constraint there. -/
theorem getElem?_options {rule : Rule α} {options : List (List Cell)}
    (h : space.options rule = .ok options) (hsize : rule.constraints.length = space.size)
    {d : Nat} {axis : Axis} (hd : space.axes[d]? = some axis) :
    ∃ cells, options[d]? = some cells ∧
      axis.options (rule.constraints.getD d .any) = .ok cells := by
  have hlt : d < rule.constraints.length := by
    rw [hsize]
    exact (List.getElem?_eq_some_iff.1 hd).1
  have hzip : (space.axes.zip rule.constraints)[d]? = some (axis, rule.constraints.getD d .any) := by
    simp [List.getElem?_zip_eq_some, hd, List.getElem?_eq_getElem hlt]
  exact getElem?_of_mapM_eq_ok h hzip


/-- What is asked of the cells of a rule's choices one by one can be asked of the
    alternatives on every dimension. -/
theorem exists_mem_choices_options_iff {rule : Rule α} {options : List (List Cell)}
    (h : space.options rule = .ok options) (hsize : rule.constraints.length = space.size)
    {P : Nat → Cell → Prop} :
    (∃ cells ∈ choices options, ∀ d < space.size, P d (cells.getD d .any)) ↔
      ∀ d axis, space.axes[d]? = some axis →
        ∃ cells, axis.options (rule.constraints.getD d .any) = .ok cells ∧
          ∃ cell ∈ cells, P d cell := by
  have hlength := length_options h hsize
  have hchoice : (∃ cells ∈ choices options, ∀ d < space.size, P d (cells.getD d .any)) ↔
      ∃ cells ∈ choices options, ∀ d cell, cells[d]? = some cell → P d cell := by
    refine exists_congr fun cells => and_congr_right fun hcells => ?_
    rw [← hlength, ← length_of_mem_choices hcells]
    constructor
    · intro hall d cell hd
      have hlt := (List.getElem?_eq_some_iff.1 hd).1
      simpa [List.getD, hd] using hall d hlt
    · intro hall d hlt
      simpa [List.getD, hlt] using hall d cells[d] (List.getElem?_eq_getElem hlt)
  rw [hchoice, exists_mem_choices_iff]
  constructor
  · intro hall d axis hd
    obtain ⟨cells, hcells, hoptions⟩ := getElem?_options h hsize hd
    exact ⟨cells, hoptions, hall d cells hcells⟩
  · intro hall d cells hcells
    have hlt : d < space.size := hlength ▸ (List.getElem?_eq_some_iff.1 hcells).1
    have hd : space.axes[d]? = some space.axes[d] := List.getElem?_eq_getElem hlt
    obtain ⟨cells', hcells', hoptions⟩ := getElem?_options h hsize hd
    obtain ⟨cells'', hoptions', hcell⟩ := hall d _ hd
    rw [hcells, Option.some.injEq] at hcells'
    rw [hoptions, Except.ok.injEq] at hoptions'
    rwa [hcells', hoptions']


/-! ## Entries -/

theorem exists_options {rules : List (Rule α)} {entries : List (Entry α)}
    (h : space.entries rules = .ok entries) {rule : Rule α} (hrule : rule ∈ rules) :
    ∃ options, space.options rule = .ok options := by
  simp only [Space.entries, bind_eq_ok_iff] at h
  obtain ⟨lists, hlists, _⟩ := h
  obtain ⟨i, hi⟩ := List.mem_iff_getElem?.1 hrule
  obtain ⟨own, _, hown⟩ := getElem?_of_mapM_eq_ok hlists hi
  simp only [entriesOf, bind_eq_ok_iff] at hown
  obtain ⟨options, hoptions, _⟩ := hown
  exact ⟨options, hoptions⟩

theorem exists_cells {rules : List (Rule α)} {entries : List (Entry α)}
    (h : space.entries rules = .ok entries)
    (hsize : ∀ rule ∈ rules, rule.constraints.length = space.size) {rule : Rule α}
    (hrule : rule ∈ rules) {d : Nat} {axis : Axis} (hd : space.axes[d]? = some axis) :
    ∃ cells, axis.options (rule.constraints.getD d .any) = .ok cells := by
  obtain ⟨options, hoptions⟩ := exists_options h hrule
  obtain ⟨cells, _, hcells⟩ := getElem?_options hoptions (hsize rule hrule) hd
  exact ⟨cells, hcells⟩

theorem mem_entries_iff {rules : List (Rule α)} {entries : List (Entry α)}
    (h : space.entries rules = .ok entries) {entry : Entry α} :
    entry ∈ entries ↔ ∃ rule ∈ rules, ∃ options, space.options rule = .ok options ∧
      ∃ cells ∈ choices options, entry = ⟨cells.toArray, rule.payload⟩ := by
  simp only [Space.entries, bind_eq_ok_iff, pure_eq_ok_iff, mapM_eq_ok_iff] at h
  obtain ⟨lists, hlists, rfl⟩ := h
  induction hlists with
  | nil => simp
  | @cons rule own rules lists hown _ ih =>
    simp only [entriesOf, bind_eq_ok_iff, pure_eq_ok_iff] at hown
    obtain ⟨options, hoptions, rfl⟩ := hown
    simp [ih, hoptions, eq_comm (a := entry)]

/-- An entry with a property of cells comes from a rule with alternatives that have it. -/
theorem exists_entry_iff {rules : List (Rule α)} {entries : List (Entry α)}
    (h : space.entries rules = .ok entries)
    (hsize : ∀ rule ∈ rules, rule.constraints.length = space.size)
    {P : Nat → Cell → Prop} {p : α} :
    (∃ entry ∈ entries, entry.payload = p ∧ ∀ d < space.size, P d (entry.cell d)) ↔
      ∃ rule ∈ rules, rule.payload = p ∧ ∀ d axis, space.axes[d]? = some axis →
        ∃ cells, axis.options (rule.constraints.getD d .any) = .ok cells ∧
          ∃ cell ∈ cells, P d cell := by
  have hcell (cells : List Cell) (p : α) (d : Nat) :
      (Entry.mk cells.toArray p).cell d = cells.getD d .any := by
    simp [Entry.cell]
  constructor
  · intro ⟨entry, hentry, hpayload, hall⟩
    obtain ⟨rule, hrule, options, hoptions, cells, hcells, rfl⟩ := (mem_entries_iff h).1 hentry
    refine ⟨rule, hrule, hpayload, ?_⟩
    rw [← exists_mem_choices_options_iff hoptions (hsize rule hrule)]
    exact ⟨cells, hcells, by simpa only [hcell] using hall⟩
  · intro ⟨rule, hrule, hpayload, hall⟩
    obtain ⟨options, hoptions⟩ := exists_options h hrule
    obtain ⟨cells, hcells, hmet⟩ :=
      (exists_mem_choices_options_iff hoptions (hsize rule hrule)).2 hall
    refine ⟨⟨cells.toArray, rule.payload⟩, ?_, hpayload, by simpa only [hcell] using hmet⟩
    exact (mem_entries_iff h).2 ⟨rule, hrule, options, hoptions, cells, hcells, rfl⟩

/-- Every rule has an entry, and every entry the payload of a rule. -/
theorem exists_entry_payload_iff {rules : List (Rule α)} {entries : List (Entry α)}
    (h : space.entries rules = .ok entries)
    (hsize : ∀ rule ∈ rules, rule.constraints.length = space.size) {p : α} :
    (∃ entry ∈ entries, entry.payload = p) ↔ ∃ rule ∈ rules, rule.payload = p := by
  constructor
  · intro ⟨entry, hentry, hpayload⟩
    obtain ⟨rule, hrule, _, _, _, _, rfl⟩ := (mem_entries_iff h).1 hentry
    exact ⟨rule, hrule, hpayload⟩
  · intro ⟨rule, hrule, hpayload⟩
    obtain ⟨options, hoptions⟩ := exists_options h hrule
    obtain ⟨cells, hcells, _⟩ :=
      (exists_mem_choices_options_iff (P := fun _ _ => True) hoptions (hsize rule hrule)).2 <| by
        intro d axis hd
        obtain ⟨cells, hcells⟩ := exists_cells h hsize hrule hd
        obtain ⟨cell, hcell⟩ := List.exists_mem_of_ne_nil _ (Axis.options_ne_nil hcells)
        exact ⟨cells, hcells, cell, hcell, trivial⟩
    exact ⟨_, (mem_entries_iff h).2 ⟨rule, hrule, options, hoptions, cells, hcells, rfl⟩, hpayload⟩

end Space
end RuleIndex
