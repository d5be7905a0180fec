-- SUMMARY: Matching on codes: a search finds exactly the entries whose cells a coded query meets.
import RuleIndex.Proofs.Build

/-!
# Matching on codes

`Entry.Met` says when a coded query meets an entry, cell by cell and without a tree. A search
of a grown tree yields the payloads of exactly the entries that are met
(`Index.mem_findCoded_iff`).

The left and the right of a split leave its dimension free, so the search may pass it many
times. What carries the induction is that a search below a node decides the dimensions that
are still free there: a step to one side turns away no entry that is met, and a step that
settles a dimension is taken exactly by the entries that are met on it.
-/

namespace RuleIndex

variable {α : Type}

/-! ## When a query meets an entry -/

/-- Whether a query with these codes meets a scalar. -/
def Operation.Meets (op : Operation) (codes : List Int) (code : Int) : Prop :=
  match op with
  | .ordered => code ∈ codes
  | .notContains => ∃ c ∈ codes, c ≠ code

/-- Whether a query with these codes meets a cell. A wildcard meets every cell. -/
def Cell.Met (op : Operation) (codes : List Int) (cell : Cell) : Prop :=
  codes = [] ∨
    match cell with
    | .any => True
    | .equal code => op.Meets codes code
    | .set key => key.codes = [] ∨ ((∃ c ∈ codes, c ∈ key.codes) ↔ key.inclusive = true)

/-- Whether a query meets an entry on every dimension. -/
def Entry.Met (entry : Entry α) (dimensions : List Dimension) (query : CodedQuery) : Prop :=
  ∀ d (h : d < dimensions.length), (entry.cell d).Met dimensions[d].operation (query.codesAt d)

instance (op : Operation) (codes : List Int) (code : Int) : Decidable (op.Meets codes code) :=
  match op with
  | .ordered => inferInstanceAs (Decidable (code ∈ codes))
  | .notContains => inferInstanceAs (Decidable (∃ c ∈ codes, c ≠ code))

instance (op : Operation) (codes : List Int) (cell : Cell) : Decidable (cell.Met op codes) :=
  match cell with
  | .any => inferInstanceAs (Decidable (codes = [] ∨ True))
  | .equal code => inferInstanceAs (Decidable (codes = [] ∨ op.Meets codes code))
  | .set key => inferInstanceAs (Decidable (codes = [] ∨ key.codes = [] ∨
      ((∃ c ∈ codes, c ∈ key.codes) ↔ key.inclusive = true)))

instance (entry : Entry α) (dimensions : List Dimension) (query : CodedQuery) :
    Decidable (entry.Met dimensions query) :=
  inferInstanceAs (Decidable (∀ d (h : d < dimensions.length),
    (entry.cell d).Met dimensions[d].operation (query.codesAt d)))

namespace Cell

variable {op : Operation} {codes : List Int}

theorem met_any : any.Met op codes :=
  .inr trivial

/-- A cell that is met lies on a side that the query is admitted to. -/
theorem admits_of_met_equal {code : Int} (split : Int) (h : (equal code).Met op codes) :
    op.admits codes split (Side.of split code) = true := by
  unfold Operation.admits
  cases op with
  | ordered =>
    rcases h with rfl | hmem
    · simp
    · simp only [Bool.or_eq_true, List.any_eq_true, beq_iff_eq]
      exact .inr ⟨code, hmem, rfl⟩
  | notContains =>
    cases hside : Side.of split code with
    | left => simp
    | right => simp
    | equal =>
      have heq : code = split := Side.of_eq_equal_iff.1 hside
      subst heq
      simpa [Met, Operation.Meets] using h

theorem met_equal_iff {split : Int} :
    (equal split).Met op codes ↔ op.admits codes split .equal = true := by
  constructor
  · intro h
    simpa [Side.of] using admits_of_met_equal split h
  · intro h
    cases op with
    | ordered => simpa [Operation.admits, Met, Operation.Meets, Side.of_eq_equal_iff] using h
    | notContains => simpa [Operation.admits, Met, Operation.Meets] using h

theorem met_set_iff {key : SetKey} (hkey : key.codes ≠ []) :
    (set key).Met op codes ↔ key.admits codes = true := by
  simp only [Met, hkey, false_or, SetKey.admits, Bool.or_eq_true, List.isEmpty_iff]
  apply or_congr_right
  cases key.inclusive <;> simp

/-- A cell without a code is met unless it has a set that is not empty. -/
theorem met_of_asks_nothing {cell : Cell} (hcode : cell.code? = none) (hkey : cell.key? = none) :
    cell.Met op codes := by
  cases cell with
  | any => exact met_any
  | equal code => cases hcode
  | set key =>
    have hempty : key.codes = [] := by simpa [key?] using hkey
    exact .inr (.inl hempty)

end Cell


/-! ## Scanning entries -/

namespace Entry

/-- Whether a query meets an entry on some dimensions. -/
def MetOn (entry : Entry α) (space : Space) (query : CodedQuery) (free : List Nat) : Prop :=
  ∀ d ∈ free, (entry.cell d).Met (space.operation d) (query.codesAt d)

/-- Whether a scan of the entries comes upon a payload. -/
def Found (entries : List (Entry α)) (space : Space) (query : CodedQuery) (free : List Nat)
    (p : α) : Prop :=
  ∃ entry ∈ entries, entry.payload = p ∧ entry.MetOn space query free

variable {entries : List (Entry α)} {space : Space} {query : CodedQuery} {free : List Nat}
  {d : Nat} {p : α}

theorem metOn_iff_erase {entry : Entry α} (hd : d ∈ free) : entry.MetOn space query free ↔
    (entry.cell d).Met (space.operation d) (query.codesAt d) ∧
      entry.MetOn space query (free.erase d) := by
  constructor
  · intro h
    exact ⟨h d hd, fun d' hd' => h d' (List.mem_of_mem_erase hd')⟩
  · intro ⟨hcell, hrest⟩ d' hd'
    by_cases heq : d' = d
    · exact heq ▸ hcell
    · exact hrest d' ((List.mem_erase_of_ne heq).2 hd')

/-- A scan can be split at a code. It may skip a side that the query is not admitted to, and
    the dimension is settled for the entries at the code and for those without one. -/
theorem found_scalar_iff (split : Int) (hd : d ∈ free)
    (scalars : ∀ entry ∈ entries, (entry.cell d).isSet = false) :
    Found entries space query free p ↔
      Found (withoutCode entries d) space query (free.erase d) p ∨
      ((space.operation d).admits (query.codesAt d) split .left = true ∧
        Found (onSide entries d split .left) space query free p) ∨
      ((space.operation d).admits (query.codesAt d) split .equal = true ∧
        Found (onSide entries d split .equal) space query (free.erase d) p) ∨
      ((space.operation d).admits (query.codesAt d) split .right = true ∧
        Found (onSide entries d split .right) space query free p) := by
  simp only [Found, mem_withoutCode, mem_onSide]
  constructor
  · intro ⟨entry, hentry, hpayload, hmet⟩
    obtain ⟨hcellMet, hrest⟩ := (metOn_iff_erase hd).1 hmet
    cases hcell : entry.cell d with
    | any => exact .inl ⟨entry, ⟨hentry, by rw [hcell]; rfl⟩, hpayload, hrest⟩
    | set key =>
      have hset := scalars entry hentry
      rw [hcell] at hset
      cases hset
    | equal code =>
      rw [hcell] at hcellMet
      have hadmits := Cell.admits_of_met_equal split hcellMet
      cases hside : Side.of split code with
      | left =>
        rw [hside] at hadmits
        exact .inr (.inl ⟨hadmits, entry, ⟨hentry, code, hcell, hside⟩, hpayload, hmet⟩)
      | equal =>
        rw [hside] at hadmits
        exact .inr (.inr (.inl ⟨hadmits, entry, ⟨hentry, code, hcell, hside⟩, hpayload, hrest⟩))
      | right =>
        rw [hside] at hadmits
        exact .inr (.inr (.inr ⟨hadmits, entry, ⟨hentry, code, hcell, hside⟩, hpayload, hmet⟩))
  · rintro (h | ⟨_, h⟩ | ⟨hadmits, h⟩ | ⟨_, h⟩)
    · obtain ⟨entry, ⟨hentry, hcode⟩, hpayload, hrest⟩ := h
      have hany := Cell.eq_any_iff.2 ⟨scalars entry hentry, hcode⟩
      exact ⟨entry, hentry, hpayload, (metOn_iff_erase hd).2 ⟨hany ▸ Cell.met_any, hrest⟩⟩
    · obtain ⟨entry, ⟨hentry, _⟩, hpayload, hmet⟩ := h
      exact ⟨entry, hentry, hpayload, hmet⟩
    · obtain ⟨entry, ⟨hentry, code, hcell, hside⟩, hpayload, hrest⟩ := h
      rw [Side.of_eq_equal_iff.1 hside] at hcell
      have hmet := Cell.met_equal_iff.2 hadmits
      exact ⟨entry, hentry, hpayload, (metOn_iff_erase hd).2 ⟨hcell ▸ hmet, hrest⟩⟩
    · obtain ⟨entry, ⟨hentry, _⟩, hpayload, hmet⟩ := h
      exact ⟨entry, hentry, hpayload, hmet⟩

/-- A scan can be split by sets. It may skip the entries of a set that does not admit the
    query, and the dimension is settled for all parts. -/
theorem found_sets_iff (hd : d ∈ free)
    (sets : ∀ entry ∈ entries, (entry.cell d).code? = none) :
    Found entries space query free p ↔
      Found (withoutKey entries d) space query (free.erase d) p ∨
      ∃ key ∈ keysOn entries d, key.admits (query.codesAt d) = true ∧
        Found (withKey entries d key) space query (free.erase d) p := by
  simp only [Found, mem_withoutKey, mem_withKey, mem_keysOn]
  constructor
  · intro ⟨entry, hentry, hpayload, hmet⟩
    obtain ⟨hcellMet, hrest⟩ := (metOn_iff_erase hd).1 hmet
    cases hkey : (entry.cell d).key? with
    | none => exact .inl ⟨entry, ⟨hentry, hkey⟩, hpayload, hrest⟩
    | some key =>
      obtain ⟨hcell, hcodes⟩ := Cell.key?_eq_some_iff.1 hkey
      rw [hcell, Cell.met_set_iff hcodes] at hcellMet
      exact .inr ⟨key, ⟨entry, hentry, hkey⟩, hcellMet, entry, ⟨hentry, hkey⟩, hpayload, hrest⟩
  · rintro (h | ⟨key, _, hadmits, h⟩)
    · obtain ⟨entry, ⟨hentry, hkey⟩, hpayload, hrest⟩ := h
      refine ⟨entry, hentry, hpayload, (metOn_iff_erase hd).2 ⟨?_, hrest⟩⟩
      exact Cell.met_of_asks_nothing (sets entry hentry) hkey
    · obtain ⟨entry, ⟨hentry, hkey⟩, hpayload, hrest⟩ := h
      obtain ⟨hcell, hcodes⟩ := Cell.key?_eq_some_iff.1 hkey
      refine ⟨entry, hentry, hpayload, (metOn_iff_erase hd).2 ⟨?_, hrest⟩⟩
      rw [hcell]
      exact (Cell.met_set_iff hcodes).2 hadmits

end Entry


/-! ## Searching a grown tree -/

namespace Tree

variable {space : Space} {query : CodedQuery} {p : α}

theorem mem_findBranches_iff {d : Nat} {branches : List (SetKey × Tree α)} :
    p ∈ findBranches space query d branches ↔ ∃ branch ∈ branches,
      branch.1.admits (query.codesAt d) = true ∧ p ∈ branch.2.find space query := by
  induction branches with
  | nil => simp [findBranches]
  | cons branch rest ih =>
    obtain ⟨key, subtree⟩ := branch
    simp [findBranches, ih]

@[simp] theorem find_ofPayloads (payloads : List α) :
    (ofPayloads payloads).find space query = payloads := by
  cases payloads <;> rfl

/-- A search of a grown tree finds what a scan of its entries finds. -/
theorem Grown.mem_find_iff {free : List Nat} {entries : List (Entry α)} {tree : Tree α}
    (h : Grown free entries tree) :
    p ∈ tree.find space query ↔ Entry.Found entries space query free p := by
  induction h with
  | @leaf free entries settled =>
    -- Nothing is asked any more, so all entries are met.
    rw [find_ofPayloads, List.mem_map]
    refine exists_congr fun entry => and_congr_right fun hentry => ?_
    have hmet : entry.MetOn space query free := by
      intro d hd
      rw [settled d hd entry hentry]
      exact Cell.met_any
    simp [hmet]
  | @scalar free entries d code _ _ _ _ chosen scalars _ _ _ _ ihLeft ihRight ihEqual ihAny =>
    have hd : d ∈ free := Split.choose?_mem_free chosen
    rw [Entry.found_scalar_iff code hd scalars, ← ihLeft, ← ihRight, ← ihEqual,
      ← ihAny]
    simp only [find, List.mem_append, List.mem_ite_nil_right, or_assoc]
  | @sets free entries d _ _ chosen sets keys _ _ ihBranch ihAny =>
    have hd : d ∈ free := Split.choose?_mem_free chosen
    rw [Entry.found_sets_iff hd sets, ← ihAny, ← keys]
    simp only [find, List.mem_append, mem_findBranches_iff, List.mem_map]
    refine or_congr_right ⟨?_, ?_⟩
    · intro ⟨branch, hbranch, hadmits, hp⟩
      exact ⟨_, ⟨branch, hbranch, rfl⟩, hadmits, (ihBranch branch hbranch).1 hp⟩
    · rintro ⟨_, ⟨branch, hbranch, rfl⟩, hadmits, hp⟩
      exact ⟨branch, hbranch, hadmits, (ihBranch branch hbranch).2 hp⟩

end Tree


/-! ## Searching a built index -/

namespace Index

variable [DecidableEq α] {dimensions : List Dimension} {rules : List (Rule α)}

/-- A search yields the payloads of the entries that the query meets, each once. -/
theorem Represents.mem_findCoded_iff {index : Index α} {entries : List (Entry α)}
    (h : index.Represents dimensions rules entries) {query : CodedQuery} {p : α} :
    p ∈ index.findCoded query ↔
      ∃ entry ∈ entries, entry.payload = p ∧ entry.Met dimensions query := by
  rw [findCoded, List.mem_eraseDups, h.grown.mem_find_iff]
  refine exists_congr fun entry => and_congr_right fun _ => and_congr_right fun _ => ?_
  simp only [Entry.MetOn, Entry.Met, List.mem_range, h.space]
  refine forall₂_congr fun d hd => ?_
  rw [Space.operation_fit hd]

/-- Building codes the rules into entries, and from then on a coded query, whatever its codes,
    finds exactly the payloads of the entries that it meets. -/
theorem mem_findCoded_iff_met {built : Logged (Index α)} (h : build dimensions rules = .ok built) :
    ∃ entries, (Space.fit dimensions rules).entries rules = .ok entries ∧
      ∀ query : CodedQuery, (built.value.findCoded query).Nodup ∧
        ∀ p, p ∈ built.value.findCoded query ↔
          ∃ entry ∈ entries, entry.payload = p ∧ entry.Met dimensions query := by
  obtain ⟨entries, hrep⟩ := exists_represents h
  refine ⟨entries, hrep.coded, fun query => ⟨nodup_eraseDups _, fun p => ?_⟩⟩
  exact hrep.mem_findCoded_iff

/-- Negative codes and codes of no value are codes like any other. -/
theorem mem_findCoded_sample : ∃ built, build Sample.dimensions Sample.rules = .ok built ∧
    ∀ p ∈ ["small", "large", "tagged", "abroad"],
      p ∈ built.value.findCoded ⟨[[1, -7], [3, 40], [anyCode, 5], [0]]⟩ ↔ p = "large" := by
  obtain ⟨built, h⟩ := Sample.exists_build
  obtain ⟨entries, hentries, hfind⟩ := mem_findCoded_iff_met h
  obtain rfl := Except.ok.inj hentries
  refine ⟨built, h, ?_⟩
  simp only [(hfind _).2]
  decide

end Index
end RuleIndex
