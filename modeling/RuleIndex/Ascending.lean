-- SUMMARY: Strictly ascending lists: insertion, the ascending list of a list's elements, and the number of elements below a bound.

/-!
# Ascending lists

Dictionaries of values, the codes of a query and the codes of a set are all kept
as strictly ascending lists. `Ascending.ofList` sorts a list and drops its
repetitions in one go. A strictly ascending list is determined by its elements,
so the order and the repetitions of the given list leave no trace.
-/

namespace RuleIndex
namespace Ascending

variable {α : Type} [LT α] [DecidableLT α]

/-- Insert `a` at its place. An element that is already there is left alone. -/
def insert (a : α) : List α → List α
  | [] => [a]
  | b :: l =>
    if a < b then a :: b :: l
    else if b < a then b :: insert a l
    else b :: l

/-- The distinct elements of a list, in ascending order. -/
def ofList (l : List α) : List α :=
  l.foldr insert []

/-- The number of elements of `l` below `a`. In an ascending list this is the
    place where `a` stands, or would stand. -/
def below (a : α) (l : List α) : Nat :=
  l.countP (· < a)

@[simp] theorem ofList_nil : ofList ([] : List α) = [] := rfl

@[simp] theorem ofList_cons (a : α) (l : List α) : ofList (a :: l) = insert a (ofList l) := rfl


/-! ## Elements and order -/

variable [LE α] [Std.IsLinearOrder α] [Std.LawfulOrderLT α]

@[simp] theorem mem_insert {a b : α} {l : List α} : b ∈ insert a l ↔ b = a ∨ b ∈ l := by
  induction l with
  | nil => simp [insert]
  | cons c l ih =>
    simp only [insert]
    split
    · simp
    · next hac =>
      split
      · simp [ih, or_left_comm]
      · next hca =>
        have hc : c = a := Std.le_antisymm (Std.not_lt.1 hac) (Std.not_lt.1 hca)
        simp [hc]

@[simp] theorem mem_ofList {a : α} {l : List α} : a ∈ ofList l ↔ a ∈ l := by
  induction l with
  | nil => simp
  | cons b l ih => simp [ih]

@[simp] theorem ofList_eq_nil_iff {l : List α} : ofList l = [] ↔ l = [] := by
  rw [List.eq_nil_iff_forall_not_mem, List.eq_nil_iff_forall_not_mem]
  simp only [mem_ofList]

theorem pairwise_insert (a : α) {l : List α} (h : l.Pairwise (· < ·)) :
    (insert a l).Pairwise (· < ·) := by
  induction l with
  | nil => simp [insert]
  | cons b l ih =>
    have hb := List.pairwise_cons.1 h
    simp only [insert]
    split
    · next hab =>
      refine List.pairwise_cons.2 ⟨fun c hc => ?_, h⟩
      rcases List.mem_cons.1 hc with rfl | hc
      · exact hab
      · exact Std.lt_trans hab (hb.1 c hc)
    · split
      · next hba =>
        refine List.pairwise_cons.2 ⟨fun c hc => ?_, ih hb.2⟩
        rcases mem_insert.1 hc with rfl | hc
        · exact hba
        · exact hb.1 c hc
      · exact h

theorem pairwise_ofList (l : List α) : (ofList l).Pairwise (· < ·) := by
  induction l with
  | nil => exact List.Pairwise.nil
  | cons a l ih => exact pairwise_insert a ih

theorem nodup_ofList (l : List α) : (ofList l).Nodup := by
  refine (pairwise_ofList l).imp ?_
  rintro a b hlt rfl
  exact Std.lt_irrefl hlt


/-! ## Places -/

theorem below_le_below {a b : α} (h : a ≤ b) (l : List α) : below a l ≤ below b l := by
  refine List.countP_mono_left fun c _ hc => ?_
  rw [decide_eq_true_eq] at hc ⊢
  exact Std.lt_of_lt_of_le hc h

theorem below_lt_below {a b : α} {l : List α} (h : a < b) (ha : a ∈ l) :
    below a l < below b l := by
  obtain ⟨front, back, rfl⟩ := List.append_of_mem ha
  have hfront := below_le_below (Std.le_of_lt h) front
  have hback := below_le_below (Std.le_of_lt h) back
  have hself : below a [a] < below b [a] := by simp [below, h, Std.lt_irrefl]
  simp only [below, List.countP_append, List.countP_cons, List.countP_nil] at *
  omega

theorem below_lt_below_iff {a b : α} {l : List α} (ha : a ∈ l) :
    below a l < below b l ↔ a < b := by
  constructor
  · intro h
    refine Std.not_le.1 fun hba => ?_
    exact Nat.not_lt.2 (below_le_below hba l) h
  · intro h
    exact below_lt_below h ha

/-- Elements of a list are told apart by their places. -/
theorem below_inj {a b : α} {l : List α} (ha : a ∈ l) (hb : b ∈ l) :
    below a l = below b l ↔ a = b := by
  constructor
  · intro h
    rcases Std.lt_trichotomy a b with hlt | heq | hgt
    · exact absurd h (Nat.ne_of_lt (below_lt_below hlt ha))
    · exact heq
    · exact absurd h.symm (Nat.ne_of_lt (below_lt_below hgt hb))
  · intro h
    rw [h]

/-- Bounds have the same place in a list that has nothing between them. -/
theorem below_eq_below_iff {a b : α} {l : List α} (h : a ≤ b) :
    below a l = below b l ↔ ∀ c ∈ l, c < b → c < a := by
  constructor
  · intro heq c hc hcb
    refine Std.not_le.1 fun hac => ?_
    have hlt := Nat.lt_of_le_of_lt (below_le_below hac l) (below_lt_below hcb hc)
    exact Nat.ne_of_lt hlt heq
  · intro hnone
    refine List.countP_congr fun c hc => ?_
    rw [decide_eq_true_eq, decide_eq_true_eq]
    exact ⟨fun hca => Std.lt_of_lt_of_le hca h, hnone c hc⟩

omit [Std.IsLinearOrder α] in
theorem below_lt_length {a : α} {l : List α} (ha : a ∈ l) : below a l < l.length := by
  refine Nat.lt_of_le_of_ne List.countP_le_length fun heq => ?_
  have hself := List.countP_eq_length.1 heq a ha
  exact Std.lt_irrefl (of_decide_eq_true hself)

/-- In an ascending list, the element at place `i` has `i` elements below it. -/
theorem below_getElem {l : List α} (h : l.Pairwise (· < ·)) {i : Nat} (hi : i < l.length) :
    below l[i] l = i := by
  induction l generalizing i with
  | nil => cases hi
  | cons b l ih =>
    obtain ⟨hb, hl⟩ := List.pairwise_cons.1 h
    cases i with
    | zero =>
      simp only [below, List.getElem_cons_zero, List.countP_eq_zero, List.forall_mem_cons,
        decide_eq_true_eq]
      exact ⟨Std.lt_irrefl, fun c hc => Std.not_lt.2 (Std.le_of_lt (hb c hc))⟩
    | succ i =>
      have hi : i < l.length := Nat.lt_of_succ_lt_succ hi
      have hlt : b < l[i] := hb _ (List.getElem_mem hi)
      have hbelow := ih hl hi
      simp only [below] at hbelow ⊢
      simp [hlt, hbelow]

/-- The elements below `a` are those at the first places. -/
theorem getElem_lt_iff {l : List α} (h : l.Pairwise (· < ·)) {i : Nat} (hi : i < l.length) {a : α} :
    l[i] < a ↔ i < below a l := by
  constructor
  · intro hlt
    have hbelow := below_lt_below hlt (List.getElem_mem hi)
    rwa [below_getElem h hi] at hbelow
  · intro hlt
    refine Std.not_le.1 fun hle => ?_
    have hbelow := below_le_below hle l
    rw [below_getElem h hi] at hbelow
    exact Nat.not_lt.2 hbelow hlt

/-- An ascending list has `a` at the place of `a`, or does not have it. -/
theorem getElem?_below_eq_some_iff {l : List α} (h : l.Pairwise (· < ·)) {a : α} :
    l[below a l]? = some a ↔ a ∈ l := by
  constructor
  · exact List.mem_of_getElem?
  · intro ha
    obtain ⟨i, hi, rfl⟩ := List.mem_iff_getElem.1 ha
    rw [below_getElem h hi, List.getElem?_eq_getElem hi]

/-- All other elements but the one at place `i` itself are above it. -/
theorem countP_getElem_lt {l : List α} (h : l.Pairwise (· < ·)) {i : Nat} (hi : i < l.length) :
    l.countP (l[i] < ·) = l.length - 1 - i := by
  induction l generalizing i with
  | nil => cases hi
  | cons b l ih =>
    obtain ⟨hb, hl⟩ := List.pairwise_cons.1 h
    cases i with
    | zero =>
      have hall : l.countP (b < ·) = l.length := by simpa using hb
      simp [hall, Std.lt_irrefl]
    | succ i =>
      have hi : i < l.length := Nat.lt_of_succ_lt_succ hi
      have hlt : ¬ l[i] < b := Std.not_lt.2 (Std.le_of_lt (hb _ (List.getElem_mem hi)))
      simp only [List.getElem_cons_succ, List.countP_cons, hlt, ih hl hi, List.length_cons]
      simp only [decide_false, Bool.false_eq_true, if_false]
      omega

end Ascending
end RuleIndex
