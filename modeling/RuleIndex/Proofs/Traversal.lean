-- SUMMARY: Traversals of lists: those that stop at the first failure, and those that drop repetitions.
import Mathlib.Data.List.Forall2

/-!
# Traversals

Rules and queries are coded by traversals that stop at the first failure. Such a
traversal succeeds exactly if it does so at every element, and its results then
stand side by side with the elements. Answers and reports list each payload once.
-/

namespace RuleIndex

variable {ε β γ : Type}

/-! ## Traversals that may fail -/

@[simp] theorem bind_eq_ok_iff {x : Except ε β} {f : β → Except ε γ} {c : γ} :
    x >>= f = .ok c ↔ ∃ b, x = .ok b ∧ f b = .ok c := by
  cases x with
  | error e => simp [bind, Except.bind]
  | ok b => simp [bind, Except.bind]

@[simp] theorem map_eq_ok_iff {x : Except ε β} {f : β → γ} {c : γ} :
    f <$> x = .ok c ↔ ∃ b, x = .ok b ∧ f b = c := by
  cases x with
  | error e => simp [Functor.map, Except.map]
  | ok b => simp [Functor.map, Except.map]

@[simp] theorem pure_eq_ok_iff {b c : β} : (pure b : Except ε β) = .ok c ↔ b = c := by
  simp [pure, Except.pure]

/-- Whether a computation succeeds is found out by running it. -/
theorem exists_eq_ok_iff {x : Except ε β} : (∃ b, x = .ok b) ↔ x.isOk = true := by
  cases x with
  | error e => simp [Except.isOk, Except.toBool]
  | ok b => simp [Except.isOk, Except.toBool]

theorem mapM_eq_ok_iff {f : β → Except ε γ} {l : List β} {r : List γ} :
    l.mapM f = .ok r ↔ List.Forall₂ (fun b c => f b = .ok c) l r := by
  induction l generalizing r with
  | nil =>
    rw [List.mapM_nil, List.forall₂_nil_left_iff, pure_eq_ok_iff]
    exact eq_comm
  | cons b l ih =>
    simp [ih, List.forall₂_cons_left_iff, eq_comm (a := r)]

/-- A traversal in one monad is the same traversal in a monad that it is lifted to. -/
theorem liftM_mapM {m n : Type → Type} [Monad m] [LawfulMonad m] [Monad n] [LawfulMonad n]
    [MonadLiftT m n] [LawfulMonadLiftT m n] {β γ : Type} (f : β → m γ) (l : List β) :
    (liftM (l.mapM f) : n (List γ)) = l.mapM fun b => liftM (f b) := by
  induction l with
  | nil => simp
  | cons b l ih => simp [ih]

theorem length_of_mapM_eq_ok {f : β → Except ε γ} {l : List β} {r : List γ}
    (h : l.mapM f = .ok r) : r.length = l.length :=
  (mapM_eq_ok_iff.1 h).length_eq.symm

theorem getElem?_of_mapM_eq_ok {f : β → Except ε γ} {l : List β} {r : List γ}
    (h : l.mapM f = .ok r) {i : Nat} {b : β} (hi : l[i]? = some b) :
    ∃ c, r[i]? = some c ∧ f b = .ok c := by
  obtain ⟨hl, rfl⟩ := List.getElem?_eq_some_iff.1 hi
  have hr : i < r.length := (length_of_mapM_eq_ok h).symm ▸ hl
  exact ⟨r[i], List.getElem?_eq_getElem hr, (mapM_eq_ok_iff.1 h).get hl hr⟩

theorem exists_of_mapM_eq_ok {f : β → Except ε γ} {l : List β} {r : List γ}
    (h : l.mapM f = .ok r) {b : β} (hb : b ∈ l) : ∃ c, f b = .ok c := by
  obtain ⟨i, hi⟩ := List.mem_iff_getElem?.1 hb
  obtain ⟨c, _, hc⟩ := getElem?_of_mapM_eq_ok h hi
  exact ⟨c, hc⟩

/-- The results are those of the elements, and no others. -/
theorem mem_of_mapM_eq_ok_iff {f : β → Except ε γ} {l : List β} {r : List γ}
    (h : l.mapM f = .ok r) {c : γ} : c ∈ r ↔ ∃ b ∈ l, f b = .ok c := by
  rw [mapM_eq_ok_iff] at h
  induction h with
  | nil => simp
  | @cons b c' l r hb _ ih => simp [ih, hb, eq_comm (a := c)]

/-- Traversals succeed with the same results where their elements do. -/
theorem mapM_eq_ok_iff_of_forall₂ {f : β → Except ε γ} {l l' : List β}
    (h : List.Forall₂ (fun b b' => ∀ c, f b = .ok c ↔ f b' = .ok c) l l') {r : List γ} :
    l.mapM f = .ok r ↔ l'.mapM f = .ok r := by
  rw [mapM_eq_ok_iff, mapM_eq_ok_iff]
  induction h generalizing r with
  | nil => rfl
  | cons hb _ ih => simp only [List.forall₂_cons_left_iff, hb, ih]

/-- A loop that stops at the first failure may as well have all results first and combine them
    then. -/
theorem foldlM_eq_foldl_mapM {δ : Type} (f : β → Except ε γ) (combine : δ → γ → δ) (l : List β)
    (init : δ) : (l.foldlM (fun acc b => do return combine acc (← f b)) init) =
      (do return (← l.mapM f).foldl combine init) := by
  induction l generalizing init with
  | nil => rfl
  | cons b l ih =>
    rw [List.foldlM_cons, List.mapM_cons]
    cases f b with
    | error e => rfl
    | ok c =>
      refine (ih (combine init c)).trans ?_
      cases l.mapM f with
      | error e => rfl
      | ok r => rfl


/-! ## First failures -/

@[simp] theorem bind_eq_error_iff {x : Except ε β} {f : β → Except ε γ} {e : ε} :
    x >>= f = .error e ↔ x = .error e ∨ ∃ b, x = .ok b ∧ f b = .error e := by
  cases x with
  | error e' => simp [bind, Except.bind]
  | ok b => simp [bind, Except.bind]

theorem pure_ne_error {b : β} {e : ε} : (pure b : Except ε β) ≠ .error e := by
  simp [pure, Except.pure]

/-- The failure `e` of an element of a list, where no element before it has one. -/
def FirstFailure (fails : β → ε → Prop) (l : List β) (e : ε) : Prop :=
  ∃ (i : Nat) (b : β), l[i]? = some b ∧ fails b e ∧
    ∀ j < i, ∀ c, l[j]? = some c → ∀ e', ¬ fails c e'

theorem firstFailure_nil_iff {fails : β → ε → Prop} {e : ε} : FirstFailure fails [] e ↔ False := by
  simp [FirstFailure]

theorem firstFailure_cons_iff {fails : β → ε → Prop} {b : β} {l : List β} {e : ε} :
    FirstFailure fails (b :: l) e ↔
      fails b e ∨ (∀ e', ¬ fails b e') ∧ FirstFailure fails l e := by
  constructor
  · rintro ⟨i, c, hc, hfails, hfirst⟩
    cases i with
    | zero =>
      obtain rfl : b = c := by simpa using hc
      exact .inl hfails
    | succ i =>
      refine .inr ⟨hfirst 0 (Nat.zero_lt_succ i) b rfl, i, c, hc, hfails, fun j hj => ?_⟩
      exact hfirst (j + 1) (Nat.succ_lt_succ hj)
  · rintro (hfails | ⟨hb, i, c, hc, hfails, hfirst⟩)
    · exact ⟨0, b, rfl, hfails, fun j hj => absurd hj (Nat.not_lt_zero j)⟩
    · refine ⟨i + 1, c, hc, hfails, fun j hj c' hc' => ?_⟩
      cases j with
      | zero =>
        obtain rfl : b = c' := by simpa using hc'
        exact hb
      | succ j => exact hfirst j (Nat.lt_of_succ_lt_succ hj) c' hc'

/-- Where elements fail, one of them fails first. -/
theorem exists_firstFailure_iff {fails : β → ε → Prop} {l : List β} :
    (∃ e, FirstFailure fails l e) ↔ ∃ b ∈ l, ∃ e, fails b e := by
  induction l with
  | nil => simp [firstFailure_nil_iff]
  | cons b l ih =>
    simp only [firstFailure_cons_iff, exists_or, exists_and_left, ih, List.exists_mem_cons_iff]
    by_cases hb : ∃ e, fails b e
    · simp [hb]
    · simp [not_exists.1 hb]

/-- A traversal reports the first failure. -/
theorem mapM_eq_error_iff {f : β → Except ε γ} {l : List β} {e : ε} :
    l.mapM f = .error e ↔ FirstFailure (fun b e => f b = .error e) l e := by
  induction l with
  | nil => simp [firstFailure_nil_iff, pure, Except.pure]
  | cons b l ih =>
    rw [List.mapM_cons, firstFailure_cons_iff, bind_eq_error_iff]
    refine or_congr_right ?_
    cases hb : f b with
    | error e' => simp
    | ok c =>
      simp only [Except.ok.injEq, exists_eq_left', bind_eq_error_iff, pure_ne_error, and_false,
        exists_false, or_false, reduceCtorEq, not_false_eq_true, implies_true, true_and, ih]

/-- In which order and how often elements are listed does not decide whether a traversal
    succeeds, nor which results it has. -/
theorem exists_mapM_eq_ok_of_same {f : β → Except ε γ} {l l' : List β}
    (same : ∀ b, b ∈ l ↔ b ∈ l') {r : List γ} (h : l.mapM f = .ok r) :
    ∃ r', l'.mapM f = .ok r' ∧ ∀ c, c ∈ r' ↔ c ∈ r := by
  cases h' : l'.mapM f with
  | error e =>
    obtain ⟨b, hb, e', he'⟩ := exists_firstFailure_iff.1 ⟨e, mapM_eq_error_iff.1 h'⟩
    obtain ⟨c, hc⟩ := exists_of_mapM_eq_ok h ((same b).2 hb)
    rw [hc] at he'
    cases he'
  | ok r' =>
    refine ⟨r', rfl, fun c => ?_⟩
    rw [mem_of_mapM_eq_ok_iff h, mem_of_mapM_eq_ok_iff h']
    simp only [same]


/-! ## Lists without repetitions -/

theorem nodup_eraseDups [BEq β] [LawfulBEq β] (l : List β) : l.eraseDups.Nodup := by
  match l with
  | [] => simp
  | b :: rest =>
    rw [List.eraseDups_cons, List.nodup_cons]
    refine ⟨fun hmem => ?_, nodup_eraseDups _⟩
    simpa using List.mem_eraseDups.1 hmem
termination_by l.length
decreasing_by
  have := List.length_filter_le (fun c => !c == b) rest
  simp only [List.length_cons]
  omega

end RuleIndex
