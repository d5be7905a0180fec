-- SUMMARY: Runs of a cached index: what is remembered after any number of steps, told by the steps and their replies.
import RuleIndex.Cache
import RuleIndex.Proofs.Queries
import RuleIndex.Proofs.Recency

/-!
# Runs of a cached index

`CachedIndex.Remembers` ties a cached index to the steps taken so far and their replies, without a
look at how the answers came about: the keys held are those looked up last, and the answer of
each is that of the latest miss on it. Each step keeps it (`CachedIndex.Remembers.step`), and so
does every run (`CachedIndex.remembers_run`).
-/

namespace RuleIndex

variable {α : Type}

/-! ## Keys looked up -/

namespace Index

/-- The key that a step looks up, if it is a find whose query can be coded. -/
def lookup? (index : Index α) : Step → Option CodedQuery
  | .find query => (index.encode query).toOption
  | .clear | .size | .inspect => none

/-- The keys that finds have looked up since the last clear, latest first. -/
def lookups (index : Index α) (requests : List Step) : List CodedQuery :=
  (requests.reverse.takeWhile (· != .clear)).filterMap index.lookup?

variable {index : Index α} {requests : List Step} {query : List QueryValue}

@[simp] theorem lookups_clear : index.lookups (requests ++ [.clear]) = [] := by
  simp [lookups]

theorem lookups_find {key : CodedQuery} (h : index.encode query = .ok key) :
    index.lookups (requests ++ [.find query]) = key :: index.lookups requests := by
  simp [lookups, lookup?, h, Except.toOption]

/-- A step that looks up no key and clears nothing adds nothing. -/
theorem lookups_idle {request : Step} (hclear : request ≠ .clear)
    (h : index.lookup? request = none) :
    index.lookups (requests ++ [request]) = index.lookups requests := by
  simp [lookups, hclear, h]

end Index

variable [DecidableEq α]


/-! ## Runs -/

namespace CachedIndex

/-- The cached index after some steps. -/
def after (cached : CachedIndex α) (requests : List Step) : CachedIndex α :=
  requests.foldl (fun cached request => (cached.step request).value.2) cached

/-- The steps of a run, each with its reply. -/
def run (cached : CachedIndex α) : List Step → List (Step × Reply α)
  | [] => []
  | request :: rest =>
    (request, (cached.step request).value.1) :: (cached.step request).value.2.run rest

@[simp] theorem map_fst_run (cached : CachedIndex α) (requests : List Step) :
    (cached.run requests).map Prod.fst = requests := by
  induction requests generalizing cached with
  | nil => rfl
  | cons request rest ih => simp [run, ih]

@[simp] theorem length_run (cached : CachedIndex α) (requests : List Step) :
    (cached.run requests).length = requests.length := by
  rw [← List.length_map Prod.fst, map_fst_run]

theorem run_take (cached : CachedIndex α) (requests : List Step) (i : Nat) :
    cached.run (requests.take i) = (cached.run requests).take i := by
  induction requests generalizing cached i with
  | nil => simp [run]
  | cons request rest ih =>
    cases i with
    | zero => rfl
    | succ i => simp [run, ih]

/-- Every step of a run starts from where the steps before it lead. -/
theorem getElem?_run (cached : CachedIndex α) (requests : List Step) (i : Nat) :
    (cached.run requests)[i]? = requests[i]?.map fun request =>
      (request, ((cached.after (requests.take i)).step request).value.1) := by
  induction requests generalizing cached i with
  | nil => rfl
  | cons request rest ih =>
    cases i with
    | zero => rfl
    | succ i => exact ih _ i

end CachedIndex

/-- The answer is that of the latest miss on a key, and nothing was cleared since. -/
structure LatestMiss (index : Index α) (taken : List (Step × Reply α)) (key : CodedQuery)
    (answer : Answer α) : Prop where
  payloads : answer.payloads = index.findCoded key
  computed : ∃ query, taken[answer.step]? = some (.find query, .computed answer) ∧
    index.encode query = .ok key
  latest : ∀ j > answer.step, ∀ query other,
    taken[j]? = some (.find query, .computed other) → index.encode query ≠ .ok key
  uncleared : ∀ j > answer.step, ∀ reply, taken[j]? ≠ some (.clear, reply)

namespace LatestMiss

variable {index : Index α} {taken : List (Step × Reply α)} {key : CodedQuery} {answer : Answer α}

theorem step_lt (h : LatestMiss index taken key answer) : answer.step < taken.length := by
  obtain ⟨query, hquery, _⟩ := h.computed
  exact (List.getElem?_eq_some_iff.1 hquery).1

/-- A miss is the latest one when it happens. -/
theorem of_miss {query : List QueryValue} (h : index.encode query = .ok key)
    (hanswer : answer = ⟨index.findCoded key, taken.length⟩) :
    LatestMiss index (taken ++ [(.find query, .computed answer)]) key answer := by
  have hlater : ∀ j > answer.step,
      (taken ++ [(Step.find query, Reply.computed answer)])[j]? = none := by
    intro j hj
    rw [List.getElem?_eq_none_iff, List.length_append, List.length_singleton]
    simp only [hanswer] at hj
    omega
  constructor
  · rw [hanswer]
  · exact ⟨query, by simp [hanswer], h⟩
  · intro j hj query' other hfind
    rw [hlater j hj] at hfind
    cases hfind
  · intro j hj reply
    simp [hlater j hj]

omit [DecidableEq α] in
/-- What stands in a list with one more step stood there before, or is that step. -/
theorem getElem?_snoc {j : Nat} {pair last : Step × Reply α}
    (h : (taken ++ [last])[j]? = some pair) :
    taken[j]? = some pair ∨ pair = last := by
  rcases Nat.lt_or_ge j taken.length with hlt | hge
  · exact .inl (List.getElem?_append_left hlt ▸ h)
  · rw [List.getElem?_append_right hge] at h
    exact .inr (List.mem_singleton.1 (List.mem_of_getElem? h))

/-- It stays the latest until the next miss on the key, or a clear. -/
theorem append (h : LatestMiss index taken key answer) {request : Step} {reply : Reply α}
    (hclear : request ≠ .clear)
    (hmiss : ∀ query other, request = .find query → reply = .computed other →
      index.encode query ≠ .ok key) :
    LatestMiss index (taken ++ [(request, reply)]) key answer := by
  constructor
  · exact h.payloads
  · obtain ⟨query, hquery, hcode⟩ := h.computed
    exact ⟨query, by rw [List.getElem?_append_left h.step_lt, hquery], hcode⟩
  · intro j hj query other hfind
    rcases getElem?_snoc hfind with hfind | heq
    · exact h.latest j hj query other hfind
    · obtain ⟨hrequest, hreply⟩ := Prod.mk.inj heq
      exact hmiss query other hrequest.symm hreply.symm
  · intro j hj reply' hfind
    rcases getElem?_snoc hfind with hfind | heq
    · exact h.uncleared j hj reply' hfind
    · exact hclear (Prod.mk.inj heq).1.symm

end LatestMiss


/-! ## One step -/

namespace CachedIndex

variable {cached : CachedIndex α} {query : List QueryValue} {key : CodedQuery}

theorem step_of_refused {error : Error} (h : cached.index.encode query = .error error) :
    cached.step (.find query) =
      ⟨(.refused error, { cached with steps := cached.steps + 1 }), []⟩ := by
  simp [step, h]

theorem step_of_miss (h : cached.index.encode query = .ok key)
    (hmiss : key ∉ cached.answers.keys) :
    let answer : Answer α := ⟨cached.index.findCoded key, cached.steps⟩
    cached.step (.find query) =
      ⟨(.computed answer, { cached with
          answers := cached.answers.put key answer, steps := cached.steps + 1 }), [.cacheMiss]⟩ := by
  simp [step, h, lookup, Recency.use?_eq_none_iff.2 hmiss]

theorem step_of_hit (h : cached.index.encode query = .ok key) (hhit : key ∈ cached.answers.keys) :
    ∃ answer, (key, answer) ∈ cached.answers.entries ∧ cached.step (.find query) =
      ⟨(.shared answer, { cached with
          answers := cached.answers.put key answer, steps := cached.steps + 1 }), [.cacheHit]⟩ := by
  have hsome : cached.answers.use? key ≠ none := fun hnone => Recency.use?_eq_none_iff.1 hnone hhit
  obtain ⟨⟨answer, answers⟩, huse⟩ := Option.ne_none_iff_exists'.1 hsome
  obtain ⟨hmem, rfl⟩ := Recency.use?_eq_some huse
  exact ⟨answer, hmem, by simp [step, h, lookup, huse]⟩


/-! ## What is remembered -/

/-- What a cached index remembers of the steps taken and their replies. -/
structure Remembers (cached : CachedIndex α) (index : Index α) (size : Nat)
    (taken : List (Step × Reply α)) : Prop where
  wraps : cached.index = index
  steps : cached.steps = taken.length
  capacity : cached.answers.capacity = max 1 size
  holds : cached.answers.Holds (index.lookups (taken.map Prod.fst))
  latest : ∀ entry ∈ cached.answers.entries, LatestMiss index taken entry.1 entry.2

namespace Remembers

variable {index : Index α} {size : Nat} {taken : List (Step × Reply α)}

theorem new (index : Index α) (size : Nat) : (new index size).Remembers index size [] where
  wraps := rfl
  steps := rfl
  capacity := rfl
  holds := Recency.Holds.clear { capacity := max 1 size }
  latest := by simp [CachedIndex.new]

/-- A step that touches no answer keeps what is remembered. -/
theorem idle (h : cached.Remembers index size taken) {request : Step} {reply : Reply α}
    (hclear : request ≠ .clear) (hlookup : index.lookup? request = none) :
    { cached with steps := cached.steps + 1 }.Remembers index size
      (taken ++ [(request, reply)]) where
  wraps := h.wraps
  steps := by simp [h.steps]
  capacity := h.capacity
  holds := by
    rw [List.map_append, List.map_singleton, Index.lookups_idle hclear hlookup]
    exact h.holds
  latest entry hentry := by
    refine (h.latest entry hentry).append hclear fun query other hfind _ hcode => ?_
    simp [hfind, Index.lookup?, hcode, Except.toOption] at hlookup

/-- A step that uses the answer of the latest miss on a key puts the key in front. -/
theorem use (h : cached.Remembers index size taken) {reply : Reply α} {answer : Answer α}
    (hcode : index.encode query = .ok key)
    (hanswer : LatestMiss index (taken ++ [(Step.find query, reply)]) key answer) :
    { cached with
      answers := cached.answers.put key answer, steps := cached.steps + 1 }.Remembers index size
      (taken ++ [(Step.find query, reply)]) where
  wraps := h.wraps
  steps := by simp [h.steps]
  capacity := h.capacity
  holds := by
    rw [List.map_append, List.map_singleton, Index.lookups_find hcode]
    refine h.holds.put ?_ key answer
    rw [h.capacity]
    omega
  latest entry hentry := by
    rcases Recency.mem_entries_put hentry with rfl | ⟨hne, hentry⟩
    · exact hanswer
    · refine (h.latest entry hentry).append Step.noConfusion fun query' other hfind _ hcode' => ?_
      obtain rfl := Step.find.inj hfind
      exact hne (Except.ok.inj (hcode'.symm.trans hcode))

/-- Every step keeps what is remembered. -/
theorem step (h : cached.Remembers index size taken) (request : Step) :
    (cached.step request).value.2.Remembers index size
      (taken ++ [(request, (cached.step request).value.1)]) := by
  cases request with
  | find query =>
    cases hcode : index.encode query with
    | error error =>
      rw [step_of_refused (h.wraps.symm ▸ hcode)]
      exact h.idle Step.noConfusion (by simp [Index.lookup?, hcode, Except.toOption])
    | ok key =>
      have hown : cached.index.encode query = .ok key := h.wraps.symm ▸ hcode
      by_cases hheld : key ∈ cached.answers.keys
      · obtain ⟨answer, hmem, hstep⟩ := step_of_hit hown hheld
        rw [hstep]
        refine h.use hcode ?_
        exact (h.latest _ hmem).append Step.noConfusion fun _ _ _ hreply => nomatch hreply
      · rw [step_of_miss hown hheld]
        refine h.use hcode ?_
        exact .of_miss hcode (by rw [h.wraps, h.steps])
  | clear =>
    exact {
      wraps := h.wraps
      steps := by simp [CachedIndex.step, h.steps]
      capacity := h.capacity
      holds := by
        rw [List.map_append, List.map_singleton, Index.lookups_clear]
        exact Recency.Holds.clear _
      latest := by simp [CachedIndex.step, Recency.clear] }
  | size => exact h.idle Step.noConfusion rfl
  | inspect => exact h.idle Step.noConfusion rfl

/-- Every run keeps what is remembered. -/
theorem run (h : cached.Remembers index size taken) (requests : List Step) :
    (cached.after requests).Remembers index size (taken ++ cached.run requests) := by
  induction requests generalizing cached taken with
  | nil => simpa [CachedIndex.run, after] using h
  | cons request rest ih => simpa [CachedIndex.run, after] using ih (h.step request)

end Remembers

/-- What is remembered of a run from the beginning. -/
theorem remembers_run (index : Index α) (size : Nat) (history : List Step) :
    ((new index size).after history).Remembers index size ((new index size).run history) :=
  (Remembers.new index size).run history

end CachedIndex
end RuleIndex
