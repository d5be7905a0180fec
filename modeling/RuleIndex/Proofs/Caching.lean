-- SUMMARY: Caching: a cached index answers as the index does, and holds exactly the answers to the keys looked up last.
import RuleIndex.Proofs.Build
import RuleIndex.Proofs.Runs

/-!
# Caching

Over any run, a cached index answers each find as the index itself does, and an answer that is
shared comes from an earlier find of the same key (`CachedIndex.run_transparent`). Which finds
share an answer depends on the keys looked up since the last clear alone
(`CachedIndex.find_shared_or_computed`).
-/

namespace RuleIndex

variable {α : Type}

/-- What a find answers; the other steps answer nothing. -/
def Reply.found : Reply α → Option (Except Error (List α))
  | .computed answer | .shared answer => some (.ok answer.payloads)
  | .refused error => some (.error error)
  | .done => none

variable [DecidableEq α]

/-! ## Spellings of a query -/

namespace Sample

/-- The sample query, written differently. -/
def respelled : List QueryValue :=
  [.many [.text "blue", .text "red", .text "red"], .many [.integer 2], .many [.text "x"],
    .single (.text "EU")]

/-- A query for everything. -/
def anything : List QueryValue :=
  [.wildcard, .wildcard, .many [], .wildcard]

theorem exists_keys {built : Logged (Index String)}
    (h : Index.build dimensions rules = .ok built) :
    ∃ key other, built.value.encode query = .ok key ∧ built.value.encode respelled = .ok key ∧
      built.value.encode anything = .ok other ∧ key ≠ other := by
  simp only [Index.encode, Index.space_of_build h]
  exact ⟨_, _, rfl, rfl, rfl, by decide⟩

end Sample


namespace CachedIndex

/-! ## One find -/

namespace Remembers

variable {cached : CachedIndex α} {index : Index α} {size : Nat} {taken : List (Step × Reply α)}
  {query : List QueryValue} {key : CodedQuery}

theorem mem_keys_iff (h : cached.Remembers index size taken) : key ∈ cached.answers.keys ↔
    UsedWithin (max 1 size) (index.lookups (taken.map Prod.fst)) key := by
  rw [h.holds.mem_keys_iff, h.capacity]

theorem size_eq (h : cached.Remembers index size taken) :
    cached.size = min (max 1 size) (index.lookups (taken.map Prod.fst)).toFinset.card := by
  rw [CachedIndex.size, h.holds.size_eq, h.capacity]

/-- A find of a key that is held shares the answer of the latest miss on it. -/
theorem find_shared (h : cached.Remembers index size taken) (hcode : index.encode query = .ok key)
    (hheld : key ∈ cached.answers.keys) :
    ∃ answer, LatestMiss index taken key answer ∧
      (cached.step (.find query)).value.1 = .shared answer ∧
      (cached.step (.find query)).log = [.cacheHit] := by
  obtain ⟨answer, hmem, hstep⟩ := step_of_hit (h.wraps.symm ▸ hcode) hheld
  exact ⟨answer, h.latest _ hmem, by rw [hstep], by rw [hstep]⟩

/-- A find of a key that is not held computes an answer. -/
theorem find_computed (h : cached.Remembers index size taken)
    (hcode : index.encode query = .ok key) (hheld : key ∉ cached.answers.keys) :
    (cached.step (.find query)).value.1 = .computed ⟨index.findCoded key, taken.length⟩ ∧
      (cached.step (.find query)).log = [.cacheMiss] := by
  rw [step_of_miss (h.wraps.symm ▸ hcode) hheld, h.wraps, h.steps]
  exact ⟨rfl, rfl⟩

/-- What a find can do: refuse its query, share an answer or compute one. -/
theorem find_cases (h : cached.Remembers index size taken) (query : List QueryValue) :
    (∃ error, index.encode query = .error error ∧
      (cached.step (.find query)).value.1 = .refused error) ∨
    (∃ key answer, index.encode query = .ok key ∧ LatestMiss index taken key answer ∧
      (cached.step (.find query)).value.1 = .shared answer) ∨
    ∃ key, index.encode query = .ok key ∧
      (cached.step (.find query)).value.1 = .computed ⟨index.findCoded key, taken.length⟩ := by
  cases hcode : index.encode query with
  | error error =>
    refine .inl ⟨error, rfl, ?_⟩
    rw [step_of_refused (h.wraps.symm ▸ hcode)]
  | ok key =>
    by_cases hheld : key ∈ cached.answers.keys
    · obtain ⟨answer, hlatest, hreply, _⟩ := h.find_shared hcode hheld
      exact .inr (.inl ⟨key, answer, rfl, hlatest, hreply⟩)
    · exact .inr (.inr ⟨key, rfl, (h.find_computed hcode hheld).1⟩)

/-- A find answers what the index answers. -/
theorem found_eq (h : cached.Remembers index size taken) (query : List QueryValue) :
    (cached.step (.find query)).value.1.found = some (index.find query) := by
  obtain ⟨error, hcode, hreply⟩ | ⟨key, answer, hcode, hlatest, hreply⟩ | ⟨key, hcode, hreply⟩ :=
    h.find_cases query
  · rw [hreply, Index.find_eq_error_iff.2 hcode]
    rfl
  · rw [hreply, Index.find_eq_ok hcode, ← hlatest.payloads]
    rfl
  · rw [hreply, Index.find_eq_ok hcode]
    rfl

/-- A shared answer is that of the latest miss on the key of the find. -/
theorem latestMiss_of_shared (h : cached.Remembers index size taken) {answer : Answer α}
    (hshared : (cached.step (.find query)).value.1 = .shared answer) :
    ∃ key, index.encode query = .ok key ∧ LatestMiss index taken key answer := by
  obtain ⟨error, _, hreply⟩ | ⟨key, own, hcode, hlatest, hreply⟩ | ⟨key, _, hreply⟩ :=
    h.find_cases query
  · cases hshared.symm.trans hreply
  · obtain rfl := Reply.shared.inj (hshared.symm.trans hreply)
    exact ⟨key, hcode, hlatest⟩
  · cases hshared.symm.trans hreply

end Remembers


/-! ## Runs -/

/-- A find in a run starts from what is remembered of the run before it. -/
theorem exists_remembers_of_find {index : Index α} {size : Nat} {requests : List Step} {i : Nat}
    {query : List QueryValue} {reply : Reply α}
    (h : ((new index size).run requests)[i]? = some (.find query, reply)) :
    ∃ cached,
      Remembers cached index size (((new index size).run requests).take i) ∧
      (cached.step (.find query)).value.1 = reply := by
  rw [getElem?_run, Option.map_eq_some_iff] at h
  obtain ⟨request, _, hpair⟩ := h
  obtain ⟨rfl, hreply⟩ := Prod.mk.inj hpair
  have hbefore := remembers_run index size (requests.take i)
  rw [run_take] at hbefore
  exact ⟨_, hbefore, hreply⟩

/-- An answer is shared from an earlier find of the same key, and no clear comes between. -/
theorem exists_earlier_of_shared {index : Index α} {size : Nat} {requests : List Step} {i : Nat}
    {query : List QueryValue} {answer : Answer α}
    (h : ((new index size).run requests)[i]? = some (.find query, .shared answer)) :
    ∃ earlier key, answer.step < i ∧
      ((new index size).run requests)[answer.step]? =
        some (Step.find earlier, Reply.computed answer) ∧
      index.encode earlier = .ok key ∧ index.encode query = .ok key ∧
      ∀ j, answer.step < j → j < i → requests[j]? ≠ some .clear := by
  obtain ⟨before, hbefore, hshared⟩ := exists_remembers_of_find h
  obtain ⟨key, hcode, hlatest⟩ := hbefore.latestMiss_of_shared hshared
  obtain ⟨earlier, hearlier, hsame⟩ := hlatest.computed
  have hlt : answer.step < i := (List.length_take_le ..).trans_lt' hlatest.step_lt
  rw [List.getElem?_take_of_lt hlt] at hearlier
  refine ⟨earlier, key, hlt, hearlier, hsame, hcode, fun j hgt hj hclear => ?_⟩
  -- A clear at place `j` would be there in the run before `i` too, with its reply.
  refine hlatest.uncleared j hgt (((new index size).after (requests.take j)).step .clear).value.1 ?_
  rw [List.getElem?_take_of_lt hj, getElem?_run, hclear]
  rfl

/-- Every find of a run answers what the index answers. An answer is shared from an earlier find
    of the same key, and no clear comes between. Steps that look nothing up leave the answers and
    their order. -/
theorem run_transparent (index : Index α) (size : Nat) (requests : List Step) :
    let cached := (new index size).after requests
    let taken := (new index size).run requests
    (∀ (i : Nat) query reply, taken[i]? = some (Step.find query, reply) →
      reply.found = some (index.find query)) ∧
    (∀ (i : Nat) query answer, taken[i]? = some (Step.find query, Reply.shared answer) →
      ∃ earlier key, answer.step < i ∧
        taken[answer.step]? = some (Step.find earlier, Reply.computed answer) ∧
        index.encode earlier = .ok key ∧ index.encode query = .ok key ∧
        ∀ j, answer.step < j → j < i → requests[j]? ≠ some .clear) ∧
    cached.index = index ∧
    (∀ query error, index.find query = .error error →
      (cached.step (.find query)).value.2.answers = cached.answers) ∧
    (cached.step .size).value.2.answers = cached.answers ∧
    (cached.step .inspect).value.2.answers = cached.answers := by
  intro cached taken
  have hcached : cached.Remembers index size taken := remembers_run index size requests
  refine ⟨fun i query reply hfind => ?_, fun i query answer => exists_earlier_of_shared,
    hcached.wraps, fun query error hfind => ?_, rfl, rfl⟩
  · obtain ⟨before, hbefore, rfl⟩ := exists_remembers_of_find hfind
    exact hbefore.found_eq query
  · have hcode : cached.index.encode query = .error error := by
      rw [hcached.wraps]
      exact Index.find_eq_error_iff.1 hfind
    rw [step_of_refused hcode]

theorem transparent_sample : ∃ built, ∃ answer : Answer String,
    Index.build Sample.dimensions Sample.rules = .ok built ∧
    let cached := (new built.value 1).after [.find Sample.query, .find Sample.respelled]
    built.value.find Sample.respelled = .ok answer.payloads ∧ answer.step = 0 ∧
    (cached.step (.find [])).value.2.answers = cached.answers := by
  obtain ⟨built, answer, h, hshared⟩ : ∃ built answer,
      Index.build Sample.dimensions Sample.rules = .ok built ∧
      ((new built.value 1).run [.find Sample.query, .find Sample.respelled])[1]? =
        some (.find Sample.respelled, .shared answer) :=
    ⟨_, _, rfl, rfl⟩
  obtain ⟨hfound, hearlier, _, hrefused, _⟩ :=
    run_transparent built.value 1 [.find Sample.query, .find Sample.respelled]
  obtain ⟨_, _, hlt, _⟩ := hearlier 1 _ _ hshared
  refine ⟨built, answer, h, (Option.some.inj (hfound 1 _ _ hshared)).symm, by omega, ?_⟩
  apply hrefused [] (.dimensionCount 4 0)
  rw [Index.find_eq_error_iff, Index.encode, Index.space_of_build h]
  rfl

/-- After any history a find shares an answer if its key is among the keys looked up last, and
    the answer is that of the latest miss on the key. Otherwise it computes its answer. -/
theorem find_shared_or_computed (index : Index α) (size : Nat) (history : List Step) :
    let cached := (new index size).after history
    let lookups := index.lookups history
    cached.size = min (max 1 size) lookups.toFinset.card ∧
    ∀ query key, index.encode query = .ok key →
      let outcome := cached.step (.find query)
      ((∃ answer, outcome.value.1 = .shared answer) ↔ UsedWithin (max 1 size) lookups key) ∧
      (∀ answer, outcome.value.1 = .shared answer →
        LatestMiss index ((new index size).run history) key answer ∧
        outcome.log.map Event.message = ["rule tree cache hit"]) ∧
      (¬ UsedWithin (max 1 size) lookups key →
        outcome.value.1 = .computed ⟨index.findCoded key, history.length⟩ ∧
        outcome.log.map Event.message = ["rule tree cache miss"]) := by
  intro cached lookups
  have hcached : cached.Remembers index size ((new index size).run history) :=
    remembers_run index size history
  have hsize : cached.size = min (max 1 size) lookups.toFinset.card := by
    rw [hcached.size_eq, map_fst_run]
  refine ⟨hsize, fun query key hcode => ?_⟩
  have hheld : key ∈ cached.answers.keys ↔ UsedWithin (max 1 size) lookups key := by
    rw [hcached.mem_keys_iff, map_fst_run]
  rw [← hheld]
  by_cases hmem : key ∈ cached.answers.keys
  · obtain ⟨answer, hlatest, hreply, hlog⟩ := hcached.find_shared hcode hmem
    refine ⟨iff_of_true ⟨answer, hreply⟩ hmem, fun own hown => ?_, absurd hmem⟩
    obtain rfl := Reply.shared.inj (hreply.symm.trans hown)
    exact ⟨hlatest, by rw [hlog]; rfl⟩
  · obtain ⟨hreply, hlog⟩ := hcached.find_computed hcode hmem
    rw [length_run] at hreply
    refine ⟨iff_of_false (fun ⟨answer, h⟩ => ?_) hmem, fun answer h => ?_, fun _ => ?_⟩
    · cases hreply.symm.trans h
    · cases hreply.symm.trans h
    · exact ⟨hreply, by rw [hlog]; rfl⟩

/-- With room for one key, a second spelling shares the answer until another key is looked up. -/
theorem find_shared_sample : ∃ built, Index.build Sample.dimensions Sample.rules = .ok built ∧
    (∃ answer, (((new built.value 0).after [.find Sample.query]).step
      (.find Sample.respelled)).value.1 = .shared answer) ∧
    (((new built.value 0).after [.find Sample.query, .find Sample.anything]).step
      (.find Sample.respelled)).log.map Event.message = ["rule tree cache miss"] := by
  obtain ⟨built, h⟩ := Sample.exists_build
  obtain ⟨key, other, hquery, hrespelled, hother, hne⟩ := Sample.exists_keys h
  refine ⟨built, h, ?_, ?_⟩
  · obtain ⟨_, hfind⟩ := find_shared_or_computed built.value 0 [.find Sample.query]
    refine (hfind Sample.respelled key hrespelled).1.2 ?_
    simp [UsedWithin, Index.lookups, Index.lookup?, hquery, Except.toOption]
  · obtain ⟨_, hfind⟩ :=
      find_shared_or_computed built.value 0 [.find Sample.query, .find Sample.anything]
    refine ((hfind Sample.respelled key hrespelled).2.2 ?_).2
    simp [UsedWithin, Index.lookups, Index.lookup?, hquery, hother, Except.toOption, hne.symm]

end CachedIndex
end RuleIndex
