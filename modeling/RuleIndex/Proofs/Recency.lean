-- SUMMARY: Recency lists and the history of uses: which keys are held, and in which order, after any number of uses.
import Mathlib.Data.Finset.Card
import RuleIndex.Recency

/-!
# Recency lists and the history of uses

A recency list holds the keys that were used last, up to its capacity. `Recency.Holds` says so
of a list of uses, latest first, that goes back to the last time the list was empty. Every use
keeps it, whether the key was held before or not, and it tells which keys are held
(`Recency.Holds.mem_keys_iff`) and how many (`Recency.Holds.size_eq`).
-/

namespace RuleIndex

variable {κ ν : Type} [DecidableEq κ]

/-! ## Keys by their last use -/

/-- The keys of a list of uses in the order of their last use. Both lists begin with the
    latest. -/
def byLastUse : List κ → List κ
  | [] => []
  | key :: uses => key :: (byLastUse uses).filter (· != key)

@[simp] theorem mem_byLastUse {key : κ} {uses : List κ} : key ∈ byLastUse uses ↔ key ∈ uses := by
  induction uses with
  | nil => simp [byLastUse]
  | cons k uses ih =>
    by_cases h : key = k
    · simp [byLastUse, h]
    · simp [byLastUse, ih, h]

theorem nodup_byLastUse (uses : List κ) : (byLastUse uses).Nodup := by
  induction uses with
  | nil => exact List.nodup_nil
  | cons key uses ih =>
    refine List.nodup_cons.2 ⟨?_, ih.filter _⟩
    simp

theorem length_byLastUse (uses : List κ) : (byLastUse uses).length = uses.toFinset.card := by
  rw [← List.toFinset_card_of_nodup (nodup_byLastUse uses)]
  congr 1
  ext key
  simp

/-- The keys used after the last use of a key stand before it. -/
theorem byLastUse_append_cons {key : κ} {newer : List κ} (older : List κ) (h : key ∉ newer) :
    ∃ rest, byLastUse (newer ++ key :: older) = byLastUse newer ++ key :: rest := by
  induction newer with
  | nil => exact ⟨_, rfl⟩
  | cons k newer ih =>
    obtain ⟨hne, h⟩ := not_or.1 (List.mem_cons.not.1 h)
    obtain ⟨rest, hrest⟩ := ih h
    refine ⟨rest.filter (· != k), ?_⟩
    simp [byLastUse, hrest, hne]

/-- Cutting a list before a key is dropped from it leaves as many other keys as cutting it
    after, one less than were cut. -/
theorem take_filter_take {keys : List κ} (hnodup : keys.Nodup) (key : κ) (n : Nat) :
    ((keys.take (n + 1)).filter (· != key)).take n = (keys.filter (· != key)).take n := by
  induction keys generalizing n with
  | nil => simp
  | cons k keys ih =>
    obtain ⟨hk, hnodup⟩ := List.nodup_cons.1 hnodup
    by_cases heq : k = key
    · -- The key stands in front, and no other place holds it.
      subst heq
      have hkeep : ∀ l : List κ, k ∉ l → l.filter (· != k) = l := by
        intro l hl
        refine List.filter_eq_self.2 fun k' hk' => bne_iff_ne.2 ?_
        exact fun h => hl (h ▸ hk')
      simp [hkeep _ hk, hkeep _ fun h => hk (List.mem_of_mem_take h)]
    · cases n with
      | zero => simp
      | succ n => simp [heq, ih hnodup n]

/-- The key was used, and fewer than `room` different keys after its last use. -/
def UsedWithin (room : Nat) (uses : List κ) (key : κ) : Prop :=
  key ∈ uses ∧ (uses.takeWhile (· != key)).toFinset.card < room

instance (room : Nat) (uses : List κ) (key : κ) : Decidable (UsedWithin room uses key) :=
  inferInstanceAs (Decidable (_ ∧ _))


/-! ## What a recency list holds -/

namespace Recency

/-- The keys held, in the order of their last use, latest first. -/
def keys (map : Recency κ ν) : List κ :=
  map.entries.map Prod.fst

variable {map : Recency κ ν} {key : κ} {value : ν}

theorem keys_put (map : Recency κ ν) (key : κ) (value : ν) :
    (map.put key value).keys = (key :: map.keys.filter (· != key)).take map.capacity := by
  simp [put, keys, List.map_take, List.filter_map, Function.comp_def]

/-- A use keeps the other entries, or drops them, but does not change them. -/
theorem mem_entries_put {entry : κ × ν} (h : entry ∈ (map.put key value).entries) :
    entry = (key, value) ∨ entry.1 ≠ key ∧ entry ∈ map.entries := by
  rcases List.mem_cons.1 (List.mem_of_mem_take h) with rfl | h
  · exact .inl rfl
  · obtain ⟨hmem, hne⟩ := List.mem_filter.1 h
    exact .inr ⟨bne_iff_ne.1 hne, hmem⟩

theorem use?_eq_none_iff : map.use? key = none ↔ key ∉ map.keys := by
  rw [use?, Option.map_eq_none_iff, List.lookup_eq_none_iff, keys, List.mem_map]
  simp only [bne_iff_ne, ne_eq, not_exists, not_and, eq_comm (a := key)]

/-- A key that is held has its value, and is put in front. -/
theorem use?_eq_some {after : Recency κ ν} (h : map.use? key = some (value, after)) :
    (key, value) ∈ map.entries ∧ after = map.put key value := by
  obtain ⟨own, hown, hafter⟩ := Option.map_eq_some_iff.1 h
  obtain ⟨rfl, rfl⟩ := Prod.mk.inj hafter
  obtain ⟨front, back, hentries, _⟩ := List.lookup_eq_some_iff.1 hown
  exact ⟨by simp [hentries], rfl⟩

/-- The list holds the keys that were used last, as many as it has room for. -/
def Holds (map : Recency κ ν) (uses : List κ) : Prop :=
  map.keys = (byLastUse uses).take map.capacity

namespace Holds

variable {uses : List κ}

theorem clear (map : Recency κ ν) : map.clear.Holds [] := by
  simp [Holds, Recency.clear, keys, byLastUse]

/-- A use of a key, held or not, adds to the uses. -/
theorem put (h : map.Holds uses) (hcapacity : 0 < map.capacity) (key : κ) (value : ν) :
    (map.put key value).Holds (key :: uses) := by
  obtain ⟨n, hn⟩ : ∃ n, map.capacity = n + 1 := ⟨map.capacity - 1, by omega⟩
  have hput : (map.put key value).capacity = n + 1 := hn
  unfold Holds at h ⊢
  rw [keys_put, h, hput, hn, byLastUse, List.take_succ_cons, List.take_succ_cons,
    take_filter_take (nodup_byLastUse uses)]

/-- A key is held if it was used and not too many others have been used since. -/
theorem mem_keys_iff (h : map.Holds uses) :
    key ∈ map.keys ↔ UsedWithin map.capacity uses key := by
  rw [h, UsedWithin]
  by_cases hmem : key ∈ uses
  · -- The uses split at the last use of the key; `newer` are those since.
    obtain ⟨newer, older, rfl, hnewer⟩ := List.eq_append_cons_of_mem hmem
    obtain ⟨rest, hrest⟩ := byLastUse_append_cons older hnewer
    have htakeWhile : (newer ++ key :: older).takeWhile (· != key) = newer := by
      have hne : ∀ k ∈ newer, (k != key) = true :=
        fun k hk => bne_iff_ne.2 fun h => hnewer (h ▸ hk)
      rw [List.takeWhile_append_of_pos hne]
      simp
    have hbefore : key ∉ (byLastUse newer).take map.capacity :=
      fun h => hnewer (mem_byLastUse.1 (List.mem_of_mem_take h))
    rw [htakeWhile, hrest, List.take_append, ← length_byLastUse]
    by_cases hlt : (byLastUse newer).length < map.capacity
    · obtain ⟨n, hn⟩ : ∃ n, map.capacity - (byLastUse newer).length = n + 1 :=
        ⟨map.capacity - (byLastUse newer).length - 1, by omega⟩
      simp [hlt, hn]
    · have hzero : map.capacity - (byLastUse newer).length = 0 := by omega
      simp [hlt, hzero, hbefore]
  · have hnot : key ∉ (byLastUse uses).take map.capacity :=
      fun h => hmem (mem_byLastUse.1 (List.mem_of_mem_take h))
    simp [hmem, hnot]

theorem size_eq (h : map.Holds uses) : map.size = min map.capacity uses.toFinset.card := by
  have hlength : map.keys.length = map.size := List.length_map ..
  rw [← hlength, h, List.length_take, length_byLastUse]

end Holds
end Recency
end RuleIndex
