import QJazz.Cache.Handover

/-! `evict_by_popularity` removes the project that was asked for least in the time since it was
loaded. -/
namespace QJazz.Cache.Manager

open Python List

def popularity (now : ℚ) (e : CacheEntry) : ℚ := e.hits / (now - e.timestamp)

/-- The entry may be evicted, no entry that may be is less popular, and only this one is gone. -/
structure Evicts (cm : Manager) (cache : Entries) (e : CacheEntry) (after : Entries) : Prop where
  mem : e ∈ cache.items
  unpinned : e.pinned = false
  least : ∀ e' ∈ cache.items, e'.pinned = false → popularity cm.now e ≤ popularity cm.now e'
  others : after.items = cache.items.erase e

/-- One entry is evicted if there is one that may be, and otherwise nothing changes. -/
structure MakesRoom (cm : Manager) (cache : Entries) : Prop where
  nothing : (∀ e ∈ cache.items, e.pinned = true) → cm.evictByPopularity cache = (.ok none, cache)
  one : (∃ e ∈ cache.items, e.pinned = false) →
    ∃ e after, cm.evictByPopularity cache = (.ok (some e), after) ∧ cm.Evicts cache e after

variable {cm : Manager} {cache : Entries}

lemma items_erase_uri {e : CacheEntry} (h : e ∈ cache.items) :
    (cache.erase e.uri).items = cache.items.erase e := by
  have hn := cache.nodup_items.of_map
  rw [Dict.items_erase, hn.erase_eq_filter]
  refine filter_congr fun e' he' => ?_
  by_cases heq : e' = e
  · simp [heq]
  · have hk : e'.uri ≠ e.uri := fun huri => heq (Dict.eq_of_key_eq he' h huri)
    simp [heq, hk]

lemma evictByPopularity_of_newborn (h : cm.Newborn cache) :
    cm.evictByPopularity cache = (.error .other, cache) := by
  obtain ⟨e, hm, hu, hn⟩ := h
  have hy : ((cache.items.filter fun e => !e.pinned).any fun e => cm.now = e.timestamp) := by
    rw [any_eq_true]
    exact ⟨e, mem_filter.2 ⟨hm, by simp [hu]⟩, by simp [hn]⟩
  rw [evictByPopularity, if_pos hy]

lemma evictByPopularity_of_not_newborn (h : ¬ cm.Newborn cache) : cm.evictByPopularity cache =
      ((cache.items.filter fun e => !e.pinned).argmin (popularity cm.now)).elim (.ok none, cache)
        fun e => (.ok (some e), cache.erase e.uri) := by
  have hn : ¬ ((cache.items.filter fun e => !e.pinned).any fun e => cm.now = e.timestamp) := by
    rw [any_eq_true]
    rintro ⟨e, he, ho⟩
    rw [mem_filter] at he
    exact h ⟨e, he.1, by simpa using he.2, by simpa using ho⟩
  have hk : (fun e : CacheEntry => (e.hits : ℚ) / (cm.now - e.timestamp)) = popularity cm.now := rfl
  rw [evictByPopularity, if_neg hn, hk]
  cases hm : (cache.items.filter fun e => !e.pinned).argmin (popularity cm.now) with
  | none => rfl
  | some e =>
    have hme := (mem_filter.1 (argmin_mem (Option.mem_def.2 hm))).1
    simp only [update_removed hme]
    rfl

lemma evicts_of_argmin {e : CacheEntry}
    (h : (cache.items.filter fun e => !e.pinned).argmin (popularity cm.now) = some e) :
    cm.Evicts cache e (cache.erase e.uri) := by
  obtain ⟨hm, hn⟩ := mem_filter.1 (argmin_mem (Option.mem_def.2 h))
  exact
    { mem := hm
      unpinned := by simpa using hn
      least := by
        intro e' he' hu
        refine le_of_mem_argmin (mem_filter.2 ⟨he', ?_⟩) (Option.mem_def.2 h)
        simp [hu]
      others := items_erase_uri hm }

/-- The eviction does what it is for exactly if no entry that may be evicted is as young as the moment
of the eviction. -/
theorem makesRoom_iff (cm : Manager) (cache : Entries) :
    cm.MakesRoom cache ↔ ¬ cm.Newborn cache := by
  constructor
  · rintro h hn
    obtain ⟨e, hme, hu, -⟩ := id hn
    obtain ⟨e', a, hv, -⟩ := h.one ⟨e, hme, hu⟩
    rw [evictByPopularity_of_newborn hn] at hv
    cases hv
  · intro h
    have hv := evictByPopularity_of_not_newborn h
    cases hm : (cache.items.filter fun e => !e.pinned).argmin (popularity cm.now) with
    | none =>
      rw [hm] at hv
      refine ⟨fun _ => hv, ?_⟩
      rintro ⟨e, hme, hu⟩
      have hl := argmin_eq_none.1 hm
      have he : e ∈ cache.items.filter fun e => !e.pinned :=
        mem_filter.2 ⟨hme, by simp [hu]⟩
      rw [hl] at he
      cases he
    | some e =>
      rw [hm] at hv
      have hi := evicts_of_argmin hm
      refine ⟨fun hal => ?_, fun _ => ⟨e, _, hv, hi⟩⟩
      have hp := hal e hi.mem
      rw [hi.unpinned] at hp
      cases hp

def loadingStorage : Manager where
  __ := mapStorage
  now := 1

/-- A clock that has not moved since the map was loaded. -/
theorem not_makesRoom_loadingStorage : (∀ e ∈ [loadedMap], e.timestamp ≤ loadingStorage.now) ∧
      (loadingStorage.evictByPopularity (.roomy [loadedMap] (by decide))).1 = .error .other ∧
      ¬ loadingStorage.MakesRoom (.roomy [loadedMap] (by decide)) := by
  have hr :
      (loadingStorage.evictByPopularity (.roomy [loadedMap] (by decide))).1 = .error .other := by
    decide +kernel
  refine ⟨by decide +kernel, hr, fun h => ?_⟩
  obtain ⟨e, a, he, -⟩ := h.one ⟨loadedMap, by simp, rfl⟩
  rw [he] at hr
  cases hr

end QJazz.Cache.Manager
