import QJazz.Cache.Handover

/-! `update_cache` goes through the entries of the very table that it removes entries from and adds
entries to. -/
namespace QJazz.Cache.Manager

open Python

def examined (cm : Manager) (cache : Entries) : List CacheEntry :=
  cache.visitItems cm.updateEntry

/-- Every project that still exists has an entry with its modification time, and nothing else has. -/
structure Refreshed (cm : Manager) (before after : Entries) : Prop where
  kept : ∀ e ∈ before.items, ∀ md, cm.refreshMetadata e.md = .ok md →
    ∃ e', after.get? e.uri = some e' ∧ e'.md.lastModified = md.lastModified
  exist : ∀ e' ∈ after.items, ∃ e ∈ before.items, e.uri = e'.uri ∧
    ∃ md, cm.refreshMetadata e.md = .ok md

/-- The refresh ends without an error, looks at each entry once and leaves the projects that exist. -/
structure Swept (cm : Manager) (cache : Entries) : Prop where
  ends : (cm.updateCache cache).1 = none
  once : (cm.examined cache).Perm cache.items
  refreshed : cm.Refreshed cache (cm.updateCache cache).2

/-- The project of the entry exists and was not modified, neither forwards nor backwards. -/
def Current (cm : Manager) (e : CacheEntry) : Prop :=
  cm.hasHandler e.md.scheme = true ∧
    ∃ md, cm.refreshMetadata e.md = .ok md ∧ md.lastModified = e.md.lastModified

def goneStorage : Manager where
  __ := mapStorage
  refreshMetadata md := .error (.fileNotFound md.uri)
  refresh_uri h := by cases h

def newerStorage : Manager where
  __ := mapStorage
  refreshMetadata md := .ok { md with lastModified := 2 }
  refresh_uri h := by
    cases h
    rfl

variable {cm : Manager} {cache : Entries} {e : CacheEntry}

lemma Current.still (h : cm.Current e) : cm.Still e := by
  obtain ⟨hscheme, md, hmd, ht⟩ := h
  exact ⟨hscheme, md, hmd, ht.le⟩

lemma updateCache_of_still (h : ∀ e ∈ cache.items, cm.Still e) :
    cm.updateCache cache = (none, cache) ∧ cm.examined cache = cache.items := by
  have hm : ∀ e ∈ cache.rest 0, cm.updateEntry e cache = (none, cache) := fun e he =>
    cm.updateEntry_refreshes.same (h e he)
  exact ⟨Dict.forEach_of_same le_rfl hm, Dict.visits_of_same le_rfl hm⟩

lemma current_of_refreshed (h : cm.Refreshed cache cache) (he : e ∈ cache.items)
    (ht : cm.Still e) : cm.Current e := by
  obtain ⟨hscheme, md, hmd, -⟩ := ht
  obtain ⟨e', hget, hi⟩ := h.kept e he md hmd
  have hm := Dict.get?_of_mem he
  rw [hm, Option.some.injEq] at hget
  exact ⟨hscheme, md, hmd, by rw [hget, hi]⟩

lemma refreshed_of_current (h : ∀ e ∈ cache.items, cm.Current e) : cm.Refreshed cache cache where
  kept := by
    intro e he md hmd
    obtain ⟨-, md', hm, ht⟩ := h e he
    rw [hmd, Except.ok.injEq] at hm
    exact ⟨e, Dict.get?_of_mem he, hm ▸ ht.symm⟩
  exist := by
    intro e he
    obtain ⟨-, md, hmd, -⟩ := h e he
    exact ⟨e, he, rfl, md, hmd⟩

/-- Whatever the table looks like, a refresh does what it is for exactly if it has nothing to do. -/
theorem swept_iff (cm : Manager) (cache : Entries) :
    (∀ cache' : Entries, cache'.items = cache.items → cm.Swept cache') ↔
      ∀ e ∈ cache.items, cm.Current e := by
  constructor
  · intro h e he
    have ht : ∀ e ∈ cache.items, cm.Still e :=
      (Dict.forItems_iff cm.updateEntry_refreshes cache).1 fun cache' hi => (h cache' hi).ends
    have hr := (h cache rfl).refreshed
    rw [(updateCache_of_still ht).1] at hr
    exact current_of_refreshed hr he (ht e he)
  · intro h cache' hi
    rw [← hi] at h
    obtain ⟨hn, ho⟩ := updateCache_of_still fun e he => (h e he).still
    exact
      { ends := by rw [hn]
        once := by rw [ho]
        refreshed := by
          rw [hn]
          exact refreshed_of_current h }

theorem not_swept_mapStorage :
    (goneStorage.updateCache (.roomy [loadedMap] (by decide))).1 = some .other ∧
      ¬ goneStorage.Swept (.roomy [loadedMap] (by decide)) ∧
      (newerStorage.updateCache (.roomy [loadedMap] (by decide))).1 = some .other ∧
      ¬ newerStorage.Swept (.roomy [loadedMap] (by decide)) := by
  have hgone : (goneStorage.updateCache (.roomy [loadedMap] (by decide))).1 = some .other := by
    decide +kernel
  have hn : (newerStorage.updateCache (.roomy [loadedMap] (by decide))).1 = some .other := by
    decide +kernel
  refine ⟨hgone, fun h => ?_, hn, fun h => ?_⟩
  · exact absurd h.ends (by simp [hgone])
  · exact absurd h.ends (by simp [hn])

end QJazz.Cache.Manager
