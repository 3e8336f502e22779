import QJazz.Cache.Handover

/-! A new project gets its entry after it was loaded. An outdated one loses its entry before it is
loaded again, so if the load raises there is no entry left to serve requests from. -/
namespace QJazz.Cache.Manager

open Lexical Python
open Rpc.Worker (CheckoutStatus)

/-- If the project cannot be loaded, the cache has the entries that it had, and whatever is checked out
later is what would have been checked out before. -/
def KeepsProjects (cm : Manager) (cache : Entries) (md : ProjectMetadata) (status : CheckoutStatus) :
    Prop :=
  ∀ err, cm.project md = .error err →
    (cm.update cache md status).2.items = cache.items ∧
      ∀ (later : Manager) (url : Url),
        later.checkout (cm.update cache md status).2 url = later.checkout cache url

def Unloadable (cm : Manager) (md : ProjectMetadata) : Prop :=
  cm.hasHandler md.scheme = true ∧ ∃ err, cm.project md = .error err

variable {cm : Manager} {cache : Entries} {md : ProjectMetadata} {s : CheckoutStatus}
  {err : CacheError}

lemma newCacheEntry_of_error (h : cm.project md = .error err) :
    cm.newCacheEntry md = .error err := by
  rw [newCacheEntry, h]
  rfl

lemma load_of_error (h : cm.project md = .error err) : cm.load cache md = (.error err, cache) := by
  rw [load, newCacheEntry_of_error h]

lemma reload_of_error (h : cm.project md = .error err) :
    (cm.reload cache md).2 = if (cache.get? md.uri).isSome then cache.erase md.uri else cache := by
  rw [reload, deleteCacheEntry]
  cases cache.get? md.uri with
  | none => rfl
  | some e => exact congrArg Prod.snd (load_of_error h)

lemma update_new_of_error (h : cm.project md = .error err) :
    (cm.update cache md .NEW).2 = cache := by
  rw [update]
  split
  · rw [load_of_error h]
  · rfl

lemma update_needUpdate_of_error (h : cm.project md = .error err) :
    (cm.update cache md .NEEDUPDATE).2 =
      if cm.hasHandler md.scheme ∧ (cache.get? md.uri).isSome then cache.erase md.uri
      else cache := by
  rw [update]
  by_cases hh : cm.hasHandler md.scheme = true
  · simp only [hh, if_true, true_and]
    exact reload_of_error h
  · rw [if_neg hh, if_neg fun h => hh h.1]

lemma items_erase_ne (h : (cache.get? md.uri).isSome) :
    (cache.erase md.uri).items ≠ cache.items := by
  obtain ⟨e, he⟩ := Option.isSome_iff_exists.1 h
  obtain ⟨hm, huri⟩ := Dict.get?_eq_some he
  intro hi
  apply Dict.notMem_erase (d := cache) (k := md.uri)
  rw [hi, ← huri]
  exact List.mem_map_of_mem hm

lemma keepsProjects_needUpdate :
    cm.KeepsProjects cache md .NEEDUPDATE ↔ (cm.Unloadable md → cache.get? md.uri = none) := by
  constructor
  · rintro h ⟨hh, err, he⟩
    by_contra hentry
    have ho := Option.isSome_iff_ne_none.2 hentry
    have hi := (h err he).1
    rw [update_needUpdate_of_error he, if_pos ⟨hh, ho⟩] at hi
    exact items_erase_ne ho hi
  · intro h err he
    have hk : (cm.update cache md .NEEDUPDATE).2 = cache := by
      rw [update_needUpdate_of_error he, if_neg]
      rintro ⟨hh, ho⟩
      rw [h ⟨hh, err, he⟩] at ho
      cases ho
    rw [hk]
    exact ⟨rfl, fun _ _ => rfl⟩

/-- A new project that cannot be loaded leaves the cache alone, and an outdated one does so unless it
has an entry. -/
theorem keepsProjects_iff (cm : Manager) (cache : Entries) (md : ProjectMetadata) :
    cm.KeepsProjects cache md .NEW ∧
      (cm.KeepsProjects cache md .NEEDUPDATE ↔ (cm.Unloadable md → cache.get? md.uri = none)) := by
  refine ⟨fun err he => ?_, keepsProjects_needUpdate⟩
  rw [update_new_of_error he]
  exact ⟨rfl, fun _ _ => rfl⟩

def brokenStorage : Manager where
  __ := mapStorage
  projectMetadata _ := .ok { mapFile with lastModified := 3 }
  project _ := .error .other

/-- The map is outdated, and after the reload it is gone: the next checkout finds a new project. -/
theorem not_keepsProjects_brokenStorage :
    brokenStorage.checkout (.roomy [loadedMap] (by decide)) mapUrl = .ok (.needUpdate loadedMap) ∧
      (brokenStorage.update (.roomy [loadedMap] (by decide)) mapFile .NEEDUPDATE).2.items = [] ∧
      ¬ brokenStorage.KeepsProjects (.roomy [loadedMap] (by decide)) mapFile .NEEDUPDATE := by
  have hi :
      (brokenStorage.update (.roomy [loadedMap] (by decide)) mapFile .NEEDUPDATE).2.items = [] := by
    decide +kernel
  refine ⟨by decide +kernel, hi, fun h => ?_⟩
  have hk := (h .other rfl).1
  rw [hi, Dict.items_roomy] at hk
  cases hk

end QJazz.Cache.Manager
