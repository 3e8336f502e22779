import Mathlib.Data.List.MinMax
import Mathlib.Data.Rat.Floor
import QJazz.Cache.Routes
import QJazz.Ogc.Project
import QJazz.Python.Dict
import QJazz.Rpc.Messages.Worker

/-! The projects of a worker, by their uri. The storage tells when a project was last modified, and
the cache whether it is loaded and since which modification. -/
namespace QJazz.Cache

open Lexical Ogc Python
open Rpc.Worker (CheckoutStatus)

structure ProjectMetadata where
  uri : String
  name : String
  scheme : String
  storage : Option String
  lastModified : ℚ
deriving DecidableEq

/-- A loaded project. The memory it takes is known only if the process can be measured. -/
structure CacheEntry where
  md : ProjectMetadata
  project : Project
  timestamp : ℚ
  loadMemoryBytes : Option ℤ
  loadTimeMs : ℤ
  lastHit : ℚ := 0
  hits : ℕ := 0
  pinned : Bool := false
deriving DecidableEq

namespace CacheEntry

def uri (e : CacheEntry) : String := e.md.uri

def pin (e : CacheEntry) : CacheEntry := { e with pinned := true }

def hitMe (now : ℚ) (e : CacheEntry) : CacheEntry :=
  { e with hits := e.hits + 1, lastHit := now }

end CacheEntry

abbrev Entries := Dict CacheEntry String CacheEntry.uri

/-- An exception: `ResourceNotAllowed`, `StrictCheckingFailure`, or one that no handler expects. -/
inductive CacheError where
  | notAllowed (text : String)
  | strictChecking (text : String)
  | other
deriving DecidableEq

/-- What reading metadata raises. A project that is not there is named by its resolved uri. -/
inductive StorageError where
  | fileNotFound (uri : String)
  | raised (e : CacheError)
deriving DecidableEq

/-- The configuration of the manager, and what it finds outside during one message: the storage, the
clock and the measures of the process. -/
structure Manager where
  routes : List RouteDef
  allowDirectPathResolution : Bool
  /-- The schemes that have a protocol handler. -/
  schemes : List String
  /-- `project_metadata` of an url -/
  projectMetadata : Url → Except StorageError ProjectMetadata
  /-- `project_metadata` of the metadata of an entry -/
  refreshMetadata : ProjectMetadata → Except StorageError ProjectMetadata
  project : ProjectMetadata → Except CacheError Project
  /-- The projects of a location with their public path and the location of their route, up to the
  first exception. -/
  collectProjectsEx : Option String → List (ProjectMetadata × String × PosixPath) × Option CacheError
  now : ℚ
  usedMem : Option ℤ
  loadTimeMs : ℤ
  refresh_uri : ∀ {md md'}, refreshMetadata md = .ok md' → md'.uri = md.uri

inductive Checkout where
  | new (md : ProjectMetadata)
  | needUpdate (e : CacheEntry)
  | unchanged (e : CacheEntry)
  | removed (e : CacheEntry)
  | notFound
deriving DecidableEq

def Checkout.status : Checkout → CheckoutStatus
  | .new _ => .NEW
  | .needUpdate _ => .NEEDUPDATE
  | .unchanged _ => .UNCHANGED
  | .removed _ => .REMOVED
  | .notFound => .NOTFOUND

namespace Manager

def hasHandler (cm : Manager) (scheme : String) : Bool :=
  decide ((if scheme = "" then "file" else scheme) ∈ cm.schemes)

def resolvePath (cm : Manager) (path : String) (allowDirect : Bool) : Except CacheError Url :=
  match Cache.resolvePath cm.routes cm.allowDirectPathResolution path.toList allowDirect with
  | .ok url => .ok url
  | .error .notAllowed => .error (.notAllowed (.ofList (PosixPath.parse path.toList).str))
  | .error .format => .error .other

def findLocation (cm : Manager) (path : String) : Except CacheError (Option PosixPath) :=
  match findRoute cm.routes (.parse path.toList) with
  | .ok found => .ok (found.map Found.location)
  | .error _ => .error .other

def checkout (cm : Manager) (cache : Entries) (url : Url) : Except CacheError Checkout :=
  if cm.hasHandler (.ofList url.scheme.render) then
    match cm.projectMetadata url with
    | .ok md =>
      match cache.get? md.uri with
      | some e => .ok (if e.md.lastModified < md.lastModified then .needUpdate e else .unchanged e)
      | none => .ok (.new md)
    | .error (.fileNotFound uri) =>
      match cache.get? uri with
      | some e => .ok (.removed e)
      | none => .ok .notFound
    | .error (.raised e) => .error e
  else .error .other

def entryUrl (uri : String) : Url := validateUrl (.ofText uri.toList)

def checkoutEntry (cm : Manager) (entry : CacheEntry) : Except CacheError CheckoutStatus :=
  if cm.hasHandler entry.md.scheme then
    match cm.projectMetadata (entryUrl entry.md.uri) with
    | .ok md => .ok (if entry.md.lastModified < md.lastModified then .NEEDUPDATE else .UNCHANGED)
    | .error (.fileNotFound _) => .ok .REMOVED
    | .error (.raised e) => .error e
  else .error .other

def newCacheEntry (cm : Manager) (md : ProjectMetadata) : Except CacheError CacheEntry :=
  (cm.project md).map fun project =>
    { md, project, timestamp := cm.now, loadMemoryBytes := cm.usedMem, loadTimeMs := cm.loadTimeMs }

def load (cm : Manager) (cache : Entries) (md : ProjectMetadata) :
    Except CacheError CacheEntry × Entries :=
  match cm.newCacheEntry md with
  | .ok entry => (.ok entry, cache.set entry)
  | .error e => (.error e, cache)

def deleteCacheEntry (cache : Entries) (md : ProjectMetadata) :
    Except CacheError CacheEntry × Entries :=
  match cache.get? md.uri with
  | some entry => (.ok entry, cache.erase md.uri)
  | none => (.error .other, cache)

/-- `update` of an outdated project that has a handler: the old entry is deleted before the project
is loaded. -/
def reload (cm : Manager) (cache : Entries) (md : ProjectMetadata) :
    Except CacheError CacheEntry × Entries :=
  match deleteCacheEntry cache md with
  | (.error e, cache) => (.error e, cache)
  | (.ok _, cache) => cm.load cache md

def update (cm : Manager) (cache : Entries) (md : ProjectMetadata) (status : CheckoutStatus) :
    Except CacheError (CacheEntry × CheckoutStatus) × Entries :=
  match status with
  | .NEW =>
    if cm.hasHandler md.scheme then
      ((cm.load cache md).1.map (·, .NEW), (cm.load cache md).2)
    else (.error .other, cache)
  | .NEEDUPDATE =>
    if cm.hasHandler md.scheme then
      ((cm.reload cache md).1.map (·, .UPDATED), (cm.reload cache md).2)
    else (.error .other, cache)
  | .UNCHANGED | .UPDATED =>
    match cache.get? md.uri with
    | some entry => (.ok (entry, status), cache)
    | none => (.error .other, cache)
  | .REMOVED =>
    ((deleteCacheEntry cache md).1.map (·, .REMOVED), (deleteCacheEntry cache md).2)
  | .NOTFOUND => (.error .other, cache)

/-- `evict_by_popularity`: of the entries that are not pinned, the first one with the fewest hits for
its age. An entry that has no age is an error. -/
def evictByPopularity (cm : Manager) (cache : Entries) :
    Except CacheError (Option CacheEntry) × Entries :=
  let unpinned := cache.items.filter fun e => !e.pinned
  if unpinned.any fun e => cm.now = e.timestamp then (.error .other, cache)
  else
    match unpinned.argmin fun e => e.hits / (cm.now - e.timestamp) with
    | none => (.ok none, cache)
    | some candidate =>
      ((cm.update cache candidate.md .REMOVED).1.map fun _ => some candidate,
        (cm.update cache candidate.md .REMOVED).2)

def updateEntry (cm : Manager) (e : CacheEntry) (cache : Entries) : Option CacheError × Entries :=
  if cm.hasHandler e.md.scheme then
    match cm.refreshMetadata e.md with
    | .ok md =>
      if e.md.lastModified < md.lastModified then
        match cm.reload cache md with
        | (.ok _, cache) => (none, cache)
        | (.error err, cache) => (some err, cache)
      else (none, cache)
    | .error (.fileNotFound _) =>
      match deleteCacheEntry cache e.md with
      | (.ok _, cache) => (none, cache)
      | (.error err, cache) => (some err, cache)
    | .error (.raised err) => (some err, cache)
  else (some .other, cache)

def updateCache (cm : Manager) (cache : Entries) : Option CacheError × Entries :=
  cache.forItems .other cm.updateEntry

variable {cm : Manager} {cache cache' : Entries} {md : ProjectMetadata} {e : CacheEntry}

lemma mem_of_checkout {url : Url} {f : Checkout} (h : cm.checkout cache url = .ok f)
    (hfound : f = .needUpdate e ∨ f = .unchanged e ∨ f = .removed e) : e ∈ cache.items := by
  rw [checkout] at h
  split at h
  · split at h
    next md hmd =>
      split at h
      next e' he' =>
        have hm := (Dict.get?_eq_some he').1
        split at h <;> cases h <;> simp_all
      · cases h
        simp at hfound
    next uri huri =>
      split at h
      next e' he' =>
        have hm := (Dict.get?_eq_some he').1
        cases h
        simp_all
      · cases h
        simp at hfound
    · cases h
  · cases h

lemma get?_of_checkout_new {url : Url} (h : cm.checkout cache url = .ok (.new md)) :
    cache.get? md.uri = none := by
  rw [checkout] at h
  split at h
  · split at h
    · split at h
      · split at h <;> cases h
      next hn =>
        cases h
        exact hn
    · split at h <;> cases h
    · cases h
  · cases h

lemma gone_of_checkout_removed {url : Url} (h : cm.checkout cache url = .ok (.removed e)) :
    cm.projectMetadata url = .error (.fileNotFound e.uri) := by
  rw [checkout] at h
  split at h
  · split at h
    · split at h
      · split at h <;> cases h
      · cases h
    next uri hgone =>
      split at h
      next e' hget =>
        cases h
        rw [hgone, ← (Dict.get?_eq_some hget).2]
      · cases h
    · cases h
  · cases h

lemma checkout_congr (h : cache'.items = cache.items) (url : Url) :
    cm.checkout cache' url = cm.checkout cache url := by
  simp only [checkout, Dict.get?, h]

lemma load_fst : (cm.load cache md).1 = cm.newCacheEntry md := by
  rw [load]
  cases cm.newCacheEntry md <;> rfl

lemma update_new_fst : (cm.update cache md .NEW).1 =
      if cm.hasHandler md.scheme then (cm.newCacheEntry md).map (·, .NEW) else .error .other := by
  rw [update]
  split
  · rw [load_fst]
  · rfl

lemma deleteCacheEntry_of_mem (h : e ∈ cache.items) :
    deleteCacheEntry cache e.md = (.ok e, cache.erase e.md.uri) := by
  have hget : cache.get? e.md.uri = some e := Dict.get?_of_mem h
  rw [deleteCacheEntry, hget]

lemma update_needUpdate_fst (h : e ∈ cache.items) : (cm.update cache e.md .NEEDUPDATE).1 =
      if cm.hasHandler e.md.scheme then (cm.newCacheEntry e.md).map (·, .UPDATED)
      else .error .other := by
  rw [update]
  split
  · rw [reload, deleteCacheEntry_of_mem h]
    show Except.map _ (cm.load _ e.md).1 = _
    rw [load_fst]
  · rfl

lemma update_removed (h : e ∈ cache.items) :
    cm.update cache e.md .REMOVED = (.ok (e, .REMOVED), cache.erase e.md.uri) := by
  rw [update, deleteCacheEntry_of_mem h]
  rfl

lemma md_of_newCacheEntry (h : cm.newCacheEntry md = .ok e) : e.md = md := by
  rw [newCacheEntry] at h
  cases hp : cm.project md with
  | error err =>
    rw [hp] at h
    cases h
  | ok p =>
    rw [hp] at h
    cases h
    rfl

lemma update_new_cases (cm : Manager) (cache : Entries) (md : ProjectMetadata) :
    (∃ err, cm.update cache md .NEW = (.error err, cache)) ∨ ∃ n, cm.newCacheEntry md = .ok n ∧
        cm.update cache md .NEW = (.ok (n, .NEW), cache.set n) := by
  rw [update]
  split
  · cases hentry : cm.newCacheEntry md with
    | error err => exact Or.inl ⟨err, by simp only [load, hentry]; rfl⟩
    | ok n => exact Or.inr ⟨n, rfl, by simp only [load, hentry]; rfl⟩
  · exact Or.inl ⟨_, rfl⟩

/-- An outdated project is left alone if it has no handler, else its entry is deleted, and there is a
new one if the project can be loaded. -/
lemma update_needUpdate_cases (cm : Manager) (h : e ∈ cache.items) :
    cm.update cache e.md .NEEDUPDATE = (.error .other, cache) ∨
      (∃ err, cm.newCacheEntry e.md = .error err ∧
        cm.update cache e.md .NEEDUPDATE = (.error err, cache.erase e.uri)) ∨
      ∃ n, cm.newCacheEntry e.md = .ok n ∧
        cm.update cache e.md .NEEDUPDATE = (.ok (n, .UPDATED), (cache.erase e.uri).set n) := by
  rw [update]
  split
  · right
    rw [reload, deleteCacheEntry_of_mem h]
    cases hentry : cm.newCacheEntry e.md with
    | error err => exact Or.inl ⟨err, rfl, by simp only [load, hentry]; rfl⟩
    | ok n => exact Or.inr ⟨n, rfl, by simp only [load, hentry]; rfl⟩
  · exact Or.inl rfl

lemma evictByPopularity_cases (cm : Manager) (cache : Entries) :
    (∃ err, cm.evictByPopularity cache = (.error err, cache)) ∨
      cm.evictByPopularity cache = (.ok none, cache) ∨ ∃ e ∈ cache.items, e.pinned = false ∧
        cm.evictByPopularity cache = (.ok (some e), cache.erase e.uri) := by
  rw [evictByPopularity]
  split
  · exact Or.inl ⟨_, rfl⟩
  · right
    cases hi : (cache.items.filter fun e => !e.pinned).argmin
        fun e => (e.hits : ℚ) / (cm.now - e.timestamp) with
    | none => exact Or.inl rfl
    | some c =>
      have hm := List.argmin_mem (Option.mem_def.2 hi)
      rw [List.mem_filter] at hm
      refine Or.inr ⟨c, hm.1, by simpa using hm.2, ?_⟩
      simp only [update_removed hm.1]
      rfl

lemma unpinned_of_evicted (h : (cm.evictByPopularity cache).1 = .ok (some e)) :
    e ∈ cache.items ∧ e.pinned = false := by
  rcases cm.evictByPopularity_cases cache with ⟨err, h'⟩ | h' | ⟨e', hm, hu, h'⟩
  · rw [h'] at h
    cases h
  · rw [h'] at h
    cases h
  · rw [h'] at h
    cases h
    exact ⟨hm, hu⟩

def Newborn (cm : Manager) (cache : Entries) : Prop :=
  ∃ e ∈ cache.items, e.pinned = false ∧ cm.now = e.timestamp

instance (cm : Manager) (cache : Entries) : Decidable (cm.Newborn cache) :=
  inferInstanceAs (Decidable (∃ e ∈ cache.items, _))

lemma evictByPopularity_isNone : (cm.evictByPopularity cache).1.map Option.isNone =
      if cm.Newborn cache then .error .other else .ok (cache.items.all CacheEntry.pinned) := by
  have hn : ((cache.items.filter fun e => !e.pinned).any fun e => cm.now = e.timestamp) = true ↔
      cm.Newborn cache := by
    simp [Newborn]
  rw [evictByPopularity]
  by_cases hnew : cm.Newborn cache
  · rw [if_pos (hn.2 hnew), if_pos hnew]
    rfl
  · rw [if_neg (fun h => hnew (hn.1 h)), if_neg hnew]
    cases hi : (cache.items.filter fun e => !e.pinned).argmin
        fun e => (e.hits : ℚ) / (cm.now - e.timestamp) with
    | none =>
      have hl : cache.items.all CacheEntry.pinned := by
        have hni := List.argmin_eq_none.1 hi
        rw [List.filter_eq_nil_iff] at hni
        simpa using hni
      simp only [hl]
      rfl
    | some c =>
      have hm := List.argmin_mem (Option.mem_def.2 hi)
      rw [List.mem_filter] at hm
      have hl : cache.items.all CacheEntry.pinned = false := by
        rw [List.all_eq_false]
        exact ⟨c, hm.1, by simpa using hm.2⟩
      simp only [update_removed hm.1, hl]
      rfl

def Still (cm : Manager) (e : CacheEntry) : Prop :=
  cm.hasHandler e.md.scheme = true ∧
    ∃ md, cm.refreshMetadata e.md = .ok md ∧ md.lastModified ≤ e.md.lastModified

lemma deleteCacheEntry_eq_ok (h : deleteCacheEntry cache md = (.ok e, cache')) :
    cache' = cache.erase md.uri := by
  rw [deleteCacheEntry] at h
  split at h
  · exact (Prod.mk.inj h).2.symm
  · simp at h

lemma reload_eq_ok (h : cm.reload cache md = (.ok e, cache')) :
    e.md = md ∧ cache' = (cache.erase md.uri).set e := by
  rw [reload] at h
  split at h
  · simp at h
  next old c hd =>
    rw [load] at h
    split at h
    next n hentry =>
      simp only [Prod.mk.injEq, Except.ok.injEq] at h
      obtain ⟨rfl, rfl⟩ := h
      rw [deleteCacheEntry_eq_ok hd]
      exact ⟨md_of_newCacheEntry hentry, rfl⟩
    · simp at h

/-- Refreshing an entry removes it if its project is gone, and replaces it, or loses it, if the project
was modified. -/
lemma updateEntry_cases (cm : Manager) (h : e ∈ cache.items) :
    (cm.updateEntry e cache).2 = cache ∨
      ((∃ uri, cm.refreshMetadata e.md = .error (.fileNotFound uri)) ∧
        (cm.updateEntry e cache).2 = cache.erase e.uri) ∨
      ∃ md, cm.refreshMetadata e.md = .ok md ∧ e.md.lastModified < md.lastModified ∧
        ((cm.updateEntry e cache).2 = cache.erase e.uri ∨
          ∃ n : CacheEntry, cm.newCacheEntry md = .ok n ∧ n.uri = e.uri ∧
            (cm.updateEntry e cache).2 = (cache.erase e.uri).set n) := by
  rw [updateEntry]
  split
  · split
    next md hmd =>
      have huri := cm.refresh_uri hmd
      have hd : deleteCacheEntry cache md = (.ok e, cache.erase e.uri) := by
        have hget : cache.get? md.uri = some e := huri ▸ Dict.get?_of_mem h
        rw [deleteCacheEntry, hget, huri]
        rfl
      split
      next hlt =>
        refine Or.inr (Or.inr ⟨md, hmd, hlt, ?_⟩)
        rw [reload, hd]
        simp only [load]
        cases hentry : cm.newCacheEntry md with
        | error err => exact Or.inl rfl
        | ok n =>
          have he := (congrArg ProjectMetadata.uri (md_of_newCacheEntry hentry)).trans huri
          exact Or.inr ⟨n, rfl, he, rfl⟩
      · exact Or.inl rfl
    next uri hgone =>
      rw [deleteCacheEntry_of_mem h]
      exact Or.inr (Or.inl ⟨⟨uri, hgone⟩, rfl⟩)
    · exact Or.inl rfl
  · exact Or.inl rfl

lemma updateEntry_refreshes (cm : Manager) : Dict.Refreshes cm.updateEntry cm.Still where
  same := by
    rintro e cache ⟨hscheme, md, hmd, hle⟩
    simp [updateEntry, hscheme, hmd, not_lt.2 hle]
  moves := by
    intro e cache cache' hm hn hu hi
    rw [updateEntry] at hu
    split at hu
    next hscheme =>
      split at hu
      next md hmd =>
        split at hu
        · split at hu
          next n c hr =>
            obtain ⟨-, rfl⟩ := Prod.mk.inj hu
            obtain ⟨rfl, rfl⟩ := reload_eq_ok hr
            have huri := cm.refresh_uri hmd
            refine ⟨n, huri, ?_⟩
            rw [huri]
            rfl
          · simp at hu
        next hle => exact absurd ⟨hscheme, md, hmd, not_lt.1 hle⟩ hn
      next =>
        split at hu
        next old c hd =>
          obtain ⟨-, rfl⟩ := Prod.mk.inj hu
          have hlt := Dict.length_erase_lt hm
          rw [deleteCacheEntry_eq_ok hd] at hi
          exact absurd hi hlt.ne
        · simp at hu
      · simp at hu
    · simp at hu

/-- Refreshing the cache succeeds, whatever its table looks like, exactly when the storage has every
project as it was loaded. -/
lemma updateCache_iff (cm : Manager) (cache : Entries) :
    (∀ cache' : Entries, cache'.items = cache.items → (cm.updateCache cache').1 = none) ↔
      ∀ e ∈ cache.items, cm.Still e :=
  Dict.forItems_iff cm.updateEntry_refreshes cache

end Manager
end QJazz.Cache
