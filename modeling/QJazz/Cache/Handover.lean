import QJazz.Cache.Manager

/-! `checkout` gives the metadata of a project that is not loaded, and the entry of one that is. -/
namespace QJazz.Cache

open Lexical Ogc Python
open Rpc.Worker (CheckoutStatus)

inductive UpdateError where
  /-- `AttributeError` with the name of the attribute -/
  | attribute (name : String)
  | raised (e : CacheError)
deriving DecidableEq

def Checkout.subject : Checkout → Option (ProjectMetadata ⊕ CacheEntry)
  | .new md => some (.inl md)
  | .needUpdate e | .unchanged e | .removed e => some (.inr e)
  | .notFound => none

def Checkout.uri : Checkout → Option String
  | .new md => some md.uri
  | .needUpdate e | .unchanged e | .removed e => some e.uri
  | .notFound => none

namespace Manager

/-- `update` with the first result of `checkout`. Every status but `NOTFOUND` reads the `uri` before
anything else is done. -/
def updateWith (cm : Manager) (cache : Entries) (subject : Option (ProjectMetadata ⊕ CacheEntry))
    (status : CheckoutStatus) : Except UpdateError (CacheEntry × CheckoutStatus) × Entries :=
  if status = .NOTFOUND then (.error (.raised .other), cache)
  else
    match subject with
    | some (.inl md) =>
      ((cm.update cache md status).1.mapError .raised, (cm.update cache md status).2)
    | some (.inr _) | none => (.error (.attribute "uri"), cache)

def handOver (cm : Manager) (cache : Entries) (found : Checkout) :
    Except UpdateError (CacheEntry × CheckoutStatus) × Entries :=
  cm.updateWith cache found.subject found.status

def Consistent (uri : String) (entry : CacheEntry) (status : CheckoutStatus) (cache : Entries) :
    Prop :=
  entry.uri = uri ∧ status ≠ .NOTFOUND ∧
    cache.get? uri = if status = .REMOVED then none else some entry

/-- Whatever is checked out can be handed to `update`. -/
def Completes (cm : Manager) (cache : Entries) (url : Url) : Prop :=
  ∀ found, cm.checkout cache url = .ok found → ∀ uri, found.uri = some uri →
    ∃ entry status, (cm.handOver cache found).1 = .ok (entry, status) ∧
      Consistent uri entry status (cm.handOver cache found).2

def EntryOf (cm : Manager) (cache : Entries) (url : Url) (e : CacheEntry) : Prop :=
  (∃ md, cm.projectMetadata url = .ok md ∧ cache.get? md.uri = some e) ∨
    ∃ uri, cm.projectMetadata url = .error (.fileNotFound uri) ∧ cache.get? uri = some e

def NotLoaded (cm : Manager) (cache : Entries) (url : Url) : Prop :=
  cm.hasHandler (.ofList url.scheme.render) = true →
    (∀ e, ¬ cm.EntryOf cache url e) ∧
      ∀ md, cm.projectMetadata url = .ok md → cm.hasHandler md.scheme = true

variable {cm : Manager} {cache : Entries} {url : Url} {md : ProjectMetadata} {e : CacheEntry}

lemma handOver_new (hscheme : cm.hasHandler md.scheme) (hl : cm.newCacheEntry md = .ok e) :
    cm.handOver cache (.new md) = (.ok (e, .NEW), cache.set e) := by
  have hu : cm.update cache md .NEW = (.ok (e, .NEW), cache.set e) := by
    simp [update, hscheme, load, hl, Except.map]
  simp [handOver, updateWith, Checkout.status, Checkout.subject, hu, Except.mapError]

lemma handOver_of_entry {f : Checkout} (h : f.subject = some (.inr e)) :
    cm.handOver cache f = (.error (.attribute "uri"), cache) := by
  cases f <;> simp_all [handOver, updateWith, Checkout.status, Checkout.subject]

lemma exists_checkout_of_entryOf (hh : cm.hasHandler (.ofList url.scheme.render))
    (hl : cm.EntryOf cache url e) : ∃ f, cm.checkout cache url = .ok f ∧ f.subject = some (.inr e) ∧
      f.uri = some e.uri := by
  rcases hl with ⟨md, hmd, hget⟩ | ⟨uri, hgone, hget⟩
  · by_cases hlt : e.md.lastModified < md.lastModified
    · exact ⟨.needUpdate e, by simp [checkout, hh, hmd, hget, hlt], rfl, rfl⟩
    · exact ⟨.unchanged e, by simp [checkout, hh, hmd, hget, hlt], rfl, rfl⟩
  · exact ⟨.removed e, by simp [checkout, hh, hgone, hget], rfl, rfl⟩

lemma checkout_of_notLoaded {f : Checkout} (h : cm.NotLoaded cache url)
    (hfound : cm.checkout cache url = .ok f) :
    f = .notFound ∨ ∃ md, f = .new md ∧ cm.hasHandler md.scheme = true := by
  rw [checkout] at hfound
  split at hfound
  next hh =>
    obtain ⟨hentry, hscheme⟩ := h hh
    split at hfound
    next md hmd =>
      split at hfound
      next e he => exact absurd (Or.inl ⟨md, hmd, he⟩) (hentry e)
      · cases hfound
        exact Or.inr ⟨md, rfl, hscheme md hmd⟩
    next uri hgone =>
      split at hfound
      next e he => exact absurd (Or.inr ⟨uri, hgone, he⟩) (hentry e)
      · cases hfound
        exact Or.inl rfl
    · cases hfound
  · cases hfound

lemma not_entryOf_of_completes (h : cm.Completes cache url)
    (hh : cm.hasHandler (.ofList url.scheme.render)) : ¬ cm.EntryOf cache url e := by
  intro hentry
  obtain ⟨f, hfound, hu, huri⟩ := exists_checkout_of_entryOf hh hentry
  obtain ⟨n, s, hr, _⟩ := h f hfound e.uri huri
  simp [handOver_of_entry hu] at hr

theorem completes_iff (cache : Entries) (url : Url)
    (hload : ∀ md, ∃ project, cm.project md = .ok project) :
    cm.Completes cache url ↔ cm.NotLoaded cache url := by
  constructor
  · intro h hh
    refine ⟨fun e => not_entryOf_of_completes h hh, fun md hmd => ?_⟩
    have hget : cache.get? md.uri = none := Option.eq_none_iff_forall_ne_some.2 fun e he =>
      not_entryOf_of_completes h hh (Or.inl ⟨md, hmd, he⟩)
    have hnew : cm.checkout cache url = .ok (.new md) := by
      simp [checkout, hh, hmd, hget]
    refine Bool.eq_true_of_not_eq_false fun hscheme => ?_
    obtain ⟨entry, s, hr, _⟩ := h _ hnew md.uri rfl
    simp [handOver, updateWith, Checkout.status, Checkout.subject, update, hscheme, Except.mapError] at hr
  · intro h f hfound uri huri
    rcases checkout_of_notLoaded h hfound with rfl | ⟨md, rfl, hscheme⟩
    · simp [Checkout.uri] at huri
    · obtain ⟨project, hp⟩ := hload md
      obtain ⟨entry, hentry⟩ : ∃ entry, cm.newCacheEntry md = .ok entry := by
        simp [newCacheEntry, hp, Except.map]
      have huri : entry.uri = uri := by
        rw [CacheEntry.uri, md_of_newCacheEntry hentry]
        exact Option.some.inj huri
      refine ⟨entry, .NEW, by rw [handOver_new hscheme hentry], huri, by simp, ?_⟩
      rw [handOver_new hscheme hentry, Dict.get?_set, huri]
      simp

end Manager

def mapFile : ProjectMetadata :=
  ⟨"/srv/map.qgs", "map", "file", some "file", 1⟩

def mapContent : Project :=
  ⟨"/srv/map.qgs", "EPSG:4326", "3.34.0", some (3, 34), [], false, [], [], []⟩

def mapStorage : Manager where
  routes := []
  allowDirectPathResolution := true
  schemes := ["file"]
  projectMetadata _ := .ok mapFile
  refreshMetadata md := .ok { md with lastModified := 1 }
  project _ := .ok mapContent
  collectProjectsEx _ := ([], none)
  now := 2
  usedMem := none
  loadTimeMs := 10
  refresh_uri := by
    rintro md _ ⟨⟩
    rfl

def mapUrl : Url := validateUrl (.ofText "/srv/map.qgs".toList)

def loadedMap : CacheEntry where
  md := mapFile
  project := mapContent
  timestamp := 1
  loadMemoryBytes := none
  loadTimeMs := 10

theorem completes_mapStorage : mapStorage.Completes .empty mapUrl := by
  refine (Manager.completes_iff _ _ fun _ => ⟨mapContent, rfl⟩).2 fun _ => ⟨fun e => ?_, ?_⟩
  · rintro (⟨md, -, h⟩ | ⟨uri, -, h⟩)
    · cases h
    · cases h
  · rintro md ⟨⟩
    decide

theorem not_completes_loadedMap :
    mapStorage.checkout (.roomy [loadedMap] (by decide)) mapUrl = .ok (.unchanged loadedMap) ∧
      (mapStorage.handOver (.roomy [loadedMap] (by decide)) (.unchanged loadedMap)).1 =
        .error (.attribute "uri") ∧
      ¬ mapStorage.Completes (.roomy [loadedMap] (by decide)) mapUrl := by
  have hfound : mapStorage.checkout (.roomy [loadedMap] (by decide)) mapUrl =
      .ok (.unchanged loadedMap) := by decide +kernel
  refine ⟨hfound, rfl, fun h => ?_⟩
  obtain ⟨n, s, hr, _⟩ := h _ hfound _ rfl
  cases hr

namespace Manager

lemma metadata_of_checkout_new {cm : Manager} {cache : Entries} {url : Url} {md : ProjectMetadata}
    (h : cm.checkout cache url = .ok (.new md)) :
    cm.hasHandler (.ofList url.scheme.render) ∧ cm.projectMetadata url = .ok md := by
  rw [checkout] at h
  split at h
  next hh =>
    split at h
    next md' hmd =>
      split at h
      · split at h <;> cases h
      · cases h
        exact ⟨hh, hmd⟩
    · split at h <;> cases h
    · cases h
  · cases h

end Manager
end QJazz.Cache
