import QJazz.Cache.Handover
import QJazz.Ogc.Naming

/-! A project that is gone should take its item with it, and one that is there should have an item
as new as itself. -/
namespace QJazz.Ogc
open Cache Json Lexical
open Rpc.Worker (CheckoutStatus)

namespace Publisher

def handedOut (cache : Entries) (md : ProjectMetadata) : ProjectMetadata :=
  (cache.get? md.uri).elim md CacheEntry.md

def newestTime (cache : Entries) (item : CatalogItem) (md : ProjectMetadata) : ℚ :=
  max (max item.md.lastModified (handedOut cache md).lastModified) md.lastModified

/-- `get_and_update` of an item ends without an error, forgets the item of a removed project and
otherwise returns one with the newest modification time. -/
structure KeepsUp (pb : Publisher) (cache : Entries) (catalog : Catalog) (ident : String)
    (item : CatalogItem) (pinned : Bool) : Prop where
  ends : ∃ got, (pb.getAndUpdate cache catalog ident pinned).1 = .ok got
  forgets : ∀ found, pb.checkout cache (uriUrl item.md.uri) = .ok found →
    found.status = .REMOVED ∨ found.status = .NOTFOUND →
    (pb.getAndUpdate cache catalog ident pinned).1 = .ok none ∧
      (pb.getAndUpdate cache catalog ident pinned).2.lookup ident = none
  renews : ∀ md, pb.metadataOf (uriUrl item.md.uri) = .ok md →
    ∃ item', (pb.getAndUpdate cache catalog ident pinned).1 = .ok (some item') ∧
      item'.md.lastModified = newestTime cache item md

/-- The storage still has the project. What it is checked out with is not newer than the item, or an
item can be made of it, and nothing newer is only in the storage. -/
def StillThere (pb : Publisher) (cache : Entries) (ident : String) (item : CatalogItem) : Prop :=
  ∃ md, pb.metadataOf (uriUrl item.md.uri) = .ok md ∧
    ((handedOut cache md).lastModified ≤ item.md.lastModified ∨
      pb.Renewable (handedOut cache md) ident) ∧
    md.lastModified ≤ max item.md.lastModified (handedOut cache md).lastModified

variable {pb : Publisher} {cache : Entries} {catalog : Catalog} {ident : String} {item : CatalogItem}
  {pinned : Bool} {md : ProjectMetadata} {found : Checkout}

lemma checkout_of_metadataOf {url : Url} (cache : Entries) (h : pb.metadataOf url = .ok md) :
    ∃ found, pb.checkout cache url = .ok found ∧ found.metadata = some (handedOut cache md) ∧
      found.status ≠ .REMOVED ∧ found.status ≠ .NOTFOUND := by
  rw [checkout_eq, h, checkedOut, handedOut]
  cases cache.get? md.uri with
  | none => exact ⟨.new md, rfl, rfl, by simp [Checkout.status], by simp [Checkout.status]⟩
  | some e =>
    refine ⟨_, rfl, ?_⟩
    split
    · exact ⟨rfl, by simp [Checkout.status], by simp [Checkout.status]⟩
    · exact ⟨rfl, by simp [Checkout.status], by simp [Checkout.status]⟩

lemma lookup_renewItem {l : PosixPath} (h : catalog.lookup ident = some item) :
    (pb.renewItem catalog md ident l).2.lookup ident ≠ none := by
  rw [renewItem]
  split
  · split
    · rw [lookup_setKey_self]
      exact Option.some_ne_none _
    · simp [h]
  · simp [h]

lemma lookup_refreshItem (hl : catalog.lookup ident = some item)
    (hfound : pb.checkout cache (uriUrl item.md.uri) = .ok found) (hmd : found.metadata = some md) :
    (pb.refreshItem cache catalog ident item).2.lookup ident ≠ none := by
  rw [refreshItem_of_metadata hfound hmd]
  split
  · simp [hl]
  · exact lookup_renewItem hl

lemma md_of_renewItem {l : PosixPath} {i : CatalogItem}
    (h : (pb.renewItem catalog md ident l).1 = some i) : i.md = md := by
  rw [renewItem] at h
  split at h
  · split at h
    next hnew =>
      cases h
      exact (newCatalogItem_eq_some hnew).2
    · cases h
  · cases h

lemma exists_refreshItem (hfound : pb.checkout cache (uriUrl item.md.uri) = .ok found)
    (hmd : found.metadata = some md) {time : ℚ} :
    (∃ i, (pb.refreshItem cache catalog ident item).1 = .ok (some i) ∧ i.md.lastModified = time) ↔
      (md.lastModified ≤ item.md.lastModified ∨ pb.Renewable md ident) ∧
        max item.md.lastModified md.lastModified = time := by
  rw [refreshItem_of_metadata hfound hmd]
  by_cases hle : md.lastModified ≤ item.md.lastModified
  · simp [hle]
  · have hm : max item.md.lastModified md.lastModified = md.lastModified :=
      max_eq_right (not_le.1 hle).le
    have he : (pb.renewItem catalog md ident item.location).1.isSome ↔ _ := renewItem_isSome
    rw [if_neg hle, or_iff_right hle, hm, ← he]
    simp only [Except.ok.injEq]
    constructor
    · rintro ⟨i, hi, ht⟩
      rw [hi, ← ht, md_of_renewItem hi]
      exact ⟨rfl, rfl⟩
    · rintro ⟨ho, ht⟩
      obtain ⟨i, hi⟩ := Option.isSome_iff_exists.1 ho
      exact ⟨i, hi, by rw [md_of_renewItem hi, ht]⟩

lemma getAndUpdate_of_lookup (h : catalog.lookup ident = some item) :
    pb.getAndUpdate cache catalog ident pinned = pb.refreshItem cache catalog ident item := by
  rw [getAndUpdate, h]

lemma metadataOf_of_keepsUp (hl : catalog.lookup ident = some item)
    (h : pb.KeepsUp cache catalog ident item pinned) :
    ∃ md, pb.metadataOf (uriUrl item.md.uri) = .ok md := by
  obtain ⟨got, hg⟩ := h.ends
  have hh := checkout_eq pb cache (uriUrl item.md.uri)
  have hf := h.forgets
  rw [getAndUpdate_of_lookup hl] at hg
  simp only [getAndUpdate_of_lookup hl] at hf
  cases hr : pb.metadataOf (uriUrl item.md.uri) with
  | ok md => exact ⟨md, rfl⟩
  | error err =>
    exfalso
    rw [hr] at hh
    cases err with
    | raised e =>
      rw [refreshItem, hh] at hg
      cases hg
    | fileNotFound g =>
      rw [checkedOut] at hh
      cases hget : cache.get? g with
      | none =>
        rw [hget] at hh
        rw [refreshItem, hh] at hg
        cases hg
      | some e =>
        -- the pattern for removed projects never applies, so the item stays
        rw [hget] at hh
        exact lookup_refreshItem hl hh rfl (hf _ hh (.inl rfl)).2

/-- An item of the catalog is kept up to date exactly as long as its project is in the storage, it can
be read, and no newer version of it is hidden by an outdated entry. -/
theorem keepsUp_iff (hlookup : catalog.lookup ident = some item) :
    pb.KeepsUp cache catalog ident item pinned ↔ pb.StillThere cache ident item := by
  have hm (md : ProjectMetadata) :
      max item.md.lastModified (handedOut cache md).lastModified = newestTime cache item md ↔
        md.lastModified ≤ max item.md.lastModified (handedOut cache md).lastModified := by
    rw [newestTime, eq_comm, max_eq_left_iff]
  constructor
  · intro h
    obtain ⟨md, hr⟩ := metadataOf_of_keepsUp hlookup h
    obtain ⟨found, hfound, hmd, -⟩ := checkout_of_metadataOf cache hr
    have hn := h.renews md hr
    rw [getAndUpdate_of_lookup hlookup, exists_refreshItem hfound hmd, hm] at hn
    exact ⟨md, hr, hn⟩
  · rintro ⟨md, hr, hn⟩
    obtain ⟨found, hfound, hmd, ho, ht⟩ :=
      checkout_of_metadataOf cache hr
    have hi : ∃ i, (pb.getAndUpdate cache catalog ident pinned).1 = .ok (some i) ∧
        i.md.lastModified = newestTime cache item md := by
      rwa [getAndUpdate_of_lookup hlookup, exists_refreshItem hfound hmd, hm]
    refine ⟨?_, ?_, ?_⟩
    · obtain ⟨i, he, -⟩ := hi
      exact ⟨_, he⟩
    · intro f hf hgone
      cases hfound.symm.trans hf
      exact absurd hgone (not_or.2 ⟨ho, ht⟩)
    · intro md' hd
      cases hr.symm.trans hd
      exact hi

end Publisher

def mapItem : CatalogItem :=
  ⟨"/map", mapFile, [], ⟨"map", "map"⟩, .parse "/".toList⟩

def mapPublisher : Publisher where
  __ := mapStorage
  snapshot _ := some mapContent
  fromProject _ _ := some ⟨"map", "map"⟩
  fromLayer _ _ := .ok none
  minimumQgisVersion := (3, 0)
  collectionSchema := ""

def emptiedPublisher : Publisher where
  __ := mapPublisher
  projectMetadata _ := .error (.fileNotFound "/srv/map.qgs")

theorem keepsUp_iff_map : mapPublisher.KeepsUp .empty [("/map", mapItem)] "/map" mapItem false ∧
      mapPublisher.StillThere .empty "/map" mapItem := by
  have ht : mapPublisher.StillThere .empty "/map" mapItem :=
    ⟨mapFile, by decide +kernel, .inl (by decide +kernel), by decide +kernel⟩
  exact ⟨(Publisher.keepsUp_iff rfl).2 ht, ht⟩

/-- The item of a removed project is returned if the project is in the cache, and is an error
otherwise. -/
theorem not_keepsUp_emptied :
    emptiedPublisher.getAndUpdate (.roomy [loadedMap] (by decide)) [("/map", mapItem)] "/map" false =
        (.ok (some mapItem), [("/map", mapItem)]) ∧
      (emptiedPublisher.getAndUpdate .empty [("/map", mapItem)] "/map" false).1 = .error .other ∧
      ¬ emptiedPublisher.KeepsUp (.roomy [loadedMap] (by decide)) [("/map", mapItem)] "/map" mapItem
        false ∧ ¬ emptiedPublisher.KeepsUp .empty [("/map", mapItem)] "/map" mapItem false := by
  have hh : emptiedPublisher.getAndUpdate (.roomy [loadedMap] (by decide))
      [("/map", mapItem)] "/map" false = (.ok (some mapItem), [("/map", mapItem)]) := by
    decide +kernel
  have hm : (emptiedPublisher.getAndUpdate .empty [("/map", mapItem)] "/map" false).1 =
      .error .other := by
    decide +kernel
  refine ⟨hh, hm, fun h => ?_, fun h => ?_⟩
  · have hr : emptiedPublisher.checkout (.roomy [loadedMap] (by decide))
        (Publisher.uriUrl mapItem.md.uri) = .ok (.removed loadedMap) := by
      decide +kernel
    have hn := (h.forgets _ hr (.inl rfl)).1
    rw [hh] at hn
    cases hn
  · obtain ⟨got, hg⟩ := h.ends
    rw [hm] at hg
    cases hg

end QJazz.Ogc
