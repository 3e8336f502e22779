import QJazz.Json.Merge
import QJazz.Ogc.Catalog

/-! A listing and a request for a path may not mean the same project, and the storage changes while
the catalog is kept. -/
namespace QJazz.Cache

def Checkout.metadata : Checkout → Option ProjectMetadata
  | .new md => some md
  | .needUpdate e | .unchanged e | .removed e => some e.md
  | .notFound => none

end QJazz.Cache

namespace QJazz.Ogc
open Cache Json Lexical

def shownPath (publicPath : String) : String := removeSuffix ".qgz" (removeSuffix ".qgs" publicPath)

def Named (p uri : String) (catalog : Catalog) : Prop :=
  ∀ x ∈ catalog, x.2.publicPath = x.1 ∧ (x.1 = p → x.2.md.uri = uri)

def Catalog.ofItems (items : List CatalogItem) : Catalog :=
  items.foldl (fun d item => setKey item.publicPath item d) []

namespace Publisher

def metadataOf (pb : Publisher) (url : Url) : Except StorageError ProjectMetadata :=
  if pb.hasHandler (.ofList url.scheme.render) then pb.projectMetadata url
  else .error (.raised .other)

/-- The path is one of the project of the uri: a request for the path finds what the uri stands for,
and so does every listing that has the path. -/
structure Names (pb : Publisher) (p uri : String) : Prop where
  located : ∃ location, pb.findLocation p = .ok (some location)
  resolves : ∃ url, pb.resolvePath p false = .ok url ∧ pb.metadataOf url = pb.metadataOf (uriUrl uri)
  reads : ∀ md, pb.metadataOf (uriUrl uri) = .ok md → md.uri = uri
  misses : ∀ gone, pb.metadataOf (uriUrl uri) = .error (.fileNotFound gone) → gone = uri
  lists : ∀ under, ∀ x ∈ (pb.collectProjectsEx under).1, shownPath x.2.1 = p →
    pb.metadataOf (uriUrl uri) = .ok x.1

def Readable (pb : Publisher) (md : ProjectMetadata) (ident : String) : Prop :=
  ∃ project, pb.snapshot md = some project ∧
    project.recentEnough pb.minimumQgisVersion = true ∧ (pb.fromProject ident project).isSome = true

def Renewable (pb : Publisher) (md : ProjectMetadata) (ident : String) : Prop :=
  pb.hasHandler md.scheme = true ∧ pb.Readable md ident

variable {pb : Publisher} {cache : Entries} {catalog : Catalog} {p uri ident path : String}
  {md : ProjectMetadata} {location : PosixPath} {item : CatalogItem} {f : Checkout} {url : Url}

def checkedOut (cache : Entries) : Except StorageError ProjectMetadata → Except CacheError Checkout
  | .ok md =>
    match cache.get? md.uri with
    | some e => .ok (if e.md.lastModified < md.lastModified then .needUpdate e else .unchanged e)
    | none => .ok (.new md)
  | .error (.fileNotFound uri) =>
    match cache.get? uri with
    | some e => .ok (.removed e)
    | none => .ok .notFound
  | .error (.raised e) => .error e

lemma checkout_eq (pb : Publisher) (cache : Entries) (url : Url) :
    pb.checkout cache url = checkedOut cache (pb.metadataOf url) := by
  rw [Manager.checkout, metadataOf]
  split
  · rcases pb.projectMetadata url with (_ | _) | _ <;> rfl
  · rfl

/-- The url stands for a project of the storage, and the entry is the one of the project. -/
def EntryAt (pb : Publisher) (cache : Entries) (url : Url) (e : CacheEntry) : Prop :=
  pb.checkout cache url = .ok (.unchanged e) ∨ pb.checkout cache url = .ok (.needUpdate e)

lemma entryAt_iff {e : CacheEntry} :
    pb.EntryAt cache url e ↔ ∃ md, pb.metadataOf url = .ok md ∧ cache.get? md.uri = some e := by
  rw [EntryAt, checkout_eq]
  rcases pb.metadataOf url with (g | err) | md
  · cases hget : cache.get? g <;> simp [checkedOut, hget]
  · simp [checkedOut]
  · cases hget : cache.get? md.uri with
    | none => simp [checkedOut, hget]
    | some e' =>
      by_cases hlt : e'.md.lastModified < md.lastModified <;> simp [checkedOut, hget, hlt]

lemma metadataOf_of_new (h : pb.checkout cache url = .ok (.new md)) : pb.metadataOf url = .ok md := by
  rw [checkout_eq] at h
  rcases hr : pb.metadataOf url with (g | err) | md'
  · cases hget : cache.get? g <;> simp [hr, checkedOut, hget] at h
  · simp [hr, checkedOut] at h
  · cases hget : cache.get? md'.uri with
    | none => simpa [hr, checkedOut, hget] using h
    | some e =>
      by_cases hlt : e.md.lastModified < md'.lastModified <;> simp [hr, checkedOut, hget, hlt] at h

lemma isPinned_eq_true :
    pb.isPinned cache md = .ok true ↔ ∃ e, pb.EntryAt cache (uriUrl md.uri) e ∧ e.pinned = true := by
  rw [isPinned]
  simp only [EntryAt]
  cases pb.checkout cache (uriUrl md.uri) with
  | error e => simp
  | ok f => cases f <;> simp

lemma Names.uri_of_checkout (h : pb.Names p uri) (hfound : pb.checkout cache (uriUrl uri) = .ok f)
    (hmd : f.metadata = some md) : md.uri = uri := by
  rw [checkout_eq] at hfound
  cases hr : pb.metadataOf (uriUrl uri) with
  | ok md' =>
    rw [hr, checkedOut] at hfound
    split at hfound
    next e hget =>
      have huri := (Python.Dict.get?_eq_some hget).2
      split at hfound <;> cases hfound <;> cases hmd <;> exact huri.trans (h.reads md' hr)
    · cases hfound
      cases hmd
      exact h.reads _ hr
  | error err =>
    cases err with
    | fileNotFound g =>
      rw [hr, checkedOut] at hfound
      split at hfound
      next e hget =>
        cases hfound
        cases hmd
        exact (Python.Dict.get?_eq_some hget).2.trans (h.misses g hr)
      · cases hfound
        cases hmd
    | raised e =>
      rw [hr] at hfound
      cases hfound

lemma Names.checkout_path (h : pb.Names p uri) (hurl : pb.resolvePath p false = .ok url)
    (cache : Entries) : pb.checkout cache url = pb.checkout cache (uriUrl uri) := by
  obtain ⟨u, hu, hr⟩ := h.resolves
  cases hurl.symm.trans hu
  rw [checkout_eq, checkout_eq, hr]

lemma newCatalogItem_isSome :
    (pb.newCatalogItem md ident location).isSome ↔ pb.Readable md ident := by
  rw [newCatalogItem, Readable]
  cases pb.snapshot md with
  | none => simp
  | some r => by_cases h : r.recentEnough pb.minimumQgisVersion = true <;> simp [h]

lemma newCatalogItem_eq_some (h : pb.newCatalogItem md ident location = some item) :
    item.publicPath = ident ∧ item.md = md := by
  rw [newCatalogItem] at h
  split at h
  · cases h
  · split at h
    · obtain ⟨c, -, rfl⟩ := Option.map_eq_some_iff.1 h
      exact ⟨rfl, rfl⟩
    · cases h

lemma renewItem_isSome :
    (pb.renewItem catalog md ident location).1.isSome ↔ pb.Renewable md ident := by
  have hr : (pb.newCatalogItem md ident location).isSome ↔ _ := newCatalogItem_isSome
  rw [renewItem, Renewable, ← hr]
  by_cases h : pb.hasHandler md.scheme = true
  · cases pb.newCatalogItem md ident location <;> simp [h]
  · simp [h]

lemma publicPath_of_renewItem (h : (pb.renewItem catalog md ident location).1 = some item) :
    item.publicPath = ident := by
  rw [renewItem] at h
  split at h
  · split at h
    next i hnew =>
      cases h
      exact (newCatalogItem_eq_some hnew).1
    · cases h
  · cases h

lemma exists_renewItem :
    (∃ item, (pb.renewItem catalog md ident location).1 = some item ∧ item.publicPath = ident) ↔
      pb.Renewable md ident := by
  have ho : (pb.renewItem catalog md ident location).1.isSome ↔ _ := renewItem_isSome
  rw [← ho, Option.isSome_iff_exists]
  exact exists_congr fun item => and_iff_left_of_imp publicPath_of_renewItem

lemma currentItem_eq_some (h : pb.currentItem catalog md path location = some item) :
    catalog.lookup path = some item ∨ item.publicPath = path ∧ item.md = md := by
  rw [currentItem] at h
  split at h
  · exact .inr (newCatalogItem_eq_some h)
  next old ho =>
    split at h
    · exact .inr (newCatalogItem_eq_some h)
    · exact .inl (ho.trans h)

lemma currentItem_isSome (h : pb.Readable md path) :
    (pb.currentItem catalog md path location).isSome = true := by
  rw [currentItem]
  split
  · exact newCatalogItem_isSome.2 h
  · split
    · exact newCatalogItem_isSome.2 h
    · rfl

lemma mem_updateItems {pinned : Bool} {l : List (ProjectMetadata × String × PosixPath)}
    (h : (pb.updateItems cache catalog pinned l).2 = none) :
    item ∈ (pb.updateItems cache catalog pinned l).1 ↔
      ∃ x ∈ l, (pinned → pb.isPinned cache x.1 = .ok true) ∧
        pb.currentItem catalog x.1 (shownPath x.2.1) x.2.2 = some item := by
  induction l with
  | nil => simp [updateItems]
  | cons x l ih =>
    obtain ⟨md, u, location⟩ := x
    simp only [List.mem_cons, exists_eq_or_imp, shownPath]
    rw [updateItems] at h ⊢
    cases pinned with
    | false =>
      simp only [Bool.false_eq_true, if_false] at h ⊢
      simp [List.mem_append, ih h, shownPath]
    | true =>
      simp only [if_true] at h ⊢
      cases hp : pb.isPinned cache md with
      | error e => simp [hp] at h
      | ok b =>
        cases b <;> simp only [hp] at h <;> simp [ih h, shownPath]

lemma mem_foldl_setKey {i : List CatalogItem} {x : String × CatalogItem}
    (h : x ∈ i.foldl (fun d item => setKey item.publicPath item d) catalog) :
    x ∈ catalog ∨ x.2 ∈ i ∧ x.1 = x.2.publicPath := by
  induction i generalizing catalog with
  | nil => exact .inl h
  | cons item i ih =>
    rcases ih h with hm | ⟨hm, hp⟩
    · rcases mem_setKey hm with rfl | hm
      · exact .inr ⟨List.mem_cons_self, rfl⟩
      · exact .inl hm
    · exact .inr ⟨List.mem_cons_of_mem _ hm, hp⟩

lemma keys_foldl_setKey {i : List CatalogItem} {k : String}
    (h : k ∈ catalog.map Prod.fst ∨ ∃ item ∈ i, item.publicPath = k) :
    k ∈ (i.foldl (fun d item => setKey item.publicPath item d) catalog).map Prod.fst := by
  induction i generalizing catalog with
  | nil => simpa using h
  | cons item i ih =>
    rw [List.foldl_cons]
    refine ih ?_
    rcases h with hm | ⟨t, hm, rfl⟩
    · exact .inl (mem_keys_setKey (.inr hm))
    · rcases List.mem_cons.1 hm with rfl | hm
      · exact .inl (mem_keys_setKey (.inl rfl))
      · exact .inr ⟨t, hm, rfl⟩

variable {pinned : Bool} {u : Option String}

lemma updateCatalog_of_none (h : (pb.updateCatalog cache catalog pinned u).1 = none) :
    (pb.updateItems cache catalog pinned (pb.collectProjectsEx u).1).2 = none ∧
      (pb.updateCatalog cache catalog pinned u).2 =
        .ofItems (pb.updateItems cache catalog pinned (pb.collectProjectsEx u).1).1 := by
  rw [updateCatalog] at h ⊢
  split at h
  · cases h
  next hn => exact ⟨(Option.or_eq_none_iff.1 hn).1, rfl⟩

lemma updateCatalog_of_some {e : CacheError}
    (h : (pb.updateCatalog cache catalog pinned u).1 = some e) :
    (pb.updateCatalog cache catalog pinned u).2 = catalog := by
  rw [updateCatalog] at h ⊢
  split at h
  · rfl
  · cases h

lemma exists_mem_ofItems {i : List CatalogItem} :
    (∃ x ∈ Catalog.ofItems i, x.2.publicPath = p) ↔ ∃ item ∈ i, item.publicPath = p := by
  constructor
  · rintro ⟨x, hx, hp⟩
    rcases mem_foldl_setKey hx with hn | ⟨hm, -⟩
    · cases hn
    · exact ⟨x.2, hm, hp⟩
  · intro h
    have hk : p ∈ (Catalog.ofItems i).map Prod.fst := keys_foldl_setKey (.inr h)
    obtain ⟨x, hx, he⟩ := List.mem_map.1 hk
    rcases mem_foldl_setKey hx with hn | ⟨-, hp⟩
    · cases hn
    · exact ⟨x, hx, hp.symm.trans he⟩

lemma refreshItem_of_metadata (hfound : pb.checkout cache (uriUrl item.md.uri) = .ok f)
    (hmd : f.metadata = some md) : pb.refreshItem cache catalog ident item =
      if md.lastModified ≤ item.md.lastModified then (.ok (some item), catalog)
      else (.ok (pb.renewItem catalog md ident item.location).1,
        (pb.renewItem catalog md ident item.location).2) := by
  rw [refreshItem, hfound]
  cases f <;> cases hmd <;> rfl

end Publisher

namespace Named

variable {pb : Publisher} {cache : Entries} {catalog : Catalog} {p uri ident path : String}
  {md : ProjectMetadata} {location : PosixPath} {item : CatalogItem} {pinned : Bool}
  {u : Option String}

open Publisher

lemma lookup (h : Named p uri catalog) (hi : List.lookup path catalog = some item) :
    item.publicPath = path ∧ (path = p → item.md.uri = uri) :=
  h _ (mem_of_lookup hi)

lemma setKey (h : Named p uri catalog) (hp : item.publicPath = path)
    (huri : path = p → item.md.uri = uri) : Named p uri (QJazz.setKey path item catalog) := by
  intro x hx
  rcases mem_setKey hx with rfl | hx
  · exact ⟨hp, huri⟩
  · exact h x hx

lemma updateCatalog (h : Named p uri catalog) (hn : pb.Names p uri) :
    Named p uri (pb.updateCatalog cache catalog pinned u).2 := by
  cases hr : (pb.updateCatalog cache catalog pinned u).1 with
  | some e =>
    rw [updateCatalog_of_some hr]
    exact h
  | none =>
    obtain ⟨he, ht⟩ := updateCatalog_of_none hr
    rw [ht]
    intro x hx
    rcases mem_foldl_setKey hx with hi | ⟨hm, hk⟩
    · cases hi
    · obtain ⟨y, hy, -, hu⟩ := (mem_updateItems he).1 hm
      refine ⟨hk.symm, fun hp => ?_⟩
      rcases currentItem_eq_some hu with ho | ⟨hh, hmd⟩
      · exact (h.lookup ho).2 (((h.lookup ho).1.symm.trans hk.symm).trans hp)
      · rw [hmd]
        exact hn.reads _ (hn.lists u y hy ((hh.symm.trans hk.symm).trans hp))

lemma renewItem (h : Named p uri catalog) (huri : ident = p → md.uri = uri) :
    Named p uri (pb.renewItem catalog md ident location).2 := by
  rw [Publisher.renewItem]
  split
  · split
    next item hnew =>
      obtain ⟨ht, hmd⟩ := newCatalogItem_eq_some hnew
      exact h.setKey ht fun hp => hmd ▸ huri hp
    · exact h
  · exact h

lemma addItem (h : Named p uri catalog) (hn : pb.Names p uri) :
    Named p uri (pb.addItem cache catalog ident pinned).2 := by
  rw [Publisher.addItem]
  split
  · exact h
  · exact h
  next url hurl =>
    split
    · exact h
    · exact h
    · have huri {found : Checkout} {md : ProjectMetadata} (hfound : pb.checkout cache url = .ok found)
          (hmd : found.metadata = some md) (hp : ident = p) : md.uri = uri := by
        subst hp
        exact hn.uri_of_checkout ((hn.checkout_path hurl cache).symm.trans hfound) hmd
      split
      · exact h
      next hfound =>
        split
        · exact h
        · exact h.renewItem (huri hfound rfl)
      next hfound =>
        split
        · exact h
        · exact h.renewItem (huri hfound rfl)
      · exact h
      · exact h
      next hfound => exact h.renewItem (huri hfound rfl)

lemma refreshItem (h : Named p uri catalog) (hn : pb.Names p uri)
    (hi : ident = p → item.md.uri = uri) :
    Named p uri (pb.refreshItem cache catalog ident item).2 := by
  cases hfound : pb.checkout cache (uriUrl item.md.uri) with
  | error e =>
    rw [Publisher.refreshItem, hfound]
    exact h
  | ok found =>
    cases hmd : found.metadata with
    | none =>
      rw [Publisher.refreshItem, hfound]
      cases found <;> cases hmd
      exact h
    | some md =>
      rw [refreshItem_of_metadata hfound hmd]
      split
      · exact h
      · refine h.renewItem fun hp => ?_
        rw [hi hp] at hfound
        exact hn.uri_of_checkout hfound hmd

lemma getAndUpdate (h : Named p uri catalog) (hn : pb.Names p uri) :
    Named p uri (pb.getAndUpdate cache catalog ident pinned).2 := by
  rw [Publisher.getAndUpdate]
  split
  · exact h.addItem hn
  next item hi => exact h.refreshItem hn (h.lookup hi).2

lemma of_updateCatalog {r : Option CacheError} {catalog' : Catalog} (h : Named p uri catalog)
    (hn : pb.Names p uri) (hu : pb.updateCatalog cache catalog pinned u = (r, catalog')) :
    Named p uri catalog' := by
  have ht : Named p uri (pb.updateCatalog cache catalog pinned u).2 :=
    h.updateCatalog hn
  rwa [hu] at ht

lemma of_getAndUpdate {got : Except CacheError (Option CatalogItem)} {catalog' : Catalog}
    (h : Named p uri catalog) (hn : pb.Names p uri)
    (hg : pb.getAndUpdate cache catalog ident pinned = (got, catalog')) : Named p uri catalog' := by
  have ht : Named p uri (pb.getAndUpdate cache catalog ident pinned).2 :=
    h.getAndUpdate hn
  rwa [hg] at ht

/-- What `get_and_update` returns at a path that names a project, pinned or not. An item of the catalog
is returned for a removed project, too. -/
lemma exists_getAndUpdate (h : Named p uri catalog) (hn : pb.Names p uri) :
    (∃ item, (pb.getAndUpdate cache catalog p false).1 = .ok (some item) ∧ item.publicPath = p) ↔
      ∃ found md, pb.checkout cache (uriUrl uri) = .ok found ∧ found.metadata = some md ∧
        match List.lookup p catalog with
        | none => (∀ e, found ≠ .removed e) ∧ pb.Renewable md p
        | some item => md.lastModified ≤ item.md.lastModified ∨ pb.Renewable md p := by
  rw [Publisher.getAndUpdate]
  cases ho : List.lookup p catalog with
  | none =>
    obtain ⟨location, hl⟩ := hn.located
    obtain ⟨url, hurl, -⟩ := hn.resolves
    have hnew (md : ProjectMetadata) :
        (∃ item, (pb.renewItem catalog md p location).1 = some item ∧ item.publicPath = p) ↔ _ :=
      exists_renewItem
    simp only [Publisher.addItem, hurl, hl, hn.checkout_path hurl cache]
    cases pb.checkout cache (uriUrl uri) with
    | error e => simp
    | ok found => cases found <;> simp [Checkout.metadata, hnew]
  | some item =>
    obtain ⟨hp, huri⟩ := h.lookup ho
    cases hfound : pb.checkout cache (uriUrl uri) with
    | error e => simp [Publisher.refreshItem, huri rfl, hfound]
    | ok found =>
      cases hmd : found.metadata with
      | none =>
        cases found <;> cases hmd
        simp [Publisher.refreshItem, huri rfl, hfound, Checkout.metadata]
      | some md =>
        have hnew : (∃ i, (pb.renewItem catalog md p item.location).1 = some i ∧
          i.publicPath = p) ↔ _ := exists_renewItem
        simp only [refreshItem_of_metadata ((huri rfl).symm ▸ hfound) hmd]
        by_cases hle : md.lastModified ≤ item.md.lastModified <;> simp [hle, hp, hmd, hnew]

end Named
end QJazz.Ogc
