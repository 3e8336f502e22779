import QJazz.Cache.Recheck
import QJazz.Cache.Resolution
import QJazz.Ogc.Forgetting

/-! `Catalog.update` makes a new catalog from the projects that are listed, by their public paths
without the suffixes of projects. -/
namespace QJazz.Ogc
open Cache Json Lexical List

def Catalog.Keyed (catalog : Catalog) : Prop := ∀ y ∈ catalog, y.2.publicPath = y.1

def Catalog.KeyedOnce (catalog : Catalog) : Prop := catalog.Keyed ∧ (catalog.map Prod.fst).Nodup

namespace Publisher

/-- After an update every listed project has one item, at the path it is shown at and with its own
metadata, there are no others, and the path of each leads back to its project. -/
structure ListsOnce (pb : Publisher) (cache : Entries) (catalog : Catalog) : Prop where
  ends : (pb.updateCatalog cache catalog false none).1 = none
  covers : ∀ x ∈ (pb.collectProjectsEx none).1, ∃ y ∈ (pb.updateCatalog cache catalog false none).2,
    y.2.publicPath = shownPath x.2.1 ∧ y.2.md = x.1
  once : ∀ y ∈ (pb.updateCatalog cache catalog false none).2,
    ∀ y' ∈ (pb.updateCatalog cache catalog false none).2, y.2.md.uri = y'.2.md.uri → y = y'
  own : ∀ y ∈ (pb.updateCatalog cache catalog false none).2, ∃ x ∈ (pb.collectProjectsEx none).1,
    y.2.publicPath = shownPath x.2.1 ∧ y.2.md = x.1
  resolves : ∀ y ∈ (pb.updateCatalog cache catalog false none).2, ∃ url md,
    pb.resolvePath y.2.publicPath false = .ok url ∧ pb.metadataOf url = .ok md ∧ md.uri = y.2.md.uri

def LeadsTo (pb : Publisher) (path uri : String) : Prop :=
  ∃ url md, pb.resolvePath path false = .ok url ∧ pb.metadataOf url = .ok md ∧ md.uri = uri

variable {pb : Publisher} {cache : Entries} {catalog : Catalog} {pinned : Bool} {u : Option String}
  {i path : String} {md : ProjectMetadata} {l : PosixPath} {item : CatalogItem}

lemma nodup_ofItems (i : List CatalogItem) : ((Catalog.ofItems i).map Prod.fst).Nodup := by
  have hf (catalog : Catalog) (h : (catalog.map Prod.fst).Nodup) :
      ((i.foldl (fun d item => setKey item.publicPath item d) catalog).map Prod.fst).Nodup := by
    induction i generalizing catalog with
    | nil => exact h
    | cons item i ih => exact ih _ (nodup_setKey h)
  exact hf [] nodup_nil

lemma keyed_updateCatalog (h : catalog.Keyed) :
    (pb.updateCatalog cache catalog pinned u).2.Keyed := by
  cases hr : (pb.updateCatalog cache catalog pinned u).1 with
  | some e => rwa [updateCatalog_of_some hr]
  | none =>
    rw [(updateCatalog_of_none hr).2]
    intro y hy
    rcases mem_foldl_setKey hy with hn | ⟨-, hk⟩
    · cases hn
    · exact hk.symm

lemma keyedOnce_updateCatalog {r : Option CacheError} {c : Catalog} (h : catalog.KeyedOnce)
    (hu : pb.updateCatalog cache catalog pinned u = (r, c)) : c.KeyedOnce := by
  obtain rfl : (pb.updateCatalog cache catalog pinned u).2 = c := by rw [hu]
  refine ⟨keyed_updateCatalog h.1, ?_⟩
  cases hr : (pb.updateCatalog cache catalog pinned u).1 with
  | some e =>
    rw [updateCatalog_of_some hr]
    exact h.2
  | none =>
    rw [(updateCatalog_of_none hr).2]
    exact nodup_ofItems _

lemma keyed_renewItem (h : catalog.KeyedOnce) : (pb.renewItem catalog md i l).2.KeyedOnce := by
  rw [renewItem]
  split
  · split
    next item hnew =>
      refine ⟨fun y hy => ?_, nodup_setKey h.2⟩
      rcases mem_setKey hy with rfl | hy
      · exact (newCatalogItem_eq_some hnew).1
      · exact h.1 y hy
    · exact h
  · exact h

lemma keyed_addItem (h : catalog.KeyedOnce) : (pb.addItem cache catalog i pinned).2.KeyedOnce := by
  rw [addItem]
  split
  · exact h
  · exact h
  · split
    · exact h
    · exact h
    · split
      · exact h
      · split
        · exact h
        · exact keyed_renewItem h
      · split
        · exact h
        · exact keyed_renewItem h
      · exact h
      · exact h
      · exact keyed_renewItem h

lemma keyed_refreshItem (h : catalog.KeyedOnce) :
    (pb.refreshItem cache catalog i item).2.KeyedOnce := by
  cases hfound : pb.checkout cache (uriUrl item.md.uri) with
  | error e =>
    rw [refreshItem, hfound]
    exact h
  | ok f =>
    cases hmd : f.metadata with
    | none =>
      rw [refreshItem, hfound]
      cases f <;> cases hmd
      exact h
    | some md =>
      rw [refreshItem_of_metadata hfound hmd]
      split
      · exact h
      · exact keyed_renewItem h

lemma keyed_getAndUpdate {r : Except CacheError (Option CatalogItem)} {c : Catalog}
    (h : catalog.KeyedOnce) (hg : pb.getAndUpdate cache catalog i pinned = (r, c)) : c.KeyedOnce := by
  obtain rfl : (pb.getAndUpdate cache catalog i pinned).2 = c := by rw [hg]
  rw [getAndUpdate]
  split
  · exact keyed_addItem h
  · exact keyed_refreshItem h

lemma Keyed.eq_of_publicPath {y y' : String × CatalogItem} (hk : catalog.Keyed)
    (hn : (catalog.map Prod.fst).Nodup) (hy : y ∈ catalog) (hy' : y' ∈ catalog)
    (hp : y.2.publicPath = y'.2.publicPath) : y = y' := by
  rw [hk y hy, hk y' hy'] at hp
  exact inj_on_of_nodup_map hn hy hy' hp

lemma updateItems_snd (l : List (ProjectMetadata × String × PosixPath)) :
    (pb.updateItems cache catalog false l).2 = none := by
  induction l with
  | nil => rfl
  | cons x l ih => exact ih

lemma updateCatalog_fst (h : (pb.collectProjectsEx none).2 = none) :
    (pb.updateCatalog cache catalog false none).1 = none := by
  rw [updateCatalog, updateItems_snd, h]
  rfl

lemma publicPath_of_currentItem (hk : catalog.Keyed)
    (h : pb.currentItem catalog md path l = some item) : item.publicPath = path := by
  rcases currentItem_eq_some h with ho | ⟨hp, -⟩
  · exact hk _ (mem_of_lookup ho)
  · exact hp

lemma currentItem_of_old {old : CatalogItem} (ho : catalog.lookup path = some old)
    (hle : md.lastModified ≤ old.md.lastModified) : pb.currentItem catalog md path l = some old := by
  rw [currentItem, ho]
  exact if_neg (not_lt.2 hle)

lemma md_of_currentItem (h : pb.currentItem catalog md path l = some item)
    (ho : ∀ old, catalog.lookup path = some old → md.lastModified ≤ old.md.lastModified →
      old.md = md) : item.md = md := by
  rw [currentItem] at h
  split at h
  · exact (newCatalogItem_eq_some h).2
  next old hl =>
    split at h
    · exact (newCatalogItem_eq_some h).2
    next hle =>
      cases h
      exact ho _ hl (not_lt.1 hle)

lemma exists_currentItem_of_mem {y : String × CatalogItem}
    (he : (pb.collectProjectsEx none).2 = none)
    (hy : y ∈ (pb.updateCatalog cache catalog false none).2) : ∃ x ∈ (pb.collectProjectsEx none).1,
      pb.currentItem catalog x.1 (shownPath x.2.1) x.2.2 = some y.2 := by
  rw [(updateCatalog_of_none (updateCatalog_fst he)).2] at hy
  rcases mem_foldl_setKey hy with hn | ⟨hm, -⟩
  · cases hn
  · obtain ⟨x, hx, -, hu⟩ := (mem_updateItems (updateItems_snd _)).1 hm
    exact ⟨x, hx, hu⟩

lemma exists_item_of_listed (cache : Entries) (he : (pb.collectProjectsEx none).2 = none)
    (hk : catalog.Keyed)
    {x : ProjectMetadata × String × PosixPath} (hx : x ∈ (pb.collectProjectsEx none).1)
    (hr : pb.Readable x.1 (shownPath x.2.1)) :
    ∃ y ∈ (pb.updateCatalog cache catalog false none).2, y.2.publicPath = shownPath x.2.1 := by
  rw [(updateCatalog_of_none (updateCatalog_fst he)).2, exists_mem_ofItems]
  have ho : (pb.currentItem catalog x.1 (shownPath x.2.1) x.2.2).isSome = true :=
    currentItem_isSome hr
  obtain ⟨item, hi⟩ := Option.isSome_iff_exists.1 ho
  exact ⟨item, (mem_updateItems (updateItems_snd _)).2 ⟨x, hx, nofun, hi⟩,
    publicPath_of_currentItem hk hi⟩

/-- Different projects are shown at different paths, the old items at these paths are those of the
projects as they are now, and the paths lead back. -/
structure Distinguishes (pb : Publisher) (catalog : Catalog) : Prop where
  apart : ∀ x ∈ (pb.collectProjectsEx none).1, ∀ x' ∈ (pb.collectProjectsEx none).1,
    (shownPath x.2.1 = shownPath x'.2.1 ↔ x.1.uri = x'.1.uri)
  current : ∀ x ∈ (pb.collectProjectsEx none).1, ∀ old, catalog.lookup (shownPath x.2.1) = some old →
    x.1.lastModified ≤ old.md.lastModified → old.md = x.1
  leads : ∀ x ∈ (pb.collectProjectsEx none).1, pb.LeadsTo (shownPath x.2.1) x.1.uri

/-- An update lists every project once exactly if the listing and the old catalog tell them apart. -/
lemma listsOnce_iff_distinguishes (he : (pb.collectProjectsEx none).2 = none) (hk : catalog.Keyed)
    (hr : ∀ x ∈ (pb.collectProjectsEx none).1, pb.Readable x.1 (shownPath x.2.1))
    (hf : ∀ x ∈ (pb.collectProjectsEx none).1, ∀ x' ∈ (pb.collectProjectsEx none).1,
      x.1.uri = x'.1.uri → x.1 = x'.1) : pb.ListsOnce cache catalog ↔ pb.Distinguishes catalog := by
  have hn : ((pb.updateCatalog cache catalog false none).2.map Prod.fst).Nodup := by
    rw [(updateCatalog_of_none (updateCatalog_fst he)).2]
    exact nodup_ofItems _
  have hnew : (pb.updateCatalog cache catalog false none).2.Keyed := keyed_updateCatalog hk
  constructor
  · intro h
    have hap : ∀ x ∈ (pb.collectProjectsEx none).1, ∀ x' ∈ (pb.collectProjectsEx none).1,
        (shownPath x.2.1 = shownPath x'.2.1 ↔ x.1.uri = x'.1.uri) := by
      intro x hx x' hx'
      obtain ⟨y, hy, hp, hmd⟩ := h.covers x hx
      obtain ⟨y', hy', ht, hmd'⟩ := h.covers x' hx'
      constructor
      · intro hh
        rw [← hmd, ← hmd', Keyed.eq_of_publicPath hnew hn hy hy' ((hp.trans hh).trans ht.symm)]
      · intro huri
        rw [← hp, ← ht, h.once y hy y' hy' (by rw [hmd, hmd', huri])]
    refine ⟨hap, fun x hx old hl hle => ?_, fun x hx => ?_⟩
    · obtain ⟨y, hy, hp, hmd⟩ := h.covers x hx
      obtain ⟨x', hx', hu⟩ := exists_currentItem_of_mem he hy
      have hh : shownPath x'.2.1 = shownPath x.2.1 :=
        (publicPath_of_currentItem hk hu).symm.trans hp
      have hm := hf x' hx' x hx ((hap x' hx' x hx).1 hh)
      rw [hh, hm, currentItem_of_old hl hle] at hu
      rw [Option.some.inj hu, hmd]
    · obtain ⟨y, hy, hp, hmd⟩ := h.covers x hx
      obtain ⟨url, md, hurl, hd, huri⟩ := h.resolves y hy
      exact ⟨url, md, hp ▸ hurl, hd, hmd ▸ huri⟩
  · intro h
    have ho : ∀ y ∈ (pb.updateCatalog cache catalog false none).2,
        ∃ x ∈ (pb.collectProjectsEx none).1, y.2.publicPath = shownPath x.2.1 ∧ y.2.md = x.1 := by
      intro y hy
      obtain ⟨x, hx, hu⟩ := exists_currentItem_of_mem he hy
      exact ⟨x, hx, publicPath_of_currentItem hk hu, md_of_currentItem hu (h.current x hx)⟩
    refine ⟨updateCatalog_fst he, fun x hx => ?_, fun y hy y' hy' huri => ?_, ho, fun y hy => ?_⟩
    · obtain ⟨y, hy, hp⟩ := exists_item_of_listed cache he hk hx (hr x hx)
      obtain ⟨x', hx', ht, hmd⟩ := ho y hy
      have hh : shownPath x'.2.1 = shownPath x.2.1 := ht.symm.trans hp
      exact ⟨y, hy, hp, hmd.trans (hf x' hx' x hx ((h.apart x' hx' x hx).1 hh))⟩
    · obtain ⟨x, hx, hp, hmd⟩ := ho y hy
      obtain ⟨x', hx', ht, hmd'⟩ := ho y' hy'
      refine Keyed.eq_of_publicPath hnew hn hy hy' ?_
      rw [hp, ht, h.apart x hx x' hx', ← hmd, ← hmd', huri]
    · obtain ⟨x, hx, hp, hmd⟩ := ho y hy
      rw [hp, hmd]
      exact h.leads x hx

end Publisher

def asStatic : RouteDef → Option StaticRoute
  | .static r => some r
  | .dynamic _ => none

structure Publisher.PublishesFiles (pb : Publisher) (t : FileRoutes) (fs : FileSystem) : Prop where
  statics : pb.routes.filterMap asStatic = t.routes
  files : ∀ r ∈ pb.routes, r.url.scheme = fileScheme
  serves : pb.ServesFiles fs
  lists : (pb.collectProjectsEx none).1.map (fun x => (x.1, x.2.1.toList)) = t.collectProjects fs none
  ends : (pb.collectProjectsEx none).2 = none

def Shows (t : FileRoutes) (fs : FileSystem) (p : PosixPath) (s : String) : Prop :=
  ∃ l ∈ t.locations none, p ∈ FileRoutes.listedFiles fs l.2 ∧
    s = shownPath (.ofList (shownAt l.1 l.2 p).str)

/-- Different files are shown at different paths, the old items there are those of the files as they
are now, and the paths lead back to the files. -/
structure Publisher.TellsApart (pb : Publisher) (t : FileRoutes) (fs : FileSystem) (catalog : Catalog) :
    Prop where
  apart : ∀ p s q s', Shows t fs p s → Shows t fs q s' → (s = s' ↔ p = q)
  current : ∀ p s md old, Shows t fs p s → fs.fileMetadata p = some md →
    catalog.lookup s = some old → md.lastModified ≤ old.md.lastModified → old.md = md
  leads : ∀ p s, Shows t fs p s →
    ∃ url, pb.resolvePath s false = .ok url ∧ Completes fs (rootPath url) p

variable {pb : Publisher} {t : FileRoutes} {fs : FileSystem} {p : PosixPath} {s : String}
  {cache : Entries} {catalog : Catalog}

lemma head?_removeSuffix {u : String} (hu : '/' ∉ u.toList)
    (h : s.toList.head? = some '/') : (removeSuffix u s).toList.head? = some '/' := by
  rw [removeSuffix]
  split
  next hp =>
    obtain ⟨f, hf⟩ := hp
    have hl : s.length - u.length = f.length := by
      rw [← String.length_toList, ← String.length_toList, ← hf, length_append, Nat.add_sub_cancel]
    rw [String.toList_ofList, hl, ← hf, take_left]
    rw [← hf] at h
    cases f with
    | nil => exact absurd (mem_of_mem_head? h) hu
    | cons c f => exact h
  · exact h

lemma Shows.absolute (h : Shows t fs p s) : s.toList.head? = some '/' := by
  obtain ⟨l, hl, -, hs⟩ := h
  obtain ⟨r, -, ho, -⟩ := FileRoutes.exists_route_of_mem_locations hl
  rw [hs]
  refine (head?_removeSuffix (by decide) (head?_removeSuffix (by decide) ?_))
  rw [String.toList_ofList]
  refine PosixPath.head?_str fun hr => ?_
  rw [shownAt, PosixPath.join_root_of_relative rfl, ho] at hr
  exact PosixPath.root_parse_eq_none.1 hr r.location_rooted

namespace Publisher.PublishesFiles

lemma exists_listedFile (hpb : pb.PublishesFiles t fs) {x : ProjectMetadata × String × PosixPath}
    (hx : x ∈ (pb.collectProjectsEx none).1) :
    ∃ l ∈ t.locations none, ∃ q ∈ FileRoutes.listedFiles fs l.2,
      fs.fileMetadata q = some x.1 ∧ x.2.1.toList = (shownAt l.1 l.2 q).str := by
  have hm : (x.1, x.2.1.toList) ∈ t.collectProjects fs none := by
    rw [← hpb.lists]
    exact List.mem_map_of_mem hx
  obtain ⟨l, hl, ho⟩ := mem_flatMap.1 hm
  exact ⟨l, hl, (FileRoutes.mem_collect _).1 ho⟩

lemma shows_iff (hpb : pb.PublishesFiles t fs) :
    Shows t fs p s ↔ ∃ x ∈ (pb.collectProjectsEx none).1,
      fs.fileMetadata p = some x.1 ∧ s = shownPath x.2.1 := by
  constructor
  · rintro ⟨l, hl, hp, hs⟩
    have hi := mem_takeWhile_imp hp
    rw [Bool.and_eq_true] at hi
    obtain ⟨md, hmd, -⟩ := exists_fileMetadata hi.1
    have hm : (md, (shownAt l.1 l.2 p).str) ∈ t.collectProjects fs none :=
      mem_flatMap.2 ⟨l, hl, (FileRoutes.mem_collect _).2 ⟨p, hp, hmd, rfl⟩⟩
    rw [← hpb.lists] at hm
    obtain ⟨x, hx, hr⟩ := List.mem_map.1 hm
    rw [Prod.mk.injEq] at hr
    refine ⟨x, hx, by rw [hr.1, hmd], ?_⟩
    rw [hs, ← hr.2, String.ofList_toList]
  · rintro ⟨x, hx, hmd, hs⟩
    obtain ⟨l, hl, q, hq, hd, ht⟩ := hpb.exists_listedFile hx
    have hst : p.str = q.str :=
      String.ofList_injective ((uri_of_fileMetadata hmd).symm.trans (uri_of_fileMetadata hd))
    obtain rfl := PosixPath.str_injective hst
    refine ⟨l, hl, hq, ?_⟩
    rw [hs, ← ht, String.ofList_toList]

lemma exists_shows (hpb : pb.PublishesFiles t fs) {x : ProjectMetadata × String × PosixPath}
    (hx : x ∈ (pb.collectProjectsEx none).1) :
    ∃ p, fs.fileMetadata p = some x.1 ∧ Shows t fs p (shownPath x.2.1) := by
  obtain ⟨l, -, p, -, hmd, -⟩ := hpb.exists_listedFile hx
  exact ⟨p, hmd, hpb.shows_iff.2 ⟨x, hx, hmd, rfl⟩⟩

lemma leadsTo_iff (hpb : pb.PublishesFiles t fs) (ho : s.toList.head? = some '/')
    (ht : (fs.stat p).isSome) : pb.LeadsTo s (.ofList p.str) ↔
      ∃ url, pb.resolvePath s false = .ok url ∧ Completes fs (rootPath url) p := by
  refine exists_congr fun url => ?_
  rw [exists_and_left]
  refine and_congr_right fun hurl => ?_
  have hscheme : url.scheme = fileScheme := by
    rw [Manager.resolvePath] at hurl
    split at hurl
    next u hr =>
      cases hurl
      exact scheme_of_resolvePath hpb.files ho hr
    · cases hurl
    · cases hurl
  rw [← projectMetadata_uri_iff ht, Publisher.metadataOf, if_pos (hpb.serves.handles_url hscheme),
    hpb.serves.reads url hscheme]

end Publisher.PublishesFiles

namespace Publisher

/-- After an update of projects that are files and can all be read, every project has one item of its
own exactly if the paths without suffixes and the old items tell the files apart. -/
theorem listsOnce_iff (hpb : pb.PublishesFiles t fs) (hkeyed : catalog.Keyed)
    (hreadable : ∀ p s md, Shows t fs p s → fs.fileMetadata p = some md → pb.Readable md s) :
    pb.ListsOnce cache catalog ↔ pb.TellsApart t fs catalog := by
  have hf {p q : PosixPath} {md md' : ProjectMetadata} (hp : fs.fileMetadata p = some md)
      (hq : fs.fileMetadata q = some md') : md.uri = md'.uri ↔ p = q := by
    rw [uri_of_fileMetadata hp, uri_of_fileMetadata hq, String.ofList_inj,
      PosixPath.str_injective.eq_iff]
  have ht {p : PosixPath} {md : ProjectMetadata} (hp : fs.fileMetadata p = some md) :
      (fs.stat p).isSome = true := by
    obtain ⟨i, hi, -⟩ := Option.map_eq_some_iff.1 hp
    rw [hi]
    rfl
  rw [listsOnce_iff_distinguishes hpb.ends hkeyed ?_ ?_]
  · constructor
    · intro h
      refine ⟨fun p s q s' hp hq => ?_, fun p s md old hp hmd ho hle => ?_, fun p s hp => ?_⟩
      · obtain ⟨x, hx, hd, hs⟩ := hpb.shows_iff.1 hp
        obtain ⟨x', hx', hm, hs'⟩ := hpb.shows_iff.1 hq
        rw [hs, hs', h.apart x hx x' hx', hf hd hm]
      · obtain ⟨x, hx, hd, hs⟩ := hpb.shows_iff.1 hp
        cases hmd.symm.trans hd
        exact h.current x hx old (hs ▸ ho) hle
      · obtain ⟨x, hx, hd, hs⟩ := hpb.shows_iff.1 hp
        have hl := h.leads x hx
        rw [uri_of_fileMetadata hd, ← hs] at hl
        exact (hpb.leadsTo_iff hp.absolute (ht hd)).1 hl
    · intro h
      refine ⟨fun x hx x' hx' => ?_, fun x hx old ho hle => ?_, fun x hx => ?_⟩
      · obtain ⟨p, hmd, hp⟩ := hpb.exists_shows hx
        obtain ⟨p', hmd', hp'⟩ := hpb.exists_shows hx'
        rw [h.apart p _ p' _ hp hp', hf hmd hmd']
      · obtain ⟨p, hmd, hp⟩ := hpb.exists_shows hx
        exact h.current p _ _ old hp hmd ho hle
      · obtain ⟨p, hmd, hp⟩ := hpb.exists_shows hx
        rw [uri_of_fileMetadata hmd]
        exact (hpb.leadsTo_iff hp.absolute (ht hmd)).2 (h.leads p _ hp)
  · intro x hx
    obtain ⟨p, hmd, hp⟩ := hpb.exists_shows hx
    exact hreadable p _ _ hp hmd
  · intro x hx x' hx' huri
    obtain ⟨p, hmd, -⟩ := hpb.exists_shows hx
    obtain ⟨p', hmd', -⟩ := hpb.exists_shows hx'
    rw [(hf hmd hmd').1 huri] at hmd
    exact Option.some.inj (hmd.symm.trans hmd')

end Publisher
def srvRoutes : FileRoutes where
  routes := [⟨"/maps".toList, .ofText "/srv".toList, head?_maps⟩]
  nodup := by decide
  isFile := by decide +kernel

def srvFiles (names : List PosixPath) : FileSystem where
  stat p :=
    if p = .parse "/srv".toList ∨ p ∈ names.map (PosixPath.parse "/srv".toList).join then some 1 else none
  isDir p := decide (p = .parse "/srv".toList)
  isFile p := decide (p ∈ names.map (PosixPath.parse "/srv".toList).join)
  walk p := if p = .parse "/srv".toList then names.filter fun q => q.root = .none else []
  walk_relative := by
    intro p q hq
    split at hq
    · simpa using (List.mem_filter.1 hq).2
    · cases hq

lemma refresh_uri_mapPublisher {md md' : ProjectMetadata}
    (h : mapPublisher.refreshMetadata md = .ok md') : md'.uri = md.uri :=
  mapPublisher.refresh_uri h

def srvPublisher (names : List PosixPath) : Publisher where
  __ := mapPublisher
  refresh_uri := @refresh_uri_mapPublisher
  routes := srvRoutes.routes.map .static
  projectMetadata := (srvFiles names).projectMetadata
  collectProjectsEx under :=
    ((srvRoutes.collectProjects (srvFiles names) (under.map String.toList)).map fun x =>
      (x.1, .ofList x.2, .parse "/maps".toList), none)

lemma publishesFiles_srvPublisher (n : List PosixPath) :
    (srvPublisher n).PublishesFiles srvRoutes (srvFiles n) where
  statics := rfl
  files := by
    intro r hr
    obtain ⟨r', hr', rfl⟩ := List.mem_map.1 hr
    exact srvRoutes.isFile r' hr'
  serves := ⟨rfl, fun _ _ => rfl⟩
  lists := by
    change ((srvRoutes.collectProjects (srvFiles n) none).map _).map _ = _
    rw [List.map_map]
    simp [Function.comp_def]
  ends := rfl

def oneMap : List PosixPath := [.parse "map.qgs".toList]

lemma shows_oneMap {p : PosixPath} {s : String} (h : Shows srvRoutes (srvFiles oneMap) p s) :
    p = .parse "/srv/map.qgs".toList ∧ s = "/maps/map" := by
  obtain ⟨l, hl, hp, hs⟩ := h
  have ho : srvRoutes.locations none = [("/maps".toList, fileUrl "/srv")] := by decide +kernel
  have hf : FileRoutes.listedFiles (srvFiles oneMap) (fileUrl "/srv") =
      [.parse "/srv/map.qgs".toList] := by
    decide +kernel
  have hh : shownPath (.ofList (shownAt "/maps".toList (fileUrl "/srv")
      (.parse "/srv/map.qgs".toList)).str) = "/maps/map" := by
    decide +kernel
  rw [ho, mem_singleton] at hl
  rw [hl, hf, mem_singleton] at hp
  rw [hl, hp, hh] at hs
  exact ⟨hp, hs⟩

theorem listsOnce_iff_oneMap : (srvPublisher oneMap).ListsOnce .empty [] := by
  have hk : Catalog.Keyed [] := fun y hy => absurd hy not_mem_nil
  refine (Publisher.listsOnce_iff (publishesFiles_srvPublisher oneMap) hk ?_).2 ⟨?_, ?_, ?_⟩
  · exact fun _ _ _ _ _ => ⟨mapContent, rfl, by decide, rfl⟩
  · intro p s q s' hp hq
    have hpq : p = q := (shows_oneMap hp).1.trans (shows_oneMap hq).1.symm
    have hss : s = s' := (shows_oneMap hp).2.trans (shows_oneMap hq).2.symm
    exact iff_of_true hss hpq
  · intro p s md old hp hmd ho
    cases ho
  · intro p s hp
    rw [(shows_oneMap hp).1, (shows_oneMap hp).2]
    exact ⟨fileUrl "/srv/map", by decide +kernel, completes_of_checkFilepath (by decide +kernel)⟩

def twinMaps : List PosixPath := [.parse "a.qgs".toList, .parse "a.qgz".toList]

/-- Both files are listed, the catalog has an item of the second one only, and the path of the item
leads to the first one. -/
theorem not_listsOnce_twinMaps :
    ((srvPublisher twinMaps).collectProjectsEx none).1.map (fun x => (x.1.uri, x.2.1)) =
        [("/srv/a.qgs", "/maps/a.qgs"), ("/srv/a.qgz", "/maps/a.qgz")] ∧
      ((srvPublisher twinMaps).updateCatalog .empty [] false none).2.map (fun y => (y.1, y.2.md.uri)) =
        [("/maps/a", "/srv/a.qgz")] ∧
      (srvPublisher twinMaps).resolvePath "/maps/a" false = .ok (fileUrl "/srv/a") ∧
      ((srvPublisher twinMaps).metadataOf (fileUrl "/srv/a")).map ProjectMetadata.uri =
        .ok "/srv/a.qgs" ∧ ¬ (srvPublisher twinMaps).ListsOnce .empty [] := by
  have hl : ((srvPublisher twinMaps).collectProjectsEx none).1.map (fun x => (x.1.uri, x.2.1)) =
      [("/srv/a.qgs", "/maps/a.qgs"), ("/srv/a.qgz", "/maps/a.qgz")] := by
    decide +kernel
  have ht : ((srvPublisher twinMaps).updateCatalog .empty [] false none).2.map
      (fun y => (y.1, y.2.md.uri)) = [("/maps/a", "/srv/a.qgz")] := by
    decide +kernel
  refine ⟨hl, ht, by decide +kernel, by decide +kernel, fun h => ?_⟩
  have hf : ("/srv/a.qgs", "/maps/a.qgs") ∈
      ((srvPublisher twinMaps).collectProjectsEx none).1.map fun x => (x.1.uri, x.2.1) := by
    rw [hl]
    exact mem_cons_self
  obtain ⟨x, hx, hp⟩ := List.mem_map.1 hf
  obtain ⟨y, hy, -, hmd⟩ := h.covers x hx
  have hi := List.mem_map_of_mem (f := fun y => (y.1, y.2.md.uri)) hy
  rw [ht, mem_singleton, Prod.mk.injEq, hmd, (Prod.mk.inj hp).1] at hi
  exact absurd hi.2 (by decide)

end QJazz.Ogc
