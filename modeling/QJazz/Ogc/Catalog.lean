import QJazz.Cache.Manager

/-! The catalog keeps a snapshot of every published project, by its public path. -/
namespace QJazz.Ogc
open Cache Json Lexical

/-- A collection, as the two texts that are sent of it: the whole of it, and its part in a catalog. -/
structure Collection where
  json : String
  catalogJson : String
deriving DecidableEq

structure CatalogItem where
  publicPath : String
  md : ProjectMetadata
  layers : List (String × OgcEndpoints)
  coll : Collection
  location : PosixPath
deriving DecidableEq

abbrev Catalog := List (String × CatalogItem)

structure Publisher extends Manager where
  /-- The project, loaded without its layers, unless that raises. -/
  snapshot : ProjectMetadata → Option Project
  /-- `Collection.from_project`, unless it raises -/
  fromProject : String → Project → Option Collection
  /-- `Collection.from_layer`, which gives nothing for a layer without a provider -/
  fromLayer : MapLayer → Collection → Except CacheError (Option Collection)
  minimumQgisVersion : ℕ × ℕ
  /-- The text of `Collection.model_json_schema()` -/
  collectionSchema : String

def removeSuffix (suffix s : String) : String :=
  if suffix.toList <:+ s.toList then .ofList (s.toList.take (s.length - suffix.length)) else s

def Catalog.iter (catalog : Catalog) (under : Option String) : List CatalogItem :=
  match under with
  | none | some "" => catalog.map Prod.snd
  | some path =>
    (catalog.map Prod.snd).filter fun item => item.location.isRelativeTo (.parse path.toList)

namespace Publisher

def newCatalogItem (pb : Publisher) (md : ProjectMetadata) (publicPath : String)
    (location : PosixPath) : Option CatalogItem :=
  match pb.snapshot md with
  | none => none
  | some project =>
    if project.recentEnough pb.minimumQgisVersion then
      (pb.fromProject publicPath project).map fun coll =>
        { publicPath, md, layers := project.collectLayers, coll, location }
    else none

def uriUrl (uri : String) : Url := Url.urlsplit (.ofText uri.toList)

def isPinned (pb : Publisher) (cache : Entries) (md : ProjectMetadata) : Except CacheError Bool :=
  match pb.checkout cache (uriUrl md.uri) with
  | .error e => .error e
  | .ok (.unchanged e) | .ok (.needUpdate e) => .ok e.pinned
  | .ok _ => .ok false

def currentItem (pb : Publisher) (catalog : Catalog) (md : ProjectMetadata) (publicPath : String)
    (location : PosixPath) : Option CatalogItem :=
  match catalog.lookup publicPath with
  | none => pb.newCatalogItem md publicPath location
  | some item =>
    if item.md.lastModified < md.lastModified then pb.newCatalogItem md publicPath location
    else some item

/-- `update_items`, up to the first exception. A project that cannot be loaded is left out. -/
def updateItems (pb : Publisher) (cache : Entries) (catalog : Catalog) (pinned : Bool) :
    List (ProjectMetadata × String × PosixPath) → List CatalogItem × Option CacheError
  | [] => ([], none)
  | (md, publicPath, location) :: listed =>
    let item := pb.currentItem catalog md (removeSuffix ".qgz" (removeSuffix ".qgs" publicPath))
      location
    let later := pb.updateItems cache catalog pinned listed
    if pinned then
      match pb.isPinned cache md with
      | .error e => ([], some e)
      | .ok false => later
      | .ok true => (item.toList ++ later.1, later.2)
    else (item.toList ++ later.1, later.2)

def updateCatalog (pb : Publisher) (cache : Entries) (catalog : Catalog) (pinned : Bool)
    (under : Option String) : Option CacheError × Catalog :=
  let listed := pb.collectProjectsEx under
  let items := pb.updateItems cache catalog pinned listed.1
  match items.2.or listed.2 with
  | some e => (some e, catalog)
  | none => (none, items.1.foldl (fun d item => setKey item.publicPath item d) [])

/-- The end of `get_and_update`: a new item, unless it cannot be made. -/
def renewItem (pb : Publisher) (catalog : Catalog) (md : ProjectMetadata) (ident : String)
    (location : PosixPath) : Option CatalogItem × Catalog :=
  if pb.hasHandler md.scheme then
    match pb.newCatalogItem md ident location with
    | some item => (some item, setKey ident item catalog)
    | none => (none, catalog)
  else (none, catalog)

def addItem (pb : Publisher) (cache : Entries) (catalog : Catalog) (ident : String) (pinned : Bool) :
    Except CacheError (Option CatalogItem) × Catalog :=
  match pb.resolvePath ident false with
  | .error (.notAllowed _) => (.ok none, catalog)
  | .error e => (.error e, catalog)
  | .ok url =>
    match pb.findLocation ident with
    | .error e => (.error e, catalog)
    | .ok none => (.error .other, catalog)
    | .ok (some location) =>
      match pb.checkout cache url with
      | .error e => (.error e, catalog)
      | .ok (.unchanged e) | .ok (.needUpdate e) =>
        if pinned && !e.pinned then (.ok none, catalog)
        else (.ok (pb.renewItem catalog e.md ident location).1,
          (pb.renewItem catalog e.md ident location).2)
      | .ok (.removed _) | .ok .notFound => (.ok none, catalog)
      | .ok (.new md) =>
        (.ok (pb.renewItem catalog md ident location).1, (pb.renewItem catalog md ident location).2)

/-- `get_and_update` of an item of the catalog. The case for removed projects has a pattern of three
values for a pair, so it never applies. -/
def refreshItem (pb : Publisher) (cache : Entries) (catalog : Catalog) (ident : String)
    (item : CatalogItem) : Except CacheError (Option CatalogItem) × Catalog :=
  let current md :=
    if md.lastModified ≤ item.md.lastModified then (.ok (some item), catalog)
    else (.ok (pb.renewItem catalog md ident item.location).1,
      (pb.renewItem catalog md ident item.location).2)
  match pb.checkout cache (uriUrl item.md.uri) with
  | .error e => (.error e, catalog)
  | .ok (.new md) => current md
  | .ok (.unchanged e) | .ok (.needUpdate e) | .ok (.removed e) => current e.md
  | .ok .notFound => (.error .other, catalog)

def getAndUpdate (pb : Publisher) (cache : Entries) (catalog : Catalog) (ident : String)
    (pinned : Bool) : Except CacheError (Option CatalogItem) × Catalog :=
  match catalog.lookup ident with
  | none => pb.addItem cache catalog ident pinned
  | some item => pb.refreshItem cache catalog ident item

/-! ## The catalog and the table of the cache

Only the items of the cache count, not the table they are in. -/

variable {pb : Publisher} {c cache' : Entries} {catalog : Catalog}

lemma updateItems_congr (h : cache'.items = c.items) (i : Bool)
    (listed : List (ProjectMetadata × String × PosixPath)) :
    pb.updateItems cache' catalog i listed = pb.updateItems c catalog i listed := by
  induction listed with
  | nil => rfl
  | cons p listed ih =>
    obtain ⟨md, u, l⟩ := p
    simp only [updateItems, isPinned, Manager.checkout_congr h, ih]

lemma updateCatalog_congr (h : cache'.items = c.items) (p : Bool) (under : Option String) :
    pb.updateCatalog cache' catalog p under = pb.updateCatalog c catalog p under := by
  simp only [updateCatalog, updateItems_congr h]

lemma getAndUpdate_congr (h : cache'.items = c.items) (i : String) (pinned : Bool) :
    pb.getAndUpdate cache' catalog i pinned = pb.getAndUpdate c catalog i pinned := by
  simp only [getAndUpdate, addItem, refreshItem, Manager.checkout_congr h]

end Publisher
end QJazz.Ogc
