import QJazz.Ogc.Catalog
import QJazz.Rpc.Replies.Model

/-! The operations of `op_cache.py` and `op_collections.py`. -/
namespace QJazz.Rpc
open Cache Ogc Lexical Worker

/-- A reply as it is handed to the connection: an answer, an item of a stream, an error, or the end of
a stream. -/
inductive Reply where
  | answer (body : Body Worker.ProjectInfo)
  | item (body : Body Worker.ProjectInfo)
  | failure (status : ℤ) (text : String)
  | noData
deriving DecidableEq

namespace Worker

/-- The configuration of the worker, its name, and the conversion of a time to a date, which not every
time has. -/
structure Context extends Publisher where
  maxProjects : ℤ
  loadProjectOnRequest : Bool
  reloadOutdatedProjectOnRequest : Bool
  name : String
  iso : ℚ → Option String

structure State where
  cache : Entries
  catalog : Catalog

end Worker

structure Outcome where
  state : State
  sent : List Reply := []
  raised : Option CacheError := none

namespace Outcome

def ofReply (s : State) : Except CacheError Reply → Outcome
  | .ok r => { state := s, sent := [r] }
  | .error e => { state := s, raised := some e }

/-- A `try` around a handler, with a reply for some of the exceptions. -/
def catching (caught : CacheError → Option Reply) (o : Outcome) : Outcome :=
  match o.raised.bind caught with
  | some r => { o with sent := o.sent ++ [r], raised := none }
  | none => o

def stream (s : State) : List (Except CacheError (Body Worker.ProjectInfo)) → Outcome
  | [] => { state := s, sent := [.noData] }
  | .ok body :: items => { stream s items with sent := .item body :: (stream s items).sent }
  | .error e :: _ => { state := s, raised := some e }

end Outcome

def CheckoutStatus.value : CheckoutStatus → ℤ
  | .UNCHANGED => 0
  | .NEEDUPDATE => 1
  | .REMOVED => 2
  | .NOTFOUND => 3
  | .NEW => 4
  | .UPDATED => 5

def truncate (q : ℚ) : ℤ := q.num.tdiv q.den

def mutate (f : CacheEntry → CacheEntry) (cache : Entries) (e : CacheEntry) : Entries :=
  if cache.get? e.uri = some e then cache.set (f e) else cache

def islice {α : Type} (start stop : ℤ) (l : List α) : Except CacheError (List α) :=
  if start < 0 ∨ stop < 0 then .error .other else .ok ((l.take stop.toNat).drop start.toNat)

namespace Worker.Context

variable (w : Context)

def timestampToIso (t : ℚ) : Except CacheError (Option String) :=
  if t = 0 then .ok none
  else
    match w.iso t with
    | some date => .ok (some date)
    | none => .error .other

def toIso (t : ℚ) : Except CacheError String :=
  match w.iso t with
  | some date => .ok date
  | none => .error .other

def entryInfo (e : CacheEntry) (status : CheckoutStatus) (inCache : Bool) (memory : ℤ)
    (lastModified : Option String) : CacheInfo where
  uri := e.md.uri
  status := CheckoutStatus.value status
  inCache
  cacheId := w.name
  timestamp := some (truncate e.timestamp)
  name := some e.md.name
  storage := e.md.storage
  lastModified
  savedVersion := some e.project.lastSaveVersion
  debugMetadata := [("load_memory_bytes", memory), ("load_time_ms", e.loadTimeMs)]
  lastHit := truncate e.lastHit
  hits := e.hits
  pinned := e.pinned

/-- The dictionary of the debug metadata has to have a number for the memory. -/
def cacheInfoFromEntry (e : CacheEntry) (status : CheckoutStatus) (inCache : Bool) :
    Except CacheError CacheInfo :=
  match w.timestampToIso e.md.lastModified, e.loadMemoryBytes with
  | .ok lastModified, some memory => .ok (w.entryInfo e status inCache memory lastModified)
  | .ok _, none => .error .other
  | .error err, _ => .error err

def absentInfo (uri : String) (status : CheckoutStatus) : CacheInfo :=
  { uri, status := CheckoutStatus.value status, inCache := false, cacheId := w.name }

def checkoutPath (cache : Entries) (uri : String) : Except CacheError (Url × Checkout) :=
  match w.resolvePath uri true with
  | .error e => .error e
  | .ok url => (w.checkout cache url).map (url, ·)

variable {w} in
lemma checkoutPath_eq_ok {c : Entries} {uri : String} {url : Url} {found : Checkout} :
    w.checkoutPath c uri = .ok (url, found) ↔
      w.resolvePath uri true = .ok url ∧ w.checkout c url = .ok found := by
  rw [checkoutPath]
  cases w.resolvePath uri true with
  | error e => simp
  | ok u =>
    simp only [Except.ok.injEq]
    constructor
    · intro h
      cases hfound : w.checkout c u with
      | error e =>
        rw [hfound] at h
        cases h
      | ok f =>
        rw [hfound] at h
        cases h
        exact ⟨rfl, hfound⟩
    · rintro ⟨rfl, h⟩
      rw [h]
      rfl

def droppedInfo (e : CacheEntry) (status : CheckoutStatus) : Except CacheError CacheInfo :=
  (w.timestampToIso e.md.lastModified).map fun lastModified =>
    { w.absentInfo e.md.uri status with
      lastModified, savedVersion := some e.project.lastSaveVersion }

def dropProject (s : State) (uri : String) : Outcome :=
  match w.checkoutPath s.cache uri with
  | .error e => { state := s, raised := some e }
  | .ok (_, .needUpdate e) | .ok (_, .unchanged e) | .ok (_, .removed e) =>
    let removed := w.update s.cache e.md .REMOVED
    .ofReply { s with cache := removed.2 } <|
      match removed.1 with
      | .ok (_, status) => (w.droppedInfo e status).map fun info => .answer (.cacheInfo info)
      | .error err => .error err
  | .ok (_, found) => .ofReply s (.ok (.answer (.cacheInfo (w.absentInfo uri found.status))))

def newInfo (md : ProjectMetadata) : Except CacheError CacheInfo :=
  (w.timestampToIso md.lastModified).map fun lastModified =>
    { w.absentInfo md.uri .NEW with
      storage := md.storage.filter fun storage => storage ≠ ""
      lastModified }

def describe (url : Url) : Checkout → Except CacheError CacheInfo
  | .new md => w.newInfo md
  | .needUpdate e => w.cacheInfoFromEntry e .NEEDUPDATE true
  | .unchanged e => w.cacheInfoFromEntry e .UNCHANGED true
  | .removed e => w.cacheInfoFromEntry e .REMOVED true
  | .notFound => .ok (w.absentInfo (.ofList url.geturl.render) .NOTFOUND)

def pinned (updated : Except CacheError (CacheEntry × CheckoutStatus) × Entries) :
    Except CacheError Reply × Entries :=
  match updated with
  | (.ok (e, status), cache) =>
    ((w.cacheInfoFromEntry e.pin status true).map fun info => .answer (.cacheInfo info),
      mutate CacheEntry.pin cache e)
  | (.error err, cache) => (.error err, cache)

def noRoom (cache : Entries) : Except CacheError Bool × Entries :=
  if w.maxProjects ≤ cache.length then
    ((w.evictByPopularity cache).1.map Option.isNone, (w.evictByPopularity cache).2)
  else (.ok false, cache)

def pull (cache : Entries) (url : Url) : Checkout → Except CacheError Reply × Entries
  | .new md =>
    match w.noRoom cache with
    | (.error e, cache) => (.error e, cache)
    | (.ok true, cache) => (.ok (.failure 403 "Max object reached on server"), cache)
    | (.ok false, cache) => w.pinned (w.update cache md .NEW)
  | .unchanged e => w.pinned (.ok (e, .UNCHANGED), cache)
  | .needUpdate e => w.pinned (w.update cache e.md .NEEDUPDATE)
  | .removed e =>
    match w.update cache e.md .REMOVED with
    | (.ok (e, status), cache) =>
      ((w.cacheInfoFromEntry e status false).map fun info => .answer (.cacheInfo info), cache)
    | (.error err, cache) => (.error err, cache)
  | .notFound =>
    (.ok (.answer (.cacheInfo (w.absentInfo (.ofList url.geturl.render) .NOTFOUND))), cache)

def refusal : CacheError → Option Reply
  | .notAllowed text => some (.failure 403 text)
  | .strictChecking text => some (.failure 500 text)
  | .other => none

def checkoutProject (s : State) (uri : String) (pull : Bool) : Outcome :=
  .catching refusal <|
    match w.checkoutPath s.cache uri with
    | .error e => { state := s, raised := some e }
    | .ok (url, found) =>
      if pull then .ofReply { s with cache := (w.pull s.cache url found).2 } (w.pull s.cache url found).1
      else .ofReply s ((w.describe url found).map fun info => .answer (.cacheInfo info))

def sendCacheList (s : State) : Outcome :=
  .stream s <| s.cache.items.map fun e =>
    match w.checkoutEntry e with
    | .ok status => (w.cacheInfoFromEntry e status true).map .cacheInfo
    | .error err => .error err

def clear (s : State) : Outcome :=
  .ofReply { s with cache := .empty } (.ok (.answer .unit))

def updateCache (s : State) : Outcome :=
  .ofReply { s with cache := (w.toManager.updateCache s.cache).2 } <|
    match (w.toManager.updateCache s.cache).1 with
    | none => .ok (.answer .unit)
    | some e => .error e

def layerInfo (layer : MapLayer) : LayerInfo where
  layerId := layer.id
  name := layer.name
  source := layer.publicSource
  provider := layer.providerType
  layerType := layer.layerType
  crs := layer.crs
  isValid := layer.isValid
  isSpatial := layer.isSpatial

def storageName (storage : Option String) : String :=
  match storage with
  | none | some "" => "<none>"
  | some name => name

def projectInfo (e : CacheEntry) (status : CheckoutStatus) : Except CacheError Worker.ProjectInfo :=
  (w.toIso e.md.lastModified).map fun lastModified =>
    { status := CheckoutStatus.value status
      uri := e.md.uri
      filename := e.project.fileName
      crs := e.project.crs
      lastModified
      storage := some (storageName e.md.storage)
      hasBadLayers := e.project.mapLayers.any fun layer => !layer.isValid
      layers := e.project.mapLayers.map layerInfo
      cacheId := w.name }

/-- The reply to the one exception that a request for the info of a project answers. -/
def infoRefusal : CacheError → Option Reply
  | .notAllowed text => some (.failure 403 text)
  | _ => none

def sendProjectInfo (s : State) (uri : String) : Outcome :=
  .catching infoRefusal <|
    match w.checkoutPath s.cache uri with
    | .error e => { state := s, raised := some e }
    | .ok (url, found) =>
      .ofReply s <|
        match found with
        | .needUpdate e | .unchanged e | .removed e =>
          (w.projectInfo e found.status).map fun info => .answer (.projectInfo info)
        | .notFound | .new _ =>
          .ok (.failure 404 ("Resource not available in cache: " ++ .ofList url.geturl.render))

def catalogItem (md : ProjectMetadata) (publicPath : String) : Except CacheError CatalogItem :=
  (w.toIso md.lastModified).map fun lastModified =>
    { uri := md.uri
      name := md.name
      storage := storageName md.storage
      lastModified
      publicUri := publicPath }

def sendCatalog (s : State) (location : Option String) : Outcome :=
  let listed := w.collectProjectsEx location
  .stream s <|
    (listed.1.map fun p => (w.catalogItem p.1 p.2.1).map .catalogItem) ++
      listed.2.toList.map .error

def page (items : Except CacheError (List CollectionsItem)) (next : Bool) : Except CacheError Reply :=
  items.map fun items => .answer (.page { schema := w.collectionSchema, next, items })

variable {w} in
lemma sent_page_iff {s : State} {items : Except CacheError (List CollectionsItem)} {next : Bool}
    {p : CollectionsPage} : (Outcome.ofReply s (w.page items next)).sent = [.answer (.page p)] ↔
      ∃ l, items = .ok l ∧ p = { schema := w.collectionSchema, next, items := l } := by
  cases items with
  | error e => simp [Context.page, Outcome.ofReply, Except.map]
  | ok l => simp [Context.page, Outcome.ofReply, Except.map, eq_comm]

def mapEndpoint : OgcEndpoints := { map := true }

def handleCatalog (s : State) (msg : CollectionsMsg) : Outcome :=
  match msg.resource.filter (· ≠ "") with
  | some resource =>
    let got := w.getAndUpdate s.cache s.catalog resource false
    .ofReply { s with catalog := got.2 } <|
      w.page (got.1.map fun item => item.toList.map fun item =>
          { name := item.publicPath, json := item.coll.json, endpoints := mapEndpoint.value })
        (msg.stop < got.2.length)
  | none =>
    match w.updateCatalog s.cache s.catalog (!w.loadProjectOnRequest) msg.location with
    | (some e, catalog) => { state := { s with catalog }, raised := some e }
    | (none, catalog) =>
      .ofReply { s with catalog } <|
        w.page ((islice msg.start msg.stop (catalog.iter msg.location)).map fun items =>
            items.map fun item =>
              { name := item.publicPath, json := item.coll.catalogJson
                endpoints := mapEndpoint.value })
          (msg.stop < catalog.length)

/-- What a request for a project leads to: the status and the entry, if there is one, the replies that
were sent already, and an exception. -/
structure Requested where
  cache : Entries
  status : CheckoutStatus := .NOTFOUND
  entry : Option CacheEntry := none
  sent : List Reply := []
  raised : Option CacheError := none

def tryRequest (cache : Entries) (target : String) (allowDirect : Bool) : Requested :=
  match w.resolvePath target allowDirect with
  | .error e => { cache, raised := some e }
  | .ok url =>
    match w.checkout cache url with
    | .error e => { cache, raised := some e }
    | .ok (.needUpdate e) =>
      if w.reloadOutdatedProjectOnRequest then
        -- the outdated entry stays the result if the project cannot be reloaded
        match w.update cache e.md .NEEDUPDATE with
        | (.ok (entry, status), cache) => { cache, status, entry := some entry }
        | (.error err, cache) => { cache, entry := some e, raised := some err }
      else { cache, status := .NEEDUPDATE, entry := some e }
    | .ok (.unchanged e) => { cache, status := .UNCHANGED, entry := some e }
    | .ok (.new md) =>
      if w.loadProjectOnRequest then
        match w.noRoom cache with
        | (.error e, cache) => { cache, raised := some e }
        | (.ok true, cache) =>
          { cache, status := .NEW, sent := [.failure 409 "Max object reached on server"] }
        | (.ok false, cache) =>
          match w.update cache md .NEW with
          | (.ok (entry, status), cache) => { cache, status, entry := some entry }
          | (.error err, cache) => { cache, raised := some err }
      else { cache, status := .NEW, sent := [.failure 404 ("Resource not found: " ++ target)] }
    | .ok (.removed e) =>
      { cache, status := .REMOVED, entry := some e, sent := [.failure 410 target] }
    | .ok .notFound =>
      { cache, status := .NOTFOUND, sent := [.failure 404 ("Resource not found: " ++ target)] }

/-- The `except` part of `request_project_from_cache`. -/
def Requested.recover (r : Requested) : Requested :=
  match r.raised.bind refusal with
  | some reply => { r with status := .NOTFOUND, sent := r.sent ++ [reply], raised := none }
  | none => r

def requestProjectFromCache (cache : Entries) (target : String) (allowDirect : Bool) : Requested :=
  (w.tryRequest cache target allowDirect).recover

def serve (r : Requested) : Requested :=
  match r.raised, r.entry with
  | none, some e =>
    if r.status = .REMOVED then { r with entry := none }
    else
      { r with
        cache := mutate (CacheEntry.hitMe w.now) r.cache e
        entry := some (e.hitMe w.now) }
  | _, _ => r

def absolute (target : String) : String :=
  if target.toList.head? = some '/' then target else "/" ++ target

def getProject (cache : Entries) (target : String) (allowDirect : Bool) : Requested :=
  w.serve (w.requestProjectFromCache cache (absolute target) allowDirect)

def layerItem (project : Project) (parent : Ogc.CatalogItem) (layer : MapLayer) :
    Except CacheError (Option CollectionsItem) :=
  match w.fromLayer layer parent.coll, parent.layers.lookup (project.layerName layer) with
  | .error e, _ => .error e
  | .ok none, _ => .ok none
  | .ok (some coll), some endpoints =>
    .ok (some { name := project.layerName layer, json := coll.json, endpoints := endpoints.value })
  | .ok (some _), none => .error .other

def iterLayers (project : Project) (parent : Ogc.CatalogItem) : List MapLayer :=
  (project.mapLayers.filter MapLayer.isValid).filter fun layer =>
    (parent.layers.lookup (project.layerName layer)).isSome

def layerItems (msg : CollectionsMsg) (project : Project) (parent : Ogc.CatalogItem) :
    Except CacheError (List CollectionsItem) :=
  match msg.resource.filter (· ≠ "") with
  | some resource =>
    match parent.layers.lookup resource, project.layerByName resource with
    | some endpoints, some layer =>
      (w.fromLayer layer parent.coll).map fun coll => coll.toList.map fun coll =>
        { name := resource, json := coll.json, endpoints := endpoints.value }
    | _, _ => .ok []
  | none =>
    match islice msg.start msg.stop (iterLayers project parent) with
    | .error e => .error e
    | .ok layers => (layers.mapM (w.layerItem project parent)).map List.reduceOption

def sendLayers (catalog : Catalog) (msg : CollectionsMsg) (parent : Ogc.CatalogItem)
    (r : Requested) : Outcome :=
  match r.raised, r.entry with
  | some e, _ => { state := { cache := r.cache, catalog }, sent := r.sent, raised := some e }
  | none, none => { state := { cache := r.cache, catalog }, sent := r.sent }
  | none, some e =>
    let o := Outcome.ofReply { cache := r.cache, catalog } <|
      w.page (w.layerItems msg e.project parent) (msg.stop < parent.layers.length)
    { o with sent := r.sent ++ o.sent }

def handleLayers (s : State) (msg : CollectionsMsg) (location : String) : Outcome :=
  if location = "" then .ofReply s (.ok (.failure 500 "Missing location"))
  else
    match w.updateCatalog s.cache s.catalog (!w.loadProjectOnRequest) none with
    | (some e, catalog) => { state := { s with catalog }, raised := some e }
    | (none, catalog) =>
      match w.getAndUpdate s.cache catalog location false with
      | (.error e, catalog) => { state := { s with catalog }, raised := some e }
      | (.ok none, catalog) =>
        .ofReply { s with catalog } (.ok (.failure 404 ("Resource not found: " ++ location)))
      | (.ok (some parent), catalog) =>
        w.sendLayers catalog msg parent (w.getProject s.cache parent.publicPath false)

def handleCollection (s : State) (msg : CollectionsMsg) : Outcome :=
  match msg.location with
  | none => w.handleCatalog s msg
  | some location =>
    if location.toList.getLast? = some '/' then w.handleCatalog s msg
    else w.handleLayers s msg location

end Worker.Context

inductive Query where
  | checkoutProject (uri : String) (pull : Bool)
  | dropProject (uri : String)
  | clearCache
  | listCache (statusFilter : Option CheckoutStatus)
  | updateCache
  | projectInfo (uri : String)
  | catalog (location : Option String)
  | collections (msg : CollectionsMsg)

def Worker.Context.handle (w : Context) (s : State) : Query → Outcome
  | .checkoutProject uri pull => w.checkoutProject s uri pull
  | .dropProject uri => w.dropProject s uri
  | .clearCache => Worker.Context.clear s
  | .listCache _ => w.sendCacheList s
  | .updateCache => w.updateCache s
  | .projectInfo uri => w.sendProjectInfo s uri
  | .catalog location => w.sendCatalog s location
  | .collections msg => w.handleCollection s msg

end QJazz.Rpc
