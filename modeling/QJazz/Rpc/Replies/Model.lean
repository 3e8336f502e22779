import QJazz.Msgpack.Value

/-! The replies of the worker about its cache and its projects, as its models dump them, and the
types that the gateway decodes them to. -/
namespace QJazz.Rpc
open Msgpack Decoder List

structure CacheInfo where
  uri : String
  status : ℤ
  inCache : Bool
  cacheId : String
  timestamp : Option ℤ := none
  name : Option String := none
  storage : Option String := none
  lastModified : Option String := none
  savedVersion : Option String := none
  debugMetadata : List (String × ℤ) := []
  lastHit : ℤ := 0
  hits : ℤ := 0
  pinned : Bool := false
deriving DecidableEq

structure LayerInfo where
  layerId : String
  name : String
  source : String
  provider : String
  layerType : String
  crs : String
  isValid : Bool
  isSpatial : Bool
deriving DecidableEq

structure CatalogItem where
  uri : String
  name : String
  storage : String
  lastModified : String
  publicUri : String
deriving DecidableEq

structure CollectionsItem where
  name : String
  json : String
  endpoints : ℤ
deriving DecidableEq

structure CollectionsPage where
  schema : String
  next : Bool
  items : List CollectionsItem
deriving DecidableEq

structure Worker.ProjectInfo where
  status : ℤ
  uri : String
  filename : String
  crs : String
  lastModified : String
  storage : Option String
  hasBadLayers : Bool
  layers : List LayerInfo
  cacheId : String
deriving DecidableEq

structure Gateway.ProjectInfo where
  status : ℤ
  uri : String
  filename : String
  crs : String
  lastModified : String
  storage : String
  hasBadLayers : Bool
  layers : List LayerInfo
  cacheId : String
deriving DecidableEq

inductive Body (π : Type) where
  | cacheInfo (info : CacheInfo)
  | projectInfo (info : π)
  | page (p : CollectionsPage)
  | catalogItem (item : CatalogItem)
  | unit
deriving DecidableEq

def CacheInfo.dump (c : CacheInfo) : Value :=
  .map [("uri", .str c.uri), ("status", .int c.status), ("in_cache", .bool c.inCache),
    ("cache_id", .str c.cacheId), ("timestamp", .ofOption .int c.timestamp),
    ("name", .ofOption .str c.name), ("storage", .ofOption .str c.storage),
    ("last_modified", .ofOption .str c.lastModified),
    ("saved_version", .ofOption .str c.savedVersion),
    ("debug_metadata", .map (c.debugMetadata.map fun f => (f.1, .int f.2))),
    ("last_hit", .int c.lastHit), ("hits", .int c.hits), ("pinned", .bool c.pinned)]

def LayerInfo.dump (l : LayerInfo) : Value :=
  .map [("layer_id", .str l.layerId), ("name", .str l.name), ("source", .str l.source),
    ("provider", .str l.provider), ("layer_type", .str l.layerType), ("crs", .str l.crs),
    ("is_valid", .bool l.isValid), ("is_spatial", .bool l.isSpatial)]

def CatalogItem.dump (i : CatalogItem) : Value :=
  .map [("uri", .str i.uri), ("name", .str i.name), ("storage", .str i.storage),
    ("last_modified", .str i.lastModified), ("public_uri", .str i.publicUri)]

def CollectionsItem.dump (i : CollectionsItem) : Value :=
  .map [("name", .str i.name), ("json", .str i.json), ("endpoints", .int i.endpoints)]

def CollectionsPage.dump (p : CollectionsPage) : Value :=
  .map [("schema", .str p.schema), ("next", .bool p.next),
    ("items", .arr (p.items.map CollectionsItem.dump))]

def Worker.ProjectInfo.dump (p : Worker.ProjectInfo) : Value :=
  .map [("status", .int p.status), ("uri", .str p.uri), ("filename", .str p.filename),
    ("crs", .str p.crs), ("last_modified", .str p.lastModified),
    ("storage", .ofOption .str p.storage), ("has_bad_layers", .bool p.hasBadLayers),
    ("layers", .arr (p.layers.map LayerInfo.dump)), ("cache_id", .str p.cacheId)]

def CacheInfo.decode : Decoder CacheInfo
  | .map fields => do
    let uri ← required "uri" str fields
    let status ← required "status" int64 fields
    let inCache ← required "in_cache" bool fields
    let timestamp ← field "timestamp" (optional int64) none fields
    let name ← field "name" (optional str) none fields
    let storage ← field "storage" (optional str) none fields
    let lastModified ← field "last_modified" (optional str) none fields
    let savedVersion ← field "saved_version" (optional str) none fields
    let debugMetadata ← required "debug_metadata" intMap fields
    let cacheId ← required "cache_id" str fields
    let lastHit ← required "last_hit" int64 fields
    let hits ← required "hits" int64 fields
    let pinned ← required "pinned" bool fields
    return {
      uri := uri, status, inCache, cacheId, timestamp, name, storage, lastModified, savedVersion
      debugMetadata, lastHit, hits, pinned }
  | _ => none

def LayerInfo.decode : Decoder LayerInfo
  | .map fields => do
    let layerId ← required "layer_id" str fields
    let name ← required "name" str fields
    let source ← required "source" str fields
    let provider ← required "provider" str fields
    let layerType ← required "layer_type" str fields
    let crs ← required "crs" str fields
    let isValid ← required "is_valid" bool fields
    let isSpatial ← required "is_spatial" bool fields
    return { layerId := layerId, name, source, provider, layerType, crs, isValid, isSpatial }
  | _ => none

def CatalogItem.decode : Decoder CatalogItem
  | .map fields => do
    let uri ← required "uri" str fields
    let name ← required "name" str fields
    let storage ← required "storage" str fields
    let lastModified ← required "last_modified" str fields
    let publicUri ← required "public_uri" str fields
    return { uri := uri, name, storage, lastModified, publicUri }
  | _ => none

def CollectionsItem.decode : Decoder CollectionsItem
  | .map fields => do
    let name ← required "name" str fields
    let json ← required "json" str fields
    let endpoints ← required "endpoints" int64 fields
    return { name := name, json, endpoints }
  | _ => none

def CollectionsPage.decode : Decoder CollectionsPage
  | .map fields => do
    let schema ← required "schema" str fields
    let next ← required "next" bool fields
    let items ← required "items" (list CollectionsItem.decode) fields
    return { schema := schema, next, items }
  | _ => none

def Gateway.ProjectInfo.decode : Decoder Gateway.ProjectInfo
  | .map fields => do
    let status ← required "status" int64 fields
    let uri ← required "uri" str fields
    let filename ← required "filename" str fields
    let crs ← required "crs" str fields
    let lastModified ← required "last_modified" str fields
    let storage ← required "storage" str fields
    let hasBadLayers ← required "has_bad_layers" bool fields
    let layers ← required "layers" (list LayerInfo.decode) fields
    let cacheId ← required "cache_id" str fields
    return {
      status := status, uri, filename, crs, lastModified, storage, hasBadLayers, layers, cacheId }
  | _ => none

def Worker.ProjectInfo.received (p : Worker.ProjectInfo) : Option Gateway.ProjectInfo :=
  p.storage.map fun storage =>
    { status := p.status
      uri := p.uri
      filename := p.filename
      crs := p.crs
      lastModified := p.lastModified
      storage
      hasBadLayers := p.hasBadLayers
      layers := p.layers
      cacheId := p.cacheId }

/-- The numbers of the reply are in the range of the gateway's. -/
structure CacheInfo.IntsFit (c : CacheInfo) : Prop where
  status : FitsInt64 c.status
  timestamp : ∀ n ∈ c.timestamp, FitsInt64 n
  debugMetadata : ∀ f ∈ c.debugMetadata, FitsInt64 f.2
  lastHit : FitsInt64 c.lastHit
  hits : FitsInt64 c.hits

lemma CacheInfo.decode_dump (c : CacheInfo) : CacheInfo.decode c.dump = do
      let status ← int64 (.int c.status) let timestamp ← optional int64 (.ofOption .int c.timestamp)
      let debugMetadata ← intMap (.map (c.debugMetadata.map fun f => (f.1, .int f.2)))
      let lastHit ← int64 (.int c.lastHit) let hits ← int64 (.int c.hits)
      return { c with status, timestamp, debugMetadata, lastHit, hits } := by
  simp [decode, dump, (str_inverts.optional (by simp)) _]

lemma CacheInfo.decode_dump_iff (c : CacheInfo) :
    CacheInfo.decode c.dump = some c ↔ c.IntsFit := by
  rw [decode_dump]
  constructor
  · intro h
    simp only [Option.bind_eq_bind, Option.bind_eq_some_iff, Option.pure_def] at h
    obtain ⟨status, hu, timestamp, ht, debug, hd, lastHit, hl, hits, hh, heq⟩ := h
    have hi : timestamp = c.timestamp := congrArg CacheInfo.timestamp (Option.some.inj heq)
    have hm : debug = c.debugMetadata := congrArg CacheInfo.debugMetadata (Option.some.inj heq)
    rw [hi] at ht
    rw [hm] at hd
    exact ⟨(fits_of_int64 hu).1, optional_int64_iff.1 ht, intMap_iff.1 hd,
      (fits_of_int64 hl).1, (fits_of_int64 hh).1⟩
  · intro h
    simp [int64_of_fits h.status, optional_int64_iff.2 h.timestamp, intMap_iff.2 h.debugMetadata,
      int64_of_fits h.lastHit, int64_of_fits h.hits]

lemma LayerInfo.decode_inverts : Inverts LayerInfo.decode LayerInfo.dump := by
  intro l
  simp [decode, dump]

lemma CatalogItem.decode_inverts : Inverts CatalogItem.decode CatalogItem.dump := by
  intro i
  simp [decode, dump]

lemma CollectionsItem.decode_dump {i : CollectionsItem} (h : FitsInt64 i.endpoints) :
    CollectionsItem.decode i.dump = some i := by
  simp [decode, dump, int64_of_fits h]

lemma CollectionsPage.decode_dump {p : CollectionsPage}
    (h : ∀ i ∈ p.items, FitsInt64 i.endpoints) : CollectionsPage.decode p.dump = some p := by
  have hi : list CollectionsItem.decode (.arr (p.items.map CollectionsItem.dump)) =
      some p.items := by
    show (p.items.map CollectionsItem.dump).mapM CollectionsItem.decode = some p.items
    generalize p.items = t at h
    induction t with
    | nil => rfl
    | cons i t ih =>
      rw [forall_mem_cons] at h
      simp [CollectionsItem.decode_dump h.1, ih h.2]
  simp [decode, dump, hi]

lemma ProjectInfo.decode_dump {p : Worker.ProjectInfo} (h : FitsInt64 p.status) :
    Gateway.ProjectInfo.decode p.dump = p.received := by
  have hl := LayerInfo.decode_inverts.list p.layers
  cases ht : p.storage with
  | none =>
    simp [Gateway.ProjectInfo.decode, Worker.ProjectInfo.dump, Worker.ProjectInfo.received, ht,
      int64_of_fits h, Value.ofOption, str]
  | some s =>
    simp [Gateway.ProjectInfo.decode, Worker.ProjectInfo.dump, Worker.ProjectInfo.received, ht,
      int64_of_fits h, Value.ofOption, hl]

def CacheInfo.size (c : CacheInfo) : ℕ :=
  119 + textSize c.uri + intSize c.status + textSize c.cacheId + optionSize intSize c.timestamp +
    optionSize textSize c.name + optionSize textSize c.storage +
    optionSize textSize c.lastModified + optionSize textSize c.savedVersion +
    countSize c.debugMetadata.length +
    (c.debugMetadata.map fun f => textSize f.1 + intSize f.2).sum +
    intSize c.lastHit + intSize c.hits

def LayerInfo.size (l : LayerInfo) : ℕ :=
  68 + textSize l.layerId + textSize l.name + textSize l.source + textSize l.provider +
    textSize l.layerType + textSize l.crs

def CatalogItem.size (i : CatalogItem) : ℕ :=
  43 + textSize i.uri + textSize i.name + textSize i.storage + textSize i.lastModified +
    textSize i.publicUri

def CollectionsItem.size (i : CollectionsItem) : ℕ :=
  21 + textSize i.name + textSize i.json + intSize i.endpoints

def CollectionsPage.size (p : CollectionsPage) : ℕ :=
  20 + textSize p.schema + countSize p.items.length + (p.items.map fun i => i.size).sum

def Worker.ProjectInfo.size (p : Worker.ProjectInfo) : ℕ :=
  79 + intSize p.status + textSize p.uri + textSize p.filename + textSize p.crs +
    textSize p.lastModified + optionSize textSize p.storage + countSize p.layers.length +
    (p.layers.map fun l => l.size).sum + textSize p.cacheId

lemma CacheInfo.size_dump (c : CacheInfo) : c.dump.size = c.size := by
  have hd : Value.fieldsSize (c.debugMetadata.map fun f => (f.1, .int f.2)) =
      (c.debugMetadata.map fun f => textSize f.1 + intSize f.2).sum := by
    generalize c.debugMetadata = i
    induction i with
    | nil => rfl
    | cons f i ih => simp [Value.fieldsSize, Value.size, ih]
  have hn : headerSize ["uri", "status", "in_cache", "cache_id", "timestamp", "name",
      "storage", "last_modified", "saved_version", "debug_metadata", "last_hit", "hits",
      "pinned"] = 117 := by decide
  rw [dump, Value.size_record hn rfl]
  simp only [map_cons, map_nil, sum_cons, sum_nil, Value.size, Value.size_text,
    Value.size_number, hd, length_map, size]
  grind

lemma LayerInfo.size_dump (l : LayerInfo) : l.dump.size = l.size := by
  have hn : headerSize ["layer_id", "name", "source", "provider", "layer_type", "crs",
      "is_valid", "is_spatial"] = 66 := by decide
  rw [dump, Value.size_record hn rfl]
  simp only [map_cons, map_nil, sum_cons, sum_nil, Value.size, size]
  omega

lemma CatalogItem.size_dump (i : CatalogItem) : i.dump.size = i.size := by
  have hn : headerSize ["uri", "name", "storage", "last_modified", "public_uri"] = 43 := by decide
  rw [dump, Value.size_record hn rfl]
  simp only [map_cons, map_nil, sum_cons, sum_nil, Value.size, size]
  omega

lemma CollectionsItem.size_dump (i : CollectionsItem) : i.dump.size = i.size := by
  have hn : headerSize ["name", "json", "endpoints"] = 21 := by decide
  rw [dump, Value.size_record hn rfl]
  simp only [map_cons, map_nil, sum_cons, sum_nil, Value.size, size]
  omega

lemma CollectionsPage.size_dump (p : CollectionsPage) : p.dump.size = p.size := by
  have hn : headerSize ["schema", "next", "items"] = 19 := by decide
  rw [dump, Value.size_record hn rfl]
  simp only [map_cons, map_nil, sum_cons, sum_nil, Value.size,
    Value.itemsSize_map, CollectionsItem.size_dump, length_map, size]
  omega

lemma ProjectInfo.size_dump (p : Worker.ProjectInfo) : p.dump.size = p.size := by
  have hn : headerSize ["status", "uri", "filename", "crs", "last_modified", "storage",
      "has_bad_layers", "layers", "cache_id"] = 78 := by decide
  rw [Worker.ProjectInfo.dump, Value.size_record hn rfl]
  simp only [map_cons, map_nil, sum_cons, sum_nil, Value.size, Value.size_text,
    Value.itemsSize_map, LayerInfo.size_dump, length_map, Worker.ProjectInfo.size]
  omega

end QJazz.Rpc
