import QJazz.Rpc.Replies.Delivery

/-! A request for layers is answered from the table of the catalog, by the published names of the
layers that are not restricted, and from the project. -/
namespace QJazz

open Cache Ogc Rpc Worker List Project

namespace Ogc.Project

variable {p : Project} {name : String}

def Publishes (p : Project) (name : String) : Prop := ∃ layer ∈ p.layers, p.layerName layer = name

lemma lookup_foldl_isSome (layers : List MapLayer) (d : List (String × OgcEndpoints)) :
    ((layers.foldl (fun d layer => setKey (p.layerName layer) (p.endpoints layer) d) d).lookup
        name).isSome ↔
      (d.lookup name).isSome ∨ ∃ layer ∈ layers, p.layerName layer = name := by
  induction layers generalizing d with
  | nil => simp
  | cons layer layers ih =>
    rw [foldl_cons, ih, exists_mem_cons_iff, ← or_assoc]
    refine or_congr_left ?_
    by_cases hn : p.layerName layer = name
    · simp [hn]
    · rw [lookup_setKey_ne (Ne.symm hn)]
      simp [hn]

lemma lookup_collectLayers : (p.collectLayers.lookup name).isSome ↔ p.Publishes name := by
  rw [collectLayers, lookup_foldl_isSome]
  simp [Publishes]

lemma layerByName_eq_some {layer : MapLayer} (h : p.layerByName name = some layer) :
    layer ∈ p.mapLayers ∧ p.layerName layer = name :=
  ⟨List.mem_of_find?_eq_some h, by simpa using List.find?_some h⟩

end Ogc.Project

namespace Rpc

/-- What a request for layers has found: the item of the catalog and the project. The layers of the
item have been collected from the project. -/
structure LayerSource where
  catalog : Catalog
  cache : Entries
  entry : CacheEntry
  item : Ogc.CatalogItem

namespace LayerSource

variable (w : Context) (v : LayerSource)

def project : Project := v.entry.project

def parent : Ogc.CatalogItem := { v.item with layers := v.project.collectLayers }

def reply (msg : CollectionsMsg) : Option CollectionsPage :=
  match (w.sendLayers v.catalog msg v.parent { cache := v.cache, entry := some v.entry }).sent with
  | [.answer (.page page)] => some page
  | _ => none

def selected (msg : CollectionsMsg) : List MapLayer :=
  match msg.resource.filter (· ≠ "") with
  | some resource =>
    if (v.parent.layers.lookup resource).isSome then (v.project.layerByName resource).toList else []
  | none => ((Context.iterLayers v.project v.parent).take msg.stop.toNat).drop msg.start.toNat

def itemOf (layer : MapLayer) : Option CollectionsItem :=
  (w.layerItem v.project v.parent layer).toOption.join

def Describes (layer : MapLayer) : Prop := ∃ coll, w.fromLayer layer v.item.coll = .ok (some coll)

def Returns (msg : CollectionsMsg) (layer : MapLayer) : Prop :=
  ∃ page item, v.reply w msg = some page ∧ item ∈ page.items ∧ layer ∈ v.selected msg ∧
    v.itemOf w layer = some item

def NeverExposes : Prop :=
  ∀ msg layer, v.Returns w msg layer → layer.name ∉ v.project.restrictedLayers

variable {w v} {msg : CollectionsMsg} {page : CollectionsPage} {layer : MapLayer}
  {layers : List MapLayer}

lemma reply_eq_some :
    v.reply w msg = some page ↔ ∃ i, w.layerItems msg v.project v.parent = .ok i ∧
      page = ⟨w.collectionSchema, msg.stop < v.parent.layers.length, i⟩ := by
  have hp : v.entry.project = v.project := rfl
  rw [reply, Context.sendLayers]
  cases hi : w.layerItems msg v.project v.parent with
  | error e => simp [hp, hi, Context.page, Except.map, Outcome.ofReply]
  | ok i => simp [hp, hi, Context.page, Except.map, Outcome.ofReply, eq_comm]

lemma itemOf_eq_some {i : CollectionsItem} : v.itemOf w layer = some i ↔
      ∃ c n, w.fromLayer layer v.item.coll = .ok (some c) ∧
        v.parent.layers.lookup (v.project.layerName layer) = some n ∧
        i = ⟨v.project.layerName layer, c.json, n.value⟩ := by
  have ho : v.parent.coll = v.item.coll := rfl
  rw [itemOf, Context.layerItem, ho]
  cases w.fromLayer layer v.item.coll with
  | error e => simp [Except.toOption]
  | ok c =>
    cases c with
    | none => simp [Except.toOption]
    | some c =>
      cases v.parent.layers.lookup (v.project.layerName layer) with
      | none => simp [Except.toOption]
      | some n => simp [Except.toOption, eq_comm]

lemma itemOf_isSome : (v.itemOf w layer).isSome ↔
      v.Describes w layer ∧ v.project.Publishes (v.project.layerName layer) := by
  have ht : v.project.Publishes (v.project.layerName layer) ↔
      ∃ endpoints, v.parent.layers.lookup (v.project.layerName layer) = some endpoints := by
    rw [← lookup_collectLayers, Option.isSome_iff_exists]
    rfl
  rw [Option.isSome_iff_exists, ht, Describes]
  simp only [itemOf_eq_some]
  constructor
  · rintro ⟨i, c, endpoints, ho, hl, -⟩
    exact ⟨⟨c, ho⟩, endpoints, hl⟩
  · rintro ⟨⟨c, ho⟩, endpoints, hl⟩
    exact ⟨_, c, endpoints, ho, hl, rfl⟩

lemma reduceOption_of_mapM {l : List (Option CollectionsItem)}
    (h : layers.mapM (w.layerItem v.project v.parent) = .ok l) :
    l.reduceOption = layers.filterMap (v.itemOf w) := by
  induction layers generalizing l with
  | nil =>
    cases h
    rfl
  | cons layer layers ih =>
    rw [mapM_cons] at h
    cases hi : w.layerItem v.project v.parent layer with
    | error e =>
      rw [hi] at h
      cases h
    | ok item =>
      cases hr : layers.mapM (w.layerItem v.project v.parent) with
      | error e =>
        rw [hi, hr] at h
        cases h
      | ok r =>
        rw [hi, hr] at h
        cases h
        have he : v.itemOf w layer = item := by
          rw [itemOf, hi]
          rfl
        rw [filterMap_cons, he, ← ih hr]
        cases item <;> rfl

lemma mem_iterLayers :
    layer ∈ Context.iterLayers v.project v.parent ↔ layer ∈ v.project.mapLayers ∧
      layer.isValid ∧ v.project.Publishes (v.project.layerName layer) := by
  rw [Context.iterLayers, List.mem_filter, List.mem_filter, and_assoc, ← lookup_collectLayers]
  rfl

lemma layerItems_resource {r : String}
    (hr : msg.resource.filter (· ≠ "") = some r) {i : List CollectionsItem} :
    w.layerItems msg v.project v.parent = .ok i ↔
      (∀ layer ∈ v.selected msg, ∃ c, w.fromLayer layer v.item.coll = .ok c) ∧
        i = (v.selected msg).filterMap (v.itemOf w) := by
  have hp : v.parent.coll = v.item.coll := rfl
  rw [Context.layerItems, selected, hr]
  cases hl : v.parent.layers.lookup r with
  | none => simp [hl, eq_comm]
  | some n =>
    cases hy : v.project.layerByName r with
    | none => simp [hl, hy, eq_comm]
    | some layer =>
      have hn := (layerByName_eq_some hy).2
      simp only [hl, hy, hp, Option.isSome_some, if_true, Option.toList_some,
        forall_mem_singleton, filterMap_cons, filterMap_nil]
      rw [itemOf, Context.layerItem, hp, hn, hl]
      cases w.fromLayer layer v.item.coll with
      | error e => simp [Except.map]
      | ok c => cases c <;> simp [Except.map, Except.toOption, eq_comm]

lemma layerItems_listing (hi : msg.resource.filter (· ≠ "") = none) {i : List CollectionsItem} :
    w.layerItems msg v.project v.parent = .ok i ↔ 0 ≤ msg.start ∧ 0 ≤ msg.stop ∧
      (∀ layer ∈ v.selected msg, ∃ c, w.fromLayer layer v.item.coll = .ok c) ∧
        i = (v.selected msg).filterMap (v.itemOf w) := by
  have he : v.selected msg =
      ((Context.iterLayers v.project v.parent).take msg.stop.toNat).drop msg.start.toNat := by
    rw [selected, hi]
  have ho : ∀ layer ∈ v.selected msg,
      (v.parent.layers.lookup (v.project.layerName layer)).isSome = true := by
    intro layer hy
    rw [he] at hy
    have ht := mem_iterLayers.1 (mem_of_mem_take (mem_of_mem_drop hy))
    exact lookup_collectLayers.2 ht.2.2
  rw [Context.layerItems, hi]
  by_cases hn : msg.start < 0 ∨ msg.stop < 0
  · simp only [islice, if_pos hn, reduceCtorEq, false_iff]
    omega
  · have hp : 0 ≤ msg.start ∧ 0 ≤ msg.stop := by omega
    simp only [islice, if_neg hn, ← he, hp, true_and]
    constructor
    · intro h
      cases hl : (v.selected msg).mapM (w.layerItem v.project v.parent) with
      | error e =>
        rw [hl] at h
        cases h
      | ok l =>
        rw [hl] at h
        cases h
        exact ⟨(Context.mapM_layerItem_eq_ok hl).1, reduceOption_of_mapM hl⟩
    · rintro ⟨hco, rfl⟩
      obtain ⟨l, hl⟩ := Context.exists_mapM_layerItem ho hco
      rw [hl, ← reduceOption_of_mapM hl]
      rfl

lemma items_of_reply (h : v.reply w msg = some page) :
    page.items = (v.selected msg).filterMap (v.itemOf w) := by
  obtain ⟨i, hi, rfl⟩ := reply_eq_some.1 h
  cases hr : msg.resource.filter (· ≠ "") with
  | some r => exact ((layerItems_resource hr).1 hi).2
  | none => exact ((layerItems_listing hr).1 hi).2.2.2

def single (i : ℕ) : CollectionsMsg := ⟨none, none, i, i + 1⟩

def named (name : String) : CollectionsMsg := ⟨none, some name, 0, 0⟩

lemma selected_single {i : ℕ} (h : (Context.iterLayers v.project v.parent)[i]? = some layer) :
    v.selected (single i) = [layer] := by
  obtain ⟨hi, rfl⟩ := List.getElem?_eq_some_iff.1 h
  have ht : ((i : ℤ) + 1).toNat = i + 1 := by omega
  rw [selected, single]
  simp only [Option.filter_none, ht, Int.toNat_natCast]
  rw [take_succ_eq_append_getElem hi, drop_append_of_le_length (by simp; omega)]
  simp

lemma resource_named {name : String} (hne : name ≠ "") :
    (named name).resource.filter (· ≠ "") = some name := by
  simp [named, hne]

lemma selected_named {name : String} (hne : name ≠ "") (hp : v.project.Publishes name)
    (h : v.project.layerByName name = some layer) : v.selected (named name) = [layer] := by
  have hl : (v.parent.layers.lookup name).isSome = true :=
    lookup_collectLayers.2 hp
  rw [selected, resource_named hne]
  simp only [hl, if_true, h, Option.toList_some]

lemma mem_selected (h : layer ∈ v.selected msg) :
    layer ∈ v.project.mapLayers ∧ (layer.isValid ∨ v.project.layerName layer ≠ "" ∧
      v.project.layerByName (v.project.layerName layer) = some layer) := by
  rw [selected] at h
  split at h
  next r hr =>
    split at h
    · rw [Option.mem_toList] at h
      obtain ⟨hm, hn⟩ := layerByName_eq_some h
      obtain ⟨-, hne⟩ := Option.filter_eq_some_iff.1 hr
      rw [hn]
      exact ⟨hm, .inr ⟨by simpa using hne, h⟩⟩
    · cases h
  · obtain ⟨hm, hv, -⟩ := mem_iterLayers.1 (mem_of_mem_take (mem_of_mem_drop h))
    exact ⟨hm, .inl hv⟩

lemma returns_of_selected {i : CollectionsItem} (he : v.selected msg = [layer])
    (hi : v.itemOf w layer = some i)
    (hok : w.layerItems msg v.project v.parent = .ok ((v.selected msg).filterMap (v.itemOf w))) :
    v.Returns w msg layer := by
  refine ⟨_, i, reply_eq_some.2 ⟨_, hok, rfl⟩, ?_, ?_, hi⟩
  · simp [he, hi]
  · simp [he]

/-- A layer is returned by some request exactly if it can be described, shares its published name with
a layer that is not restricted, and is valid or the first one with that name. -/
lemma exists_returns_iff :
    (∃ msg, v.Returns w msg layer) ↔ layer ∈ v.project.mapLayers ∧ v.Describes w layer ∧
      v.project.Publishes (v.project.layerName layer) ∧
      (layer.isValid ∨ v.project.layerName layer ≠ "" ∧
        v.project.layerByName (v.project.layerName layer) = some layer) := by
  constructor
  · rintro ⟨msg, page, t, -, -, hl, ht⟩
    obtain ⟨hd, hp⟩ := itemOf_isSome.1 (Option.isSome_iff_exists.2 ⟨t, ht⟩)
    obtain ⟨hm, hfound⟩ := mem_selected hl
    exact ⟨hm, hd, hp, hfound⟩
  · rintro ⟨hm, hd, hp, hfound⟩
    obtain ⟨t, ht⟩ := Option.isSome_iff_exists.1 (itemOf_isSome.2 ⟨hd, hp⟩)
    obtain ⟨c, ho⟩ := hd
    rcases hfound with hv | ⟨hne, hf⟩
    · obtain ⟨i, hi⟩ := mem_iff_getElem?.1 (mem_iterLayers.2 ⟨hm, hv, hp⟩)
      refine ⟨single i, returns_of_selected (selected_single hi) ht ?_⟩
      refine (layerItems_listing rfl).2 ⟨Int.natCast_nonneg i, Int.natCast_nonneg (i + 1), ?_, rfl⟩
      rw [selected_single hi, forall_mem_singleton]
      exact ⟨_, ho⟩
    · have he := selected_named hne hp hf
      refine ⟨named _, returns_of_selected he ht ?_⟩
      refine (layerItems_resource (resource_named hne)).2 ⟨?_, rfl⟩
      rw [he, forall_mem_singleton]
      exact ⟨_, ho⟩

/-- No restricted layer is exposed exactly if none that can be described shares its published name
with a layer that is not restricted, unless it is not valid and not the first one with that name. -/
theorem neverExposes_iff (w : Context) (v : LayerSource) :
    v.NeverExposes w ↔ ∀ layer ∈ v.project.mapLayers, layer.name ∈ v.project.restrictedLayers →
      v.Describes w layer → v.project.Publishes (v.project.layerName layer) →
        layer.isValid = false ∧ (v.project.layerName layer = "" ∨
          v.project.layerByName (v.project.layerName layer) ≠ some layer) := by
  constructor
  · intro h layer hm hr hd hp
    by_contra hfound
    rw [not_and_or, Bool.not_eq_false, not_or, not_ne_iff] at hfound
    obtain ⟨msg, he⟩ := exists_returns_iff.2 ⟨hm, hd, hp, hfound⟩
    exact h msg layer he hr
  · intro h msg layer he hr
    obtain ⟨hm, hd, hp, hfound⟩ := exists_returns_iff.1 ⟨msg, he⟩
    obtain ⟨hi, ho⟩ := h layer hm hr hd hp
    rcases hfound with hv | ⟨hne, hf⟩
    · rw [hi] at hv
      cases hv
    · exact ho.elim hne fun hn => hn hf

def describing : Context :=
  { unmeasured with fromLayer := fun layer _ => .ok (some ⟨layer.id, layer.id⟩) }

def vector (id name shortName : String) : MapLayer :=
  ⟨id, name, shortName, "", "ogr", "vector", "EPSG:4326", true, true, .vector⟩

def ofLayers (mapLayers : List MapLayer) (restrictedLayers : List String) : LayerSource where
  catalog := []
  cache := .empty
  entry := { unmeasuredEntry with
    project := { unmeasuredEntry.project with mapLayers, restrictedLayers } }
  item := ⟨"/map", unmeasuredEntry.md, [], ⟨"map", "map"⟩, .parse "/".toList⟩

def owners : LayerSource :=
  ofLayers [vector "a" "parcels" "owners", vector "b" "owners" ""] ["owners"]

theorem not_neverExposes_owners :
    (owners.reply describing ⟨some "/map", none, 0, 50⟩).map (fun page => page.items.map (·.json)) =
        some ["a", "b"] ∧ ¬ owners.NeverExposes describing := by
  refine ⟨by decide +kernel, fun h => ?_⟩
  have hp : owners.project.Publishes "owners" :=
    ⟨vector "a" "parcels" "owners", by decide, by decide⟩
  have hd : owners.Describes describing (vector "b" "owners" "") := ⟨⟨"b", "b"⟩, rfl⟩
  obtain ⟨msg, hr⟩ := exists_returns_iff.2 ⟨by decide, hd, hp, .inl rfl⟩
  exact h msg _ hr (by decide)

end LayerSource

end Rpc

end QJazz
