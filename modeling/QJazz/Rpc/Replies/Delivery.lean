import QJazz.Rpc.Replies.Operations

/-! For every message about the cache, a project, the catalog or the collections, the reply is
delivered exactly when the data it is made from satisfies a condition on the state before the
message. -/
namespace QJazz.Rpc
open Cache Ogc Lexical Msgpack Worker List Outcome

namespace Worker.Context

variable {w : Context} {capacity : ℕ} {s : State} {msg : CollectionsMsg} {project : Project}
  {p : Ogc.CatalogItem}

lemma layerItem_eq_ok {l : MapLayer} {t : Option CollectionsItem}
    (h : w.layerItem project p l = .ok t) : (∃ c, w.fromLayer l p.coll = .ok c) ∧
      t.map (fun i => (i.name, i.json)) = w.layerText project p l ∧ Published t.toList := by
  rw [layerItem] at h
  rw [layerText]
  cases ho : w.fromLayer l p.coll with
  | error e => simp [ho] at h
  | ok c =>
    cases c with
    | none =>
      simp only [ho, Except.ok.injEq] at h
      subst h
      exact ⟨⟨none, rfl⟩, rfl, by simp [Published]⟩
    | some c =>
      cases hl : p.layers.lookup (project.layerName l) with
      | none => simp [ho, hl] at h
      | some n =>
        simp only [ho, hl, Except.ok.injEq] at h
        subst h
        exact ⟨⟨some c, rfl⟩, rfl, by simp [Published]⟩

lemma exists_layerItem {l : MapLayer} {c : Option Collection}
    (hl : (p.layers.lookup (project.layerName l)).isSome)
    (ho : w.fromLayer l p.coll = .ok c) : ∃ item, w.layerItem project p l = .ok item := by
  obtain ⟨e, he⟩ := Option.isSome_iff_exists.1 hl
  rw [layerItem, ho, he]
  cases c with
  | none => exact ⟨none, rfl⟩
  | some c => exact ⟨some _, rfl⟩

lemma mapM_layerItem_eq_ok {a : List MapLayer} {l : List (Option CollectionsItem)}
    (h : a.mapM (w.layerItem project p) = .ok l) :
    (∀ y ∈ a, ∃ c, w.fromLayer y p.coll = .ok c) ∧
      l.reduceOption.map (fun i => (i.name, i.json)) = a.filterMap (w.layerText project p) ∧
      Published l.reduceOption := by
  induction a generalizing l with
  | nil =>
    cases h
    simp [Published]
  | cons y a ih =>
    rw [mapM_cons] at h
    cases hi : w.layerItem project p y with
    | error e =>
      rw [hi] at h
      cases h
    | ok t =>
      cases hr : a.mapM (w.layerItem project p) with
      | error e =>
        rw [hi, hr] at h
        cases h
      | ok r =>
        rw [hi, hr] at h
        cases h
        obtain ⟨hl, he, hu⟩ := layerItem_eq_ok hi
        obtain ⟨ho, ht, hp⟩ := ih hr
        refine ⟨forall_mem_cons.2 ⟨hl, ho⟩, ?_, ?_⟩
        · rw [filterMap_cons, ← he, ← ht]
          cases t <;> simp
        · cases t with
          | none => simpa using hp
          | some i =>
            rw [reduceOption_cons_of_some]
            exact forall_mem_cons.2 ⟨hu i (by simp), hp⟩

lemma exists_mapM_layerItem {a : List MapLayer}
    (hl : ∀ y ∈ a, (p.layers.lookup (project.layerName y)).isSome)
    (ho : ∀ y ∈ a, ∃ c, w.fromLayer y p.coll = .ok c) :
    ∃ l, a.mapM (w.layerItem project p) = .ok l := by
  induction a with
  | nil => exact ⟨[], rfl⟩
  | cons y a ih =>
    rw [forall_mem_cons] at hl ho
    obtain ⟨c, hf⟩ := ho.1
    obtain ⟨i, hi⟩ := exists_layerItem hl.1 hf
    obtain ⟨r, hr⟩ := ih hl.2 ho.2
    refine ⟨i :: r, ?_⟩
    rw [mapM_cons, hi, hr]
    rfl

lemma published_layerItems {l : List CollectionsItem} (h : w.layerItems msg project p = .ok l) :
    Published l := by
  rw [layerItems] at h
  split at h
  · split at h
    next y _ _ =>
      cases ho : w.fromLayer y p.coll with
      | error e =>
        rw [ho] at h
        cases h
      | ok o =>
        rw [ho] at h
        cases h
        intro i hi
        obtain ⟨c, -, rfl⟩ := List.mem_map.1 hi
        exact ⟨_, rfl⟩
    · cases h
      simp [Published]
  · split at h
    · cases h
    next a _ =>
      cases ht : a.mapM (w.layerItem project p) with
      | error e =>
        rw [ht] at h
        cases h
      | ok t =>
        rw [ht] at h
        cases h
        exact (mapM_layerItem_eq_ok ht).2.2

lemma layerItems_fits : (∃ l, w.layerItems msg project p = .ok l ∧
      w.PageFits capacity (l.map fun i => (i.name, i.json))) ↔
    w.LayersFit capacity msg p project := by
  rw [layerItems, LayersFit]
  cases msg.resource.filter (· ≠ "") with
  | some r =>
    cases ho : p.layers.lookup r with
    | none => simp [ho]
    | some e =>
      cases hy : project.layerByName r with
      | none => simp [ho, hy]
      | some a =>
        simp only [ho, hy]
        rw [exists_map_eq_ok]
        simp only [List.map_map, Function.comp_def]
  | none =>
    simp only [islice]
    by_cases hn : msg.start < 0 ∨ msg.stop < 0
    · have hno : ¬ (0 ≤ msg.start ∧ 0 ≤ msg.stop) := by omega
      simp [hn, hno]
    · have hp : 0 ≤ msg.start ∧ 0 ≤ msg.stop := by omega
      simp only [if_neg hn, hp, and_self, true_and]
      generalize he : ((iterLayers project p).take msg.stop.toNat).drop msg.start.toNat =
        layers
      have ho : ∀ a ∈ layers,
          (p.layers.lookup (project.layerName a)).isSome := by
        intro a hy
        have hm := mem_of_mem_take (mem_of_mem_drop (he ▸ hy))
        simpa using (List.mem_filter.1 hm).2
      rw [exists_map_eq_ok]
      constructor
      · rintro ⟨l, hl, hf⟩
        obtain ⟨hco, ht, -⟩ := mapM_layerItem_eq_ok hl
        exact ⟨hco, ht ▸ hf⟩
      · rintro ⟨hco, hf⟩
        obtain ⟨l, hl⟩ := exists_mapM_layerItem ho hco
        exact ⟨l, hl, (mapM_layerItem_eq_ok hl).2.1 ▸ hf⟩

variable {catalog : Catalog} {cache : Entries}

lemma delivered_sendLayers {e : CacheEntry} {status : CheckoutStatus} (ht : status ≠ .REMOVED) :
    (w.sendLayers catalog msg p
      (w.serve { cache, status, entry := some e : Requested }.recover)).Delivered capacity
        (.collections msg) ↔ w.LayersFit capacity msg p e.project := by
  have he : w.serve { cache, status, entry := some e : Requested }.recover =
      { cache := mutate (CacheEntry.hitMe w.now) cache e, status, entry := some (e.hitMe w.now) } := by
    simp [serve, Requested.recover, ht]
  rw [he]
  refine Iff.trans ?_ layerItems_fits
  exact delivered_page fun l hl => published_layerItems hl

lemma delivered_refused {status : CheckoutStatus} {code : ℤ} {text : String} {entry : Option CacheEntry}
    (hentry : entry = none ∨ status = .REMOVED) (hle : 2 ^ 8 ≤ code) (hlt : code < 2 ^ 16) :
    (w.sendLayers catalog msg p
      (w.serve { cache, status, entry, sent := [.failure code text] : Requested }.recover)).Delivered
        capacity (.collections msg) ↔ TextFits capacity text := by
  have he : w.sendLayers catalog msg p
      (w.serve { cache, status, entry, sent := [.failure code text] : Requested }.recover) =
      { state := { cache, catalog }, sent := [.failure code text] } := by
    rcases hentry with rfl | rfl
    · rfl
    · cases entry <;> rfl
  rw [he]
  exact delivered_failure rfl hle hlt

lemma delivered_raised {err : CacheError} {α : Type} {P : α → Prop} :
    (w.sendLayers catalog msg p
      (w.serve { cache, raised := some err : Requested }.recover)).Delivered
        capacity (.collections msg) ↔ Served capacity (.error err) P := by
  cases err with
  | notAllowed t => exact delivered_failure rfl (by decide) (by decide)
  | strictChecking t => exact delivered_failure rfl (by decide) (by decide)
  | other => exact iff_of_false (not_delivered_of_raised rfl) id

lemma sent_page_ne_nil {i : Except CacheError (List CollectionsItem)} {next : Bool}
    (h : (Outcome.ofReply s (w.page i next)).raised = none) :
    (Outcome.ofReply s (w.page i next)).sent ≠ [] := by
  cases i with
  | error e => cases h
  | ok l => simp [page, Except.map, Outcome.ofReply]

/-- An outdated project that cannot be reloaded: the error is followed by the page of the old one. -/
lemma not_delivered_outdated {err : CacheError} {e : CacheEntry} :
    ¬ (w.sendLayers catalog msg p
      (w.serve { cache, entry := some e, raised := some err : Requested }.recover)).Delivered
        capacity (.collections msg) := by
  have ht (cache : Entries) (e : CacheEntry) (r : Reply) :
      ¬ (w.sendLayers catalog msg p
        { cache, entry := some e, sent := [r] : Requested }).Delivered
          capacity (.collections msg) := by
    intro h
    have hn := sent_page_ne_nil h.raised
    have ho := h.complete
    simp only [sendLayers, Query.isStream, singleton_append] at ho
    generalize (Outcome.ofReply _ _).sent = sent at ho hn
    cases ho <;> exact hn rfl
  cases err with
  | other => exact not_delivered_of_raised rfl
  | notAllowed t =>
    exact ht (mutate (CacheEntry.hitMe w.now) cache e) (e.hitMe w.now) (.failure 403 t)
  | strictChecking t =>
    exact ht (mutate (CacheEntry.hitMe w.now) cache e) (e.hitMe w.now) (.failure 500 t)

lemma delivered_reloaded {e : CacheEntry} (hm : e ∈ cache.items) :
    (w.sendLayers catalog msg p (w.serve (match w.update cache e.md .NEEDUPDATE with
        | (.ok (entry, status), cache) => { cache, status, entry := some entry : Requested }
        | (.error err, cache) => { cache, entry := some e, raised := some err }).recover)).Delivered
        capacity (.collections msg) ↔
      w.hasHandler e.md.scheme ∧
        ∃ entry, w.newCacheEntry e.md = .ok entry ∧ w.LayersFit capacity msg p entry.project := by
  have hf := @Manager.update_needUpdate_fst w.toManager _ _ hm
  rcases hu : w.update cache e.md .NEEDUPDATE with ⟨result, cache'⟩
  rw [hu] at hf
  by_cases hscheme : w.hasHandler e.md.scheme = true
  · rw [if_pos hscheme] at hf
    cases hentry : w.newCacheEntry e.md with
    | error err =>
      obtain rfl : result = .error err := hf.trans (by rw [hentry]; rfl)
      exact iff_of_false not_delivered_outdated (by simp)
    | ok entry =>
      obtain rfl : result = .ok (entry, .UPDATED) := hf.trans (by rw [hentry]; rfl)
      refine (delivered_sendLayers (by decide)).trans ?_
      simp [hscheme]
  · rw [if_neg hscheme] at hf
    obtain rfl : result = .error .other := hf
    exact iff_of_false not_delivered_outdated fun h => hscheme h.1

lemma delivered_added (hca : 1024 ≤ capacity) {md : ProjectMetadata} :
    (w.sendLayers catalog msg p (w.serve (match w.noRoom cache with
        | (.error e, cache) => { cache, raised := some e : Requested }
        | (.ok true, cache) =>
          { cache, status := .NEW, sent := [.failure 409 "Max object reached on server"] }
        | (.ok false, cache) =>
          match w.update cache md .NEW with
          | (.ok (entry, status), cache) => { cache, status, entry := some entry }
          | (.error err, cache) => { cache, raised := some err }).recover)).Delivered
        capacity (.collections msg) ↔
      w.Adds cache (w.Loads capacity md fun e => w.LayersFit capacity msg p e.project) := by
  rw [adds_iff]
  have hp := plain_noRoom (w := w) cache
  rcases hroom : w.noRoom cache with ⟨err | _ | _, cache'⟩
  · rw [hroom] at hp
    obtain rfl := hp err rfl
    exact iff_of_false (not_delivered_of_raised rfl) id
  · have hf := @Manager.update_new_fst w.toManager cache' md
    simp only [Loads]
    rcases hu : w.update cache' md .NEW with ⟨result, cache''⟩
    rw [hu] at hf
    by_cases hscheme : w.hasHandler md.scheme = true
    · rw [if_pos hscheme] at hf
      cases hentry : w.newCacheEntry md with
      | error err =>
        obtain rfl : result = .error err := hf.trans (by rw [hentry]; rfl)
        simp only [hscheme, true_and]
        exact delivered_raised
      | ok entry =>
        obtain rfl : result = .ok (entry, .NEW) := hf.trans (by rw [hentry]; rfl)
        simp only [hscheme, true_and]
        exact delivered_sendLayers (by decide)
    · rw [if_neg hscheme] at hf
      obtain rfl : result = .error .other := hf
      exact iff_of_false (not_delivered_of_raised rfl) fun h => hscheme h.1
  · refine iff_of_true ?_ trivial
    exact (delivered_refused (Or.inl rfl) (by decide) (by decide)).2
      (textFits_of_short hca (by decide))

lemma delivered_getProject (hp : 1024 ≤ capacity) (target : String) :
    (w.sendLayers catalog msg p (w.getProject cache target false)).Delivered capacity
        (.collections msg) ↔
      w.ServesProject capacity cache (absolute target) (w.LayersFit capacity msg p) := by
  rw [getProject, requestProjectFromCache, tryRequest, ServesProject]
  cases w.resolvePath (absolute target) false with
  | error err => exact delivered_raised
  | ok url =>
    show _ ↔ Served capacity (w.checkout cache url) _
    cases hh : w.checkout cache url with
    | error err =>
      simp only [hh]
      exact delivered_raised
    | ok found =>
      have hm := fun e => Manager.mem_of_checkout (e := e) hh
      simp only [hh, Served]
      cases found with
      | needUpdate e =>
        cases w.reloadOutdatedProjectOnRequest with
        | true => exact delivered_reloaded (hm e (Or.inl rfl))
        | false => exact delivered_sendLayers (by decide)
      | unchanged e => exact delivered_sendLayers (by decide)
      | new md =>
        cases w.loadProjectOnRequest with
        | true => exact delivered_added hp
        | false => exact delivered_refused (Or.inl rfl) (by decide) (by decide)
      | removed e => exact delivered_refused (Or.inr rfl) (by decide) (by decide)
      | notFound => exact delivered_refused (Or.inl rfl) (by decide) (by decide)

lemma delivered_handleLayers (hp : 1024 ≤ capacity) (location : String) :
    (w.handleLayers s msg location).Delivered capacity (.collections msg) ↔
      w.ProjectLayersFit capacity s msg location := by
  rw [handleLayers, ProjectLayersFit]
  by_cases he : location = ""
  · rw [if_pos he]
    refine iff_of_true ?_ fun h => absurd he h
    exact (delivered_failure rfl (by decide) (by decide)).2
      (textFits_of_short hp (by decide))
  · rw [if_neg he]
    rcases w.updateCatalog s.cache s.catalog (!w.loadProjectOnRequest) none with ⟨_ | e, catalog⟩
    · simp only [ne_eq, he, not_false_eq_true, forall_true_left, true_and]
      rcases w.getAndUpdate s.cache catalog location false with ⟨err | _ | p, c⟩
      · exact iff_of_false (not_delivered_of_raised rfl) (by simp)
      · simp only [Except.ok.injEq, exists_eq_left']
        exact delivered_failure rfl (by decide) (by decide)
      · simp only [Except.ok.injEq, exists_eq_left']
        exact delivered_getProject hp p.publicPath
    · exact iff_of_false (not_delivered_of_raised rfl) (by simp [he])

lemma delivered_handle (hp : 1024 ≤ capacity) {q : Query} (hq : q ≠ .updateCache) :
    (w.handle s q).Delivered capacity q ↔ w.Deliverable capacity s q := by
  cases q with
  | checkoutProject uri p => exact delivered_checkoutProject hp uri p
  | dropProject uri => exact delivered_dropProject uri
  | clearCache => exact iff_of_true (delivered_unit hp (Or.inl rfl)) trivial
  | listCache t => exact delivered_sendCacheList hp t
  | updateCache => exact absurd rfl hq
  | projectInfo uri => exact delivered_sendProjectInfo uri
  | catalog l => exact delivered_sendCatalog hp l
  | collections msg =>
    simp only [handle, handleCollection, Deliverable]
    cases msg.location with
    | none => exact delivered_handleCatalog msg
    | some l =>
      simp only
      split
      · exact delivered_handleCatalog msg
      · exact delivered_handleLayers hp l

lemma deliverable_congr {cache : Entries} (h : cache.items = s.cache.items) (q : Query) :
    w.Deliverable capacity { s with cache } q ↔ w.Deliverable capacity s q := by
  have hl : cache.length = s.cache.length := congrArg List.length h
  have hp (uri : String) : w.checkoutPath cache uri = w.checkoutPath s.cache uri := by
    simp only [checkoutPath, Manager.checkout_congr h]
  have hr : w.Crowded cache ↔ w.Crowded s.cache := by rw [Crowded, Crowded, hl]
  have hd (P : Prop) : w.Adds cache P ↔ w.Adds s.cache P := by
    simp only [Adds, hr, Manager.Newborn, h]
  cases q with
  | checkoutProject uri u =>
    simp only [Deliverable, hp]
    refine served_congr fun p => ?_
    cases u with
    | false => exact Iff.rfl
    | true => cases p.2 <;> simp [Pulls, hd]
  | dropProject uri => simp only [Deliverable, hp]
  | clearCache => exact Iff.rfl
  | listCache statusFilter | updateCache => simp only [Deliverable, h]
  | projectInfo uri => simp only [Deliverable, hp]
  | catalog l => exact Iff.rfl
  | collections msg =>
    simp only [Deliverable, CatalogFits, ProjectLayersFit, ServesProject,
      Publisher.getAndUpdate_congr h, Publisher.updateCatalog_congr h, Manager.checkout_congr h, hd]

end Worker.Context

/-- A message is delivered through a buffer of the gateway, whatever the table of the cache looks
like. -/
def Delivered (w : Context) (buffer : Pool.BoundedUsize 1024) (s : State) (q : Query) : Prop :=
  ∀ cache : Entries, cache.items = s.cache.items →
    (w.handle { s with cache } q).Delivered buffer.1 q

def unmeasured : Context where
  routes := []
  allowDirectPathResolution := false
  schemes := ["file"]
  projectMetadata := fun _ => .ok ⟨"/srv/map.qgs", "map", "file", some "file", 1⟩
  refreshMetadata := fun md => .ok md
  project := fun _ => .error .other
  collectProjectsEx := fun _ => ([], none)
  now := 2
  usedMem := none
  loadTimeMs := 10
  refresh_uri := by
    rintro md _ ⟨⟩
    rfl
  snapshot := fun _ => none
  fromProject := fun _ _ => none
  fromLayer := fun _ _ => .ok none
  minimumQgisVersion := (3, 0)
  collectionSchema := "\x7b\x7d"
  maxProjects := 50
  loadProjectOnRequest := true
  reloadOutdatedProjectOnRequest := true
  name := "worker"
  iso := fun _ => some "1970-01-01T00:00:01.000+00:00"

def unmeasuredEntry : CacheEntry where
  md := ⟨"/srv/map.qgs", "map", "file", some "file", 1⟩
  project := ⟨"/srv/map.qgs", "EPSG:4326", "3.34.0", some (3, 34), [], false, [], [], []⟩
  timestamp := 1
  loadMemoryBytes := none
  loadTimeMs := 10

end QJazz.Rpc
