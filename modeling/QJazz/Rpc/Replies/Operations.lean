import QJazz.Rpc.Replies.Deliverable

/-! For every message a condition on the state of the worker and of the storage before it, and for
every operation on the cache and the catalog the proof that its reply is delivered exactly then. -/
namespace QJazz.Rpc
open Cache Ogc Lexical Msgpack Worker Outcome List Manager

namespace Worker.Context

variable (w : Context) (capacity : ℕ)

/-- A condition on the value of an operation. An exception that the handler answers needs room for its
text. -/
def Served {α : Type} (capacity : ℕ) (x : Except CacheError α) (P : α → Prop) : Prop :=
  match x with
  | .ok a => P a
  | .error (.notAllowed text) | .error (.strictChecking text) => TextFits capacity text
  | .error .other => False

def Crowded (cache : Entries) : Prop := w.maxProjects ≤ cache.length

/-- A project can be added: no entry without an age is in the way of an eviction, and if there is
room after it, the project satisfies a condition. -/
def Adds (cache : Entries) (P : Prop) : Prop :=
  (w.Crowded cache → ¬ w.Newborn cache) ∧
    (¬ (w.Crowded cache ∧ ∀ e ∈ cache.items, e.pinned = true) → P)

def Loads (md : ProjectMetadata) (P : CacheEntry → Prop) : Prop :=
  w.hasHandler md.scheme = true ∧ Served capacity (w.newCacheEntry md) P

def Describes (url : Url) : Checkout → Prop
  | .new md => w.NewFits capacity md
  | .needUpdate e | .unchanged e | .removed e => w.EntryFits capacity e
  | .notFound => w.AbsentFits capacity (.ofList url.geturl.render)

def Pulls (cache : Entries) (url : Url) : Checkout → Prop
  | .new md => w.Adds cache (w.Loads capacity md (w.EntryFits capacity))
  | .needUpdate e => w.Loads capacity e.md (w.EntryFits capacity)
  | .unchanged e | .removed e => w.EntryFits capacity e
  | .notFound => w.AbsentFits capacity (.ofList url.geturl.render)

def Drops (uri : String) : Checkout → Prop
  | .needUpdate e | .unchanged e | .removed e => w.DroppedFits capacity e
  | .new _ | .notFound => w.AbsentFits capacity uri

def Informs (url : Url) : Checkout → Prop
  | .needUpdate e | .unchanged e | .removed e => w.ProjectFits capacity e
  | .new _ | .notFound =>
    TextFits capacity ("Resource not available in cache: " ++ .ofList url.geturl.render)

def layerText (project : Project) (parent : Ogc.CatalogItem) (layer : MapLayer) :
    Option (String × String) :=
  match w.fromLayer layer parent.coll with
  | .ok (some coll) => some (project.layerName layer, coll.json)
  | _ => none

def LayersFit (msg : CollectionsMsg) (parent : Ogc.CatalogItem) (project : Project) : Prop :=
  match msg.resource.filter (· ≠ "") with
  | some resource =>
    match parent.layers.lookup resource, project.layerByName resource with
    | some _, some layer => ∃ coll, w.fromLayer layer parent.coll = .ok coll ∧
        w.PageFits capacity (coll.toList.map fun coll => (resource, coll.json))
    | _, _ => w.PageFits capacity []
  | none =>
    let layers := ((iterLayers project parent).take msg.stop.toNat).drop msg.start.toNat
    (0 ≤ msg.start ∧ 0 ≤ msg.stop) ∧
      (∀ layer ∈ layers, ∃ coll, w.fromLayer layer parent.coll = .ok coll) ∧
      w.PageFits capacity (layers.filterMap (w.layerText project parent))

/-- A project is served on a request and satisfies a condition, or there is room for the text of the
error. An outdated project that cannot be reloaded leads to two replies. -/
def ServesProject (cache : Entries) (target : String) (P : Project → Prop) : Prop :=
  Served capacity (w.resolvePath target false) fun url =>
    Served capacity (w.checkout cache url) fun
      | .needUpdate e =>
        if w.reloadOutdatedProjectOnRequest then
          w.hasHandler e.md.scheme = true ∧ ∃ entry, w.newCacheEntry e.md = .ok entry ∧ P entry.project
        else P e.project
      | .unchanged e => P e.project
      | .new md =>
        if w.loadProjectOnRequest then
          w.Adds cache (w.Loads capacity md fun e => P e.project)
        else TextFits capacity ("Resource not found: " ++ target)
      | .removed _ => TextFits capacity target
      | .notFound => TextFits capacity ("Resource not found: " ++ target)

def CatalogFits (s : State) (msg : CollectionsMsg) : Prop :=
  match msg.resource.filter (· ≠ "") with
  | some resource =>
    ∃ item, (w.getAndUpdate s.cache s.catalog resource false).1 = .ok item ∧
      w.PageFits capacity (item.toList.map fun item => (item.publicPath, item.coll.json))
  | none =>
    let updated := w.updateCatalog s.cache s.catalog (!w.loadProjectOnRequest) msg.location
    updated.1 = none ∧ (0 ≤ msg.start ∧ 0 ≤ msg.stop) ∧
      w.PageFits capacity ((((updated.2.iter msg.location).take msg.stop.toNat).drop
        msg.start.toNat).map fun item => (item.publicPath, item.coll.catalogJson))

def ProjectLayersFit (s : State) (msg : CollectionsMsg) (location : String) : Prop :=
  location ≠ "" →
    let updated := w.updateCatalog s.cache s.catalog (!w.loadProjectOnRequest) none
    updated.1 = none ∧
      ∃ item, (w.getAndUpdate s.cache updated.2 location false).1 = .ok item ∧
        match item with
        | none => TextFits capacity ("Resource not found: " ++ location)
        | some parent =>
          w.ServesProject capacity s.cache (absolute parent.publicPath)
            (w.LayersFit capacity msg parent)

def Deliverable (s : State) : Query → Prop
  | .checkoutProject uri pull =>
    Served capacity (w.checkoutPath s.cache uri) fun p =>
      if pull then w.Pulls capacity s.cache p.1 p.2 else w.Describes capacity p.1 p.2
  | .dropProject uri => ∃ p, w.checkoutPath s.cache uri = .ok p ∧ w.Drops capacity uri p.2
  | .clearCache => True
  | .listCache _ =>
    ∀ e ∈ s.cache.items, (∃ status, w.checkoutEntry e = .ok status) ∧ w.EntryFits capacity e
  | .updateCache => ∀ e ∈ s.cache.items, w.Still e
  | .projectInfo uri =>
    match w.checkoutPath s.cache uri with
    | .ok p => w.Informs capacity p.1 p.2
    | .error (.notAllowed text) => TextFits capacity text
    | .error _ => False
  | .catalog location =>
    (w.collectProjectsEx location).2 = none ∧
      ∀ p ∈ (w.collectProjectsEx location).1, w.ListedFits capacity p.1 p.2.1
  | .collections msg =>
    match msg.location with
    | none => w.CatalogFits capacity s msg
    | some location =>
      if location.toList.getLast? = some '/' then w.CatalogFits capacity s msg
      else w.ProjectLayersFit capacity s msg location

variable {w capacity} {q : Query} {s : State} {α β : Type}

instance (cache : Entries) : Decidable (w.Crowded cache) := inferInstanceAs (Decidable (_ ≤ _))

lemma served_map {x : Except CacheError α} {f : α → β} {P : β → Prop} :
    Served capacity (x.map f) P ↔ Served capacity x fun a => P (f a) := by
  cases x with
  | ok a => rfl
  | error e => cases e <;> rfl

lemma served_congr {x : Except CacheError α} {P Q : α → Prop} (h : ∀ a, P a ↔ Q a) :
    Served capacity x P ↔ Served capacity x Q := by
  rw [funext fun a => propext (h a)]

def Plain (x : Except CacheError α) : Prop := ∀ e, x = .error e → e = .other

lemma served_iff_exists {x : Except CacheError α} {P : α → Prop} (h : Plain x) :
    Served capacity x P ↔ ∃ a, x = .ok a ∧ P a := by
  cases x with
  | ok a => simp [Served]
  | error e =>
    obtain rfl := h e rfl
    simp [Served]

lemma plain_map {x : Except CacheError α} {f : α → β} (h : Plain x) : Plain (x.map f) := by
  cases x with
  | ok a => rintro e ⟨⟩
  | error e =>
    rintro e' ⟨⟩
    exact h e rfl

lemma plain_timestampToIso (t : ℚ) : Plain (w.timestampToIso t) := by
  intro e h
  rw [timestampToIso] at h
  split at h
  · cases h
  · split at h <;> cases h
    rfl

lemma plain_cacheInfoFromEntry (e : CacheEntry) (t : CheckoutStatus) (i : Bool) :
    Plain (w.cacheInfoFromEntry e t i) := by
  intro err h
  rw [cacheInfoFromEntry] at h
  split at h
  · cases h
  · cases h
    rfl
  next hd =>
    cases h
    exact plain_timestampToIso _ _ hd

lemma served_entry {e : CacheEntry} {t : CheckoutStatus} {i : Bool} :
    Served capacity (w.cacheInfoFromEntry e t i) (InfoFits capacity) ↔ w.EntryFits capacity e :=
  (served_iff_exists (plain_cacheInfoFromEntry e t i)).trans
    (cacheInfoFromEntry_fits t i)

lemma delivered_info (hq : q.isStream = false)
    (hdecode : q.decode = fun v => (CacheInfo.decode v).map .cacheInfo) {info : CacheInfo} :
    (Outcome.ofReply s (.ok (.answer (.cacheInfo info)))).Delivered capacity q ↔
      InfoFits capacity info := by
  rw [delivered_answer hq, hdecode, legible_cacheInfo, Body.dump, CacheInfo.size_dump, InfoFits]

lemma delivered_catching (hq : q.isStream = false) {x : Except CacheError Reply} :
    (Outcome.catching refusal (.ofReply s x)).Delivered capacity q ↔
      Served capacity x fun r => (Outcome.ofReply s (.ok r)).Delivered capacity q := by
  cases x with
  | ok r => rfl
  | error e =>
    cases e with
    | notAllowed t => exact delivered_failure hq (by decide) (by decide)
    | strictChecking t => exact delivered_failure hq (by decide) (by decide)
    | other => exact iff_of_false (not_delivered_of_raised rfl) id

lemma served_describe {url : Url} {found : Checkout} :
    Served capacity (w.describe url found) (InfoFits capacity) ↔ w.Describes capacity url found := by
  cases found with
  | new md => exact (served_iff_exists (plain_map (plain_timestampToIso _))).trans newInfo_fits
  | needUpdate e | unchanged e | removed e => exact served_entry
  | notFound => exact infoFits_absentInfo

lemma noRoom_fst {c : Entries} : (w.noRoom c).1 = if w.Crowded c then
        if w.Newborn c then .error .other else .ok (c.items.all CacheEntry.pinned)
      else .ok false := by
  rw [noRoom]
  by_cases h : w.Crowded c
  · rw [if_pos h, if_pos (show w.maxProjects ≤ c.length from h), evictByPopularity_isNone]
  · rw [if_neg h, if_neg (show ¬ w.maxProjects ≤ c.length from h)]

lemma adds_iff {c : Entries} {P : Prop} : w.Adds c P ↔ match (w.noRoom c).1 with
      | .error _ => False
      | .ok true => True
      | .ok false => P := by
  rw [noRoom_fst, Adds]
  by_cases hr : w.Crowded c
  · by_cases hnew : w.Newborn c
    · simp [hr, hnew]
    · cases hl : c.items.all CacheEntry.pinned with
      | true =>
        have hp : ∀ e ∈ c.items, e.pinned := by simpa using hl
        simp only [hr, hnew, if_true, if_false, not_false_eq_true, implies_true, true_and]
        exact iff_of_true (fun hn => absurd hp hn) trivial
      | false =>
        have hp : ¬ ∀ e ∈ c.items, e.pinned := by simpa using hl
        simp only [hr, hnew, if_true, if_false, not_false_eq_true, implies_true, true_and,
          hp, forall_true_left]
  · simp [hr]

lemma plain_noRoom (c : Entries) : Plain (w.noRoom c).1 := by
  intro e h
  rw [noRoom_fst] at h
  split at h
  · split at h <;> cases h
    rfl
  · cases h

lemma textFits_of_short (hp : 1024 ≤ capacity) {text : String} (h : textSize text ≤ 1020) :
    TextFits capacity text := by
  rw [TextFits, Fits]
  omega

section pull

variable (hq : q.isStream = false)
  (hdecode : q.decode = fun v => (CacheInfo.decode v).map .cacheInfo)

include hq hdecode

lemma served_pinned {u : Except CacheError (CacheEntry × CheckoutStatus) × Entries} :
    (Served capacity (w.pinned u).1
      fun r => (Outcome.ofReply s (.ok r)).Delivered capacity q) ↔
    Served capacity u.1 fun p => w.EntryFits capacity p.1 := by
  obtain ⟨_ | ⟨e, t⟩, c⟩ := u
  next err => cases err <;> rfl
  · rw [pinned, served_map, served_congr fun i => delivered_info hq hdecode, served_entry]
    constructor <;> rintro ⟨h₁, h₂, h₃, h₄, h₅, h₆, h₇⟩ <;> exact ⟨h₁, h₂, h₃, h₄, h₅, h₆, h₇⟩

lemma served_load {md : ProjectMetadata} {t : CheckoutStatus}
    {u : Except CacheError (CacheEntry × CheckoutStatus) × Entries}
    (h : u.1 = if w.hasHandler md.scheme then (w.newCacheEntry md).map (·, t)
      else .error .other) : (Served capacity (w.pinned u).1
      fun r => (Outcome.ofReply s (.ok r)).Delivered capacity q) ↔
    w.Loads capacity md (w.EntryFits capacity) := by
  rw [served_pinned hq hdecode, h, Loads]
  by_cases hscheme : w.hasHandler md.scheme = true
  · rw [if_pos hscheme, served_map]
    simp [hscheme]
  · rw [if_neg hscheme]
    simp [Served, hscheme]

lemma served_pull (hca : 1024 ≤ capacity) {c : Entries} {url : Url} {found : Checkout}
    (hfound : ∀ e, found = .needUpdate e ∨ found = .unchanged e ∨ found = .removed e →
      e ∈ c.items) : (Served capacity (w.pull c url found).1
      fun r => (Outcome.ofReply s (.ok r)).Delivered capacity q) ↔
    w.Pulls capacity c url found := by
  cases found with
  | new md =>
    rw [Pulls, adds_iff, pull]
    have hp := plain_noRoom (w := w) c
    rcases hroom : w.noRoom c with ⟨err | _ | _, a⟩
    · rw [hroom] at hp
      obtain rfl := hp err rfl
      exact Iff.rfl
    · exact served_load hq hdecode update_new_fst
    · refine iff_of_true ?_ trivial
      exact (delivered_failure hq (by decide) (by decide)).2
        (textFits_of_short hca (by decide))
  | unchanged e => exact served_pinned hq hdecode
  | needUpdate e =>
    exact served_load hq hdecode (update_needUpdate_fst (hfound e (Or.inl rfl)))
  | removed e =>
    rw [pull, update_removed (hfound e (Or.inr (Or.inr rfl))), Pulls]
    show Served capacity (Except.map _ _) _ ↔ _
    rw [served_map, served_congr fun i => delivered_info hq hdecode, served_entry]
  | notFound => exact (delivered_info hq hdecode).trans infoFits_absentInfo

end pull

lemma mem_of_checkoutPath {c : Entries} {uri : String} {url : Url} {f : Checkout}
    (h : w.checkoutPath c uri = .ok (url, f)) (e : CacheEntry)
    (hfound : f = .needUpdate e ∨ f = .unchanged e ∨ f = .removed e) : e ∈ c.items :=
  mem_of_checkout (checkoutPath_eq_ok.1 h).2 hfound

lemma delivered_checkoutProject (hp : 1024 ≤ capacity) (uri : String) (u : Bool) :
    (w.checkoutProject s uri u).Delivered capacity (.checkoutProject uri u) ↔
      w.Deliverable capacity s (.checkoutProject uri u) := by
  rw [checkoutProject, Deliverable]
  cases h : w.checkoutPath s.cache uri with
  | error e =>
    refine (delivered_catching (s := s) (x := .error e) rfl).trans ?_
    cases e <;> exact Iff.rfl
  | ok p =>
    obtain ⟨url, f⟩ := p
    cases u with
    | true =>
      refine (delivered_catching rfl).trans ?_
      exact served_pull rfl rfl hp (mem_of_checkoutPath h)
    | false =>
      refine (delivered_catching rfl).trans ?_
      rw [served_map, served_congr fun i => delivered_info rfl rfl]
      exact served_describe

lemma delivered_dropProject (uri : String) :
    (w.dropProject s uri).Delivered capacity (.dropProject uri) ↔
      w.Deliverable capacity s (.dropProject uri) := by
  have hd (e : CacheEntry) (t : State) :
      (Outcome.ofReply t <| (w.droppedInfo e .REMOVED).map fun i =>
        .answer (.cacheInfo i)).Delivered capacity (.dropProject uri) ↔
      w.DroppedFits capacity e := by
    rw [← droppedInfo_fits .REMOVED]
    cases w.droppedInfo e .REMOVED with
    | error err => exact iff_of_false (not_delivered_of_raised rfl) (by simp)
    | ok i => exact (delivered_info rfl rfl).trans (by simp)
  rw [dropProject, Deliverable]
  cases h : w.checkoutPath s.cache uri with
  | error e => exact iff_of_false (not_delivered_of_raised rfl) (by simp)
  | ok p =>
    obtain ⟨url, f⟩ := p
    have hm := mem_of_checkoutPath h
    simp only [Except.ok.injEq, exists_eq_left']
    cases f with
    | needUpdate e | unchanged e | removed e =>
      simp only [update_removed (hm e (by simp))]
      exact hd e _
    | new md | notFound => exact (delivered_info rfl rfl).trans infoFits_absentInfo

lemma delivered_sendCacheList (hp : 1024 ≤ capacity) (t : Option CheckoutStatus) :
    (w.sendCacheList s).Delivered capacity (.listCache t) ↔
      w.Deliverable capacity s (.listCache t) := by
  rw [sendCacheList, delivered_stream rfl (by omega), Deliverable]
  simp only [forall_mem_map]
  refine forall₂_congr fun e _ => ?_
  cases w.checkoutEntry e with
  | error err => simp
  | ok a =>
    rw [exists_map_eq_ok, ← cacheInfoFromEntry_fits a true]
    simp only [Query.decode, legible_cacheInfo, Body.dump, CacheInfo.size_dump, InfoFits,
      Except.ok.injEq, exists_eq', true_and]

lemma delivered_unit (hp : 1024 ≤ capacity) (hq : q = .clearCache ∨ q = .updateCache) :
    (Outcome.ofReply s (.ok (.answer .unit))).Delivered capacity q := by
  rcases hq with rfl | rfl
  · exact (delivered_answer rfl).2
      ⟨⟨rfl, .unit, rfl, rfl⟩, by decide, le_trans (by decide) hp⟩
  · exact (delivered_answer rfl).2
      ⟨⟨rfl, .unit, rfl, rfl⟩, by decide, le_trans (by decide) hp⟩

lemma delivered_updateCache (hp : 1024 ≤ capacity) :
    (w.updateCache s).Delivered capacity .updateCache ↔
      (w.toManager.updateCache s.cache).1 = none := by
  rw [updateCache]
  cases (w.toManager.updateCache s.cache).1 with
  | none => exact iff_of_true (delivered_unit hp (Or.inr rfl)) rfl
  | some e => exact iff_of_false (not_delivered_of_raised rfl) (by simp)

lemma delivered_projectInfo {e : CacheEntry} {t : CheckoutStatus} {uri : String} :
    (Outcome.catching infoRefusal (.ofReply s
      ((w.projectInfo e t).map fun i => .answer (.projectInfo i)))).Delivered capacity
        (.projectInfo uri) ↔ w.ProjectFits capacity e := by
  rw [← projectInfo_fits t, projectInfo, toIso]
  cases w.iso e.md.lastModified with
  | none => exact iff_of_false (not_delivered_of_raised rfl) (by simp [Except.map])
  | some d =>
    refine (delivered_answer rfl).trans ?_
    refine (and_iff_right (legible_projectInfo (fits_status t) rfl)).trans ?_
    rw [Body.dump, ProjectInfo.size_dump]
    simp [Except.map]

lemma delivered_sendProjectInfo (uri : String) :
    (w.sendProjectInfo s uri).Delivered capacity (.projectInfo uri) ↔
      w.Deliverable capacity s (.projectInfo uri) := by
  rw [sendProjectInfo, Deliverable]
  cases h : w.checkoutPath s.cache uri with
  | error e =>
    cases e with
    | notAllowed t => exact delivered_failure rfl (by decide) (by decide)
    | strictChecking t | other => exact iff_of_false (not_delivered_of_raised rfl) id
  | ok p =>
    obtain ⟨url, f⟩ := p
    cases f with
    | needUpdate e | unchanged e | removed e => exact delivered_projectInfo
    | new md | notFound => exact delivered_failure rfl (by decide) (by decide)

lemma delivered_sendCatalog (hp : 1024 ≤ capacity) (l : Option String) :
    (w.sendCatalog s l).Delivered capacity (.catalog l) ↔
      w.Deliverable capacity s (.catalog l) := by
  have hi (p : ProjectMetadata × String × PosixPath) :
      (∃ b, (w.catalogItem p.1 p.2.1).map Body.catalogItem = .ok b ∧
        Legible (Query.decode (.catalog l)) b ∧ Fits capacity (3 + b.dump.size)) ↔
      w.ListedFits capacity p.1 p.2.1 := by
    rw [exists_map_eq_ok, ← catalogItem_fits]
    simp only [Query.decode, legible_catalogItem, Body.dump, CatalogItem.size_dump, true_and]
  rw [sendCatalog, delivered_stream rfl (by omega), Deliverable]
  simp only [forall_mem_append, forall_mem_map, hi]
  rw [and_comm]
  refine and_congr_left fun _ => ?_
  cases (w.collectProjectsEx l).2 <;> simp

lemma endpoints_fit (e : OgcEndpoints) : FitsInt64 e.value ∧ intSize e.value = 1 := by
  obtain ⟨hle, hlt⟩ := e.value_bounds
  constructor
  · unfold FitsInt64
    omega
  · rw [intSize, if_pos (by omega)]

/-- The items of a page are made of a name, a text and endpoints. -/
def Published (items : List CollectionsItem) : Prop :=
  ∀ i ∈ items, ∃ e : OgcEndpoints, i.endpoints = e.value

lemma delivered_page {t : Except CacheError (List CollectionsItem)} {next : Bool}
    {msg : CollectionsMsg} (h : ∀ l, t = .ok l → Published l) :
    (Outcome.ofReply s (w.page t next)).Delivered capacity (.collections msg) ↔
      ∃ l, t = .ok l ∧ w.PageFits capacity (l.map fun i => (i.name, i.json)) := by
  rw [page]
  cases t with
  | error e => exact iff_of_false (not_delivered_of_raised rfl) (by simp)
  | ok l =>
    have hp := h l rfl
    have hf : ∀ i ∈ l, FitsInt64 i.endpoints := by
      intro i hi
      obtain ⟨e, he⟩ := hp i hi
      exact he ▸ (endpoints_fit e).1
    have hu : (l.map fun i => i.size).sum =
        ((l.map fun i => (i.name, i.json)).map fun i => 22 + textSize i.1 + textSize i.2).sum := by
      rw [map_map]
      refine congrArg List.sum (map_congr_left fun i hi => ?_)
      obtain ⟨e, he⟩ := hp i hi
      have ho := (endpoints_fit e).2
      simp only [CollectionsItem.size, Function.comp_apply, he]
      omega
    refine (delivered_answer rfl).trans ((and_iff_right (legible_page hf)).trans ?_)
    rw [Body.dump, CollectionsPage.size_dump]
    simp only [CollectionsPage.size, hu, PageFits, length_map, Except.ok.injEq,
      exists_eq_left', ← Nat.add_assoc, Nat.reduceAdd]

lemma delivered_handleCatalog (msg : CollectionsMsg) :
    (w.handleCatalog s msg).Delivered capacity (.collections msg) ↔
      w.CatalogFits capacity s msg := by
  rw [handleCatalog, CatalogFits]
  cases msg.resource.filter (· ≠ "") with
  | some r =>
    refine (delivered_page ?_).trans ?_
    · intro l hl i hi
      cases hg : (w.getAndUpdate s.cache s.catalog r false).1 with
      | error e =>
        rw [hg] at hl
        cases hl
      | ok t =>
        rw [hg] at hl
        cases hl
        obtain ⟨t, -, rfl⟩ := mem_map.1 hi
        exact ⟨mapEndpoint, rfl⟩
    · rw [exists_map_eq_ok]
      simp only [map_map, Function.comp_def]
  | none =>
    rcases hu : w.updateCatalog s.cache s.catalog (!w.loadProjectOnRequest) msg.location
      with ⟨_ | e, c⟩
    · simp only [true_and]
      refine (delivered_page ?_).trans ?_
      · intro l hl i hi
        rw [islice] at hl
        split at hl
        · cases hl
        · cases hl
          obtain ⟨t, -, rfl⟩ := mem_map.1 hi
          exact ⟨mapEndpoint, rfl⟩
      · rw [exists_map_eq_ok, islice]
        by_cases hn : msg.start < 0 ∨ msg.stop < 0
        · have ho : ¬ (0 ≤ msg.start ∧ 0 ≤ msg.stop) := by omega
          simp [hn, ho]
        · have hp : 0 ≤ msg.start ∧ 0 ≤ msg.stop := by omega
          simp [hn, hp, Function.comp_def]
    · exact iff_of_false (not_delivered_of_raised rfl) (by simp)

end Worker.Context
end QJazz.Rpc
