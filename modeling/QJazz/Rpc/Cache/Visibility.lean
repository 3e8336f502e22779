import QJazz.Ogc.Naming
import QJazz.Ogc.Update
import QJazz.Rpc.Cache.Refresh

/-! A worker that does not load projects on request lists the pinned projects of its cache. -/
namespace QJazz.Rpc

open Cache Lexical Ogc Worker List Publisher

namespace Worker.Context

def Shows (w : Context) (s : State) (msg : CollectionsMsg) (p : String) : Prop :=
  ∃ page, (w.handleCatalog s msg).sent = [.answer (.page page)] ∧ ∃ item ∈ page.items, item.name = p

/-- A request for the project of the path returns it. -/
def ShownAlone (w : Context) (s : State) (p : String) : Prop :=
  ∃ msg : CollectionsMsg, msg.resource = some p ∧ w.Shows s msg p

def Listed (w : Context) (s : State) (p : String) : Prop :=
  ∃ msg : CollectionsMsg, msg.resource = none ∧ msg.location = none ∧ w.Shows s msg p

def PinnedAt (w : Context) (s : State) (p : String) : Prop :=
  ∃ url e, w.resolvePath p false = .ok url ∧ w.EntryAt s.cache url e ∧ e.pinned = true

/-- A request for one project shows what the whole catalog shows, so nothing that is not pinned. -/
structure PinnedOnly (w : Context) (s : State) (p : String) : Prop where
  listed : w.ShownAlone s p ↔ w.Listed s p
  pinned : w.ShownAlone s p → w.PinnedAt s p

/-- The storage is sound at the path: the catalog can be listed, the listing has the project if there
is one, and items can be made of the project as it is now and as it was loaded. -/
structure Settled (w : Context) (s : State) (p uri : String) : Prop
    extends w.toPublisher.Names p uri where
  ne_empty : p ≠ ""
  answers : (w.updateCatalog s.cache s.catalog true none).1 = none
  listed : ∀ md, w.metadataOf (Publisher.uriUrl uri) = .ok md →
    ∃ x ∈ (w.collectProjectsEx none).1, shownPath x.2.1 = p
  renewable : ∀ md, w.metadataOf (Publisher.uriUrl uri) = .ok md →
    w.Renewable md p ∧ ∀ e, s.cache.get? uri = some e → w.Renewable e.md p

/-- What the path is checked out as is no project that should be hidden: not one that is not loaded or
not pinned, and not a removed one of which the catalog has an item that is kept or renewed. -/
def Restricted (w : Context) (s : State) (p : String) : Checkout → Prop
  | .new _ => False
  | .unchanged e | .needUpdate e => e.pinned = true
  | .removed e => ∀ item, s.catalog.lookup p = some item →
      item.md.lastModified < e.md.lastModified ∧ ¬ w.Renewable e.md p
  | .notFound => True

variable {w : Context} {s : State} {p uri : String} {md : ProjectMetadata} {e : CacheEntry}
  {found : Checkout}

lemma sent_project (hp : p ≠ "") {msg : CollectionsMsg} (hm : msg.resource = some p)
    {page : CollectionsPage} : (w.handleCatalog s msg).sent = [.answer (.page page)] ↔
      ∃ got, (w.getAndUpdate s.cache s.catalog p false).1 = .ok got ∧
        page = { schema := w.collectionSchema
                 next := msg.stop < (w.getAndUpdate s.cache s.catalog p false).2.length
                 items := got.toList.map fun item =>
                   { name := item.publicPath, json := item.coll.json
                     endpoints := mapEndpoint.value } } := by
  have hf : (some p).filter (· ≠ "") = some p := by simp [hp]
  rw [handleCatalog, hm, hf]
  refine sent_page_iff.trans ?_
  cases (w.getAndUpdate s.cache s.catalog p false).1 <;> simp [Except.map]

lemma shownAlone_iff (hp : p ≠ "") :
    w.ShownAlone s p ↔ ∃ i, (w.getAndUpdate s.cache s.catalog p false).1 = .ok (some i) ∧
      i.publicPath = p := by
  constructor
  · rintro ⟨msg, hm, a, hg, i, hi, hn⟩
    obtain ⟨got, ho, rfl⟩ := (sent_project hp hm).1 hg
    obtain ⟨t, he, rfl⟩ := List.mem_map.1 hi
    rw [Option.mem_toList.1 he] at ho
    exact ⟨t, ho, hn⟩
  · rintro ⟨i, ho, ht⟩
    refine ⟨⟨none, some p, 0, 1⟩, rfl, _, (sent_project hp rfl).2 ⟨_, ho, rfl⟩, ?_⟩
    exact ⟨_, mem_singleton_self _, ht⟩

lemma sent_listing (hd : w.loadProjectOnRequest = false) {msg : CollectionsMsg}
    (hm : msg.resource = none) (hl : msg.location = none) {page : CollectionsPage} :
    (w.handleCatalog s msg).sent = [.answer (.page page)] ↔
      (w.updateCatalog s.cache s.catalog true none).1 = none ∧ ∃ items, islice msg.start msg.stop
            ((w.updateCatalog s.cache s.catalog true none).2.map Prod.snd) = .ok items ∧
          page = { schema := w.collectionSchema
                   next := msg.stop < (w.updateCatalog s.cache s.catalog true none).2.length
                   items := items.map fun item =>
                     { name := item.publicPath, json := item.coll.catalogJson
                       endpoints := mapEndpoint.value } } := by
  rw [handleCatalog, hm, hl, hd, Bool.not_false, Option.filter_none]
  rcases w.updateCatalog s.cache s.catalog true none with ⟨_ | e, catalog⟩
  · refine sent_page_iff.trans ?_
    rw [show catalog.iter none = catalog.map Prod.snd from rfl]
    cases islice msg.start msg.stop (catalog.map Prod.snd) <;> simp [Except.map]
  · simp

lemma listed_iff (hd : w.loadProjectOnRequest = false) :
    w.Listed s p ↔ (w.updateCatalog s.cache s.catalog true none).1 = none ∧
      ∃ x ∈ (w.updateCatalog s.cache s.catalog true none).2, x.2.publicPath = p := by
  constructor
  · rintro ⟨msg, hg, hal, a, hp, m, ht, hm⟩
    obtain ⟨hn, t, hi, rfl⟩ := (sent_listing hd hg hal).1 hp
    obtain ⟨i, he, rfl⟩ := List.mem_map.1 ht
    rw [islice] at hi
    split at hi
    · cases hi
    · cases hi
      obtain ⟨x, hx, rfl⟩ := List.mem_map.1 (mem_of_mem_take (mem_of_mem_drop he))
      exact ⟨hn, x, hx, hm⟩
  · rintro ⟨hn, x, hx, hh⟩
    let c := (w.updateCatalog s.cache s.catalog true none).2
    have hl : islice 0 c.length (c.map Prod.snd) = .ok (c.map Prod.snd) := by
      have ho : ¬ ((0 : ℤ) < 0 ∨ (c.length : ℤ) < 0) := by omega
      rw [islice, if_neg ho, Int.toNat_natCast, take_of_length_le (by simp)]
      rfl
    refine ⟨⟨none, none, 0, c.length⟩, rfl, rfl, _,
      (sent_listing hd rfl rfl).2 ⟨hn, _, hl, rfl⟩, ?_⟩
    exact ⟨_, List.mem_map_of_mem (List.mem_map_of_mem hx), hh⟩

lemma listed_iff_pinned (hd : w.loadProjectOnRequest = false) (h : w.Settled s p uri)
    (hn : Named p uri s.catalog) :
    w.Listed s p ↔ ∃ e, w.EntryAt s.cache (Publisher.uriUrl uri) e ∧ e.pinned = true := by
  obtain ⟨he, ht⟩ := updateCatalog_of_none h.answers
  rw [listed_iff hd, and_iff_right h.answers, ht, exists_mem_ofItems]
  constructor
  · rintro ⟨i, hi, hpa⟩
    obtain ⟨x, hx, hp, hu⟩ := (mem_updateItems he).1 hi
    have hh : shownPath x.2.1 = p := by
      rcases currentItem_eq_some hu with ho | ⟨hnew, -⟩
      · exact (hn.lookup ho).1.symm.trans hpa
      · exact hnew.symm.trans hpa
    have huri := h.reads _ (h.lists none x hx hh)
    rw [← huri]
    exact isPinned_eq_true.1 (hp rfl)
  · rintro ⟨e, hentry, hp⟩
    obtain ⟨md, hr, -⟩ := entryAt_iff.1 hentry
    obtain ⟨x, hx, hh⟩ := h.listed md hr
    cases (h.lists none x hx hh).symm.trans hr
    have huri := h.reads _ hr
    obtain ⟨i, hu⟩ := Option.isSome_iff_exists.1
      (currentItem_isSome (h.renewable _ hr).1.2)
    refine ⟨i, (mem_updateItems he).2 ⟨x, hx, fun _ => ?_, hh ▸ hu⟩, ?_⟩
    · rw [isPinned_eq_true, huri]
      exact ⟨e, hentry, hp⟩
    · rcases currentItem_eq_some hu with ho | ⟨hnew, -⟩
      · exact (hn.lookup ho).1
      · exact hnew

lemma Settled.shownAlone_iff_metadata (h : w.Settled s p uri) (hn : Named p uri s.catalog) :
    w.ShownAlone s p ↔
      ∃ found md, w.checkout s.cache (Publisher.uriUrl uri) = .ok found ∧ found.metadata = some md ∧
        match s.catalog.lookup p with
        | none => (∀ e, found ≠ .removed e) ∧ w.Renewable md p
        | some i => md.lastModified ≤ i.md.lastModified ∨ w.Renewable md p :=
  (shownAlone_iff h.ne_empty).trans (hn.exists_getAndUpdate h.toNames)

lemma Settled.shownAlone_of_read (h : w.Settled s p uri) (hn : Named p uri s.catalog)
    (hr : w.metadataOf (Publisher.uriUrl uri) = .ok md) : w.ShownAlone s p := by
  obtain ⟨hnew, ho⟩ := h.renewable md hr
  have hh {found : Checkout} {md : ProjectMetadata}
      (hfound : w.checkout s.cache (Publisher.uriUrl uri) = .ok found)
      (hmd : found.metadata = some md) (hp : ∀ e, found ≠ .removed e)
      (he : w.Renewable md p) : w.ShownAlone s p := by
    refine (h.shownAlone_iff_metadata hn).2 ⟨found, md, hfound, hmd, ?_⟩
    split
    · exact ⟨hp, he⟩
    · exact .inr he
  cases hget : s.cache.get? uri with
  | none =>
    have hfound : w.checkout s.cache (Publisher.uriUrl uri) = .ok (.new md) := by
      simp [checkout_eq, hr, Publisher.checkedOut, h.reads md hr, hget]
    exact hh hfound rfl (by simp) hnew
  | some e =>
    have hentry : w.EntryAt s.cache (Publisher.uriUrl uri) e :=
      entryAt_iff.2 ⟨md, hr, by rw [h.reads md hr, hget]⟩
    rcases hentry with hfound | hfound
    · exact hh hfound rfl (by simp) (ho e hget)
    · exact hh hfound rfl (by simp) (ho e hget)

lemma Settled.pinnedAt_iff (h : w.Settled s p uri) :
    w.PinnedAt s p ↔ ∃ e, w.EntryAt s.cache (Publisher.uriUrl uri) e ∧ e.pinned = true := by
  constructor
  · rintro ⟨url, e, hurl, hentry, hp⟩
    rw [Publisher.EntryAt, h.checkout_path hurl] at hentry
    exact ⟨e, hentry, hp⟩
  · rintro ⟨e, hentry, hp⟩
    obtain ⟨url, hurl, -⟩ := h.resolves
    refine ⟨url, e, hurl, ?_, hp⟩
    rw [Publisher.EntryAt, h.checkout_path hurl]
    exact hentry

lemma Settled.pinnedOnly_iff_of_shown (hd : w.loadProjectOnRequest = false)
    (h : w.Settled s p uri) (hm : Named p uri s.catalog) : w.PinnedOnly s p ↔
      (w.ShownAlone s p → ∃ e, w.EntryAt s.cache (Publisher.uriUrl uri) e ∧ e.pinned) := by
  have hi := listed_iff_pinned hd h hm
  constructor
  · intro hn ho
    exact hi.1 (hn.listed.1 ho)
  · intro hn
    refine ⟨⟨fun ho => hi.2 (hn ho), fun hl => ?_⟩,
      fun ho => h.pinnedAt_iff.2 (hn ho)⟩
    obtain ⟨e, hentry, -⟩ := hi.1 hl
    obtain ⟨md, hr, -⟩ := entryAt_iff.1 hentry
    exact h.shownAlone_of_read hm hr

lemma Settled.shown_restricted_iff (h : w.Settled s p uri) (hn : Named p uri s.catalog) :
    (w.ShownAlone s p → ∃ e, w.EntryAt s.cache (Publisher.uriUrl uri) e ∧ e.pinned) ↔
      ∀ found, w.checkout s.cache (Publisher.uriUrl uri) = .ok found → w.Restricted s p found := by
  have hentry {e : CacheEntry} (he : w.EntryAt s.cache (Publisher.uriUrl uri) e) :
      w.ShownAlone s p := by
    obtain ⟨md, hr, -⟩ := entryAt_iff.1 he
    exact h.shownAlone_of_read hn hr
  cases hfound : w.checkout s.cache (Publisher.uriUrl uri) with
  | error e =>
    rw [h.shownAlone_iff_metadata hn]
    simp [hfound]
  | ok found =>
    cases found with
    | new md =>
      have hl := h.shownAlone_of_read hn (metadataOf_of_new hfound)
      simp [hl, Publisher.EntryAt, hfound, Restricted]
    | unchanged e =>
      have hl := hentry (.inl hfound)
      simp [hl, Publisher.EntryAt, hfound, Restricted]
    | needUpdate e =>
      have hl := hentry (.inr hfound)
      simp [hl, Publisher.EntryAt, hfound, Restricted]
    | removed e =>
      rw [h.shownAlone_iff_metadata hn]
      cases hi : s.catalog.lookup p <;>
        simp [Publisher.EntryAt, hfound, Restricted, Checkout.metadata, hi]
    | notFound =>
      rw [h.shownAlone_iff_metadata hn]
      simp [hfound, Restricted, Checkout.metadata]

section Keeps
variable {P : Ogc.Catalog → Prop} (h : P s.catalog)
  (hu : ∀ {c c' r b u}, P c → w.updateCatalog s.cache c b u = (r, c') → P c')
  (hg : ∀ {c c' r i}, P c → w.getAndUpdate s.cache c i false = (r, c') → P c')
include h hu hg

lemma keeps_handleCatalog (msg : CollectionsMsg) : P (w.handleCatalog s msg).state.catalog := by
  rw [handleCatalog]
  split
  · rw [ofReply_state]
    exact hg h rfl
  · split
    next he => exact hu h he
    next he =>
      rw [ofReply_state]
      exact hu h he

lemma keeps_handleLayers (msg : CollectionsMsg) (l : String) :
    P (w.handleLayers s msg l).state.catalog := by
  rw [handleLayers]
  split
  · exact h
  · split
    next he => exact hu h he
    next c he =>
      have hc : P c := hu h he
      split
      next hi => exact hg hc hi
      next hi => exact hg hc hi
      next hi =>
        rw [sendLayers]
        split
        · exact hg hc hi
        · exact hg hc hi
        · simp only [ofReply_state]
          exact hg hc hi

end Keeps

lemma catalog_perform {op : Operation} (h : ∀ msg, op ≠ .query (.collections msg)) :
    (w.perform s op).state.catalog = s.catalog := by
  cases op with
  | request r a d =>
    rw [perform, handleRequest.eq_def]
    split
    · cases r <;> rfl
    · rfl
  | query q =>
    cases q with
    | checkoutProject uri u =>
      rw [perform, handle, checkoutProject, catching_state]
      split
      · rfl
      · split <;> rw [ofReply_state]
    | dropProject uri =>
      rw [perform, handle, dropProject]
      split <;> simp only [ofReply_state]
    | clearCache => rfl
    | listCache t => rw [perform, handle, sendCacheList, stream_state]
    | updateCache => rw [perform, handle, updateCache, ofReply_state]
    | projectInfo uri =>
      rw [perform, handle, sendProjectInfo, catching_state]
      split
      · rfl
      · rw [ofReply_state]
    | catalog l => rw [perform, handle, sendCatalog, stream_state]
    | collections msg => exact absurd rfl (h msg)

lemma keeps_perform {P : Ogc.Catalog → Prop} (h : P s.catalog)
    (hu : ∀ {c c' r b u}, P c → w.updateCatalog s.cache c b u = (r, c') → P c')
    (hg : ∀ {c c' r i}, P c → w.getAndUpdate s.cache c i false = (r, c') → P c') (op : Operation) :
    P (w.perform s op).state.catalog := by
  by_cases hop : ∃ msg, op = .query (.collections msg)
  · obtain ⟨msg, rfl⟩ := hop
    rw [perform, handle, handleCollection]
    split
    · exact keeps_handleCatalog h hu hg msg
    · split
      · exact keeps_handleCatalog h hu hg msg
      · exact keeps_handleLayers h hu hg msg _
  · rw [catalog_perform fun msg hm => hop ⟨msg, hm⟩]
    exact h

end Worker.Context

open Transition

def NamedIn (p uri : String) (s : State) : Prop := Named p uri s.catalog

lemma namedIn_step {p uri : String} (s : State) (v : Event) (t : State)
    (h : NamedIn p uri s) (hn : v.worker.Names p uri) (ht : v.step s = some t) :
    NamedIn p uri t := by
  cases ht
  exact Worker.Context.keeps_perform h (fun hc => hc.of_updateCatalog hn)
    (fun hc => hc.of_getAndUpdate hn) v.operation

/-- After any messages that were handled while the path named one project: a request for the project
shows what the whole catalog shows if and only if the project is pinned, or it is removed and the
catalog gives no item of it. -/
theorem pinnedOnly_iff_restricted (p uri : String) (start s : State) (events : List Event)
    (w : Context) (hstart : start.catalog = [])
    (hnames : ∀ event ∈ events, event.worker.Names p uri)
    (hrun : run Event.step start events = some s) (hdisabled : w.loadProjectOnRequest = false)
    (hsettled : w.Settled s p uri) :
    w.PinnedOnly s p ↔ ∀ found, w.checkout s.cache (Publisher.uriUrl uri) = .ok found →
      w.Restricted s p found := by
  have he : NamedIn p uri start := by
    rw [NamedIn, hstart]
    exact fun x hx => absurd hx not_mem_nil
  have hl : Along Event.step (fun _ event => event.worker.Names p uri) start events :=
    along_of_forall fun event hv _ => hnames event hv
  have hn := run_invariant namedIn_step he hl hrun
  rw [hsettled.pinnedOnly_iff_of_shown hdisabled hn]
  exact hsettled.shown_restricted_iff hn

def publishedWorker : Context :=
  { mapWorker 1 2 with
    routes := [.static ⟨"/".toList, .ofText "/srv".toList, rfl⟩]
    collectProjectsEx := fun _ => ([(mapMetadata 1, "/map.qgs", .parse "/".toList)], none)
    snapshot := fun _ => some mapProject
    fromProject := fun _ _ => some ⟨"\x7b\x7d", "\x7b\x7d"⟩
    loadProjectOnRequest := false }

def pulledState : State :=
  (publishedWorker.perform { cache := .empty, catalog := [] }
    (.query (.checkoutProject "/map" true))).state

lemma names_publishedWorker : publishedWorker.Names "/map" "/srv/map.qgs" where
  located := ⟨.parse "/".toList, by decide +kernel⟩
  resolves := ⟨_, rfl, by decide +kernel⟩
  reads := by
    rintro md ⟨⟩
    rfl
  misses := nofun
  lists := by
    intro u x hx hh
    cases mem_singleton.1 hx
    rfl

theorem pinnedOnly_pulled : publishedWorker.PinnedOnly pulledState "/map" := by
  have hget : pulledState.cache.get? "/srv/map.qgs" =
      some { mapEntry with timestamp := 2, pinned := true } := by
    decide +kernel
  have ht : publishedWorker.Settled pulledState "/map" "/srv/map.qgs" :=
    { names_publishedWorker with
      ne_empty := by decide
      answers := by decide +kernel
      listed := fun _ _ => ⟨_, mem_singleton_self _, by decide +kernel⟩
      renewable := by
        rintro md ⟨⟩
        refine ⟨⟨by decide, mapProject, rfl, by decide, rfl⟩, fun e he => ?_⟩
        cases hget.symm.trans he
        exact ⟨by decide, mapProject, rfl, by decide, rfl⟩ }
  refine (pinnedOnly_iff_restricted "/map" "/srv/map.qgs" { cache := .empty, catalog := [] }
    pulledState [⟨publishedWorker, .query (.checkoutProject "/map" true)⟩] publishedWorker rfl ?_ rfl
    rfl ht).2 ?_
  · intro v hv
    cases mem_singleton.1 hv
    exact names_publishedWorker
  · have hfound : publishedWorker.checkout pulledState.cache (Publisher.uriUrl "/srv/map.qgs") =
        .ok (.unchanged { mapEntry with timestamp := 2, pinned := true }) := by
      decide +kernel
    intro found h
    cases hfound.symm.trans h
    rfl

/-- The worker has just started, and shows a project that it has not even loaded. -/
theorem not_pinnedOnly_unloaded : publishedWorker.loadProjectOnRequest = false ∧
      ¬ publishedWorker.PinnedOnly { cache := .empty, catalog := [] } "/map" := by
  refine ⟨rfl, fun h => ?_⟩
  have hi : (publishedWorker.getAndUpdate .empty [] "/map" false).1 =
      .ok (some ⟨"/map", mapMetadata 1, [], ⟨"\x7b\x7d", "\x7b\x7d"⟩, .parse "/".toList⟩) := by
    decide +kernel
  obtain ⟨url, e, -, hentry, -⟩ :=
    h.pinned ((Worker.Context.shownAlone_iff (by decide)).2 ⟨_, hi, rfl⟩)
  obtain ⟨md, -, hget⟩ := entryAt_iff.1 hentry
  cases hget

/-- Whatever messages a worker has handled, no two items of its catalog have one public path, and an
item is found at its own. -/
theorem catalog_paths_of_run (start s : State) (events : List Event) (hstart : start.catalog = [])
    (hrun : run Event.step start events = some s) :
    (s.catalog.map fun y => y.2.publicPath).Nodup ∧
      ∀ path item, s.catalog.lookup path = some item → item.publicPath = path := by
  have ht : start.catalog.KeyedOnce := by simp [Ogc.Catalog.KeyedOnce, Ogc.Catalog.Keyed, hstart]
  have hk (s : State) (v : Event) (t : State) (h : s.catalog.KeyedOnce) (_ : True)
      (ht : v.step s = some t) : t.catalog.KeyedOnce := by
    cases ht
    exact Worker.Context.keeps_perform h Ogc.Publisher.keyedOnce_updateCatalog
      Ogc.Publisher.keyed_getAndUpdate v.operation
  obtain ⟨hk, hn⟩ := run_invariant hk ht (along_of_forall fun _ _ _ => trivial) hrun
  refine ⟨?_, fun path item hl => hk _ (Json.mem_of_lookup hl)⟩
  rwa [map_congr_left hk]

theorem catalog_paths_of_run_asked : ∃ s : State,
    run Event.step { cache := .empty, catalog := [] } [⟨publishedWorker,
      .query (.collections ⟨none, some "/map", 0, 1⟩)⟩] = some s ∧ s.catalog.length = 1 ∧
      (s.catalog.map fun y => y.2.publicPath).Nodup :=
  ⟨_, rfl, by decide +kernel, (catalog_paths_of_run ⟨.empty, []⟩ _
    [⟨publishedWorker, .query (.collections ⟨none, some "/map", 0, 1⟩)⟩] rfl rfl).1⟩

end QJazz.Rpc
