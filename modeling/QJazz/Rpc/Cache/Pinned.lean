import QJazz.Rpc.Cache.Bound

/-! The pin belongs to the entry: a message that replaces the entry of an outdated project loses it,
unless it pulls the project again. -/
namespace QJazz.Rpc

open Cache Lexical Worker Transition Python Manager Context

def PinnedIn (uri : String) (cache : Entries) : Prop :=
  ∃ e, cache.get? uri = some e ∧ e.pinned = true

/-- The project is pinned and out of reach of an eviction. -/
structure Safe (uri : String) (s : State) : Prop where
  pinned : PinnedIn uri s.cache
  evicted : ∀ (w : Context) e, (w.evictByPopularity s.cache).1 = .ok (some e) → e.uri ≠ uri

namespace Worker.Context

inductive Obtains (w : Context) (cache : Entries) (path uri : String) : Prop
  | unchanged {url : Url} {e : CacheEntry} (h : w.checkoutPath cache path = .ok (url, .unchanged e))
      (huri : e.uri = uri)
  | reloaded {url : Url} {e entry : CacheEntry}
      (h : w.checkoutPath cache path = .ok (url, .needUpdate e)) (huri : e.uri = uri)
      (hscheme : w.hasHandler e.md.scheme = true) (hentry : w.newCacheEntry e.md = .ok entry)
  | added {url : Url} {md : ProjectMetadata} {cache' : Entries} {entry : CacheEntry}
      (h : w.checkoutPath cache path = .ok (url, .new md)) (huri : md.uri = uri)
      (hroom : w.noRoom cache = (.ok false, cache'))
      (hscheme : w.hasHandler md.scheme = true) (hentry : w.newCacheEntry md = .ok entry)

structure Leaves (w : Context) (cache : Entries) (uri : String) (op : Operation) : Prop where
  present : ∀ url, w.projectMetadata url ≠ .error (.fileNotFound uri)
  refreshed : ∀ md, md.uri = uri → ∀ gone, w.refreshMetadata md ≠ .error (.fileNotFound gone)
  cleared : op ≠ .query .clearCache
  dropped : ∀ path, op = .query (.dropProject path) → ∀ url found e,
    w.checkoutPath cache path = .ok (url, found) →
      (found = .needUpdate e ∨ found = .unchanged e ∨ found = .removed e) → e.uri ≠ uri

/-- The message does not load the project again, unless it is a pull that succeeds: a request finds
it up to date or must not reload it, and so does a refresh of the whole cache. -/
def Careful (w : Context) (cache : Entries) (uri : String) : Operation → Prop
  | .request _ target direct =>
    ∀ url md e, w.resolvePath (absolute target) direct = .ok url →
      Outdated w.toManager cache url md e → e.uri = uri → w.reloadOutdatedProjectOnRequest = false
  | .query (.collections _) =>
    ∀ url md e, Outdated w.toManager cache url md e → e.uri = uri →
      w.reloadOutdatedProjectOnRequest = false
  | .query (.checkoutProject path true) =>
    ∀ url md e, w.resolvePath path true = .ok url → Outdated w.toManager cache url md e →
      e.uri = uri → ∃ project, w.project e.md = .ok project
  | .query .updateCache =>
    ∀ e ∈ cache.items, e.uri = uri → ∀ md, w.refreshMetadata e.md = .ok md →
      md.lastModified ≤ e.md.lastModified
  | .query _ => True

end Worker.Context

namespace PinnedIn

variable {uri : String} {c cache' : Entries} {e : CacheEntry} {w : Context} {md : ProjectMetadata}

lemma erase (h : PinnedIn uri c) (hne : e.uri ≠ uri) : PinnedIn uri (c.erase e.uri) := by
  obtain ⟨e', hget, hp⟩ := h
  exact ⟨e', by rw [Dict.get?_erase, if_neg hne.symm, hget], hp⟩

lemma set (h : PinnedIn uri c) (hne : e.uri ≠ uri) : PinnedIn uri (c.set e) := by
  obtain ⟨e', hget, hp⟩ := h
  exact ⟨e', by rw [Dict.get?_set, if_neg hne.symm, hget], hp⟩

lemma mutate {f : CacheEntry → CacheEntry} (h : PinnedIn uri c) (huri : (f e).uri = e.uri)
    (hf : e.pinned → (f e).pinned) : PinnedIn uri (mutate f c e) := by
  obtain ⟨e', hget, hp⟩ := h
  rw [PinnedIn, get?_mutate huri]
  split
  next hm =>
    obtain rfl := Option.some.inj (hget.symm.trans hm.2)
    exact ⟨f e', rfl, hf hp⟩
  · exact ⟨e', hget, hp⟩

lemma uri_ne (h : PinnedIn uri c) (hm : e ∈ c.items) (hu : e.pinned = false) :
    e.uri ≠ uri := by
  rintro rfl
  obtain ⟨e', hget, hp⟩ := h
  obtain rfl := Option.some.inj (hget.symm.trans (Dict.get?_of_mem hm))
  exact absurd hp (by simp [hu])

lemma noRoom (h : PinnedIn uri c) {r : Except CacheError Bool}
    (hroom : w.noRoom c = (r, cache')) : PinnedIn uri cache' := by
  rcases w.noRoom_cases c with ⟨r', h', -⟩ | ⟨h', -⟩ | ⟨e, hm, hu, h'⟩
  · rwa [← (Prod.mk.inj (h'.symm.trans hroom)).2]
  · rwa [← (Prod.mk.inj (h'.symm.trans hroom)).2]
  · rw [← (Prod.mk.inj (h'.symm.trans hroom)).2]
    exact h.erase (h.uri_ne hm hu)

lemma admits (h : PinnedIn uri c) (hne : md.uri ≠ uri) (hd : w.Admits c md cache') :
    PinnedIn uri cache' := by
  cases hd with
  | refused => exact h
  | failed hroom => exact h.noRoom hroom
  | added hroom hentry =>
    refine (h.noRoom hroom).set ?_
    rwa [CacheEntry.uri, md_of_newCacheEntry hentry]

lemma reloads (h : PinnedIn uri c) (hne : e.uri ≠ uri) (hr : w.Reloads c e cache') :
    PinnedIn uri cache' := by
  cases hr with
  | unhandled => exact h
  | failed herr => exact h.erase hne
  | reloaded hentry =>
    refine (h.erase hne).set ?_
    rwa [CacheEntry.uri, md_of_newCacheEntry hentry]

lemma fetches (h : PinnedIn uri c) {t : String} {a : Bool}
    (hr : ∀ url md e, w.resolvePath t a = .ok url →
      Outdated w.toManager c url md e → e.uri = uri → w.reloadOutdatedProjectOnRequest = false)
    (hf : w.Fetches c t a cache') : PinnedIn uri cache' := by
  cases hf with
  | keeps => exact h
  | reloads hurl hfound henabled he =>
    obtain ⟨md, ho⟩ := checkout_eq_needUpdate.1 hfound
    refine h.reloads (fun huri => ?_) he
    rw [hr _ md _ hurl ho huri] at henabled
    cases henabled
  | admits hurl hfound hadmits =>
    refine h.admits ?_ hadmits
    rintro rfl
    obtain ⟨e, hget, -⟩ := h
    rw [Manager.get?_of_checkout_new hfound] at hget
    cases hget

lemma getProject (h : PinnedIn uri c) {t : String} {a : Bool}
    (hr : ∀ url md e, w.resolvePath (Context.absolute t) a = .ok url →
      Outdated w.toManager c url md e → e.uri = uri → w.reloadOutdatedProjectOnRequest = false) :
    PinnedIn uri (w.getProject c t a).cache := by
  obtain ⟨cache', hf, hh | ⟨e, hh⟩⟩ := w.getProject_cache c t a
  · rw [hh]
    exact h.fetches hr hf
  · rw [hh]
    exact (h.fetches hr hf).mutate rfl id

lemma of_pinned {s : CheckoutStatus} (hget : c.get? e.uri = some e) :
    PinnedIn e.uri (w.pinned (.ok (e, s), c)).2 := by
  refine ⟨e.pin, ?_, rfl⟩
  rw [Context.pinned, get?_mutate rfl, if_pos ⟨rfl, hget⟩]

lemma pinned (u : Except CacheError (CacheEntry × CheckoutStatus) × Entries)
    (h : PinnedIn uri u.2) : PinnedIn uri (w.pinned u).2 := by
  rcases w.pinned_cases u with ⟨err, -, hh⟩ | ⟨e, s, -, hh⟩
  · rwa [hh]
  · rw [hh]
    exact h.mutate rfl fun _ => rfl

lemma pull (h : PinnedIn uri c) {url : Url} {f : Checkout}
    (hfound : w.checkout c url = .ok f)
    (hp : w.projectMetadata url ≠ .error (.fileNotFound uri))
    (hr : ∀ md e, Outdated w.toManager c url md e → e.uri = uri → ∃ p, w.project e.md = .ok p) :
    PinnedIn uri (w.pull c url f).2 := by
  cases f with
  | new md =>
    have hne : md.uri ≠ uri := by
      rintro rfl
      obtain ⟨e, hget, -⟩ := h
      rw [Manager.get?_of_checkout_new hfound] at hget
      cases hget
    rcases w.pull_new_cases c url md with hh | ⟨cache', hroom, hh⟩
    · rwa [hh]
    · rw [hh]
      exact pinned _ (h.admits hne (admits_update md hroom))
  | unchanged e => exact pinned _ h
  | needUpdate e =>
    have hm := mem_of_checkout hfound (.inl rfl)
    by_cases huri : e.uri = uri
    · obtain ⟨md, hl⟩ := checkout_eq_needUpdate.1 hfound
      obtain ⟨p, ho⟩ := hr md e hl huri
      rw [Context.pull]
      rcases w.update_needUpdate_cases hm with he | ⟨err, her, -⟩ | ⟨n, hentry, he⟩
      · rw [he]
        exact h
      · rw [Manager.newCacheEntry, ho] at her
        cases her
      · have hn := (congrArg ProjectMetadata.uri (md_of_newCacheEntry hentry)).trans huri
        rw [he, ← hn]
        refine of_pinned ?_
        rw [Dict.get?_set, if_pos rfl]
    · exact pinned _ (h.reloads huri (reloads_update hm))
  | removed e =>
    have hm := mem_of_checkout hfound (.inr (.inr rfl))
    rw [Context.pull, update_removed hm]
    refine h.erase ?_
    rintro rfl
    exact hp (gone_of_checkout_removed hfound)
  | notFound => exact h

lemma updateCache (h : PinnedIn uri c)
    (hp : ∀ md, md.uri = uri → ∀ g, w.refreshMetadata md ≠ .error (.fileNotFound g))
    (hr : ∀ e ∈ c.items, e.uri = uri → ∀ md, w.refreshMetadata e.md = .ok md →
      md.lastModified ≤ e.md.lastModified) : PinnedIn uri (w.toManager.updateCache c).2 := by
  obtain ⟨pinned, hget, hi⟩ := h
  obtain ⟨hme, huri⟩ := Dict.get?_eq_some hget
  refine ⟨pinned, ?_, hi⟩
  -- the loop may replace other entries, but this one is the same until it is its turn
  refine Dict.forItems_invariant (P := fun d => d.get? uri = some pinned) ?_ hget
  intro e d he hd
  have hl (heq : e.uri = uri) : e = pinned := by
    have hm := (Dict.get?_eq_some hd).1
    exact Dict.eq_of_key_eq he hm (heq.trans huri.symm)
  rcases w.updateEntry_cases he with hca | ⟨⟨g, hgone⟩, hca⟩ | ⟨md, hmd, hlt, hca⟩
  · rwa [hca]
  · have hne : e.uri ≠ uri := fun heq => hp e.md heq g hgone
    rw [hca, Dict.get?_erase, if_neg hne.symm, hd]
  · have hne : e.uri ≠ uri := by
      intro heq
      have hle := hr pinned hme huri md (hl heq ▸ hmd)
      exact absurd (hl heq ▸ hlt) (not_lt.2 hle)
    rcases hca with hca | ⟨n, -, hentry, hca⟩
    · rw [hca, Dict.get?_erase, if_neg hne.symm, hd]
    · have hn : uri ≠ n.uri := hentry ▸ hne.symm
      rw [hca, Dict.get?_set, if_neg hn, Dict.get?_erase, if_neg hne.symm, hd]

lemma effect (h : PinnedIn uri c) {op : Operation} (hl : w.Leaves c uri op)
    (hr : w.Careful c uri op) (he : w.Effect c op cache') : PinnedIn uri cache' := by
  cases he with
  | keeps => exact h
  | requests => exact h.getProject hr
  | collects => exact h.getProject fun url md e _ => hr url md e
  | pulls hp =>
    obtain ⟨hurl, hfound⟩ := checkoutPath_eq_ok.1 hp
    exact h.pull hfound (hl.present _) fun md e => hr _ md e hurl
  | drops hp hfound => exact h.erase (hl.dropped _ rfl _ _ _ hp hfound)
  | clears => exact absurd rfl hl.cleared
  | updates => exact h.updateCache hl.refreshed hr

lemma of_obtains {s : State} {p : String} (h : w.Obtains s.cache p uri) :
    PinnedIn uri (w.checkoutProject s p true).state.cache := by
  cases h with
  | unchanged hp huri =>
    have hm := mem_of_checkout (checkoutPath_eq_ok.1 hp).2 (.inr (.inl rfl))
    rw [checkoutProject_cache hp, Context.pull, ← huri]
    exact of_pinned (Dict.get?_of_mem hm)
  | @reloaded url e n hp huri hscheme hentry =>
    have hm := mem_of_checkout (checkoutPath_eq_ok.1 hp).2 (.inl rfl)
    have hu : w.update s.cache e.md .NEEDUPDATE =
        (.ok (n, .UPDATED), (s.cache.erase e.uri).set n) := by
      rw [Manager.update, if_pos hscheme, Manager.reload, deleteCacheEntry_of_mem hm]
      simp only [Manager.load, hentry]
      rfl
    have he := (congrArg ProjectMetadata.uri (md_of_newCacheEntry hentry)).trans huri
    rw [checkoutProject_cache hp, Context.pull, hu, ← he]
    exact of_pinned (by rw [Dict.get?_set, if_pos rfl])
  | @added url md cache' n hp huri hroom hscheme hentry =>
    have hu : w.update cache' md .NEW = (.ok (n, .NEW), cache'.set n) := by
      rw [Manager.update, if_pos hscheme]
      simp only [Manager.load, hentry]
      rfl
    have he := (congrArg ProjectMetadata.uri (md_of_newCacheEntry hentry)).trans huri
    rw [checkoutProject_cache hp, Context.pull, hroom, ← he]
    simp only [hu]
    exact of_pinned (by rw [Dict.get?_set, if_pos rfl])

lemma safe {s : State} (h : PinnedIn uri s.cache) : Safe uri s where
  pinned := h
  evicted := by
    intro w e he
    obtain ⟨hm, hu⟩ := unpinned_of_evicted he
    exact h.uri_ne hm hu

end PinnedIn

/-- A project that was pulled stays pinned, however long the worker runs, as long as it is in the
storage and is not dropped, if no message but a pull loads it again. -/
theorem always_safe_of_careful (w : Context) (s : State) (path uri : String)
    (hobtains : w.Obtains s.cache path uri) (events : List Event) (hcareful : Along Event.step
      (fun s e => e.worker.Leaves s.cache uri e.operation ∧ e.worker.Careful s.cache uri e.operation)
      (w.perform s (.query (.checkoutProject path true))).state events) :
    Always Event.step (Safe uri) (w.perform s (.query (.checkoutProject path true))).state events := by
  refine always_of_along ?_ (PinnedIn.of_obtains hobtains).safe hcareful
  rintro s e t hf ⟨hl, hcareful⟩ ⟨⟩
  exact (hf.pinned.effect hl hcareful (e.worker.effect_perform s e.operation)).safe

lemma mapWorker_obtains : (mapWorker 1 2).Obtains .empty "/srv/map.qgs" "/srv/map.qgs" := by
  have hp : (mapWorker 1 2).checkoutPath .empty "/srv/map.qgs" =
      .ok (validateUrl (.ofText "/srv/map.qgs".toList), .new (mapMetadata 1)) := by
    decide +kernel
  have hentry : (mapWorker 1 2).newCacheEntry (mapMetadata 1) =
      .ok { mapEntry with timestamp := 2 } := rfl
  exact .added hp rfl (by rw [Context.noRoom, if_neg (by decide)]) (by decide) hentry

theorem always_safe_kept_file : Always Event.step (Safe "/srv/map.qgs")
      ((mapWorker 1 2).perform { cache := .empty, catalog := [] }
        (.query (.checkoutProject "/srv/map.qgs" true))).state
      [⟨{ mapWorker 3 4 with reloadOutdatedProjectOnRequest := false },
        .request .ows "/srv/map.qgs" false⟩] := by
  refine always_safe_of_careful _ _ _ _ mapWorker_obtains _ ?_
  rintro t ⟨⟩
  exact ⟨⟨⟨nofun, nofun, nofun, nofun⟩, fun _ _ _ _ _ _ => rfl⟩, trivial⟩

/-- The pulled file changes and is requested: the entry that replaces the pinned one is not pinned. -/
theorem not_always_safe_reloaded_file :
    let pulled := ((mapWorker 1 2).perform { cache := .empty, catalog := [] }
      (.query (.checkoutProject "/srv/map.qgs" true))).state
    let requested : Event := ⟨mapWorker 3 4, .request .ows "/srv/map.qgs" false⟩
    (mapWorker 1 2).Obtains .empty "/srv/map.qgs" "/srv/map.qgs" ∧
      requested.worker.Leaves pulled.cache "/srv/map.qgs" requested.operation ∧
      ¬ Always Event.step (Safe "/srv/map.qgs") pulled [requested] := by
  refine ⟨mapWorker_obtains, ⟨nofun, nofun, nofun, nofun⟩, ?_⟩
  rintro ⟨-, h⟩
  obtain ⟨e, hget, hp⟩ := (h _ rfl).pinned
  have hr : ((mapWorker 3 4).perform ((mapWorker 1 2).perform { cache := .empty, catalog := [] }
        (.query (.checkoutProject "/srv/map.qgs" true))).state
      (.request .ows "/srv/map.qgs" false)).state.cache.get? "/srv/map.qgs" =
      some { mapEntry with timestamp := 4, lastHit := 4, hits := 1 } := by
    decide +kernel
  cases hr.symm.trans hget
  cases hp

end QJazz.Rpc
