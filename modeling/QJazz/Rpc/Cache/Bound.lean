import QJazz.Rpc.Cache.Refresh

/-! A project is added to a cache with fewer projects than `max_projects`, after the eviction of an
entry that is not pinned if there is no room. -/
namespace QJazz.Rpc

open Cache Worker Transition Python.Dict Manager

namespace Worker.Context

variable {w : Context} {cache cache' : Entries} {e : CacheEntry} {md : ProjectMetadata}

lemma length_lt_of_noRoom (hle : (cache.length : ℤ) ≤ w.maxProjects)
    (h : w.noRoom cache = (.ok false, cache')) : (cache'.length : ℤ) < w.maxProjects := by
  rcases w.noRoom_cases cache with ⟨r, h', hr⟩ | ⟨h', hlt⟩ | ⟨e, hm, -, h'⟩
  · exact absurd (Prod.mk.inj (h'.symm.trans h)).1 hr
  · rw [← (Prod.mk.inj (h'.symm.trans h)).2]
    exact hlt
  · rw [← (Prod.mk.inj (h'.symm.trans h)).2]
    have hlt := length_erase_lt hm
    omega

lemma length_of_admits (hle : (cache.length : ℤ) ≤ w.maxProjects)
    (h : w.Admits cache md cache') : (cache'.length : ℤ) ≤ w.maxProjects := by
  cases h with
  | refused => exact hle
  | failed hroom => exact (length_lt_of_noRoom hle hroom).le
  | @added cache' n hroom hentry =>
    have hlt := length_lt_of_noRoom hle hroom
    have he := cache'.length_set_le n
    omega

lemma length_of_reloads (hm : e ∈ cache.items) (h : w.Reloads cache e cache') :
    cache'.length ≤ cache.length := by
  have hlt := length_erase_lt hm
  cases h with
  | unhandled => exact le_rfl
  | failed herr => exact hlt.le
  | @reloaded n hentry => exact ((cache.erase e.uri).length_set_le n).trans hlt

lemma length_of_fetches {t : String} {a : Bool}
    (hle : (cache.length : ℤ) ≤ w.maxProjects) (h : w.Fetches cache t a cache') :
    (cache'.length : ℤ) ≤ w.maxProjects := by
  cases h with
  | keeps => exact hle
  | reloads hurl hfound henabled hr =>
    have hl := length_of_reloads (mem_of_checkout hfound (.inl rfl)) hr
    omega
  | admits hurl hfound hadmits => exact length_of_admits hle hadmits

lemma length_getProject {t : String} {a : Bool} (hle : (cache.length : ℤ) ≤ w.maxProjects) :
    ((w.getProject cache t a).cache.length : ℤ) ≤ w.maxProjects := by
  obtain ⟨cache', hf, hh | ⟨e, hh⟩⟩ := w.getProject_cache cache t a
  · rw [hh]
    exact length_of_fetches hle hf
  · rw [hh, length_mutate rfl]
    exact length_of_fetches hle hf

lemma length_pinned (u : Except CacheError (CacheEntry × CheckoutStatus) × Entries) :
    (w.pinned u).2.length = u.2.length := by
  rcases w.pinned_cases u with ⟨err, -, h⟩ | ⟨e, s, -, h⟩
  · rw [h]
  · rw [h, length_mutate rfl]

lemma pull_new_cases (w : Context) (cache : Entries) (url : Lexical.Url) (md : ProjectMetadata) :
    (w.pull cache url (.new md)).2 = cache ∨ ∃ cache', w.noRoom cache = (.ok false, cache') ∧
        (w.pull cache url (.new md)).2 = (w.pinned (w.update cache' md .NEW)).2 := by
  rw [pull]
  split
  next hroom => exact Or.inl (cache_of_noRoom hroom (by simp))
  next hroom => exact Or.inl (cache_of_noRoom hroom (by simp))
  next cache' hroom => exact Or.inr ⟨cache', hroom, rfl⟩

lemma length_pull {url : Lexical.Url} {f : Checkout} (hfound : w.checkout cache url = .ok f)
    (hle : (cache.length : ℤ) ≤ w.maxProjects) :
    ((w.pull cache url f).2.length : ℤ) ≤ w.maxProjects := by
  cases f with
  | new md =>
    rcases w.pull_new_cases cache url md with h | ⟨cache', hroom, h⟩
    · rwa [h]
    · rw [h, length_pinned]
      exact length_of_admits hle (admits_update md hroom)
  | unchanged e =>
    rw [pull, length_pinned]
    exact hle
  | needUpdate e =>
    have hm := mem_of_checkout hfound (.inl rfl)
    have hl := length_of_reloads hm (reloads_update (w := w) hm)
    rw [pull, length_pinned]
    omega
  | removed e =>
    have hm := mem_of_checkout hfound (.inr (.inr rfl))
    have hl := cache.length_erase_le e.uri
    rw [pull, update_removed hm]
    show ((cache.erase e.uri).length : ℤ) ≤ w.maxProjects
    omega
  | notFound => exact hle

lemma length_updateEntry (h : e ∈ cache.items) :
    (w.updateEntry e cache).2.length ≤ cache.length := by
  have hlt := length_erase_lt h
  rcases w.updateEntry_cases h with h' | ⟨-, h'⟩ | ⟨md, -, -, h' | ⟨n, -, -, h'⟩⟩
  · exact h'.symm ▸ le_rfl
  · exact h'.symm ▸ hlt.le
  · exact h'.symm ▸ hlt.le
  · rw [h']
    exact ((cache.erase e.uri).length_set_le n).trans hlt

lemma length_of_effect {op : Operation} (hle : (cache.length : ℤ) ≤ w.maxProjects)
    (hm : 0 ≤ w.maxProjects) (h : w.Effect cache op cache') :
    (cache'.length : ℤ) ≤ w.maxProjects := by
  cases h with
  | keeps => exact hle
  | requests | collects => exact length_getProject hle
  | pulls hpath => exact length_pull (checkoutPath_eq_ok.1 hpath).2 hle
  | @drops uri url f e hpath hfound =>
    have hl := cache.length_erase_le e.uri
    omega
  | clears => exact hm
  | updates =>
    refine forItems_invariant (P := fun d => (d.length : ℤ) ≤ w.maxProjects) ?_ hle
    intro e cache he hle
    have hl := length_updateEntry (w := w) he
    omega

/-- The reply to a request of a new project that does not get in. -/
abbrev maxObjects : Reply := .failure 409 "Max object reached on server"

/-- The message asks for a new project and is refused since the cache is full. The text of an
exception is no refusal. -/
def Refused (w : Context) (s : State) : Operation → Prop
  | .request protocol target direct => maxObjects ∈ (w.handleRequest s protocol target direct).sent
  | .query (.collections msg) => maxObjects ∈ (w.handleCollection s msg).sent
  | .query (.checkoutProject uri true) =>
    ∃ url found, w.checkoutPath s.cache uri = .ok (url, found) ∧
      (w.pull s.cache url found).1 = .ok (.failure 403 "Max object reached on server")
  | .query _ => False

/-- A message for a full cache: if it is refused, the cache stays as it is, and what is evicted for it
is not pinned. -/
structure Fair (w : Context) (s : State) (op : Operation) : Prop where
  refused : w.Refused s op → (w.perform s op).state.cache = s.cache
  evicted : ∀ e, (w.evictByPopularity s.cache).1 = .ok (some e) → e.pinned = false
  spared : ∀ e ∈ s.cache.items, e.pinned = true → e ∈ (w.evictByPopularity s.cache).2.items

lemma tryRequest_of_refused {t : String} {a : Bool}
    (h : maxObjects ∈ (w.tryRequest cache t a).sent) : (w.tryRequest cache t a).cache = cache ∧
      (w.tryRequest cache t a).entry = none := by
  revert h
  rw [tryRequest]
  split
  · simp
  next url hurl =>
    split
    · simp
    next e hfound =>
      split
      · split <;> simp
      · simp
    · simp
    next md hfound =>
      split
      · split
        · simp
        next cache' hroom => exact fun _ => ⟨cache_of_noRoom hroom (by simp), rfl⟩
        · split <;> simp
      · simp
    · simp
    · simp

lemma recover_of_refused {r : Requested} (h : maxObjects ∈ r.recover.sent) :
    maxObjects ∈ r.sent ∧ r.recover.cache = r.cache ∧ r.recover.entry = r.entry := by
  rw [Requested.recover] at h ⊢
  split at h
  next p hr =>
    obtain ⟨err, -, he⟩ := Option.bind_eq_some_iff.1 hr
    rcases List.mem_append.1 h with h | h
    · exact ⟨h, rfl, rfl⟩
    · exact absurd (List.mem_singleton.1 h).symm (by cases err <;> cases he <;> simp)
  · exact ⟨h, rfl, rfl⟩

lemma serve_of_no_entry {r : Requested} (h : r.entry = none) : w.serve r = r := by
  rw [serve, h]
  cases r.raised <;> rfl

lemma serve_sent (r : Requested) : (w.serve r).sent = r.sent := by
  rw [serve]
  split
  · split <;> rfl
  · rfl

lemma getProject_of_refused {t : String} {a : Bool}
    (h : maxObjects ∈ (w.getProject cache t a).sent) : (w.getProject cache t a).cache = cache := by
  rw [getProject, serve_sent, requestProjectFromCache] at h
  obtain ⟨he, hh, hentry⟩ := recover_of_refused h
  obtain ⟨hk, hn⟩ := tryRequest_of_refused he
  rw [getProject, requestProjectFromCache, serve_of_no_entry (hentry.trans hn), hh, hk]

lemma sendLayers_of_refused {c : Ogc.Catalog} {msg : CollectionsMsg}
    {p : Ogc.CatalogItem} {t : String} {a : Bool}
    (h : maxObjects ∈ (w.sendLayers c msg p (w.getProject cache t a)).sent) :
    (w.sendLayers c msg p (w.getProject cache t a)).state.cache = cache := by
  revert h
  rw [sendLayers]
  split
  · exact getProject_of_refused
  · exact getProject_of_refused
  next e hr hentry =>
    rw [ofReply_state]
    intro h
    refine getProject_of_refused ?_
    rcases List.mem_append.1 h with h | h
    · exact h
    · generalize w.layerItems msg e.project p = items at h
      cases items <;> simp [page, Outcome.ofReply, Except.map] at h

lemma handleCollection_of_refused {s : State} {msg : CollectionsMsg}
    (h : maxObjects ∈ (w.handleCollection s msg).sent) :
    (w.handleCollection s msg).state.cache = s.cache := by
  have ht : (w.handleCatalog s msg).state.cache = s.cache := by
    rw [handleCatalog]
    split
    · rw [ofReply_state]
    · split
      · rfl
      · rw [ofReply_state]
  have hl (l : String) (h : maxObjects ∈ (w.handleLayers s msg l).sent) :
      (w.handleLayers s msg l).state.cache = s.cache := by
    revert h
    rw [handleLayers]
    split
    · exact fun _ => rfl
    · split
      · exact fun _ => rfl
      · split
        · exact fun _ => rfl
        · exact fun _ => rfl
        · exact sendLayers_of_refused
  revert h
  rw [handleCollection]
  split
  · exact fun _ => ht
  · split
    · exact fun _ => ht
    · exact hl _

lemma pull_of_refused {url : Lexical.Url} {f : Checkout} {s : ℤ} {t : String}
    (h : (w.pull cache url f).1 = .ok (.failure s t)) : (w.pull cache url f).2 = cache := by
  have hp (u : Except CacheError (CacheEntry × CheckoutStatus) × Entries) :
      (w.pinned u).1 ≠ .ok (.failure s t) := by
    rcases u with ⟨err | ⟨e, s⟩, cache⟩
    · nofun
    · rw [pinned]
      generalize w.cacheInfoFromEntry e.pin s true = info
      cases info <;> simp [Except.map]
  revert h
  cases f with
  | new md =>
    rw [pull]
    split
    · simp
    next cache' hroom => exact fun _ => cache_of_noRoom hroom (by simp)
    · exact fun h => absurd h (hp _)
  | unchanged e | needUpdate e => exact fun h => absurd h (hp _)
  | removed e =>
    rw [pull]
    split
    next e s cache' hu =>
      generalize w.cacheInfoFromEntry e s false = info
      cases info <;> simp [Except.map]
    · simp
  | notFound => exact fun _ => rfl

lemma handleRequest_of_refused {s : State} {p : Protocol} {t : String} {d : Bool}
    (h : maxObjects ∈ (w.handleRequest s p t d).sent) :
    (w.handleRequest s p t d).state.cache = s.cache := by
  revert h
  rw [handleRequest.eq_def]
  split
  · cases p <;> exact fun _ => rfl
  · exact getProject_of_refused

lemma fair (w : Context) (s : State) (op : Operation) : w.Fair s op where
  refused := by
    intro h
    cases op with
    | request r t d => exact handleRequest_of_refused h
    | query q =>
      cases q with
      | checkoutProject uri p =>
        cases p with
        | true =>
          obtain ⟨url, f, ht, hr⟩ := h
          exact (checkoutProject_cache ht).trans (pull_of_refused hr)
        | false => cases h
      | collections msg => exact handleCollection_of_refused h
      | _ => cases h
  evicted := fun e h => (unpinned_of_evicted h).2
  spared := by
    intro e he hp
    rcases w.evictByPopularity_cases s.cache with ⟨err, h⟩ | h | ⟨e', hm, hi, h⟩
    · rwa [h]
    · rwa [h]
    · rw [h, items_erase, List.mem_filter]
      refine ⟨he, decide_eq_true fun huri => ?_⟩
      rw [eq_of_key_eq he hm huri, hi] at hp
      cases hp

end Worker.Context

/-- Started with at most one project, the cache never has more than `maxProjects` projects, however
long the worker runs and whatever happens to the storage. A refused message changes nothing, and
nothing pinned is evicted. -/
theorem always_bounded (maxProjects : ℤ) (hmax : 1 ≤ maxProjects) (s : State)
    (hs : s.cache.length ≤ 1) (events : List Event)
    (hfixed : ∀ e ∈ events, e.worker.maxProjects = maxProjects) :
    Always Event.step (fun s => (s.cache.length : ℤ) ≤ maxProjects) s events ∧
      Along Event.step (fun s e => e.worker.Fair s e.operation) s events := by
  have ht : (s.cache.length : ℤ) ≤ maxProjects := by omega
  constructor
  · refine always_of_along ?_ ht (along_of_forall fun e he _ => hfixed e he)
    rintro s e t hle hw ⟨⟩
    rw [← hw] at hle ⊢
    exact Context.length_of_effect hle (by omega) (e.worker.effect_perform s e.operation)
  · exact along_of_forall fun e _ s => e.worker.fair s e.operation

theorem always_bounded_one_project : let events : List Event :=
      [⟨{ mapWorker 1 2 with maxProjects := 1 }, .request .ows "/srv/map.qgs" false⟩,
        ⟨{ mapWorker 3 4 with maxProjects := 1 }, .query (.checkoutProject "/srv/map.qgs" true)⟩]
    Always Event.step (fun s => (s.cache.length : ℤ) ≤ 1) { cache := .empty, catalog := [] } events ∧
      Along Event.step (fun s e => e.worker.Fair s e.operation) { cache := .empty, catalog := [] }
        events := by
  refine always_bounded 1 le_rfl _ (by decide) _ ?_
  intro e he
  rcases List.mem_pair.1 he with rfl | rfl <;> rfl

end QJazz.Rpc
