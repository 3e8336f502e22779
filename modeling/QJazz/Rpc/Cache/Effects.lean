import QJazz.Rpc.Replies.Handlers
import QJazz.Transition.Run

/-! For each handler the cache that it leaves is told here once. -/
namespace QJazz.Rpc

open Cache Worker

inductive Protocol where
  | ows
  | api
deriving DecidableEq

/-- A message with an effect on the cache, or one about it. The target of a request is that of the
message, or else the file of `QGIS_PROJECT_FILE`. -/
inductive Operation where
  | request (protocol : Protocol) (target : String) (direct : Bool)
  | query (q : Query)

namespace Worker.Context

def handleRequest (w : Context) (s : State) (protocol : Protocol) (target : String) (direct : Bool) :
    Outcome :=
  if target = "" then
    match protocol with
    | .ows => { state := s, sent := [.failure 400 "Missing project"] }
    | .api => { state := s }
  else
    let r := w.getProject s.cache target direct
    { state := { s with cache := r.cache }, sent := r.sent, raised := r.raised }

def perform (w : Context) (s : State) : Operation → Outcome
  | .request protocol target direct => w.handleRequest s protocol target direct
  | .query q => w.handle s q

end Worker.Context

structure Event where
  worker : Context
  operation : Operation

def Event.step (s : State) (e : Event) : Option State := some (e.worker.perform s e.operation).state

section Mutate

variable {f : CacheEntry → CacheEntry} {cache : Entries} {e : CacheEntry}

lemma get?_mutate (hf : (f e).uri = e.uri) (uri : String) : (mutate f cache e).get? uri =
      if uri = e.uri ∧ cache.get? uri = some e then some (f e) else cache.get? uri := by
  rw [mutate]
  split
  next h =>
    rw [Python.Dict.get?_set, hf]
    by_cases huri : uri = e.uri
    · simp [huri, h]
    · simp [huri]
  next h =>
    rw [if_neg]
    rintro ⟨rfl, hget⟩
    exact h hget

lemma length_mutate (hf : (f e).uri = e.uri) : (mutate f cache e).length = cache.length := by
  rw [mutate]
  split
  next h =>
    refine Python.Dict.length_set_of_mem ?_
    rw [hf]
    exact List.mem_map_of_mem (Python.Dict.get?_eq_some h).1
  · rfl

end Mutate

namespace Worker.Context

variable {w : Context} {cache cache' : Entries}

lemma noRoom_cases (w : Context) (cache : Entries) :
    (∃ r, w.noRoom cache = (r, cache) ∧ r ≠ .ok false) ∨
      (w.noRoom cache = (.ok false, cache) ∧ cache.length < w.maxProjects) ∨
      ∃ e ∈ cache.items, e.pinned = false ∧ w.noRoom cache = (.ok false, cache.erase e.uri) := by
  rw [noRoom]
  split
  · rcases w.evictByPopularity_cases cache with ⟨err, h⟩ | h | ⟨e, hm, hp, h⟩
    · refine Or.inl ⟨.error err, ?_, nofun⟩
      rw [h]
      rfl
    · refine Or.inl ⟨.ok true, ?_, nofun⟩
      rw [h]
      rfl
    · refine Or.inr (Or.inr ⟨e, hm, hp, ?_⟩)
      rw [h]
      rfl
  next hroom => exact Or.inr (Or.inl ⟨rfl, not_le.1 hroom⟩)

lemma cache_of_noRoom {r : Except CacheError Bool} (h : w.noRoom cache = (r, cache'))
    (hr : r ≠ .ok false) : cache' = cache := by
  rcases w.noRoom_cases cache with ⟨r', h', -⟩ | ⟨h', -⟩ | ⟨e, -, -, h'⟩
  · exact (Prod.mk.inj (h.symm.trans h')).2
  · exact absurd (Prod.mk.inj (h.symm.trans h')).1 hr
  · exact absurd (Prod.mk.inj (h.symm.trans h')).1 hr

inductive Admits (w : Context) (cache : Entries) (md : ProjectMetadata) : Entries → Prop
  | refused : Admits w cache md cache
  | failed {cache' : Entries} (h : w.noRoom cache = (.ok false, cache')) : Admits w cache md cache'
  | added {cache' : Entries} {entry : CacheEntry} (h : w.noRoom cache = (.ok false, cache'))
      (hentry : w.newCacheEntry md = .ok entry) : Admits w cache md (cache'.set entry)

inductive Reloads (w : Context) (cache : Entries) (e : CacheEntry) : Entries → Prop
  | unhandled : Reloads w cache e cache
  | failed {err : CacheError} (h : w.newCacheEntry e.md = .error err) :
      Reloads w cache e (cache.erase e.uri)
  | reloaded {entry : CacheEntry} (h : w.newCacheEntry e.md = .ok entry) :
      Reloads w cache e ((cache.erase e.uri).set entry)

lemma reloads_update {e : CacheEntry} (h : e ∈ cache.items) :
    w.Reloads cache e (w.update cache e.md .NEEDUPDATE).2 := by
  rcases w.update_needUpdate_cases h with h | ⟨err, he, h⟩ | ⟨n, hentry, h⟩
  · rw [h]
    exact .unhandled
  · rw [h]
    exact .failed he
  · rw [h]
    exact .reloaded hentry

lemma admits_update (md : ProjectMetadata) (h : w.noRoom cache = (.ok false, cache')) :
    w.Admits cache md (w.update cache' md .NEW).2 := by
  rcases w.update_new_cases cache' md with ⟨err, h'⟩ | ⟨n, hentry, h'⟩
  · rw [h']
    exact .failed h
  · rw [h']
    exact .added h hentry

inductive Fetches (w : Context) (cache : Entries) (target : String) (allowDirect : Bool) :
    Entries → Prop
  | keeps : Fetches w cache target allowDirect cache
  | reloads {url : Lexical.Url} {e : CacheEntry} {cache' : Entries}
      (hurl : w.resolvePath target allowDirect = .ok url)
      (hfound : w.checkout cache url = .ok (.needUpdate e))
      (henabled : w.reloadOutdatedProjectOnRequest = true) (h : w.Reloads cache e cache') :
      Fetches w cache target allowDirect cache'
  | admits {url : Lexical.Url} {md : ProjectMetadata} {cache' : Entries}
      (hurl : w.resolvePath target allowDirect = .ok url)
      (hfound : w.checkout cache url = .ok (.new md)) (h : w.Admits cache md cache') :
      Fetches w cache target allowDirect cache'

lemma fetches_tryRequest (w : Context) (cache : Entries) (t : String) (a : Bool) :
    w.Fetches cache t a (w.tryRequest cache t a).cache := by
  rw [tryRequest]
  split
  · exact .keeps
  next url hurl =>
    split
    · exact .keeps
    next e hfound =>
      have hr := reloads_update (w := w) (w.mem_of_checkout hfound (.inl rfl))
      split
      next henabled =>
        split <;> rename_i hu <;> rw [hu] at hr <;>
          exact .reloads hurl hfound henabled hr
      · exact .keeps
    · exact .keeps
    next md hfound =>
      split
      · split
        next err cache' hroom =>
          rw [cache_of_noRoom hroom nofun]
          exact .keeps
        next cache' hroom =>
          rw [cache_of_noRoom hroom nofun]
          exact .keeps
        next cache' hroom =>
          have hd := admits_update md hroom
          split <;> rename_i hu <;> rw [hu] at hd <;> exact .admits hurl hfound hd
      · exact .keeps
    · exact .keeps
    · exact .keeps

lemma fetches_requestProjectFromCache (w : Context) (cache : Entries) (t : String) (a : Bool) :
    w.Fetches cache t a (w.requestProjectFromCache cache t a).cache := by
  rw [requestProjectFromCache, Requested.recover]
  split <;> exact w.fetches_tryRequest cache t a

lemma getProject_cache (w : Context) (cache : Entries) (t : String) (a : Bool) :
    ∃ cache', w.Fetches cache (absolute t) a cache' ∧ ((w.getProject cache t a).cache = cache' ∨
        ∃ e, (w.getProject cache t a).cache = mutate (CacheEntry.hitMe w.now) cache' e) := by
  refine ⟨_, w.fetches_requestProjectFromCache cache (absolute t) a, ?_⟩
  rw [getProject, serve]
  split
  · split
    · exact Or.inl rfl
    · exact Or.inr ⟨_, rfl⟩
  · exact Or.inl rfl

lemma pinned_cases (u : Except CacheError (CacheEntry × CheckoutStatus) × Entries) :
    (∃ err, u.1 = .error err ∧ (w.pinned u).2 = u.2) ∨ ∃ e t, u.1 = .ok (e, t) ∧
        (w.pinned u).2 = mutate CacheEntry.pin u.2 e := by
  rcases u with ⟨err | ⟨e, t⟩, cache⟩
  · exact Or.inl ⟨err, rfl, rfl⟩
  · exact Or.inr ⟨e, t, rfl, rfl⟩

inductive Effect (w : Context) (cache : Entries) : Operation → Entries → Prop
  | keeps {op : Operation} : Effect w cache op cache
  | requests {protocol : Protocol} {target : String} {direct : Bool} :
      Effect w cache (.request protocol target direct) (w.getProject cache target direct).cache
  | collects {msg : CollectionsMsg} {target : String} :
      Effect w cache (.query (.collections msg)) (w.getProject cache target false).cache
  | pulls {uri : String} {url : Lexical.Url} {found : Checkout}
      (h : w.checkoutPath cache uri = .ok (url, found)) :
      Effect w cache (.query (.checkoutProject uri true)) (w.pull cache url found).2
  | drops {uri : String} {url : Lexical.Url} {found : Checkout} {e : CacheEntry}
      (h : w.checkoutPath cache uri = .ok (url, found))
      (hfound : found = .needUpdate e ∨ found = .unchanged e ∨ found = .removed e) :
      Effect w cache (.query (.dropProject uri)) (cache.erase e.uri)
  | clears : Effect w cache (.query .clearCache) .empty
  | updates : Effect w cache (.query .updateCache) (w.toManager.updateCache cache).2

variable {s : State}

lemma catching_state (c : CacheError → Option Reply) (o : Outcome) :
    (o.catching c).state = o.state := by
  rw [Outcome.catching]
  split <;> rfl

lemma ofReply_state (r : Except CacheError Reply) : (Outcome.ofReply s r).state = s := by
  cases r <;> rfl

lemma stream_state (i : List (Except CacheError (Body Worker.ProjectInfo))) :
    (Outcome.stream s i).state = s := by
  induction i with
  | nil => rfl
  | cons t i ih =>
    cases t with
    | ok b => exact ih
    | error e => rfl

lemma checkoutProject_cache {uri : String} {url : Lexical.Url} {o : Checkout}
    (h : w.checkoutPath s.cache uri = .ok (url, o)) :
    (w.checkoutProject s uri true).state.cache = (w.pull s.cache url o).2 := by
  rw [checkoutProject, catching_state, h]
  exact congrArg State.cache (ofReply_state _)

lemma effect_checkoutProject (uri : String) (p : Bool) :
    w.Effect s.cache (.query (.checkoutProject uri p)) (w.checkoutProject s uri p).state.cache := by
  cases p with
  | false =>
    rw [checkoutProject, catching_state]
    split
    · exact .keeps
    · rw [if_neg (by decide), ofReply_state]
      exact .keeps
  | true =>
    cases hp : w.checkoutPath s.cache uri with
    | error e =>
      rw [checkoutProject, catching_state, hp]
      exact .keeps
    | ok o =>
      rw [checkoutProject_cache hp]
      exact .pulls hp

lemma effect_dropProject (uri : String) :
    w.Effect s.cache (.query (.dropProject uri)) (w.dropProject s uri).state.cache := by
  have hd {url : Lexical.Url} {o : Checkout} {e : CacheEntry}
      (hp : w.checkoutPath s.cache uri = .ok (url, o))
      (hfound : o = .needUpdate e ∨ o = .unchanged e ∨ o = .removed e) :
      w.Effect s.cache (.query (.dropProject uri)) (w.update s.cache e.md .REMOVED).2 := by
    rw [Manager.update_removed (Manager.mem_of_checkout (checkoutPath_eq_ok.1 hp).2 hfound)]
    exact .drops hp hfound
  rw [dropProject]
  split
  · exact .keeps
  next url e hp =>
    rw [ofReply_state]
    exact hd hp (.inl rfl)
  next url e hp =>
    rw [ofReply_state]
    exact hd hp (.inr (.inl rfl))
  next url e hp =>
    rw [ofReply_state]
    exact hd hp (.inr (.inr rfl))
  · rw [ofReply_state]
    exact .keeps

lemma effect_handleCollection (msg : CollectionsMsg) :
    w.Effect s.cache (.query (.collections msg)) (w.handleCollection s msg).state.cache := by
  have ht : w.Effect s.cache (.query (.collections msg)) (w.handleCatalog s msg).state.cache := by
    rw [handleCatalog]
    split
    · rw [ofReply_state]
      exact .keeps
    · split
      · exact .keeps
      · rw [ofReply_state]
        exact .keeps
  have hl (l : String) :
      w.Effect s.cache (.query (.collections msg)) (w.handleLayers s msg l).state.cache := by
    rw [handleLayers]
    split
    · exact .keeps
    · split
      · exact .keeps
      · split
        · exact .keeps
        · exact .keeps
        · rw [sendLayers]
          split
          · exact .collects
          · exact .collects
          · simp only [ofReply_state]
            exact .collects
  rw [handleCollection]
  split
  · exact ht
  · split
    · exact ht
    · exact hl _

lemma effect_perform (w : Context) (s : State) (op : Operation) :
    w.Effect s.cache op (w.perform s op).state.cache := by
  cases op with
  | request p t d =>
    by_cases ht : t = ""
    · have he : (w.handleRequest s p t d).state = s := by
        rw [handleRequest.eq_def, if_pos ht]
        cases p <;> rfl
      rw [perform, he]
      exact .keeps
    · rw [perform, handleRequest.eq_def, if_neg ht]
      exact .requests
  | query q =>
    cases q with
    | checkoutProject uri u => exact effect_checkoutProject uri u
    | dropProject uri => exact effect_dropProject uri
    | clearCache => exact .clears
    | listCache a =>
      rw [perform, handle, sendCacheList, stream_state]
      exact .keeps
    | updateCache =>
      rw [perform, handle, updateCache, ofReply_state]
      exact .updates
    | projectInfo uri =>
      rw [perform, handle, sendProjectInfo, catching_state]
      split
      · exact .keeps
      · rw [ofReply_state]
        exact .keeps
    | catalog l =>
      rw [perform, handle, sendCatalog, stream_state]
      exact .keeps
    | collections msg => exact effect_handleCollection msg

end Worker.Context
end QJazz.Rpc
