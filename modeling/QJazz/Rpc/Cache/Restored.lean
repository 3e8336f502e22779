import QJazz.Cache.Sweep
import QJazz.Pool.Restore.Reach
import QJazz.Rpc.Cache.Bound

/-! The messages of a restore as the worker handles them, and what they do to the entry of one
project: whether there is one, and whether its copy of the project is as recent as the storage was
at a given time. -/
namespace QJazz.Cache

open Lexical Python

inductive Manager.Finds (cm : Manager) (cache : Entries) (url : Url) : String → Checkout → Prop
  | new {md : ProjectMetadata} (hmd : cm.projectMetadata url = .ok md)
      (hget : cache.get? md.uri = none) : Finds cm cache url md.uri (.new md)
  | needUpdate {md : ProjectMetadata} {e : CacheEntry} (hmd : cm.projectMetadata url = .ok md)
      (hget : cache.get? md.uri = some e) (hlt : e.md.lastModified < md.lastModified) :
      Finds cm cache url md.uri (.needUpdate e)
  | unchanged {md : ProjectMetadata} {e : CacheEntry} (hmd : cm.projectMetadata url = .ok md)
      (hget : cache.get? md.uri = some e) (hle : md.lastModified ≤ e.md.lastModified) :
      Finds cm cache url md.uri (.unchanged e)
  | removed {uri : String} {e : CacheEntry} (hgone : cm.projectMetadata url = .error (.fileNotFound uri))
      (hget : cache.get? uri = some e) : Finds cm cache url uri (.removed e)
  | notFound {uri : String} (hgone : cm.projectMetadata url = .error (.fileNotFound uri))
      (hget : cache.get? uri = none) : Finds cm cache url uri .notFound

namespace Manager
variable {cm : Manager} {cache : Entries} {url : Url} {found : Checkout} {key : String}

lemma exists_finds (h : cm.checkout cache url = .ok found) : ∃ key, cm.Finds cache url key found := by
  rw [checkout] at h
  split at h
  · split at h
    next md hmd =>
      split at h
      next e hget =>
        split at h
        next hlt =>
          cases h
          exact ⟨_, .needUpdate hmd hget hlt⟩
        next hle =>
          cases h
          exact ⟨_, .unchanged hmd hget (not_lt.1 hle)⟩
      next hget =>
        cases h
        exact ⟨_, .new hmd hget⟩
    next uri hgone =>
      split at h
      next e hget =>
        cases h
        exact ⟨_, .removed hgone hget⟩
      next hget =>
        cases h
        exact ⟨_, .notFound hgone hget⟩
    · cases h
  · cases h

/-- The uri under which the cache has the project of an url, if the storage can tell. -/
def keyAt (cm : Manager) (url : Url) : Option String :=
  match cm.projectMetadata url with
  | .ok md => some md.uri
  | .error (.fileNotFound uri) => some uri
  | .error (.raised _) => none

lemma Finds.keyAt (h : cm.Finds cache url key found) : cm.keyAt url = some key := by
  cases h <;> simp [Manager.keyAt, *]

end Manager
end QJazz.Cache

namespace QJazz.Rpc

open Cache Config Lexical Pool Python Worker

/-- A worker process, and the number of messages it has handled. The storage, the clock and the
configuration may be different at each of them. -/
structure Node where
  state : State
  time : ℕ := 0

def Outcome.Answered (o : Outcome) : Prop := o.raised = none ∧ ∃ body, o.sent = [.answer body]

instance (o : Outcome) : Decidable o.Answered :=
  decidable_of_iff (o.raised = none ∧ (match o.sent with | [.answer _] => true | _ => false) = true) <| by
    refine and_congr_right fun _ => ?_
    split
    next body h => simp [h]
    next h => simpa using fun body hbody => h body hbody

def Node.ask (world : ℕ → Context) (q : Query) (n : Node) : Option Node :=
  if ((world n.time).perform n.state (.query q)).Answered then
    some ⟨((world n.time).perform n.state (.query q)).state, n.time + 1⟩
  else none

/-- The message loop, for the messages of a restore. A configuration that the worker accepts has no
effect on its cache. -/
def Node.exec (world : ℕ → Context) (accepts : ℕ → Document → Bool) :
    WorkerCall → Node → Option Node
  | .putConfig config, n => if accepts n.time config then some { n with time := n.time + 1 } else none
  | .checkoutProject uri pull, n => n.ask world (.checkoutProject uri pull)
  | .dropProject uri, n => n.ask world (.dropProject uri)
  | .updateCache, n => n.ask world .updateCache
  | .clearCache, n => n.ask world .clearCache

namespace Worker.Context
variable {w : Context} {s : State} {uri : String}

lemma answered_ofReply {r : Except CacheError Reply} :
    (Outcome.ofReply s r).Answered ↔ ∃ b, r = .ok (.answer b) := by
  cases r with
  | error e | ok p => simp [Outcome.ofReply, Outcome.Answered]

lemma answered_of_catching {o : Outcome} (h : (o.catching refusal).Answered) : o.Answered := by
  rw [Outcome.catching] at h
  split at h
  next r hr =>
    obtain ⟨-, body, he⟩ := h
    obtain ⟨err, -, her⟩ := Option.bind_eq_some_iff.1 hr
    have hl : r = .answer body := by simpa using congrArg List.getLast? he
    cases err <;> cases her <;> cases hl
  · exact h

lemma pull_of_answered (h : (w.checkoutProject s uri true).Answered) :
    ∃ url key found b, w.resolvePath uri true = .ok url ∧ w.Finds s.cache url key found ∧
      (w.pull s.cache url found).1 = .ok (.answer b) ∧
      (w.checkoutProject s uri true).state.cache = (w.pull s.cache url found).2 := by
  have hn := answered_of_catching h
  split at hn
  · simp [Outcome.Answered] at hn
  next url found hp =>
    obtain ⟨hurl, hfound⟩ := checkoutPath_eq_ok.1 hp
    obtain ⟨key, hf⟩ := Manager.exists_finds hfound
    obtain ⟨b, ho⟩ := answered_ofReply.1 hn
    exact ⟨url, key, found, b, hurl, hf, ho, checkoutProject_cache hp⟩

lemma get?_of_dropped (h : (w.dropProject s uri).Answered) :
    ∃ url key, w.resolvePath uri true = .ok url ∧ w.keyAt url = some key ∧ ∀ k,
      (w.dropProject s uri).state.cache.get? k = if k = key then none else s.cache.get? k := by
  have he {e : CacheEntry} {key : String} (hget : s.cache.get? key = some e) (k : String) :
      (w.update s.cache e.md .REMOVED).2.get? k = if k = key then none else s.cache.get? k := by
    obtain ⟨hm, huri⟩ := Dict.get?_eq_some hget
    rw [Manager.update_removed hm, Dict.get?_erase, ← huri]
    rfl
  have hn {key : String} (hget : s.cache.get? key = none) (k : String) :
      s.cache.get? k = if k = key then none else s.cache.get? k := by
    split
    next hk => rw [hk, hget]
    · rfl
  cases hp : w.checkoutPath s.cache uri with
  | error e => simp [dropProject, hp, Outcome.Answered] at h
  | ok p =>
    obtain ⟨url, found⟩ := p
    obtain ⟨hurl, hfound⟩ := checkoutPath_eq_ok.1 hp
    obtain ⟨key, hf⟩ := Manager.exists_finds hfound
    refine ⟨url, key, hurl, hf.keyAt, fun k => ?_⟩
    cases hf with
    | new hmd hget =>
      simp only [dropProject, hp, ofReply_state]
      exact hn hget k
    | needUpdate hmd hget hlt | unchanged hmd hget hle | removed hgone hget =>
      simp only [dropProject, hp, ofReply_state]
      exact he hget k
    | notFound hgone hget =>
      simp only [dropProject, hp, ofReply_state]
      exact hn hget k

end Worker.Context

def Cached (key : String) (Q : CacheEntry → Prop) (cache : Entries) : Prop :=
  ∀ e, cache.get? key = some e → Q e

namespace Cached
variable {w : Context} {key found uri : String} {Q : CacheEntry → Prop} {cache cache' : Entries}
  {e : CacheEntry} {md : ProjectMetadata}

lemma of_none (h : cache.get? key = none) : Cached key Q cache := by
  intro e he
  rw [h] at he
  cases he

lemma erase (h : uri ≠ key → Cached key Q cache) : Cached key Q (cache.erase uri) := by
  intro e he
  rw [Dict.get?_erase] at he
  split at he
  · cases he
  next hne => exact h (Ne.symm hne) e he

lemma set (h : Cached key Q cache) (he : e.uri = key → Q e) : Cached key Q (cache.set e) := by
  intro e' he'
  rw [Dict.get?_set] at he'
  split at he'
  next heq =>
    cases he'
    exact he heq.symm
  · exact h e' he'

lemma mutate {f : CacheEntry → CacheEntry} (hf : (f e).uri = e.uri) (hQ : Q e → Q (f e))
    (h : Cached key Q cache) : Cached key Q (Rpc.mutate f cache e) := by
  intro e' he'
  rw [get?_mutate hf] at he'
  split at he'
  next hget =>
    cases he'
    exact hQ (h e hget.2)
  · exact h e' he'

lemma pinned (hp : ∀ e, Q e → Q e.pin)
    {u : Except CacheError (CacheEntry × CheckoutStatus) × Entries}
    (h : Cached key Q u.2) : Cached key Q (w.pinned u).2 := by
  rcases w.pinned_cases u with ⟨err, -, hh⟩ | ⟨e, t, -, hh⟩
  · rwa [hh]
  · rw [hh]
    exact h.mutate rfl (hp e)

lemma noRoom (h : Cached key Q cache) (hroom : w.noRoom cache = (.ok false, cache')) :
    Cached key Q cache' := by
  rcases w.noRoom_cases cache with ⟨r, h', hr⟩ | ⟨h', -⟩ | ⟨e, -, -, h'⟩
  · exact absurd (Prod.mk.inj (h'.symm.trans hroom)).1 hr
  · rwa [← (Prod.mk.inj (h'.symm.trans hroom)).2]
  · rw [← (Prod.mk.inj (h'.symm.trans hroom)).2]
    exact erase fun _ => h

lemma uri_of_newCacheEntry (h : w.newCacheEntry md = .ok e) : e.uri = md.uri :=
  congrArg ProjectMetadata.uri (Manager.md_of_newCacheEntry h)

/-- A pull that is answered. The entry of the project that is pulled is new, or is the one that was
there and that the storage does not have a later version of. -/
lemma pull (hp : ∀ e, Q e → Q e.pin) {url : Url} {c : Checkout} {b : Body ProjectInfo}
    (hf : w.Finds cache url found c) (hn : (w.pull cache url c).1 = .ok (.answer b))
    (ho : found ≠ key → Cached key Q cache)
    (hl : found = key → ∀ {md e}, md.uri = key → w.newCacheEntry md = .ok e → Q e)
    (hsa : found = key → ∀ {md e}, w.projectMetadata url = .ok md → md.uri = key →
      cache.get? key = some e → md.lastModified ≤ e.md.lastModified → Q e) :
    Cached key Q (w.pull cache url c).2 := by
  cases hf with
  | @new md hmd hget =>
    have hh : Cached key Q cache := by
      by_cases hk : md.uri = key
      · exact of_none (hk ▸ hget)
      · exact ho hk
    rcases w.pull_new_cases cache url md with h | ⟨cache', hroom, h⟩
    · rwa [h]
    · rw [h]
      refine pinned hp ?_
      rcases w.update_new_cases cache' md with ⟨err, h'⟩ | ⟨t, hentry, h'⟩
      · rw [h']
        exact hh.noRoom hroom
      · rw [h']
        refine (hh.noRoom hroom).set fun huri => ?_
        have hm := (uri_of_newCacheEntry hentry).symm.trans huri
        exact hl hm hm hentry
  | @needUpdate md e hmd hget hlt =>
    obtain ⟨hme, huri⟩ := Dict.get?_eq_some hget
    rw [Context.pull]
    rw [Context.pull] at hn
    rcases w.update_needUpdate_cases hme with h | ⟨err, -, h⟩ | ⟨t, hentry, h⟩
    · rw [h, Context.pinned] at hn
      cases hn
    · rw [h, Context.pinned] at hn
      cases hn
    · rw [h]
      refine pinned hp ((erase fun hne => ho (huri ▸ hne)).set fun he => ?_)
      have hd := (uri_of_newCacheEntry hentry).symm.trans he
      exact hl (huri.symm.trans hd) hd hentry
  | @unchanged md e hmd hget hle =>
    refine pinned hp ?_
    by_cases hk : md.uri = key
    · intro e' he'
      obtain rfl : e' = e := Option.some.inj (he'.symm.trans (hk ▸ hget))
      exact hsa hk hmd hk he' hle
    · exact ho hk
  | removed hgone hget =>
    obtain ⟨hme, huri⟩ := Dict.get?_eq_some hget
    rw [Context.pull, Manager.update_removed hme]
    exact erase fun hne => ho (huri ▸ hne)
  | notFound hgone hget =>
    by_cases hk : found = key
    · exact of_none (hk ▸ hget)
    · exact ho hk

lemma updateCache (hr : ∀ {e md e'}, Q e → md.uri = key → w.newCacheEntry md = .ok e' → Q e')
    (h : Cached key Q cache) : Cached key Q (w.toManager.updateCache cache).2 := by
  refine Dict.forItems_invariant (P := Cached key Q) ?_ h
  intro e d he hd
  rcases w.updateEntry_cases he with hd' | ⟨-, hd'⟩ | ⟨md, hmd, -, hd' | ⟨t, hentry, huri, hd'⟩⟩
  · rwa [hd']
  · rw [hd']
    exact erase fun _ => hd
  · rw [hd']
    exact erase fun _ => hd
  · rw [hd']
    refine (erase fun _ => hd).set fun hk => ?_
    have ho : Q e := hd e (by rw [← hk, huri]; exact Dict.get?_of_mem he)
    exact hr ho ((uri_of_newCacheEntry hentry).symm.trans hk) hentry

end Cached

/-- The path leads to the project that the cache has under the key exactly if it is `uri`. -/
def Worker.Context.Locates (w : Context) (v uri key : String) : Prop :=
  ∀ url k, w.resolvePath v true = .ok url → w.keyAt url = some k → (k = key ↔ v = uri)

/-- The message loop in a pool whose clients name the projects by the given paths. -/
def Node.execOn (world : ℕ → Context) (accepts : ℕ → Document → Bool) (paths : List String) :
    WorkerCall → Node → Option Node
  | .checkoutProject v pull, n =>
    if v ∈ paths then exec world accepts (.checkoutProject v pull) n else none
  | .dropProject v, n => if v ∈ paths then exec world accepts (.dropProject v) n else none
  | m, n => exec world accepts m n

/-- An invariant of the entries of a uri and a property of them, as the storage makes them. Pulling the
project has the property only if `pulled`. -/
structure EntryLaws (world : ℕ → Context) (key : String) (pulled : Bool) (I Q : CacheEntry → Prop) :
    Prop where
  pinI : ∀ e, I e → I e.pin
  pinQ : ∀ e, Q e → Q e.pin
  loadI : ∀ {t md e}, md.uri = key → (world t).newCacheEntry md = .ok e → I e
  reloadQ : ∀ {t e md e'}, Q e → md.uri = key → (world t).newCacheEntry md = .ok e' → Q e'
  loadQ : pulled = true → ∀ {t md e}, md.uri = key → (world t).newCacheEntry md = .ok e → Q e
  sameQ : pulled = true → ∀ {t url md e}, I e → (world t).projectMetadata url = .ok md → md.uri = key →
    md.lastModified ≤ e.md.lastModified → Q e

namespace Node
variable {world : ℕ → Context} {a : ℕ → Document → Bool} {uri key : String} {p : Bool}
  {I Q : CacheEntry → Prop} {n n' : Node} {paths : List String}

lemma ask_eq_some {q : Query} (h : n.ask world q = some n') :
    ((world n.time).perform n.state (.query q)).Answered ∧
      n'.state = ((world n.time).perform n.state (.query q)).state := by
  unfold ask at h
  split at h
  next hn =>
    cases h
    exact ⟨hn, rfl⟩
  · cases h

lemma cached_look {v : String} (h : n.ask world (.checkoutProject v false) = some n') :
    n'.state.cache = n.state.cache := by
  rw [(ask_eq_some h).2]
  show ((world n.time).checkoutProject n.state v false).state.cache = _
  rw [Context.checkoutProject, Context.catching_state]
  split
  · rfl
  · rw [if_neg (by decide), Context.ofReply_state]

lemma cached_drop {v : String} (hl : (world n.time).Locates v uri key)
    (h : n.ask world (.dropProject v) = some n') (hQ : v = uri ∨ Cached key Q n.state.cache) :
    Cached key Q n'.state.cache := by
  obtain ⟨hn, ht⟩ := ask_eq_some h
  obtain ⟨url, k, hurl, hk, hget⟩ := Context.get?_of_dropped hn
  intro e he
  rw [ht] at he
  replace he := (hget key).symm.trans he
  split at he
  · cases he
  next hne =>
    rcases hQ with hv | hQ
    · exact absurd ((hl url k hurl hk).2 hv).symm hne
    · exact hQ e he

lemma cached_pull {v : String} (hl : (world n.time).Locates v uri key)
    (hp : ∀ e, Q e → Q e.pin) (h : n.ask world (.checkoutProject v true) = some n')
    (ho : v ≠ uri → Cached key Q n.state.cache)
    (hd : v = uri → ∀ {md e}, md.uri = key → (world n.time).newCacheEntry md = .ok e → Q e)
    (hm : v = uri → ∀ {url md e}, (world n.time).projectMetadata url = .ok md → md.uri = key →
      n.state.cache.get? key = some e → md.lastModified ≤ e.md.lastModified → Q e) :
    Cached key Q n'.state.cache := by
  obtain ⟨hn, ht⟩ := ask_eq_some h
  obtain ⟨url, k, found, b, hurl, hf, hw, hh⟩ := Context.pull_of_answered hn
  have he := hl url k hurl hf.keyAt
  rw [ht]
  refine hh.symm ▸ Cached.pull hp hf hw (fun hne => ho fun hv => hne (he.2 hv))
    (fun hk => hd (he.1 hk)) (fun hk => hm (he.1 hk))

lemma cached_update (h : n.ask world .updateCache = some n')
    (hr : ∀ {e md e'}, Q e → md.uri = key → (world n.time).newCacheEntry md = .ok e' → Q e')
    (hQ : Cached key Q n.state.cache) : Cached key Q n'.state.cache := by
  rw [(ask_eq_some h).2]
  show Cached key Q ((world n.time).updateCache n.state).state.cache
  rw [Context.updateCache, Context.ofReply_state]
  exact hQ.updateCache hr

lemma cached_clear (h : n.ask world .clearCache = some n') : Cached key Q n'.state.cache := by
  rw [(ask_eq_some h).2]
  exact Cached.of_none rfl

lemma follows_of_laws (hl : ∀ t, ∀ v ∈ paths, (world t).Locates v uri key)
    (h : EntryLaws world key p I Q) :
    Restore.Follows (execOn world a paths) uri p false (fun n => Cached key I n.state.cache)
      (fun n => Cached key Q n.state.cache) where
  inv {m n n'} hI he := by
    cases m with
    | putConfig config =>
      obtain ⟨-, ⟨⟩⟩ := Option.ite_none_right_eq_some.1 he
      exact hI
    | checkoutProject v pull =>
      obtain ⟨hm, he⟩ := Option.ite_none_right_eq_some.1 he
      cases pull with
      | false => exact (cached_look he).symm ▸ hI
      | true =>
        exact cached_pull (hl n.time v hm) h.pinI he (fun _ => hI) (fun _ => h.loadI)
          fun _ _ _ e _ _ hget _ => hI e hget
    | dropProject v =>
      obtain ⟨hm, he⟩ := Option.ite_none_right_eq_some.1 he
      exact cached_drop (hl n.time v hm) he (Or.inr hI)
    | updateCache => exact cached_update he (fun _ => h.loadI) hI
    | clearCache => exact cached_clear he
  config _ he hQ := by
    obtain ⟨-, ⟨⟩⟩ := Option.ite_none_right_eq_some.1 he
    exact hQ
  look _ he hQ := (cached_look (Option.ite_none_right_eq_some.1 he).2).symm ▸ hQ
  pull {v n n'} hI he hQ := by
    obtain ⟨hm, he⟩ := Option.ite_none_right_eq_some.1 he
    refine cached_pull (hl n.time v hm) h.pinQ he (fun hv => ?_) (fun hv => ?_) (fun hv => ?_)
    · rwa [if_neg hv] at hQ
    · rw [if_pos hv] at hQ
      exact h.loadQ hQ
    · rw [if_pos hv] at hQ
      intro url md e hmd huri hget hle
      exact h.sameQ hQ (hI e hget) hmd huri hle
  drop {v n n'} _ he hQ := by
    obtain ⟨hm, he⟩ := Option.ite_none_right_eq_some.1 he
    exact cached_drop (hl n.time v hm) he hQ
  clear _ he := cached_clear he
  update _ he hQ := cached_update he h.reloadQ (hQ.resolve_left (by decide))

def Absent (key : String) (n : Node) : Prop := Cached key (fun _ => False) n.state.cache

lemma follows_absent (hl : ∀ t, ∀ v ∈ paths, (world t).Locates v uri key) :
    Restore.Follows (execOn world a paths) uri false false
      (fun n => Cached key (fun _ => True) n.state.cache) (Absent key) :=
  follows_of_laws hl
    { pinI := fun _ h => h
      pinQ := fun _ h => h
      loadI := fun _ _ => trivial
      reloadQ := fun h _ _ => h
      loadQ := fun h => absurd h (by decide)
      sameQ := fun h => absurd h (by decide) }

def Loaded (world : ℕ → Context) (key : String) (e : CacheEntry) : Prop :=
  ∃ t md, md.uri = key ∧ (world t).project md = .ok e.project

/-- The storage has a later modification time at all of the times. -/
def Overdue (world : ℕ → Context) (key : String) (e : CacheEntry) : Prop :=
  ∀ t url md, (world t).projectMetadata url = .ok md → md.uri = key →
    e.md.lastModified < md.lastModified

/-- The worker has no copy of the project that is older than the first of the times. -/
def Recent (world : ℕ → Context) (key : String) (n : Node) : Prop :=
  Cached key (Loaded world key) n.state.cache

/-- An older copy can be told from its modification time. -/
def Dated (world : ℕ → Context) (key : String) (n : Node) : Prop :=
  Cached key (fun e => Loaded world key e ∨ Overdue world key e) n.state.cache

lemma loaded_of_newCacheEntry {t : ℕ} {md : ProjectMetadata} {e : CacheEntry} (huri : md.uri = key)
    (h : (world t).newCacheEntry md = .ok e) : Loaded world key e := by
  refine ⟨t, md, huri, ?_⟩
  rw [Manager.newCacheEntry] at h
  cases hp : (world t).project md with
  | error err =>
    rw [hp] at h
    cases h
  | ok p =>
    rw [hp] at h
    cases h
    rfl

lemma follows_recent (hl : ∀ t, ∀ v ∈ paths, (world t).Locates v uri key) :
    Restore.Follows (execOn world a paths) uri true false (Dated world key) (Recent world key) :=
  follows_of_laws hl
    { pinI := fun _ h => h
      pinQ := fun _ h => h
      loadI := fun huri h => Or.inl (loaded_of_newCacheEntry huri h)
      reloadQ := fun _ huri h => loaded_of_newCacheEntry huri h
      loadQ := fun _ => loaded_of_newCacheEntry
      sameQ := fun _ {_ _ _ _} hI hmd huri hle =>
        hI.resolve_right fun ho => absurd (ho _ _ _ hmd huri) (not_lt.2 hle) }

end Node
end QJazz.Rpc
