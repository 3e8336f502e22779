import QJazz.Rpc.Cache.Effects

/-! A request and a pull load an outdated project again. The new entry gets the metadata of the old
one, so the project is as outdated as it was. -/
namespace QJazz.Rpc

open Cache Lexical Worker

/-- A message that refreshes a project that it finds outdated: a request of the project, or
`checkout_project` with `pull`. -/
inductive Refresh where
  | request (target : String) (allowDirect : Bool)
  | pull (uri : String)

namespace Refresh

def url (w : Context) : Refresh → Except CacheError Url
  | request target allowDirect => w.resolvePath target allowDirect
  | pull uri => w.resolvePath uri true

def cache (w : Context) (s : State) : Refresh → Entries
  | request target allowDirect => (w.requestProjectFromCache s.cache target allowDirect).cache
  | pull uri => (w.checkoutProject s uri true).state.cache

end Refresh

/-- The storage has a later version of a project than the one that is loaded. -/
structure Outdated (cm : Manager) (cache : Entries) (url : Url) (md : ProjectMetadata)
    (e : CacheEntry) : Prop where
  handled : cm.hasHandler (.ofList url.scheme.render) = true
  metadata : cm.projectMetadata url = .ok md
  entry : cache.get? md.uri = some e
  later : e.md.lastModified < md.lastModified

def SameStorage (w later : Context) : Prop :=
  later.schemes = w.schemes ∧ later.projectMetadata = w.projectMetadata

/-- After the message, an outdated project is checked out as unchanged. -/
def Settles (w : Context) (s : State) (r : Refresh) : Prop :=
  ∀ url e, r.url w = .ok url → w.checkout s.cache url = .ok (.needUpdate e) →
    ∀ later, SameStorage w later →
      ∃ e', later.checkout (r.cache w s) url = .ok (.unchanged e')

variable {w : Context} {s : State} {cache c : Entries} {url : Url} {md : ProjectMetadata}
  {e e' : CacheEntry}

lemma checkout_eq_needUpdate {cm : Manager} :
    cm.checkout cache url = .ok (.needUpdate e) ↔ ∃ md, Outdated cm cache url md e := by
  constructor
  · intro h
    rw [Manager.checkout] at h
    split at h
    next hh =>
      split at h
      next md hmd =>
        split at h
        next e' hentry =>
          split at h
          next hlt =>
            cases h
            exact ⟨md, hh, hmd, hentry, hlt⟩
          · cases h
        · cases h
      · split at h <;> cases h
      · cases h
    · cases h
  · rintro ⟨md, h⟩
    rw [Manager.checkout, if_pos h.handled]
    simp only [h.metadata, h.entry, if_pos h.later]

lemma checkout_ne_unchanged {cm : Manager} (h : Outdated cm cache url md e)
    (ho : ∀ e', c.get? md.uri = some e' → e'.md = e.md) :
    cm.checkout c url ≠ .ok (.unchanged e') := by
  rw [Manager.checkout, if_pos h.handled]
  simp only [h.metadata]
  split
  next e'' hget =>
    have hlt : e''.md.lastModified < md.lastModified := ho e'' hget ▸ h.later
    rw [if_pos hlt]
    simp
  · simp

lemma md_of_get?_mutate {f : CacheEntry → CacheEntry} (hf : ∀ e, (f e).md = e.md) {uri : String}
    {n : CacheEntry} (hget : (mutate f cache n).get? uri = some e') :
    ∃ e'', cache.get? uri = some e'' ∧ e''.md = e'.md := by
  rw [get?_mutate (congrArg ProjectMetadata.uri (hf n))] at hget
  split at hget
  next h =>
    cases hget
    exact ⟨n, h.2, (hf n).symm⟩
  · exact ⟨e', hget, rfl⟩

lemma md_of_reloads (he : e ∈ cache.items) (h : w.Reloads cache e c)
    (hget : c.get? e.uri = some e') : e'.md = e.md := by
  cases h with
  | unhandled =>
    have hm := hget.symm.trans (Python.Dict.get?_of_mem he)
    rw [Option.some.inj hm]
  | failed herr => simp [Python.Dict.get?_erase] at hget
  | reloaded hentry =>
    have hmd := Manager.md_of_newCacheEntry hentry
    have huri : e.uri = CacheEntry.uri _ := (congrArg ProjectMetadata.uri hmd).symm
    rw [Python.Dict.get?_set, if_pos huri] at hget
    cases hget
    exact hmd

lemma md_of_fetches {t : String} {a : Bool}
    (hurl : w.resolvePath t a = .ok url) (ho : Outdated w.toManager cache url md e)
    (h : w.Fetches cache t a c) (hget : c.get? md.uri = some e') : e'.md = e.md := by
  have hfound := checkout_eq_needUpdate.2 ⟨md, ho⟩
  obtain ⟨hm, huri⟩ := Python.Dict.get?_eq_some ho.entry
  cases h with
  | keeps => rw [Option.some.inj (hget.symm.trans ho.entry)]
  | reloads hu hf henabled hreloads =>
    obtain rfl := Except.ok.inj (hurl.symm.trans hu)
    cases hfound.symm.trans hf
    exact md_of_reloads hm hreloads (huri ▸ hget)
  | admits hu hf hadmits =>
    obtain rfl := Except.ok.inj (hurl.symm.trans hu)
    cases hfound.symm.trans hf

lemma md_of_pull {uri : String} (hurl : w.resolvePath uri true = .ok url)
    (ho : Outdated w.toManager s.cache url md e)
    (hget : (w.checkoutProject s uri true).state.cache.get? md.uri = some e') : e'.md = e.md := by
  have ht := Context.checkoutPath_eq_ok.2 ⟨hurl, checkout_eq_needUpdate.2 ⟨md, ho⟩⟩
  obtain ⟨hm, huri⟩ := Python.Dict.get?_eq_some ho.entry
  have hr := Context.reloads_update (w := w) hm
  rw [Context.checkoutProject_cache ht, Context.pull, ← huri] at hget
  rcases w.pinned_cases (w.update s.cache e.md .NEEDUPDATE) with ⟨err, -, hk⟩ | ⟨e₁, -, -, hp⟩
  · rw [hk] at hget
    exact md_of_reloads hm hr hget
  · rw [hp] at hget
    obtain ⟨e₂, hget₂, hmd⟩ := md_of_get?_mutate (f := CacheEntry.pin) (fun _ => rfl) hget
    exact hmd ▸ md_of_reloads hm hr hget₂

/-- A message settles a project exactly if the project was not outdated before. -/
theorem settles_iff_not_outdated (w : Context) (s : State) (r : Refresh) :
    Settles w s r ↔ ∀ url, r.url w = .ok url → ∀ md e, ¬ Outdated w.toManager s.cache url md e := by
  constructor
  · intro he url hurl md e ho
    have hfound := checkout_eq_needUpdate.2 ⟨md, ho⟩
    obtain ⟨e', hu⟩ := he url e hurl hfound w ⟨rfl, rfl⟩
    refine checkout_ne_unchanged ho ?_ hu
    intro e'' hget
    cases r with
    | request t a =>
      exact md_of_fetches hurl ho (w.fetches_requestProjectFromCache _ t a) hget
    | pull uri => exact md_of_pull hurl ho hget
  · intro hn url e hurl hfound
    obtain ⟨md, ho⟩ := checkout_eq_needUpdate.1 hfound
    exact absurd ho (hn url hurl md e)

def mapMetadata (lastModified : ℚ) : ProjectMetadata :=
  ⟨"/srv/map.qgs", "map", "file", some "file", lastModified⟩

def mapProject : Ogc.Project :=
  ⟨"/srv/map.qgs", "EPSG:4326", "3.34.0", some (3, 34), [], false, [], [], []⟩

def mapWorker (lastModified now : ℚ) : Context where
  routes := []
  allowDirectPathResolution := true
  schemes := ["file"]
  projectMetadata := fun _ => .ok (mapMetadata lastModified)
  refreshMetadata := fun md => .ok { md with lastModified }
  project := fun _ => .ok mapProject
  collectProjectsEx := fun _ => ([], none)
  now
  usedMem := some 1000
  loadTimeMs := 10
  refresh_uri := by
    rintro md _ ⟨⟩
    rfl
  snapshot := fun _ => none
  fromProject := fun _ _ => none
  fromLayer := fun _ _ => .ok none
  minimumQgisVersion := (3, 0)
  collectionSchema := "\x7b\x7d"
  maxProjects := 50
  loadProjectOnRequest := true
  reloadOutdatedProjectOnRequest := true
  name := "worker"
  iso := fun _ => some "1970-01-01T00:00:01.000+00:00"

def mapEntry : CacheEntry where
  md := mapMetadata 1
  project := mapProject
  timestamp := 1
  loadMemoryBytes := some 1000
  loadTimeMs := 10

/-- A file that was changed once is loaded again by a request and is still outdated. -/
theorem not_settles_changed_file :
    ¬ Settles (mapWorker 2 3) { cache := .roomy [mapEntry] (by decide), catalog := [] }
      (.request "/srv/map.qgs" false) := by
  intro h
  obtain ⟨e', hu⟩ := h (validateUrl (.ofText "/srv/map.qgs".toList)) mapEntry
    (by decide +kernel) (by decide +kernel) _ ⟨rfl, rfl⟩
  have hg : (mapWorker 2 3).checkout
      (((Refresh.request "/srv/map.qgs" false).cache (mapWorker 2 3)
        { cache := .roomy [mapEntry] (by decide), catalog := [] }))
      (validateUrl (.ofText "/srv/map.qgs".toList)) =
      .ok (.needUpdate { mapEntry with timestamp := 3 }) := by
    decide +kernel
  rw [hg] at hu
  cases hu

end QJazz.Rpc
