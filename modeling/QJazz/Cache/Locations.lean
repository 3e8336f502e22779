import QJazz.Cache.Listing

/-! A location that is spelled as a route of the table lists the projects of this route, and any
other one those of all routes whose location lies below it. -/
namespace QJazz.Cache

open Lexical List PosixPath

structure StaticRoutes where
  routes : List StaticRoute
  nodup : (routes.map StaticRoute.location).Nodup

/-- What the handler of an url lists with the public paths behind a location, up to the first
exception. -/
abbrev LocationListing := PosixPath → Url → List (ProjectMetadata × Text)

namespace StaticRoutes

variable (t : StaticRoutes) (listing : LocationListing)

def locations (search : Option Text) : List (Text × Url) :=
  match search.filter (· ≠ []) with
  | none => t.routes.map fun r => ((PosixPath.parse r.location).str, r.url)
  | some location =>
    match t.routes.find? fun r => r.location = location with
    | some r => [(location, r.url)]
    | none =>
      (t.routes.filter fun r => (PosixPath.parse r.location).isRelativeTo (.parse location)).map
        fun r => ((PosixPath.parse r.location).str, r.url)

def collectProjects (search : Option Text) : List (ProjectMetadata × Text) :=
  (t.locations search).flatMap fun l => listing (.parse l.1) l.2

def listed (r : StaticRoute) : List (ProjectMetadata × Text) := listing (.parse r.location) r.url

def below (location : Text) : List StaticRoute :=
  t.routes.filter fun r => (PosixPath.parse r.location).isRelativeTo (.parse location)

end StaticRoutes

def spellings (location : Text) : List Text :=
  let bare := location.rdropWhile (· = '/')
  if bare = [] then [location] else [location, bare, bare ++ ['/']]

/-- A location lists the projects of the routes that lie under it, with and without a slash at its
end. -/
def StaticRoutes.Selects (t : StaticRoutes) (location : Text) : Prop :=
  ∀ listing : LocationListing, ∀ spelling ∈ spellings location,
    t.collectProjects listing (some spelling) = (t.below location).flatMap (StaticRoutes.listed listing)

lemma parse_of_mem_spellings {location s : Text} (h : s ∈ spellings location) :
    PosixPath.parse s = .parse location := by
  have hk : ∀ c ∈ location.rtakeWhile (· = '/'), c = '/' := by
    intro c hc
    simpa using mem_rtakeWhile_imp hc
  have hl := rdropWhile_append_rtakeWhile (p := fun c : Char => decide (c = '/')) (l := location)
  rw [spellings] at h
  split at h
  · rw [mem_singleton.1 h]
  next hr =>
    have ht : (location.rdropWhile (· = '/')).getLast hr ≠ '/' := by
      simpa using rdropWhile_last_not (fun c : Char => decide (c = '/')) location hr
    have hp := parse_append_slashes hr ht hk
    simp only [mem_cons, not_mem_nil, or_false] at h
    rcases h with rfl | rfl | rfl
    · rfl
    · rw [← hp, hl]
    · rw [parse_append_slashes hr ht (by simp), ← hp, hl]

lemma ne_nil_of_mem_spellings {location s : Text} (hne : location ≠ [])
    (h : s ∈ spellings location) : s ≠ [] := by
  rw [spellings] at h
  split at h
  · rwa [mem_singleton.1 h]
  next hr =>
    simp only [mem_cons, not_mem_nil, or_false] at h
    rcases h with rfl | rfl | rfl
    · exact hne
    · exact hr
    · simp

namespace StaticRoutes

variable {t : StaticRoutes} {listing : LocationListing} {location : Text}

lemma mem_below_of_spelling {r : StaticRoute} (hr : r ∈ t.routes)
    (hp : r.location ∈ spellings location) : r ∈ t.below location := by
  refine List.mem_filter.2 ⟨hr, ?_⟩
  rw [parse_of_mem_spellings hp]
  simp [PosixPath.isRelativeTo]

lemma collectProjects_none (t : StaticRoutes) (listing : LocationListing) :
    t.collectProjects listing none = t.routes.flatMap (listed listing) := by
  rw [collectProjects, locations, Option.filter_none, flatMap_map]
  simp only [parse_str]
  rfl

lemma collectProjects_of_mem {r : StaticRoute} (hr : r ∈ t.routes) :
    t.collectProjects listing (some r.location) = listed listing r := by
  have hne : r.location ≠ [] := by
    intro hn
    have ho := r.location_rooted
    rw [hn] at ho
    cases ho
  have hf : t.routes.find? (fun r' => r'.location = r.location) = some r := by
    obtain ⟨r', hf⟩ := Option.isSome_iff_exists.1
      (List.find?_isSome.2 ⟨r, hr, decide_eq_true rfl⟩ :
        (t.routes.find? fun r' => r'.location = r.location).isSome = true)
    have hl : r'.location = r.location := by simpa using List.find?_some hf
    rw [hf, inj_on_of_nodup_map t.nodup (List.mem_of_find?_eq_some hf) hr hl]
  rw [collectProjects, locations, Option.filter_some, if_pos (by simpa using hne)]
  simp only [hf]
  exact append_nil _

lemma collectProjects_of_notMem (hne : location ≠ []) (h : ∀ r ∈ t.routes, r.location ≠ location) :
    t.collectProjects listing (some location) = (t.below location).flatMap (listed listing) := by
  have hf : t.routes.find? (fun r => r.location = location) = none := by
    simpa [List.find?_eq_none] using h
  rw [collectProjects, locations, Option.filter_some, if_pos (by simpa using hne)]
  simp only [hf, flatMap_map, parse_str]
  rfl

/-- A location that is spelled as a route of the table selects the routes below it, in whatever way
they are listed, exactly if there is no other one. -/
lemma collectProjects_eq_below_iff {r : StaticRoute} (hr : r ∈ t.routes)
    (he : r ∈ t.below location) :
    (∀ listing : LocationListing, t.collectProjects listing (some r.location) =
        (t.below location).flatMap (listed listing)) ↔ ∀ r' ∈ t.below location, r' = r := by
  constructor
  · intro h r' hr'
    -- one project for each route, so the lists count the routes
    have hl := congrArg List.length (h fun _ _ => [(⟨"", "", "", none, 0⟩, [])])
    rw [collectProjects_of_mem hr] at hl
    have ho : (t.below location).length = 1 := by simpa [listed, length_flatMap] using hl.symm
    obtain ⟨a, ha⟩ := length_eq_one_iff.1 ho
    rw [ha, mem_singleton] at he hr'
    rw [he, hr']
  · intro h listing
    have hn : (t.below location).Nodup := t.nodup.of_map.filter _
    have hi : t.below location = [r] := by
      refine perm_singleton.1 ((perm_ext_iff_of_nodup hn (nodup_singleton r)).2 fun r' => ?_)
      rw [mem_singleton]
      exact ⟨h r', fun heq => heq ▸ he⟩
    rw [collectProjects_of_mem hr, hi, flatMap_singleton]

/-- An absolute location selects the routes under it exactly if no other route lies under it when one
of the table is spelled like it. -/
theorem selects_iff (t : StaticRoutes) {location : Text} (habsolute : location.head? = some '/') :
    t.Selects location ↔ ∀ r ∈ t.routes, r.location ∈ spellings location →
      ∀ r' ∈ t.below location, r' = r := by
  have hne : location ≠ [] := by
    rintro rfl
    cases habsolute
  constructor
  · intro h r hr hp
    have he := mem_below_of_spelling hr hp
    exact (collectProjects_eq_below_iff hr he).1 fun listing => h listing _ hp
  · intro h listing s hp
    by_cases hm : ∃ r ∈ t.routes, r.location = s
    · obtain ⟨r, hr, rfl⟩ := hm
      have he := mem_below_of_spelling hr hp
      exact (collectProjects_eq_below_iff hr he).2 (h r hr hp) listing
    · rw [collectProjects_of_notMem (ne_nil_of_mem_spellings hne hp) (by simpa using hm)]
      rw [below, parse_of_mem_spellings hp, ← below]

end StaticRoutes

namespace FileRoutes

def toStaticRoutes (t : FileRoutes) : StaticRoutes := ⟨t.routes, t.nodup⟩

def fileListing (fs : FileSystem) : LocationListing := fun location rooturl =>
  collect fs location.str rooturl (fs.projects rooturl)

lemma collect_str_parse (fs : FileSystem) (location : Text) (rooturl : Url) (ps : List PosixPath) :
    collect fs (PosixPath.parse location).str rooturl ps = collect fs location rooturl ps := by
  have hp (uri : Text) :
      publicPath uri (PosixPath.parse location).str rooturl = publicPath uri location rooturl := by
    rw [publicPath, publicPath, parse_str]
  induction ps with
  | nil => rfl
  | cons p ps ih =>
    rw [collect, collect]
    cases fs.fileMetadata p with
    | none => rfl
    | some md => simp only [hp, ih]

lemma collectProjects_toStaticRoutes (t : FileRoutes) (fs : FileSystem) (search : Option Text) :
    t.toStaticRoutes.collectProjects (fileListing fs) search = t.collectProjects fs search := by
  rw [StaticRoutes.collectProjects, collectProjects]
  refine flatMap_congr fun l _ => ?_
  exact collect_str_parse fs l.1 l.2 _

end FileRoutes

theorem selects_iff_private : nestedRoutes.toStaticRoutes.Selects "/maps/private".toList := by
  have hl : nestedRoutes.toStaticRoutes.below "/maps/private".toList =
      [⟨"/maps/private".toList, .ofText "/srv/private".toList, by decide⟩] := rfl
  refine (StaticRoutes.selects_iff _ (by decide)).2 fun r hr hp r' hr' => ?_
  have he := StaticRoutes.mem_below_of_spelling hr hp
  rw [hl, mem_singleton] at he hr'
  rw [he, hr']

/-- The projects of the inner location are not listed for the outer one, unless that is written with a
slash at its end. -/
theorem not_selects_nested :
    nestedRoutes.toStaticRoutes.collectProjects (FileRoutes.fileListing oneProject)
        (some "/maps".toList) = [] ∧
      nestedRoutes.toStaticRoutes.collectProjects (FileRoutes.fileListing oneProject)
        (some "/maps/".toList) =
          [(⟨"/srv/private/a.qgs", "a", "file", some "file", 1⟩, "/maps/private/a.qgs".toList)] ∧
      ¬ nestedRoutes.toStaticRoutes.Selects "/maps".toList := by
  have hm : nestedRoutes.toStaticRoutes.collectProjects (FileRoutes.fileListing oneProject)
      (some "/maps".toList) = [] := by decide +kernel
  have hl : nestedRoutes.toStaticRoutes.collectProjects (FileRoutes.fileListing oneProject)
      (some "/maps/".toList) =
        [(⟨"/srv/private/a.qgs", "a", "file", some "file", 1⟩, "/maps/private/a.qgs".toList)] := by
    decide +kernel
  refine ⟨hm, hl, fun h => ?_⟩
  have ho := h (FileRoutes.fileListing oneProject) "/maps".toList (by decide +kernel)
  have ht := h (FileRoutes.fileListing oneProject) "/maps/".toList (by decide +kernel)
  rw [hm] at ho
  rw [hl, ← ho] at ht
  cases ht

end QJazz.Cache
