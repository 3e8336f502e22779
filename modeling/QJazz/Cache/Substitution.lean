import QJazz.Cache.Routes

/-! The texts of route variables are formatted into the url of the route, which is then split again,
and a path is formatted into a query. -/
namespace QJazz.Cache

open Lexical Template PosixPath

/-- The url has the structure of `u`: its scheme, its host and its keys, the values of `u` with the
texts put in, and the path and the fragment given. -/
structure Keeps (u : Url) (σ : String → Text) (path fragment : Template) (url : Url) : Prop where
  scheme : url.scheme = u.scheme
  netloc : url.netloc = u.netloc
  path : url.path = path
  query : queryFields url.query = valuesWith σ u.query
  fragment : url.fragment = fragment

/-- The texts put into `u` have no separator of the part that they are put in, and none is put into
the host or into a key. -/
structure TextsInert (u : Url) (σ : String → Text) : Prop where
  host : ∀ x, .var x ∉ u.netloc
  path : ∀ x, .var x ∈ u.path → ∀ c ∈ σ x,
    c ≠ '?' ∧ c ≠ '#' ∧ (Symbol.char c).isUnsafe = false
  query : ∀ x, .var x ∈ u.query → ∀ c ∈ σ x,
    c ≠ '&' ∧ c ≠ '#' ∧ (Symbol.char c).isUnsafe = false
  fragment : ∀ x, .var x ∈ u.fragment → ∀ c ∈ σ x, (Symbol.char c).isUnsafe = false
  keys : ∀ f ∈ queryFields u.query, ∀ x, .var x ∉ f.1

variable {path rel : PosixPath} {url u : Url} {σ : String → Text}

lemma split_subst (hu : u.WellFormed) (hh : ∀ x, .var x ∉ u.netloc)
    (hp : ∀ x, .var x ∈ u.path → ∀ c ∈ σ x,
      c ≠ '?' ∧ c ≠ '#' ∧ (Symbol.char c).isUnsafe = false)
    (hq : ∀ x, .var x ∈ u.query → ∀ c ∈ σ x,
      c ≠ '#' ∧ (Symbol.char c).isUnsafe = false)
    (hr : ∀ x, .var x ∈ u.fragment → ∀ c ∈ σ x, (Symbol.char c).isUnsafe = false) :
    (u.subst σ).Split := by
  have hn : Template.subst σ u.netloc = u.netloc := subst_eq_self hh
  have hf (t : Template) (hl : ∀ a ∈ t, a.isUnsafe = false)
      (hv : ∀ x, .var x ∈ t → ∀ c ∈ σ x, (Symbol.char c).isUnsafe = false) :
      ∀ a ∈ Template.subst σ t, a.isUnsafe = false := by
    intro a ha
    cases a with
    | var x => rfl
    | char c =>
      cases char_mem_subst.1 ha with
      | inl h => exact hl _ h
      | inr h =>
        obtain ⟨x, hx, hc⟩ := h
        exact hv x hx c hc
  have ho (t : Template) (c : Char) (hl : .char c ∉ t)
      (hv : ∀ x, .var x ∈ t → c ∉ σ x) : .char c ∉ Template.subst σ t := by
    rw [char_mem_subst, not_or]
    exact ⟨hl, fun ⟨x, hx, hc⟩ => hv x hx hc⟩
  exact
    { netloc_delim := by
        intro a ha
        exact hu.netloc_delim a (hn ▸ ha)
      path_query := ho _ _ hu.path_query fun x hx hc => (hp x hx _ hc).1 rfl
      path_fragment := ho _ _ hu.path_fragment fun x hx hc => (hp x hx _ hc).2.1 rfl
      query_fragment := ho _ _ hu.query_fragment fun x hx hc => (hq x hx _ hc).1 rfl
      safe := by
        intro a ha
        simp only [Url.subst, List.mem_append, or_assoc] at ha
        rcases ha with ha | ha | ha | ha
        · exact hu.safe a (by simp [hn ▸ ha])
        · exact hf u.path (fun a ha => hu.safe a (by simp [ha]))
            (fun x hx c hc => (hp x hx c hc).2.2) a ha
        · exact hf u.query (fun a ha => hu.safe a (by simp [ha]))
            (fun x hx c hc => (hq x hx c hc).2) a ha
        · exact hf u.fragment (fun a ha => hu.safe a (by simp [ha])) hr a ha }

lemma mem_of_appended_eq {s t : Text} {c : Char} (he : rel.root = .none)
    (h : ((PosixPath.parse s).join rel).str = ((PosixPath.parse t).join rel).str) (hc : c ∈ t)
    (hl : c ≠ '/') (hd : c ≠ '.') : c ∈ s := by
  have hr := congrArg PosixPath.parts (str_injective h)
  rw [join_parts_of_relative he, join_parts_of_relative he] at hr
  have ho : components s = components t := List.append_cancel_right hr
  obtain ⟨p, hp, hcp⟩ := exists_mem_components hc hl hd
  rw [← ho] at hp
  exact mem_of_mem_components hp hcp hl

lemma pathChar_of_mem {c : Char} (hs : u.Split) (h : c ≠ '/' → c ≠ '.' → .char c ∈ u.path) :
    c ≠ '?' ∧ c ≠ '#' ∧ (Symbol.char c).isUnsafe = false := by
  by_cases hl : c = '/'
  · rw [hl]
    decide
  by_cases hd : c = '.'
  · rw [hd]
    decide
  have hm := h hl hd
  refine ⟨?_, ?_, hs.safe _ (by simp [hm])⟩
  · rintro rfl
    exact hs.path_query hm
  · rintro rfl
    exact hs.path_fragment hm

lemma queryChar_of_mem {c : Char} (hs : u.Split) (h : c ≠ '&' → .char c ∈ u.query) :
    c ≠ '#' ∧ (Symbol.char c).isUnsafe = false := by
  by_cases hm : c = '&'
  · rw [hm]
    decide
  have he := h hm
  refine ⟨?_, hs.safe _ (by simp [he])⟩
  rintro rfl
  exact hs.query_fragment he

section Dynamic

variable (hu : u.WellFormed)
  (hσ : ∀ x, .var x ∈ u.geturl → σ x ≠ [] ∧ ∀ c ∈ σ x, isGood c = true)
include hu hσ

lemma urlsplit_eq_subst (hs : (u.subst σ).Split) :
    Url.urlsplit (Template.subst σ u.geturl) = u.subst σ := by
  refine (Url.urlsplit_subst_iff hu ?_).2 hs
  intro x hx
  obtain ⟨hne, hg⟩ := hσ x (Url.mem_geturl hu hx)
  refine ⟨hne, fun hl => ?_⟩
  simpa [isGood] using hg _ hl

lemma keeps_of_inert (h : TextsInert u σ) :
    Keeps u σ (appendPath (u.subst σ) rel).path (u.subst σ).fragment
      (appendPath (Url.urlsplit (Template.subst σ u.geturl)) rel) := by
  have hs := split_subst hu h.host h.path (fun x hx c hc => (h.query x hx c hc).2) h.fragment
  rw [urlsplit_eq_subst hu hσ hs]
  exact
    { scheme := rfl
      netloc := subst_eq_self h.host
      path := rfl
      query := queryFields_subst_iff.2 ⟨fun x hx hm => (h.query x hx _ hm).1 rfl, h.keys⟩
      fragment := rfl }

lemma inert_of_keeps (he : rel.root = .none)
    (h : Keeps u σ (appendPath (u.subst σ) rel).path (u.subst σ).fragment
      (appendPath (Url.urlsplit (Template.subst σ u.geturl)) rel)) :
    TextsInert u σ := by
  have hp := Url.split_urlsplit (Template.subst σ u.geturl)
  have hv (x : String) := Url.var_notMem_urlsplit (x := x)
    (var_notMem_subst (σ := σ) (t := u.geturl))
  have heq := urlsplit_eq_subst hu hσ
  generalize Url.urlsplit (Template.subst σ u.geturl) = r at h hp hv heq
  have hi : queryFields r.query = valuesWith σ u.query := h.query
  have hh : ∀ x, .var x ∉ u.netloc := by
    intro x hx
    have hr : .var x ∈ r.netloc := h.netloc ▸ hx
    exact hv x (by simp [hr])
  have hk : ∀ f ∈ queryFields u.query, ∀ x, .var x ∉ f.1 := by
    intro f hf
    exact keys_of_queryFields_eq (fun x hx => hv x (by simp [hx])) hi hf
  have ht : ∀ x, .var x ∈ u.path → ∀ c ∈ σ x,
      c ≠ '?' ∧ c ≠ '#' ∧ (Symbol.char c).isUnsafe = false := by
    intro x hx c hc
    apply pathChar_of_mem hp
    intro hl hd
    have hm : c ∈ (Template.subst σ u.path).render :=
      (mem_render fun _ => var_notMem_subst).2
        (char_mem_subst.2 (Or.inr ⟨x, hx, hc⟩))
    have hst := congrArg Template.render h.path
    simp only [appendPath, render_ofText] at hst
    exact (mem_render fun x hx => hv x (by simp [hx])).1
      (mem_of_appended_eq he hst hm hl hd)
  have hq : ∀ x, .var x ∈ u.query → ∀ c ∈ σ x,
      c ≠ '#' ∧ (Symbol.char c).isUnsafe = false := by
    intro x hx c hc
    exact queryChar_of_mem hp fun ham => mem_of_queryFields_eq hi hk hx hc ham
  have hg : ∀ x, .var x ∈ u.fragment → ∀ c ∈ σ x, (Symbol.char c).isUnsafe = false := by
    intro x hx c hc
    have hm : .char c ∈ r.fragment := by
      have hr : r.fragment = Template.subst σ u.fragment := h.fragment
      rw [hr]
      exact char_mem_subst.2 (Or.inr ⟨x, hx, hc⟩)
    exact hp.safe _ (by simp [hm])
  rw [heq (split_subst hu hh ht hq hg)] at hi
  have ham := (queryFields_subst_iff.1 hi).1
  exact
    { host := hh
      path := ht
      query := by
        intro x hx c hc
        refine ⟨?_, hq x hx c hc⟩
        rintro rfl
        exact ham x hx hc
      fragment := hg
      keys := hk }

end Dynamic

/-- The path is put into a value of the query, adds no field to it and does not read `{path}`. -/
structure PathInert (u : Url) (rel : PosixPath) : Prop where
  differs : rel.str ≠ (Symbol.var "path").text
  amp : '&' ∉ rel.str
  keys : ∀ f ∈ queryFields u.query, ∀ x, .var x ∉ f.1

lemma appendPath_path_ne (hr : rel.root = .none) (hne : rel.parts ≠ []) :
    (appendPath u rel).path ≠ u.path := by
  intro h
  have hp := congrArg (fun t => (PosixPath.parse (Template.render t)).parts) h
  simp only [appendPath, render_ofText, parse_str,
    join_parts_of_relative hr, parse_parts] at hp
  exact hne (List.append_right_eq_self.1 hp)

lemma parts_ne_nil_of_str_eq (h : rel.str = (Symbol.var "path").text) : rel.parts ≠ [] := by
  rw [← parse_str rel, h]
  decide

lemma static_keeps_iff (ht : .var "path" ∈ u.query) (hl : rel.root = .none)
    (h : placePath u rel = .ok url) :
    Keeps u (pathValue rel) u.path u.fragment url ↔ PathInert u rel := by
  obtain ⟨hin, rfl⟩ | ⟨hin, rfl⟩ := placePath_eq_ok h
  · constructor
    · intro hk
      obtain ⟨hm, he⟩ := queryFields_subst_iff.1 hk.query
      exact { differs := hin.2, amp := hm "path" ht, keys := he }
    · intro hp
      refine { scheme := rfl, netloc := rfl, path := rfl, query := ?_, fragment := rfl }
      refine queryFields_subst_iff.2 ⟨fun x _ => ?_, hp.keys⟩
      rw [pathValue]
      split
      · exact hp.amp
      · simp
  · have hr : rel.str = (Symbol.var "path").text := by
      by_contra hne
      exact hin ⟨ht, hne⟩
    constructor
    · intro hk
      exact absurd hk.path (appendPath_path_ne hl (parts_ne_nil_of_str_eq hr))
    · intro hp
      exact absurd hr hp.differs

namespace RouteDef

def Templated : RouteDef → Prop
  | static r => .var "path" ∈ r.url.query
  | dynamic _ => True

def Keeps : RouteDef → PosixPath → Url → Prop
  | static r, path, url =>
    Cache.Keeps r.url (pathValue (path.relativeTo (.parse r.location))) r.url.path r.url.fragment url
  | dynamic r, path, url =>
    Cache.Keeps r.url (r.value path)
      (appendPath (r.url.subst (r.value path)) (path.relativeTo (r.locationOf path))).path
      (r.url.subst (r.value path)).fragment url

/-- The texts that a request brings have no separators. -/
def Inert : RouteDef → PosixPath → Prop
  | static r, path => PathInert r.url (path.relativeTo (.parse r.location))
  | dynamic r, path => TextsInert r.url (r.value path)

end RouteDef

/-- The url that a path is resolved to has the scheme, the host and the query keys of the url of its
route, and differs from it only by the texts put in, exactly if those texts have no separators. -/
theorem keeps_iff_inert (routes : List RouteDef) (direct allowDirect : Bool) (path : Text)
    (found : Found) (url : Url) (hfound : findRoute routes (.parse path) = .ok (some found))
    (htemplated : found.route.Templated)
    (hurl : resolvePath routes direct path allowDirect = .ok url) :
    found.route.Keeps (.parse path) url ↔ found.route.Inert (.parse path) := by
  have hr := resolvePath_of_findRoute hfound
  have hp := resolvePath_of_found hfound hurl
  obtain ⟨route, l, o⟩ := found
  cases route with
  | static r =>
    obtain ⟨rfl, rfl⟩ := StaticRoute.resolvePath_eq_some (Except.ok.inj hr)
    exact static_keeps_iff htemplated rfl hp
  | dynamic r =>
    obtain ⟨rfl, rfl, hv⟩ := DynamicRoute.resolvePath_eq_some hr
    have hu := wellFormed_validateUrl r.urlstr
    rw [placePath_urlsplit_subst hp]
    exact ⟨inert_of_keeps hu hv rfl, keeps_of_inert hu hv⟩

def databaseRoute : DynamicRoute where
  location := Template.ofText "/p/".toList ++ [.var "db"]
  urlstr := Template.ofText "postgresql://?dbname=".toList ++ [.var "db"]
  location_rooted := rfl
  vars_nodup := by decide

def databaseUrl (path query : String) : Url where
  scheme := .ofText "postgresql".toList
  netloc := []
  path := .ofText path.toList
  query := .ofText query.toList
  fragment := []

theorem keeps_iff_inert_database : (RouteDef.dynamic databaseRoute).Keeps (.parse "/p/gis/a".toList)
        (databaseUrl "a" "dbname=gis") ∧
      (RouteDef.dynamic databaseRoute).Inert (.parse "/p/gis/a".toList) := by
  have hk : (RouteDef.dynamic databaseRoute).Keeps (.parse "/p/gis/a".toList)
      (databaseUrl "a" "dbname=gis") :=
    { scheme := by decide +kernel
      netloc := by decide +kernel
      path := by decide +kernel
      query := by decide +kernel
      fragment := by decide +kernel }
  exact ⟨hk, (keeps_iff_inert [.dynamic databaseRoute] false false "/p/gis/a".toList
    ⟨.dynamic databaseRoute, .parse "/p/gis".toList, databaseUrl "" "dbname=gis"⟩
    (databaseUrl "a" "dbname=gis") rfl trivial rfl).1 hk⟩

/-- An ampersand in a path adds a parameter to the connection of a route with a variable. -/
theorem not_keeps_ampersand :
    resolvePath [.dynamic databaseRoute] false "/p/gis&host=db2/a".toList false =
        .ok (databaseUrl "a" "dbname=gis&host=db2") ∧
      ¬ (RouteDef.dynamic databaseRoute).Keeps (.parse "/p/gis&host=db2/a".toList)
        (databaseUrl "a" "dbname=gis&host=db2") :=
  ⟨rfl, fun h => absurd (Cache.Keeps.query h) (by decide +kernel)⟩

end QJazz.Cache
