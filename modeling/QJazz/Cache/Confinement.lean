import QJazz.Cache.Routes

/-! Whether the url that a path is resolved to stays under the root directory of its route. -/
namespace QJazz.Cache

open Lexical List PosixPath Template

def upToSlash (t : Template) : Template :=
  (t.reverse.dropWhile (· ≠ .char '/')).reverse

/-- The directories of a path before the first component with a variable. -/
def staticPart (t : Template) : Template :=
  if t.all Symbol.isChar then t else upToSlash (t.takeWhile Symbol.isChar)

def variablePart (t : Template) : Template :=
  t.drop (staticPart t).length

lemma upToSlash_append (t : Template) : ∃ s, upToSlash t ++ s = t := by
  refine ⟨(t.reverse.takeWhile (· ≠ .char '/')).reverse, ?_⟩
  rw [upToSlash, ← reverse_append, takeWhile_append_dropWhile, reverse_reverse]

lemma upToSlash_cases (t : Template) :
    upToSlash t = [] ∨ ∃ s, upToSlash t = s ++ [.char '/'] := by
  rw [upToSlash]
  cases h : t.reverse.dropWhile (· ≠ .char '/') with
  | nil => exact Or.inl rfl
  | cons a r =>
    have ha := List.head?_dropWhile_not (fun b : Symbol => decide (b ≠ .char '/')) t.reverse
    rw [h] at ha
    have ha : a = .char '/' := by simpa using ha
    exact Or.inr ⟨r.reverse, by rw [ha, reverse_cons]⟩

lemma staticPart_append (t : Template) : staticPart t ++ variablePart t = t := by
  have hp : ∃ s, staticPart t ++ s = t := by
    rw [staticPart]
    split
    · exact ⟨[], append_nil t⟩
    · obtain ⟨s, hs⟩ := upToSlash_append (t.takeWhile Symbol.isChar)
      refine ⟨s ++ t.dropWhile Symbol.isChar, ?_⟩
      rw [← append_assoc, hs, takeWhile_append_dropWhile]
  obtain ⟨s, hs⟩ := hp
  have hd : variablePart t = s := by
    rw [variablePart]
    nth_rewrite 2 [← hs]
    exact drop_left
  rw [hd, hs]

lemma var_notMem_staticPart (t : Template) (x : String) : .var x ∉ staticPart t := by
  rw [staticPart]
  split
  case isTrue hl =>
    intro hx
    exact absurd (List.all_eq_true.1 hl _ hx) (by simp [Symbol.isChar])
  case isFalse =>
    intro hx
    obtain ⟨s, hs⟩ := upToSlash_append (t.takeWhile Symbol.isChar)
    have hm : .var x ∈ t.takeWhile Symbol.isChar := hs ▸ mem_append_left _ hx
    exact absurd (mem_takeWhile_imp hm) (by simp [Symbol.isChar])

lemma components_staticPart (t : Template) {w : Text} (hw : variablePart t = [] → w = []) :
    components ((staticPart t).render ++ w) = components (staticPart t).render ++ components w := by
  by_cases hl : t.all Symbol.isChar = true
  · have ht : staticPart t = t := by rw [staticPart, if_pos hl]
    have hv : variablePart t = [] := by rw [variablePart, ht, drop_length]
    rw [hw hv]
    simp
  · have ht : staticPart t = upToSlash (t.takeWhile Symbol.isChar) := by
      rw [staticPart, if_neg hl]
    rw [ht]
    obtain hn | ⟨s, hs⟩ := upToSlash_cases (t.takeWhile Symbol.isChar)
    · rw [hn]
      simp
    · have hr : Template.render (s ++ [.char '/']) = Template.render s ++ ['/'] :=
        render_append
      rw [hs, hr, append_assoc, singleton_append, components_append_slash,
        components_append_slash, components_nil, append_nil]

lemma head?_upToSlash {t : Template} (h : t.head? = some (.char '/')) :
    (upToSlash t).head? = some (.char '/') := by
  have hm : .char '/' ∈ t.reverse := by
    rw [mem_reverse]
    exact mem_of_head? h
  have hne : upToSlash t ≠ [] := by
    rw [upToSlash, ne_eq, reverse_eq_nil_iff, dropWhile_eq_nil_iff]
    intro hl
    exact absurd (hl _ hm) (by simp)
  obtain ⟨s, hs⟩ := upToSlash_append t
  rwa [← hs, List.head?_append_of_ne_nil _ hne] at h

lemma head?_staticPart {t : Template} (h : t.head? = some (.char '/')) :
    (staticPart t).head? = some (.char '/') := by
  rw [staticPart]
  split
  · exact h
  · apply head?_upToSlash
    cases t with
    | nil => cases h
    | cons a t =>
      cases h
      rfl

def RouteDef.FileRoot : RouteDef → Prop
  | static r => r.url.scheme = fileScheme
  | dynamic r => r.url.scheme = fileScheme ∧ r.url.path.head? = some (.char '/') ∧
      ∀ x, .var x ∉ r.url.netloc

def RouteDef.rootPath : RouteDef → PosixPath
  | static r => .parse r.url.path.render
  | dynamic r => .parse (staticPart r.url.path).render

/-- What a request puts behind the root returns to it: the components behind the location and,
before them, the rest of the path of the url with the texts of the variables. -/
def RouteDef.Stays : RouteDef → PosixPath → Prop
  | static r, path =>
    InQuery r.url (path.relativeTo (.parse r.location)) ∨
      (PosixPath.parse r.url.path.render).Returns (path.relativeTo (.parse r.location)).parts
  | dynamic r, path =>
    (PosixPath.parse (staticPart r.url.path).render).Returns
      (components (Url.kept (Template.subst (r.value path) (variablePart r.url.path))).render ++
        (path.relativeTo (r.locationOf path)).parts)

instance : (route : RouteDef) → (path : PosixPath) → Decidable (route.Stays path)
  | .static _, _ => inferInstanceAs (Decidable (_ ∨ _))
  | .dynamic _, _ => inferInstanceAs (Decidable (PosixPath.Returns _ _))

variable {path rel : PosixPath} {url u : Url} {σ : String → Text}

lemma liesUnder_appended {r : PosixPath} {s : Text} {t : List Text}
    (hr : (PosixPath.parse s).isAbsolute = r.isAbsolute)
    (hp : components s = r.parts ++ t) (he : rel.root = .none) :
    (PosixPath.parse ((PosixPath.parse s).join rel).str).LiesUnder r ↔
      r.Returns (t ++ rel.parts) := by
  rw [parse_str]
  apply liesUnder_iff_returns
  · rw [← hr, PosixPath.isAbsolute, join_root_of_relative he]
    rfl
  · rw [join_parts_of_relative he, parse_parts, hp, append_assoc]

lemma static_confined_iff {r : StaticRoute} (hr : rel.root = .none)
    (h : placePath r.url rel = .ok url) :
    (PosixPath.parse url.path.render).LiesUnder (.parse r.url.path.render) ↔
      InQuery r.url rel ∨ (PosixPath.parse r.url.path.render).Returns rel.parts := by
  obtain ⟨hin, rfl⟩ | ⟨hin, rfl⟩ := placePath_eq_ok h
  · simp only [hin, true_or, iff_true]
    exact liesUnder_refl _
  · rw [appendPath, render_ofText, or_iff_right hin]
    exact liesUnder_appended rfl (append_nil _).symm hr

lemma hierarchy_of_file (hu : u.WellFormed) (hscheme : u.scheme = fileScheme)
    (hr : u.path.head? = some (.char '/')) : u.hierarchy = Url.slashes ++ u.netloc ++ u.path := by
  obtain ⟨hh, -⟩ | ⟨-, -, -, he⟩ := Url.hierarchy_cases hu
  · exact hh
  · refine absurd ⟨?_, ?_, Or.inr hr⟩ he
    · rw [hscheme]
      decide
    · rw [hscheme]
      decide

lemma path_urlsplit_file (hu : u.WellFormed) (hscheme : u.scheme = fileScheme)
    (hr : u.path.head? = some (.char '/')) (hn : ∀ x, .var x ∉ u.netloc) :
    (Url.urlsplit (Template.subst σ u.geturl)).path =
      staticPart u.path ++ Url.kept (Template.subst σ (variablePart u.path)) := by
  have hm : ∀ a ∈ staticPart u.path, a ∈ u.path := by
    intro a ha
    rw [← staticPart_append u.path]
    exact mem_append_left _ ha
  have he : ∀ a ∈ staticPart u.path, a.isUnsafe = false := by
    intro a ha
    exact hu.safe a (by simp [hm a ha])
  have hp : ∀ a ∈ staticPart u.path, Url.isPathSymbol a := by
    intro a ha
    have hq : a ≠ .char '?' := fun h => hu.path_query (h ▸ hm a ha)
    have hf : a ≠ .char '#' := fun h => hu.path_fragment (h ▸ hm a ha)
    simp [Url.isPathSymbol, hq, hf]
  rw [Url.path_urlsplit_subst hu hn (hierarchy_of_file hu hscheme hr) hr, ← Url.kept_append he hp]
  nth_rewrite 1 [← staticPart_append u.path]
  rw [subst_append, subst_eq_self (var_notMem_staticPart u.path)]

lemma dynamic_confined_iff (hu : u.WellFormed) (hscheme : u.scheme = fileScheme)
    (hr : u.path.head? = some (.char '/')) (hn : ∀ x, .var x ∉ u.netloc) (he : rel.root = .none)
    (h : placePath (Url.urlsplit (Template.subst σ u.geturl)) rel = .ok url) :
    (PosixPath.parse url.path.render).LiesUnder (.parse (staticPart u.path).render) ↔
      (PosixPath.parse (staticPart u.path).render).Returns
        (components (Url.kept (Template.subst σ (variablePart u.path))).render ++ rel.parts) := by
  have hh : (staticPart u.path).render.head? = some '/' := by
    have := head?_staticPart hr
    cases hs : staticPart u.path with
    | nil => simp [hs] at this
    | cons a s =>
      have ha : a = .char '/' := by simpa [hs] using this
      rw [ha]
      rfl
  rw [placePath_urlsplit_subst h, appendPath, render_ofText,
    path_urlsplit_file hu hscheme hr hn, render_append]
  apply liesUnder_appended
  · rw [isAbsolute_parse, isAbsolute_parse, List.head?_append, hh]
    rfl
  · apply components_staticPart
    intro hv
    rw [hv]
    rfl
  · exact he

/-- A path that is resolved by a route with a file root lies under the root directory exactly if
what the request puts behind the root returns to it. -/
theorem confined_iff_stays (routes : List RouteDef) (direct : Bool) (path : Text) (found : Found)
    (url : Url) (hfound : findRoute routes (.parse path) = .ok (some found))
    (hfile : found.route.FileRoot) (hurl : resolvePath routes direct path false = .ok url) :
    (PosixPath.parse url.path.render).LiesUnder found.route.rootPath ↔
      found.route.Stays (.parse path) := by
  have hr := resolvePath_of_findRoute hfound
  have hp := resolvePath_of_found hfound hurl
  obtain ⟨route, l, o⟩ := found
  cases route with
  | static r =>
    obtain ⟨rfl, rfl⟩ := StaticRoute.resolvePath_eq_some (Except.ok.inj hr)
    exact static_confined_iff rfl hp
  | dynamic r =>
    obtain ⟨rfl, rfl, -⟩ := DynamicRoute.resolvePath_eq_some hr
    exact dynamic_confined_iff (wellFormed_validateUrl r.urlstr) hfile.1 hfile.2.1 hfile.2.2 rfl
      hp

def projectsRoute : RouteDef :=
  .static
    { location := "/projects".toList
      urlstr := .ofText "/srv/projects".toList
      location_rooted := rfl }

def fileUrl (path : String) : Url where
  scheme := fileScheme
  netloc := []
  path := .ofText path.toList
  query := []
  fragment := []

theorem confined_iff_stays_within :
    (PosixPath.parse (fileUrl "/srv/projects/a/../b.qgs").path.render).LiesUnder
        projectsRoute.rootPath ∧ projectsRoute.Stays (.parse "/projects/a/../b.qgs".toList) := by
  have ht : projectsRoute.Stays (.parse "/projects/a/../b.qgs".toList) := by decide +kernel
  refine ⟨(confined_iff_stays [projectsRoute] false "/projects/a/../b.qgs".toList
    ⟨projectsRoute, .parse "/projects".toList, fileUrl "/srv/projects"⟩
    (fileUrl "/srv/projects/a/../b.qgs") ?_ ?_ ?_).2 ht, ht⟩
  · rfl
  · rfl
  · rfl

theorem not_confined_parent_components :
    resolvePath [projectsRoute] false "/projects/../../etc/x.qgs".toList false =
        .ok (fileUrl "/srv/projects/../../etc/x.qgs") ∧
      ¬ (PosixPath.parse (fileUrl "/srv/projects/../../etc/x.qgs").path.render).LiesUnder
        projectsRoute.rootPath :=
  ⟨rfl, by decide +kernel⟩

end QJazz.Cache
