import QJazz.Cache.Listing
import QJazz.Cache.Matching

/-! The texts of the variables of a location are put into the whole url of the route, and then the
path into its query. -/
namespace QJazz.Cache

open Lexical List Template DynamicRoute RouteDef

namespace DynamicRoute

/-- The pattern of the location was built: it has a variable and no other brace. -/
structure Accepted (r : DynamicRoute) : Prop where
  opening : .char '{' ∉ r.location
  closing : .char '}' ∉ r.location
  variable_mem : ∃ x, .var x ∈ r.location

def takes (r : DynamicRoute) (path : PosixPath) : Bool :=
  (r.args path).isSome && path.isRelativeTo (r.locationOf path)

end DynamicRoute

namespace RouteDef

def Accepted : RouteDef → Prop
  | static r => '{' ∉ r.location ∧ '}' ∉ r.location
  | dynamic r => r.Accepted

def takes : RouteDef → PosixPath → Bool
  | static r, path => path.isRelativeTo (.parse r.location)
  | dynamic r, path => r.takes path

/-- The location is that of a directory above the path, with texts for its variables. -/
def MatchesPrefix : RouteDef → PosixPath → Prop
  | static r, path => path.isRelativeTo (.parse r.location) = true
  | dynamic r, path => ∃ σ rest, Matchable σ r.location ∧
      path.str = (Template.subst σ r.location).render ++ rest ∧
      EndsComponent (Template.subst σ r.location).render rest

/-- The url can be expanded: the query of a static route has no field but the path, and a dynamic route
has no field in its url but the variables of its location. -/
def Expands : RouteDef → Prop
  | static r => Fillable r.url.query
  | dynamic r => .char '{' ∉ r.url.geturl ∧ .char '}' ∉ r.url.geturl ∧
      ∀ x, .var x ∈ r.url.geturl → .var x ∈ r.location

end RouteDef

/-- Without direct resolution every path gets an url or is refused, and it gets one if some location
matches the start of the path. -/
def OnlyRefuses (routes : List RouteDef) : Prop :=
  ∀ path : Text,
    ((∃ url, resolvePath routes false path false = .ok url) ∨
      resolvePath routes false path false = .error .notAllowed) ∧
    ((∃ r ∈ routes, r.MatchesPrefix (.parse path)) →
      ∃ url, resolvePath routes false path false = .ok url)

lemma isRelativeTo_of_endsComponent {path : PosixPath} {m e : Text} {c : Char}
    (hst : path.str = m ++ e) (he : EndsComponent m e) (hc : c ∈ m) (hl : c ≠ '/') :
    path.isRelativeTo (.parse m) = true := by
  have hr := congrArg PosixPath.root path.parse_str.symm
  have hp := congrArg PosixPath.parts path.parse_str.symm
  rw [PosixPath.isRelativeTo_iff, hr, hp, hst]
  refine ⟨PosixPath.rootOf_append_of_mem e hc hl, ?_⟩
  change components m <+: components (m ++ e)
  rcases he with rfl | hh | ht
  · rw [append_nil]
  · obtain ⟨t, rfl⟩ := List.head?_eq_some_iff.1 hh
    rw [components_append_slash]
    exact prefix_append _ _
  · obtain ⟨f, rfl⟩ := List.getLast?_eq_some_iff.1 ht
    rw [append_assoc, components_append_slash, cons_append, nil_append,
      components_append_slash, components_nil, append_nil]
    exact prefix_append _ _

namespace DynamicRoute

variable {r : DynamicRoute} {path : PosixPath}

lemma value_of_args {a : List (String × Text)} (h : r.args path = some a) :
    r.value path = fun x => (a.lookup x).getD [] := by
  funext x
  rw [value, h]
  rfl

lemma takes_of_matchesPrefix (he : r.Accepted)
    (h : (RouteDef.dynamic r).MatchesPrefix path) : r.takes path = true := by
  obtain ⟨σ, e, hσ, ht, hn⟩ := h
  have hp := spans_render hσ e
  rw [← ht] at hp
  obtain ⟨a, hg⟩ := Option.isSome_iff_exists.1 hp.isSome_matchLocation
  have hr := hg
  rw [ht] at hr
  have hr := render_of_endsComponent r.vars_nodup hσ hn hr
  obtain ⟨x, hx⟩ := he.variable_mem
  obtain ⟨hne, ho⟩ := hσ x hx
  obtain ⟨c, hc⟩ := exists_mem_of_ne_nil _ hne
  have hme : c ∈ (Template.subst σ r.location).render := by
    rw [mem_render fun _ => var_notMem_subst, char_mem_subst]
    exact .inr ⟨x, hx, hc⟩
  have hh : c ≠ '/' := by
    rintro rfl
    exact absurd (ho _ hc) (by decide)
  have hl : r.locationOf path = .parse (Template.subst σ r.location).render := by
    rw [locationOf, value_of_args hg, hr]
  have hm : (r.args path).isSome := hp.isSome_matchLocation
  rw [takes, hm, hl, isRelativeTo_of_endsComponent ht hn hme hh]
  rfl

lemma isSome_lookup_args {a : List (String × Text)} (h : r.args path = some a) (x : String) :
    (a.lookup x).isSome ↔ .var x ∈ r.location :=
  isSome_lookup_of_matchLocation h x

lemma resolvePath_eq (he : r.Accepted) : r.resolvePath path = if r.takes path then
        (Template.format (fun x => ((r.args path).getD []).lookup x) r.url.geturl).elim
          (.error .format) fun url => .ok (some (r.locationOf path, Url.urlsplit url))
      else .ok none := by
  rw [resolvePath, takes]
  cases hg : r.args path with
  | none => rfl
  | some a =>
    have hl := isSome_lookup_args hg
    have hf : Template.format (fun x => a.lookup x) r.location =
        some (Template.subst (r.value path) r.location) := by
      rw [format_eq_some, value_of_args hg]
      exact ⟨⟨he.opening, he.closing, fun x hx => (hl x).2 hx⟩, rfl⟩
    cases a with
    | nil =>
      obtain ⟨x, hx⟩ := he.variable_mem
      exact absurd ((hl x).2 hx) (by simp)
    | cons arg a =>
      simp only [hf, Option.isSome_some, Bool.true_and, Option.getD_some, locationOf]
      by_cases hr :
          path.isRelativeTo (.parse (Template.subst (r.value path) r.location).render) = true
      · rw [if_pos hr, if_pos hr]
        cases Template.format (fun x => (arg :: a).lookup x) r.url.geturl <;> rfl
      · rw [if_neg hr, if_neg hr]

end DynamicRoute

namespace RouteDef

variable {r : RouteDef} {path : PosixPath}

lemma takes_of_matchesPrefix (he : r.Accepted) (h : r.MatchesPrefix path) :
    r.takes path = true := by
  cases r with
  | static r => exact h
  | dynamic r => exact takes_of_matchesPrefix he h

lemma resolvePath_of_not_takes (he : r.Accepted) (h : r.takes path = false) :
    r.resolvePath path = .ok none := by
  cases r with
  | static r =>
    have hr : ¬ path.isRelativeTo (.parse r.location) := by
      rw [takes] at h
      simp [h]
    rw [resolvePath, StaticRoute.resolvePath, if_neg hr]
  | dynamic r =>
    have ht : ¬ r.takes path := by
      rw [takes] at h
      simp [h]
    rw [resolvePath, resolvePath_eq he, if_neg ht]

lemma fillable_urlsplit_subst {σ : String → Text} {t : Template} (ho : .char '{' ∉ t)
    (hl : .char '}' ∉ t) (hσ : Matchable σ t) :
    Fillable (Url.urlsplit (Template.subst σ t)).query := by
  have hm {a : Symbol} (ha : a ∈ (Url.urlsplit (Template.subst σ t)).query) :
      a ∈ Template.subst σ t := by
    have ht := Url.mem_of_mem_urlsplit (t := Template.subst σ t) (a := a) (by simp [ha])
    exact (dropWhile_sublist _).mem (List.mem_filter.1 ht).1
  have hr {c : Char} (hn : .char c ∉ t) (hg : isGood c = false) :
      .char c ∉ (Url.urlsplit (Template.subst σ t)).query := by
    intro hc
    rcases char_mem_subst.1 (hm hc) with hc | ⟨x, hx, hc⟩
    · exact hn hc
    · rw [(hσ x hx).2 c hc] at hg
      cases hg
  exact ⟨hr ho rfl, hr hl rfl, fun x hx => absurd (hm hx) var_notMem_subst⟩

lemma resolvePath_of_takes (hp : r.Accepted) (h : r.takes path) :
    (r.resolvePath path = .error .format ∧ ¬ r.Expands) ∨
      ∃ l o, r.resolvePath path = .ok (some (l, o)) ∧ (Fillable o.query ↔ r.Expands) := by
  cases r with
  | static r =>
    refine .inr ⟨.parse r.location, r.url, ?_, Iff.rfl⟩
    rw [takes] at h
    rw [resolvePath, StaticRoute.resolvePath, if_pos h]
  | dynamic r =>
    have ht : r.takes path := h
    obtain ⟨a, hr⟩ := Option.isSome_iff_exists.1 (Bool.and_eq_true_iff.1 ht).1
    have hl := isSome_lookup_args hr
    rw [resolvePath, resolvePath_eq hp, if_pos ht, hr, Option.getD_some]
    cases hf : Template.format (fun x => a.lookup x) r.url.geturl with
    | none =>
      refine .inl ⟨rfl, fun he => ?_⟩
      have hm := format_eq_some.2
        ⟨⟨he.1, he.2.1, fun x hx => (hl x).2 (he.2.2 x hx)⟩, rfl⟩
      rw [hf] at hm
      cases hm
    | some url =>
      obtain ⟨⟨ho, hi, hu⟩, rfl⟩ := format_eq_some.1 hf
      refine .inr ⟨_, _, rfl, iff_of_true (fillable_urlsplit_subst ho hi ?_) ?_⟩
      · intro x hx
        exact matchable_of_matchLocation hr x ((hl x).1 (hu x hx))
      · exact ⟨ho, hi, fun x hx => (hl x).1 (hu x hx)⟩

end RouteDef

variable {routes : List RouteDef} {path : PosixPath} {r : RouteDef}

lemma findRoute_of_none (he : ∀ r ∈ routes, r.Accepted)
    (h : ∀ r ∈ routes, r.takes path = false) : findRoute routes path = .ok none := by
  induction routes with
  | nil => rfl
  | cons o routes ih =>
    rw [findRoute, resolvePath_of_not_takes (he _ mem_cons_self) (h _ mem_cons_self)]
    exact ih (fun r hr => he r (mem_cons_of_mem _ hr))
      fun r hr => h r (mem_cons_of_mem _ hr)

lemma findRoute_of_first (he : ∀ r ∈ routes, r.Accepted)
    (h : routes.find? (fun r => r.takes path) = some r) : findRoute routes path =
      (r.resolvePath path).map (Option.map fun f => ⟨r, f.1, f.2⟩) := by
  induction routes with
  | nil => cases h
  | cons o routes ih =>
    have hh := he _ mem_cons_self
    cases ho : o.takes path with
    | true =>
      rw [List.find?_cons_of_pos (by exact ho)] at h
      cases h
      rw [findRoute]
      rcases resolvePath_of_takes hh ho with ⟨heq, -⟩ | ⟨l, t, heq, -⟩
      · rw [heq]
        rfl
      · rw [heq]
        rfl
    | false =>
      rw [List.find?_cons_of_neg (by simp [ho])] at h
      rw [findRoute, resolvePath_of_not_takes hh ho]
      exact ih (fun r hr => he r (mem_cons_of_mem _ hr)) h

lemma placePath_of_not_fillable {o : Url} (h : ¬ Fillable o.query) :
    placePath o path = .error .format := by
  cases hp : placePath o path with
  | ok url => exact absurd (isOk_placePath_iff.1 ⟨url, hp⟩) h
  | error e =>
    rw [placePath] at hp
    split at hp
    · cases hp
      rfl
    · split at hp <;> cases hp

/-- A path that some route takes gets an url if the url of the first such route can be expanded, and
otherwise raises an error that is no refusal. -/
lemma resolvePath_of_first {path : Text} (hp : ∀ r ∈ routes, r.Accepted)
    (h : routes.find? (fun r => r.takes (.parse path)) = some r) :
    (r.Expands → ∃ url, resolvePath routes false path false = .ok url) ∧
      (¬ r.Expands → resolvePath routes false path false = .error .format) := by
  have hr := hp r (List.mem_of_find?_eq_some h)
  have ht := List.find?_some h
  have hf := findRoute_of_first hp h
  rw [resolvePath]
  rcases resolvePath_of_takes hr ht with ⟨heq, hn⟩ | ⟨l, o, heq, hif⟩
  · rw [heq] at hf
    rw [hf]
    exact ⟨fun he => absurd he hn, fun _ => rfl⟩
  · rw [heq] at hf
    rw [hf]
    refine ⟨fun he => isOk_placePath_iff.2 (hif.2 he), fun hn => ?_⟩
    exact placePath_of_not_fillable fun hi => hn (hif.1 hi)

lemma scheme_urlsplit_subst {u : Url} {σ : String → Text} (h : Url.IsScheme u.scheme) :
    (Url.urlsplit (Template.subst σ u.geturl)).scheme = u.scheme := by
  have hu : Template.subst σ u.geturl =
      u.scheme ++ .char ':' :: Template.subst σ (u.hierarchy ++ u.tail) := by
    rw [Url.geturl_of_isScheme h, subst_append, Url.subst_scheme h, subst_char]
  change (Url.splitScheme (Url.strip (Template.subst σ u.geturl))).1 = u.scheme
  rw [hu, Url.strip_scheme h, Url.splitScheme_append h]

lemma scheme_of_placePath {o url : Url} (h : placePath o path = .ok url) :
    url.scheme = o.scheme := by
  rcases placePath_eq_ok h with ⟨-, rfl⟩ | ⟨-, rfl⟩
  · rfl
  · rfl

lemma route_mem_of_findRoute {f : Found} (h : findRoute routes path = .ok (some f)) :
    f.route ∈ routes := by
  induction routes with
  | nil => cases h
  | cons o routes ih =>
    rw [findRoute] at h
    cases hr : o.resolvePath path with
    | error e => simp [hr] at h
    | ok s =>
      cases s with
      | none =>
        simp only [hr] at h
        exact mem_cons_of_mem _ (ih h)
      | some s =>
        simp only [hr, Except.ok.injEq, Option.some.injEq] at h
        rw [← h]
        exact mem_cons_self

lemma scheme_of_resolvePath {path : Text} {d a : Bool} {url : Url}
    (hf : ∀ r ∈ routes, r.url.scheme = fileScheme) (hh : path.head? = some '/')
    (h : resolvePath routes d path a = .ok url) : url.scheme = fileScheme := by
  cases hfound : findRoute routes (.parse path) with
  | error e =>
    rw [resolvePath, hfound] at h
    cases h
  | ok s =>
    cases s with
    | none =>
      rw [resolvePath, hfound] at h
      have ho : (PosixPath.parse path).str.head? = some '/' := by
        refine PosixPath.head?_str fun ht => ?_
        exact PosixPath.root_parse_eq_none.1 ht hh
      simp only at h
      split at h
      · cases h
        rw [validateUrl, if_pos (scheme_urlsplit_of_rooted ho)]
      · cases h
    | some f =>
      rw [scheme_of_placePath (resolvePath_of_found hfound h),
        ← hf f.route (route_mem_of_findRoute hfound)]
      have hr := resolvePath_of_findRoute hfound
      obtain ⟨o, l, t⟩ := f
      cases o with
      | static r =>
        rw [(StaticRoute.resolvePath_eq_some (Except.ok.inj hr)).2]
        rfl
      | dynamic r =>
        rw [(resolvePath_eq_some hr).2.1]
        exact scheme_urlsplit_subst (wellFormed_validateUrl r.urlstr).isScheme

def userDirectory : DynamicRoute where
  location := Template.ofText "/users/".toList ++ [.var "user"]
  urlstr := Template.ofText "/srv/".toList ++ [.var "user"]
  location_rooted := by decide
  vars_nodup := by decide

def expandingRoutes : List RouteDef :=
  [.static ⟨"/maps".toList, Template.ofText "/srv/maps".toList, head?_maps⟩, .dynamic userDirectory]

def userDatabase : DynamicRoute where
  location := [.char '/', .var "user"]
  urlstr := Template.ofText "geopackage:/srv/".toList ++ [.var "user"] ++
    Template.ofText ".gpkg?projectName=".toList ++ [.var "path"]
  location_rooted := rfl
  vars_nodup := by decide

def schemaRoute : StaticRoute where
  location := "/maps".toList
  urlstr := Template.ofText "postgresql:?schema=".toList ++ [.var "schema"]
  location_rooted := head?_maps

end QJazz.Cache
