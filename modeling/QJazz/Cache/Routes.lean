import QJazz.Lexical.Query

/-! The url of the first route that matches gets the texts of the variables and the rest of the
path. -/
namespace QJazz.Cache

open Lexical List Template

def fileScheme : Template := Template.ofText "file".toList

def validateUrl (urlstr : Template) : Url :=
  if (Url.urlsplit urlstr).scheme = [] then { Url.urlsplit urlstr with scheme := fileScheme }
  else Url.urlsplit urlstr

lemma isScheme_fileScheme : Url.IsScheme fileScheme where
  head := by decide
  chars := by decide
  lower := by decide

lemma wellFormed_validateUrl (u : Template) : (validateUrl u).WellFormed := by
  by_cases h : (Url.urlsplit u).scheme = []
  · rw [validateUrl, if_pos h]
    exact Url.wellFormed_urlsplit u isScheme_fileScheme
  · rw [validateUrl, if_neg h]
    exact Url.wellFormed_urlsplit u (Url.isScheme_urlsplit h)

def isGood (c : Char) : Bool :=
  decide (c ≠ '{') && decide (c ≠ '}') && decide (c ≠ '/')

def longest {β : Type} (f : ℕ → Option β) : ℕ → Option β
  | 0 => none
  | n + 1 => (f (n + 1)).or (longest f n)

/-- The texts of the variables in the match of a location with the start of a text. A variable takes
as many characters as the rest of the location allows. -/
def matchLocation : Template → Text → Option (List (String × Text))
  | [], _ => some []
  | .char _ :: _, [] => none
  | .char c :: t, d :: s => if c = d then matchLocation t s else none
  | .var x :: t, s =>
    longest (fun n => (matchLocation t (s.drop n)).map ((x, s.take n) :: ·))
      (s.takeWhile isGood).length

lemma exists_of_longest {β : Type} {f : ℕ → Option β} {n : ℕ} {b : β}
    (h : longest f n = some b) : ∃ m, 0 < m ∧ m ≤ n ∧ f m = some b := by
  induction n with
  | zero => cases h
  | succ n ih =>
    rw [longest, Option.or_eq_some_iff] at h
    cases h with
    | inl h => exact ⟨n + 1, by omega, le_rfl, h⟩
    | inr h =>
      obtain ⟨m, hp, hle, hm⟩ := ih h.2
      exact ⟨m, hp, by omega, hm⟩

lemma isGood_of_mem_take {s : Text} {n : ℕ} (hn : n ≤ (s.takeWhile isGood).length) {c : Char}
    (hc : c ∈ s.take n) : isGood c = true := by
  have hlen := (length_take_le n s).trans hn
  have hp := prefix_of_prefix_length_le ( take_prefix n s)
    ( takeWhile_prefix isGood) hlen
  exact mem_takeWhile_imp (hp.mem hc)

lemma isGood_of_matchLocation {t : Template} {s : Text} {g : List (String × Text)}
    (h : matchLocation t s = some g) {x : String} {v : Text} (hx : (x, v) ∈ g) :
    v ≠ [] ∧ ∀ c ∈ v, isGood c = true := by
  induction t generalizing s g with
  | nil =>
    cases h
    cases hx
  | cons a t ih =>
    cases a with
    | char c =>
      cases s with
      | nil => cases h
      | cons d s =>
        rw [matchLocation] at h
        split at h
        · exact ih h hx
        · cases h
    | var y =>
      rw [matchLocation] at h
      obtain ⟨n, hp, hle, hn⟩ := exists_of_longest h
      obtain ⟨e, hr, rfl⟩ := Option.map_eq_some_iff.1 hn
      cases mem_cons.1 hx with
      | inl heq =>
        cases heq
        have hlen := hle.trans ( takeWhile_prefix isGood).length_le
        refine ⟨?_, fun c hc => isGood_of_mem_take hle hc⟩
        intro hi
        have := congrArg List.length hi
        simp only [length_take, length_nil] at this
        omega
      | inr hmem => exact ih hr hmem

inductive ResolveError where
  /-- `str.format` raised: a field without a value or a stray brace. -/
  | format
  /-- `ResourceNotAllowed` -/
  | notAllowed
  deriving DecidableEq

structure StaticRoute where
  location : Text
  urlstr : Template
  location_rooted : location.head? = some '/'

/-- A route with variables. The pattern of a location that has a variable twice does not compile. -/
structure DynamicRoute where
  location : Template
  urlstr : Template
  location_rooted : location.head? = some (.char '/')
  vars_nodup : (location.filter fun a => !a.isChar).Nodup

namespace StaticRoute

def url (r : StaticRoute) : Url :=
  validateUrl r.urlstr

def resolvePath (r : StaticRoute) (path : PosixPath) : Option (PosixPath × Url) :=
  if path.isRelativeTo (.parse r.location) then some (.parse r.location, r.url) else none

end StaticRoute

namespace DynamicRoute

def url (r : DynamicRoute) : Url :=
  validateUrl r.urlstr

def args (r : DynamicRoute) (path : PosixPath) : Option (List (String × Text)) :=
  matchLocation r.location path.str

def resolvePath (r : DynamicRoute) (path : PosixPath) :
    Except ResolveError (Option (PosixPath × Url)) :=
  match r.args path with
  | none => .ok none
  | some [] => .ok none
  | some args =>
    match Template.format (fun x => args.lookup x) r.location with
    | none => .error .format
    | some location =>
      if path.isRelativeTo (.parse location.render) then
        match Template.format (fun x => args.lookup x) r.url.geturl with
        | none => .error .format
        | some url => .ok (some (.parse location.render, Url.urlsplit url))
      else .ok none

end DynamicRoute

inductive RouteDef where
  | static (route : StaticRoute)
  | dynamic (route : DynamicRoute)

namespace RouteDef

def url : RouteDef → Url
  | static r => r.url
  | dynamic r => r.url

def resolvePath : RouteDef → PosixPath → Except ResolveError (Option (PosixPath × Url))
  | static r, path => .ok (r.resolvePath path)
  | dynamic r, path => r.resolvePath path

end RouteDef

structure Found where
  route : RouteDef
  location : PosixPath
  rooturl : Url

def findRoute : List RouteDef → PosixPath → Except ResolveError (Option Found)
  | [], _ => .ok none
  | route :: routes, path =>
    match route.resolvePath path with
    | .error e => .error e
    | .ok none => findRoute routes path
    | .ok (some (location, rooturl)) => .ok (some { route, location, rooturl })

def appendPath (rooturl : Url) (path : PosixPath) : Url :=
  { rooturl with path := .ofText ((PosixPath.parse rooturl.path.render).join path).str }

/-- The url with the path in the place of `{path}` in its query or, if that leaves the query as it
is, behind its own path. -/
def placePath (rooturl : Url) (path : PosixPath) : Except ResolveError Url :=
  match Template.format (fun x => if x = "path" then some path.str else none) rooturl.query with
  | none => .error .format
  | some query =>
    if query.render ≠ rooturl.query.render then .ok { rooturl with query }
    else .ok (appendPath rooturl path)

def resolvePath (routes : List RouteDef) (allowDirectPathResolution : Bool) (path : Text)
    (allowDirect : Bool) : Except ResolveError Url :=
  match findRoute routes (.parse path) with
  | .error e => .error e
  | .ok (some found) => placePath found.rooturl ((PosixPath.parse path).relativeTo found.location)
  | .ok none =>
    if allowDirect || allowDirectPathResolution then
      .ok (validateUrl (Template.ofText (PosixPath.parse path).str))
    else .error .notAllowed

namespace DynamicRoute

variable {r : DynamicRoute} {path l : PosixPath} {rooturl : Url} {x : String}

def value (r : DynamicRoute) (path : PosixPath) (x : String) : Text :=
  (((r.args path).getD []).lookup x).getD []

def locationOf (r : DynamicRoute) (path : PosixPath) : PosixPath :=
  .parse (Template.subst (r.value path) r.location).render

/-- A route that resolves a path puts the texts of its variables into its url, and every variable of
the url has a text. -/
lemma resolvePath_eq_some (h : r.resolvePath path = .ok (some (l, rooturl))) :
    l = r.locationOf path ∧
      rooturl = Url.urlsplit (Template.subst (r.value path) r.url.geturl) ∧
      ∀ x, .var x ∈ r.url.geturl → r.value path x ≠ [] ∧ ∀ c ∈ r.value path x, isGood c = true := by
  rw [resolvePath] at h
  cases hr : r.args path with
  | none => simp [hr] at h
  | some args =>
    cases args with
    | nil => simp [hr] at h
    | cons arg args =>
      have hl : r.value path = fun x => ((arg :: args).lookup x).getD [] := by
        funext x
        rw [value, hr]
        rfl
      simp only [hr] at h
      cases hlc : Template.format (fun x => (arg :: args).lookup x) r.location with
      | none => simp [hlc] at h
      | some loc =>
        simp only [hlc] at h
        split at h
        · cases hurl : Template.format (fun x => (arg :: args).lookup x) r.url.geturl with
          | none => simp [hurl] at h
          | some url =>
            simp only [hurl, Except.ok.injEq, Option.some.injEq, Prod.mk.injEq] at h
            have hlo := (format_eq_some.1 hlc).2
            obtain ⟨⟨-, -, ho⟩, hu⟩ := format_eq_some.1 hurl
            rw [locationOf, hl]
            refine ⟨?_, ?_, ?_⟩
            · rw [← h.1, hlo]
            · rw [← h.2, hu]
            · intro x hx
              obtain ⟨v, hv⟩ := Option.isSome_iff_exists.1 (ho x hx)
              obtain ⟨f, b, hp, -⟩ := lookup_eq_some_iff.1 hv
              have hm : (x, v) ∈ arg :: args := by simp [hp]
              simpa [hv] using isGood_of_matchLocation hr hm
        · simp at h

end DynamicRoute

def pathValue (path : PosixPath) (x : String) : Text :=
  if x = "path" then path.str else []

def InQuery (rooturl : Url) (path : PosixPath) : Prop :=
  .var "path" ∈ rooturl.query ∧ path.str ≠ (Symbol.var "path").text

instance (rooturl : Url) (path : PosixPath) : Decidable (InQuery rooturl path) :=
  inferInstanceAs (Decidable (_ ∧ _))

lemma placePath_eq_ok {rooturl url : Url} {path : PosixPath}
    (h : placePath rooturl path = .ok url) : (InQuery rooturl path ∧
      url = { rooturl with query := Template.subst (pathValue path) rooturl.query }) ∨
    (¬ InQuery rooturl path ∧ url = appendPath rooturl path) := by
  rw [placePath] at h
  cases hf : Template.format (fun x => if x = "path" then some path.str else none)
      rooturl.query with
  | none => simp [hf] at h
  | some query =>
    obtain ⟨⟨-, -, hu⟩, hq⟩ := format_eq_some.1 hf
    have hv : (fun x => (if x = "path" then some path.str else none).getD []) =
        pathValue path := by
      funext x
      rw [pathValue]
      split <;> rfl
    have hn : ∀ x, .var x ∈ rooturl.query → x = "path" := by
      intro x hx
      by_contra hne
      have ho := hu x hx
      rw [if_neg hne] at ho
      cases ho
    have hi : query.render ≠ rooturl.query.render ↔ InQuery rooturl path := by
      rw [hq, hv, InQuery]
      by_cases hm : .var "path" ∈ rooturl.query
      · rw [ne_eq, render_subst_eq_iff hn hm]
        exact ⟨fun hne => ⟨hm, hne⟩, fun hne => hne.2⟩
      · have he : ∀ x, .var x ∉ rooturl.query := by
          intro x hx
          exact hm (hn x hx ▸ hx)
        rw [subst_eq_self he]
        exact ⟨fun hne => absurd rfl hne, fun hne => absurd hne.1 hm⟩
    simp only [hf] at h
    by_cases hne : query.render ≠ rooturl.query.render
    · rw [if_pos hne, hq, hv] at h
      cases h
      exact Or.inl ⟨hi.1 hne, rfl⟩
    · rw [if_neg hne] at h
      cases h
      exact Or.inr ⟨fun hin => hne (hi.2 hin), rfl⟩

lemma placePath_urlsplit_subst {u url : Url} {σ : String → Text} {path : PosixPath}
    (h : placePath (Url.urlsplit (Template.subst σ u.geturl)) path = .ok url) :
    url = appendPath (Url.urlsplit (Template.subst σ u.geturl)) path := by
  obtain ⟨hin, -⟩ | ⟨-, heq⟩ := placePath_eq_ok h
  · refine absurd ?_ (Url.var_notMem_urlsplit (x := "path")
      (var_notMem_subst (σ := σ) (t := u.geturl)))
    simp [hin.1]
  · exact heq

lemma resolvePath_of_findRoute {o : List RouteDef} {path : PosixPath} {f : Found}
    (h : findRoute o path = .ok (some f)) :
    f.route.resolvePath path = .ok (some (f.location, f.rooturl)) := by
  induction o with
  | nil => cases h
  | cons u o ih =>
    rw [findRoute] at h
    cases hr : u.resolvePath path with
    | error e => simp [hr] at h
    | ok s =>
      cases s with
      | none =>
        simp only [hr] at h
        exact ih h
      | some s =>
        simp only [hr, Except.ok.injEq, Option.some.injEq] at h
        rw [← h]
        exact hr

lemma resolvePath_of_found {o : List RouteDef} {d a : Bool} {path : Text}
    {f : Found} {url : Url} (hfound : findRoute o (.parse path) = .ok (some f))
    (hurl : resolvePath o d path a = .ok url) :
    placePath f.rooturl ((PosixPath.parse path).relativeTo f.location) = .ok url := by
  rwa [resolvePath, hfound] at hurl

lemma StaticRoute.resolvePath_eq_some {r : StaticRoute} {path location : PosixPath}
    {rooturl : Url} (h : r.resolvePath path = some (location, rooturl)) :
    location = .parse r.location ∧ rooturl = r.url := by
  rw [resolvePath, Option.ite_none_right_eq_some] at h
  cases h.2
  exact ⟨rfl, rfl⟩

end QJazz.Cache
