import QJazz.Cache.Listing
import QJazz.Lexical.QueryString

/-! `PostgresHandler` and `GeoPackageHandler`: the projects are kept in a database, and a project is
named by a parameter of the url, or for PostgreSQL also by its path. -/
namespace QJazz.Cache

open Lexical List Url Template

def urlParameters (url : Url) : List (String × Text) := parameters url.query.render

def pathParts (p : PosixPath) : List Text :=
  if p.root = .none then p.parts else p.root.text :: p.parts

def givenParameter (key : String) (q : List (String × Text)) : Option Text :=
  (q.lookup key).filter (· ≠ [])

structure PostgresHandler where
  conf : Text
  scheme_eq : (Url.urlsplit (.ofText conf)).scheme = .ofText "postgresql".toList

namespace PostgresHandler

variable (h : PostgresHandler)

def uri : Url := Url.urlsplit (.ofText h.conf)

def query : List (String × Text) := urlParameters h.uri

def merged (url : Url) : List (String × Text) := updateDict h.query (urlParameters url)

def resolvedParameters (url : Url) : Except CacheError (List (String × Text)) :=
  let parts := pathParts (.parse url.path.render)
  let project := givenParameter "project" (h.merged url)
  if parts.length = 1 ∧ project = none then .ok (setKey "project" (parts.headD []) (h.merged url))
  else if parts.length = 0 ∧ project ≠ none then .ok (h.merged url)
  else .error (.notAllowed (.ofList url.path.render))

/-- The base uri with the host of an url, unless it has one, and with parameters. -/
def uriWith (url : Url) (q : List (String × Text)) : Url where
  scheme := h.uri.scheme
  netloc := if h.uri.netloc = [] then .ofText url.netloc.render else h.uri.netloc
  path := []
  query := .ofText (urlencode q)
  fragment := h.uri.fragment

def resolveUri (url : Url) : Except CacheError Text :=
  (h.resolvedParameters url).map fun q => (h.uriWith url q).geturl.render

def publicPath (uri location : Text) (rooturl : Url) : Option Text :=
  if givenParameter "project" (h.merged rooturl) = none then
    ((urlParameters (Url.urlsplit (.ofText uri))).lookup "project").map fun project =>
      ((PosixPath.parse location).join (.parse project)).str
  else some (PosixPath.parse location).str

end PostgresHandler

structure GeoPackageHandler where
  path : Option PosixPath

namespace GeoPackageHandler

variable (h : GeoPackageHandler)

def database (url : Url) : Option PosixPath :=
  if url.path.render ≠ [] then some (.parse url.path.render) else h.path

def scheme : Text := "geopackage".toList

def projectKey : Text := "projectName=".toList

def projectUri (path : PosixPath) (project : Text) : Text :=
  scheme ++ ':' :: (path.str ++ '?' :: (projectKey ++ project))

def resolveUri (url : Url) : Except CacheError Text :=
  match h.database url, givenParameter "projectName" (urlParameters url) with
  | some path, some project => .ok (projectUri path project)
  | _, _ => .error .other

def publicPath (uri location : Text) (rooturl : Url) : Option Text :=
  if (urlParameters rooturl).lookup "projectName" = some "\x7bpath\x7d".toList then
    ((urlParameters (Url.urlsplit (.ofText uri))).lookup "projectName").map fun project =>
      ((PosixPath.parse location).join (.parse project)).str
  else some (PosixPath.parse location).str

end GeoPackageHandler

inductive DatabaseHandler where
  | postgresql (h : PostgresHandler)
  | geopackage (h : GeoPackageHandler)

namespace DatabaseHandler

def resolveUri : DatabaseHandler → Url → Except CacheError Text
  | postgresql h, url => h.resolveUri url
  | geopackage h, url => h.resolveUri url

def publicPath : DatabaseHandler → Text → Text → Url → Option Text
  | postgresql h, uri, location, rooturl => h.publicPath uri location rooturl
  | geopackage _, uri, location, rooturl => GeoPackageHandler.publicPath uri location rooturl

end DatabaseHandler

variable {url : Url} {q : List (String × Text)} {key : String} {v : Text}

lemma givenParameter_eq_some : givenParameter key q = some v ↔ q.lookup key = some v ∧ v ≠ [] := by
  simp [givenParameter, Option.filter_eq_some_iff]

lemma nodup_urlParameters (url : Url) : ((urlParameters url).map Prod.fst).Nodup :=
  nodup_updateDict nodup_nil

lemma ne_nil_of_mem_urlParameters {x : String × Text} (h : x ∈ urlParameters url) : x.2 ≠ [] := by
  rcases mem_updateDict h with hn | hm
  · cases hn
  · exact ne_nil_of_mem_parseQsl hm

lemma ne_nil_of_mem_pathParts {p : PosixPath} (h : v ∈ pathParts p) : v ≠ [] := by
  have hp : v ∈ p.parts → v ≠ [] := by
    rintro hm rfl
    exact absurd (p.isPart_of_mem _ hm) (by decide)
  rw [pathParts] at h
  split at h
  · exact hp h
  next hr =>
    rcases mem_cons.1 h with rfl | hm
    · revert hr
      cases p.root <;> decide
    · exact hp hm

def CleanHost (url : Url) : Prop :=
  ∀ c ∈ url.netloc.render, (Symbol.char c).isDelim = false ∧ (Symbol.char c).isUnsafe = false

lemma cleanHost_urlsplit {t : Template} (h : ∀ x, .var x ∉ t) : CleanHost (Url.urlsplit t) := by
  intro c hc
  have hv : ∀ x, .var x ∉ (Url.urlsplit t).netloc := fun x hx =>
    var_notMem_urlsplit (h x) (by simp [hx])
  rw [mem_render hv] at hc
  have hp := split_urlsplit t
  exact ⟨hp.netloc_delim _ hc, hp.safe _ (by simp [hc])⟩

namespace PostgresHandler

lemma cleanHost_placePath {r : Url} {path : PosixPath} (hr : CleanHost r)
    (h : placePath r path = .ok url) : CleanHost url := by
  rcases placePath_eq_ok h with ⟨-, rfl⟩ | ⟨-, rfl⟩
  · exact hr
  · exact hr

variable {h : PostgresHandler}

/-- The parameters of a project: those of the configuration come first, none is empty, and the project
is among them. -/
structure Resolved (h : PostgresHandler) (q : List (String × Text)) : Prop where
  keys : h.query.map Prod.fst <+: q.map Prod.fst
  nodup : (q.map Prod.fst).Nodup
  ne_nil : ∀ x ∈ q, x.2 ≠ []
  project : (q.lookup "project").isSome = true

lemma ne_nil_of_mem_merged {x : String × Text} (hx : x ∈ h.merged url) : x.2 ≠ [] := by
  rcases mem_updateDict hx with hm | hm
  · exact ne_nil_of_mem_urlParameters hm
  · exact ne_nil_of_mem_urlParameters hm

lemma keys_prefix_merged (h : PostgresHandler) (url : Url) :
    h.query.map Prod.fst <+: (h.merged url).map Prod.fst :=
  keys_prefix_updateDict _ _

lemma nodup_merged (h : PostgresHandler) (url : Url) : ((h.merged url).map Prod.fst).Nodup :=
  nodup_updateDict (nodup_urlParameters _)

lemma resolved_setKey (hv : v ≠ []) : h.Resolved (setKey "project" v (h.merged url)) where
  keys := (h.keys_prefix_merged url).trans (keys_prefix_setKey _ _ _)
  nodup := Json.nodup_setKey (h.nodup_merged url)
  ne_nil := by
    intro x hx
    rcases mem_setKey hx with rfl | hx
    · exact hv
    · exact ne_nil_of_mem_merged hx
  project := by
    rw [lookup_setKey_self]
    rfl

lemma resolved_of_resolvedParameters (hq : h.resolvedParameters url = .ok q) : h.Resolved q := by
  simp only [resolvedParameters] at hq
  split at hq
  next hr =>
    cases hq
    obtain ⟨p, ho⟩ := length_eq_one_iff.1 hr.1
    have hm : p ∈ pathParts (.parse url.path.render) := by simp [ho]
    rw [ho]
    exact resolved_setKey (ne_nil_of_mem_pathParts hm)
  · split at hq
    next hp =>
      cases hq
      obtain ⟨n, hn⟩ := Option.ne_none_iff_exists'.1 hp.2
      exact ⟨h.keys_prefix_merged url, h.nodup_merged url, fun x hx => ne_nil_of_mem_merged hx,
        by rw [(givenParameter_eq_some.1 hn).1]; rfl⟩
    · cases hq

lemma Resolved.givenParameter_ne_none (hq : h.Resolved q) : givenParameter "project" q ≠ none := by
  obtain ⟨n, hn⟩ := Option.isSome_iff_exists.1 hq.project
  rw [givenParameter_eq_some.2 ⟨hn, hq.ne_nil _ (Json.mem_of_lookup hn)⟩]
  exact Option.some_ne_none _

lemma urlParameters_uriWith (hq : h.Resolved q) : urlParameters (h.uriWith url q) = q := by
  rw [urlParameters, uriWith, render_ofText, parameters_urlencode hq.ne_nil hq.nodup]

lemma resolvedParameters_uriWith (hq : h.Resolved q) :
    h.resolvedParameters (h.uriWith url q) = .ok q := by
  have hp : pathParts (.parse (h.uriWith url q).path.render) = [] := rfl
  simp only [resolvedParameters, merged, urlParameters_uriWith hq, updateDict_of_keys hq.keys hq.nodup, hp]
  rw [if_neg (by simp), if_pos ⟨rfl, hq.givenParameter_ne_none⟩]

@[simp] lemma uriWith_uriWith : h.uriWith (h.uriWith url q) q = h.uriWith url q := by
  rw [uriWith, uriWith]
  by_cases hn : h.uri.netloc = []
  · simp [hn]
  · simp [hn]

lemma isUnsafe_of_isQuoted {c : Char} (h : isQuoted c) : (Symbol.char c).isUnsafe = false := by
  by_contra hu
  simp only [Symbol.isUnsafe, Bool.not_eq_false, Bool.or_eq_true, decide_eq_true_eq] at hu
  rcases hu with (rfl | rfl) | rfl <;> exact absurd h (by decide)

lemma fragment_notMem_urlencode : '#' ∉ urlencode q := by
  intro hc
  rcases of_mem_urlencode hc with hc | hc | hc <;> exact absurd hc (by decide)

lemma wellFormed_uriWith (hh : CleanHost url) : Url.WellFormed (h.uriWith url q) := by
  have hp : Url.Split h.uri := split_urlsplit _
  have hscheme : Url.IsScheme h.uri.scheme := by
    refine isScheme_urlsplit ?_
    rw [h.scheme_eq]
    decide
  have hn : ∀ a ∈ (h.uriWith url q).netloc, a.isDelim = false ∧ a.isUnsafe = false := by
    intro a ha
    rw [uriWith] at ha
    split at ha
    · obtain ⟨c, hc, rfl⟩ := List.mem_map.1 ha
      exact hh c hc
    · exact ⟨hp.netloc_delim a ha, hp.safe a (by simp [ha])⟩
  exact
    { netloc_delim := fun a ha => (hn a ha).1
      path_query := not_mem_nil
      path_fragment := not_mem_nil
      query_fragment := fun hm => fragment_notMem_urlencode (char_mem_ofText.1 hm)
      safe := by
        intro a ha
        simp only [mem_append] at ha
        rcases ha with ((ha | ha) | ha) | ha
        · exact (hn a ha).2
        · cases ha
        · obtain ⟨c, hc, rfl⟩ := List.mem_map.1 ha
          rcases of_mem_urlencode hc with hc | rfl | rfl
          · exact isUnsafe_of_isQuoted hc
          · rfl
          · rfl
        · exact hp.safe a (mem_append_right _ ha)
      isScheme := hscheme
      rooted := fun _ => .inl rfl }

lemma var_notMem_uriWith (x : String) :
    .var x ∉ (h.uriWith url q).netloc ++ (h.uriWith url q).path ++ (h.uriWith url q).query ++
      (h.uriWith url q).fragment := by
  have huri := var_notMem_urlsplit (t := .ofText h.conf) (x := x) var_notMem_ofText
  simp only [mem_append, not_or] at huri ⊢
  refine ⟨⟨⟨?_, not_mem_nil⟩, var_notMem_ofText⟩, huri.2⟩
  rw [uriWith]
  split
  · exact var_notMem_ofText
  · exact huri.1.1.1

lemma urlsplit_uriWith (hh : CleanHost url) :
    Url.urlsplit (.ofText (h.uriWith url q).geturl.render) = h.uriWith url q :=
  urlsplit_geturl (wellFormed_uriWith hh) var_notMem_uriWith

end PostgresHandler

namespace GeoPackageHandler

variable {path : PosixPath} {project : Text}

structure PlainDatabase (path : PosixPath) : Prop where
  root : path.root ≠ .double
  clean : Clean path

/-- What of the name of a project is read in an uri. -/
def legible (project : Text) : Text :=
  (project.filter fun c => !(Symbol.char c).isUnsafe).takeWhile (· ≠ '#')

lemma isScheme_scheme : Url.IsScheme (.ofText scheme) where
  head := by decide
  chars := by decide
  lower := by decide

lemma isPathChar_of_mem_projectKey : ∀ c ∈ projectKey, isPathChar c = true :=
  List.all_eq_true.1 (by decide)

lemma ofText_str_ne_slashes (h : PlainDatabase path) (s : Text) (r : Template) :
    Template.ofText (path.str ++ '?' :: s) ≠ Url.slashes ++ r := by
  intro heq
  have ht : path.str ++ '?' :: s = '/' :: '/' :: r.render := by
    have he := congrArg Template.render heq
    rwa [render_ofText, render_append] at he
  have hh := path.head?_intercalate
  rw [PosixPath.str] at ht
  split at ht
  · cases ht
  · cases hr : path.root with
    | none =>
      rw [hr] at ht
      cases hp : ['/'].intercalate path.parts with
      | nil => simp [hp, Root.text] at ht
      | cons c t =>
        rw [hp] at ht hh
        exact hh (congrArg some (List.cons.inj ht).1)
    | single =>
      rw [hr] at ht
      have hi := (List.cons.inj ht).2
      cases hp : ['/'].intercalate path.parts with
      | nil => simp [hp] at hi
      | cons c t =>
        rw [hp] at hi hh
        exact hh (congrArg some (List.cons.inj hi).1)
    | double => exact h.root hr

lemma filter_ofText (s : Text) : (Template.ofText s).filter (fun a => !a.isUnsafe) =
      Template.ofText (s.filter fun c => !(Symbol.char c).isUnsafe) := by
  rw [Template.ofText, List.filter_map]
  rfl

lemma takeWhile_ofText (s : Text) (c : Char) :
    (Template.ofText s).takeWhile (· ≠ .char c) = Template.ofText (s.takeWhile (· ≠ c)) := by
  rw [Template.ofText, takeWhile_map, Template.ofText]
  congr 2
  funext d
  simp

lemma filter_of_pathChars {s : Text} (h : ∀ c ∈ s, isPathChar c) :
    s.filter (fun c => !(Symbol.char c).isUnsafe) = s := by
  rw [filter_eq_self]
  intro c hc
  rw [(isPathChar_iff.1 (h c hc)).2.2]
  rfl

lemma takeWhile_of_pathChars {s t : Text} (h : ∀ c ∈ s, isPathChar c) :
    (s ++ t).takeWhile (· ≠ '#') = s ++ t.takeWhile (· ≠ '#') :=
  takeWhile_append_of_pos fun c hc => decide_eq_true (isPathChar_iff.1 (h c hc)).2.1

lemma urlsplit_projectUri (h : PlainDatabase path) (project : Text) :
    (Url.urlsplit (.ofText (projectUri path project))).path = .ofText path.str ∧
      (Url.urlsplit (.ofText (projectUri path project))).query =
        .ofText (projectKey ++ legible project) := by
  have hf : (path.str ++ '?' :: (projectKey ++ project)).filter
      (fun c => !(Symbol.char c).isUnsafe) = path.str ++ '?' :: (projectKey ++
        project.filter fun c => !(Symbol.char c).isUnsafe) := by
    rw [filter_append, filter_of_pathChars (clean_iff_str.1 h.clean),
      filter_cons_of_pos (by decide), filter_append,
      filter_of_pathChars isPathChar_of_mem_projectKey]
  have hscheme : Url.splitScheme (Url.strip (.ofText (projectUri path project))) =
      (.ofText scheme, .ofText (path.str ++ '?' :: (projectKey ++
        project.filter fun c => !(Symbol.char c).isUnsafe))) := by
    have ht : Template.ofText (projectUri path project) = Template.ofText scheme ++
        .char ':' :: Template.ofText (path.str ++ '?' :: (projectKey ++ project)) := by
      rw [projectUri, Template.ofText, map_append]
      rfl
    rw [ht, strip_scheme isScheme_scheme, splitScheme_append isScheme_scheme,
      filter_ofText, hf]
  have hn := splitNetloc_of_ne (ofText_str_ne_slashes h (projectKey ++
    project.filter fun c => !(Symbol.char c).isUnsafe))
  have hu : (cut '#' (.ofText (path.str ++ '?' :: (projectKey ++
      project.filter fun c => !(Symbol.char c).isUnsafe)))).1 =
        Template.ofText path.str ++ .char '?' :: Template.ofText (projectKey ++ legible project) := by
    rw [cut_fst, takeWhile_ofText, takeWhile_of_pathChars (clean_iff_str.1 h.clean),
      takeWhile_cons_of_pos (by decide), takeWhile_of_pathChars isPathChar_of_mem_projectKey,
      Template.ofText, map_append]
    rfl
  have hq : cut '?' (Template.ofText path.str ++ .char '?' ::
      Template.ofText (projectKey ++ legible project)) =
        (.ofText path.str, some (.ofText (projectKey ++ legible project))) := by
    refine cut_append fun hm => ?_
    exact absurd (clean_iff_str.1 h.clean _ (char_mem_ofText.1 hm)) (by decide)
  rw [Url.urlsplit]
  simp only [hscheme, hn, Url.splitTail, hu, hq, Option.getD_some, and_self]

end GeoPackageHandler
end QJazz.Cache
