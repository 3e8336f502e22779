import QJazz.Cache.Canonical
import QJazz.Cache.S3Handler

/-! The projects of an object storage or a database are shown at the paths that `public_path` makes
of their uris, and fetched by `resolve_path` and the handler's `resolve_uri`, which are meant to be
its inverse. -/
namespace QJazz.Cache

open Lexical List Template

def DatabaseHandler.uriOf : DatabaseHandler → Url → Text → Text
  | postgresql h, url, name => (h.uriWith url (setKey "project" name (h.merged url))).geturl.render
  | geopackage h, url, name => GeoPackageHandler.projectUri ((h.database url).getD (.parse [])) name

/-- A handler of projects that are not files. What QGIS finds in the database of a root url are the
names of its projects. -/
inductive StorageHandler where
  | s3 (client : S3Client)
  | database (h : DatabaseHandler) (stored : Url → List Text)

namespace StorageHandler

def names : StorageHandler → Url → List Text
  | s3 client, url =>
    (hostname url.netloc.render).elim [] fun bucket =>
      ((client.listObjects bucket (url.path.render.dropWhile (· = '/'))).filter fun object =>
        (PosixPath.parse object.1).suffix = ProjectSuffix.qgz.text).map Prod.fst
  | database _ stored, url => (stored url).filter (· ≠ [])

def uriOf : StorageHandler → Url → Text → Text
  | s3 _, url, name => (Url.geturl { url with path := .ofText (PosixPath.parse name).str }).render
  | database h _, url, name => h.uriOf url name

def uris (h : StorageHandler) (url : Url) : List Text := (h.names url).map (h.uriOf url)

def publicPath : StorageHandler → Text → Text → Url → Option Text
  | s3 _, uri, location, rooturl => S3Client.publicPath uri location rooturl
  | database h _, uri, location, rooturl => h.publicPath uri location rooturl

def resolveUri : StorageHandler → Url → Option Text
  | s3 _, url => some (S3Client.resolveUri url)
  | database h _, url => (h.resolveUri url).toOption

variable (h : StorageHandler) (r : StaticRoute)

def fetched (path : Text) : Option Text :=
  (resolvePath [.static r] false path false).toOption.bind h.resolveUri

def Addresses (uri : Text) : Prop := ∃ path, h.fetched r path = some uri

/-- Every listed project is shown, the projects that can be addressed at different paths, and every
path leads back. -/
structure Inverts : Prop where
  shown : ∀ uri ∈ h.uris r.url, (h.publicPath uri r.location r.url).isSome = true
  distinct : ∀ uri ∈ h.uris r.url, ∀ uri' ∈ h.uris r.url, h.Addresses r uri → h.Addresses r uri' →
    h.publicPath uri r.location r.url = h.publicPath uri' r.location r.url → uri = uri'
  back : ∀ uri ∈ h.uris r.url, ∀ path, h.publicPath uri r.location r.url = some path →
    h.fetched r path = some uri

def Returns (uri : Text) : Prop :=
  ∃ path, h.publicPath uri r.location r.url = some path ∧ h.fetched r path = some uri

variable {h r}

lemma inverts_iff_returns : h.Inverts r ↔ ∀ uri ∈ h.uris r.url, h.Returns r uri := by
  constructor
  · intro hi uri huri
    obtain ⟨p, hp⟩ := Option.isSome_iff_exists.1 (hi.shown uri huri)
    exact ⟨p, hp, hi.back uri huri p hp⟩
  · intro hr
    refine ⟨fun uri huri => ?_, fun uri huri u hu _ _ hm => ?_, fun uri huri p hp => ?_⟩
    · obtain ⟨p, hp, -⟩ := hr uri huri
      rw [hp]
      rfl
    · obtain ⟨p, hp, hk⟩ := hr uri huri
      obtain ⟨a, ht, hba⟩ := hr u hu
      rw [hp, ht, Option.some.injEq] at hm
      rw [hm, hba] at hk
      exact (Option.some.inj hk).symm
    · obtain ⟨a, ht, hk⟩ := hr uri huri
      rw [hp, Option.some.injEq] at ht
      rwa [ht]

end StorageHandler

def placed (rooturl : Url) (path : PosixPath) : Url :=
  if InQuery rooturl path then { rooturl with query := Template.subst (pathValue path) rooturl.query }
  else appendPath rooturl path

lemma placePath_of_fillable {o : Url} (h : Fillable o.query) (p : PosixPath) :
    placePath o p = .ok (placed o p) := by
  obtain ⟨url, hurl⟩ := isOk_placePath_iff.2 h
  rw [hurl, placed]
  rcases placePath_eq_ok hurl with ⟨hin, rfl⟩ | ⟨hin, rfl⟩
  · rw [if_pos hin]
  · rw [if_neg hin]

lemma netloc_placed (o : Url) (p : PosixPath) : (placed o p).netloc = o.netloc := by
  rw [placed]
  split <;> rfl

namespace StorageHandler

variable {h : StorageHandler} {r : StaticRoute} {uri : Text} {shown : PosixPath}

lemma fetched_str (hi : Fillable r.url.query) (shown : PosixPath) : h.fetched r shown.str =
      if shown.isRelativeTo (.parse r.location) then
        h.resolveUri (placed r.url (shown.relativeTo (.parse r.location))) else none := by
  have hf := findRoute_static [r] shown
  rw [map_singleton] at hf
  rw [fetched, resolvePath, PosixPath.parse_str, hf]
  by_cases hr : shown.isRelativeTo (.parse r.location) = true
  · simp [hr, placePath_of_fillable hi, Except.toOption]
  · simp [hr, Except.toOption]

lemma returns_iff (hi : Fillable r.url.query)
    (hp : h.publicPath uri r.location r.url = some shown.str) :
    h.Returns r uri ↔ shown.isRelativeTo (.parse r.location) ∧
      h.resolveUri (placed r.url (shown.relativeTo (.parse r.location))) = some uri := by
  have hf := fetched_str (h := h) hi shown
  constructor
  · rintro ⟨p, ht, hk⟩
    cases hp.symm.trans ht
    rw [hf] at hk
    split at hk
    next hr => exact ⟨hr, hk⟩
    · cases hk
  · rintro ⟨hr, hk⟩
    exact ⟨_, hp, by rw [hf, if_pos hr, hk]⟩

lemma not_returns_of_none (hp : h.publicPath uri r.location r.url = none) : ¬ h.Returns r uri := by
  rintro ⟨p, ht, -⟩
  cases hp.symm.trans ht

end StorageHandler

structure Templated (key : String) (query : Template) (front back : Text) : Prop where
  query_eq : query = Template.ofText (lead front ++ (key.toList ++ ['='])) ++
    .var "path" :: Template.ofText (trail back)
  opening : .char '{' ∉ query
  closing : .char '}' ∉ query
  front_key : key ∉ (parseQsl front).map Prod.fst
  back_key : key ∉ (parseQsl back).map Prod.fst

structure Fixed (query : Template) : Prop where
  fields : ∀ x, .var x ∉ query
  opening : .char '{' ∉ query
  closing : .char '}' ∉ query

def QueryFor (key : String) (query : Template) : Prop :=
  Fixed query ∨ ∃ front back, Templated key query front back

lemma Fixed.fillable {query : Template} (h : Fixed query) : Fillable query :=
  ⟨h.opening, h.closing, fun x hx => absurd hx (h.fields x)⟩

namespace Templated

variable {key : String} {query : Template} {f b : Text}

lemma mem (h : Templated key query f b) : .var "path" ∈ query := by
  rw [h.query_eq]
  simp

lemma fillable (h : Templated key query f b) : Fillable query := by
  refine ⟨h.opening, h.closing, fun x hx => ?_⟩
  rw [h.query_eq, mem_append, mem_cons] at hx
  rcases hx with hx | hx | hx
  · exact absurd hx var_notMem_ofText
  · exact Symbol.var.inj hx
  · exact absurd hx var_notMem_ofText

lemma render_query (h : Templated key query f b) :
    query.render = lead f ++ ((key.toList ++ '=' :: (Symbol.var "path").text) ++ trail b) := by
  have ho (t : Template) : Template.render (.var "path" :: t) = (Symbol.var "path").text ++ t.render := rfl
  rw [h.query_eq, render_append, ho, render_ofText, render_ofText]
  simp only [append_assoc, cons_append, nil_append]

lemma render_subst (h : Templated key query f b) (p : PosixPath) :
    (Template.subst (pathValue p) query).render =
      lead f ++ ((key.toList ++ '=' :: p.str) ++ trail b) := by
  rw [h.query_eq, subst_append, subst_ofText, subst_var, subst_ofText,
    render_append, render_append, render_ofText, render_ofText,
    render_ofText, pathValue, if_pos rfl]
  simp only [append_assoc, cons_append, nil_append]

lemma urlParameters_placed {url : Url} (h : Templated key url.query f b) (p : PosixPath) :
    urlParameters (placed url p) =
      parameters (lead f ++ ((key.toList ++ '=' :: p.str) ++ trail b)) := by
  rw [placed]
  split
  · rw [urlParameters, h.render_subst]
  next hin =>
    have hp : p.str = (Symbol.var "path").text := by
      by_contra hne
      exact hin ⟨h.mem, hne⟩
    have hq : (appendPath url p).query = url.query := rfl
    rw [urlParameters, hq, h.render_query, hp]

end Templated

lemma placed_of_fixed {url : Url} (hq : Fixed url.query) (path : PosixPath) :
    placed url path = appendPath url path :=
  if_neg fun hin => hq.fields _ hin.1

lemma toOption_eq_some {ε α : Type} {x : Except ε α} {a : α} : x.toOption = some a ↔ x = .ok a := by
  cases x <;> simp [Except.toOption]

end QJazz.Cache
