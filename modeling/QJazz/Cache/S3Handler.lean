import QJazz.Cache.FileHandler

/-! `S3ProtocolHandler`: the host of an url is a bucket and its path the name of an object, to which
`.qgz` is added if it does not end with it. -/
namespace QJazz.Cache

open Lexical

/-- `SplitResult.hostname`: what stands behind the last `@` and before the port or in brackets. The
letters before a zone are lowered. -/
def hostname (netloc : Text) : Option Text :=
  let hostinfo := netloc.rtakeWhile (· ≠ '@')
  let host :=
    if '[' ∈ hostinfo then ((hostinfo.dropWhile (· ≠ '[')).drop 1).takeWhile (· ≠ ']')
    else hostinfo.takeWhile (· ≠ ':')
  if host = [] then none
  else some ((host.takeWhile (· ≠ '%')).map Char.toLower ++ host.dropWhile (· ≠ '%'))

/-- The codes of a failed request. -/
inductive S3Error where
  | noSuchBucket
  | noSuchKey
  | other
deriving DecidableEq

structure S3Client where
  statObject : Text → Text → Except S3Error ℤ
  listObjects : Text → Text → List (Text × ℤ)

namespace S3Client

variable (client : S3Client)

def objectUrl (url : Url) : Url :=
  if ProjectSuffix.qgz.text <:+ url.path.render then url
  else { url with path := url.path ++ .ofText ProjectSuffix.qgz.text }

def projectMetadata (url : Url) : Except StorageError ProjectMetadata :=
  match hostname url.netloc.render with
  | none => .error (.raised .other)
  | some bucket =>
    match client.statObject bucket (objectUrl url).path.render with
    | .ok lastModified =>
      .ok
        { uri := .ofList (objectUrl url).geturl.render
          name := .ofList (PosixPath.parse url.path.render).stem
          scheme := .ofList url.scheme.render
          storage := some "s3"
          lastModified }
    | .error .noSuchBucket | .error .noSuchKey => .error (.fileNotFound (.ofList url.geturl.render))
    | .error .other => .error (.raised .other)

def resolveUri (url : Url) : Text := url.geturl.render

def stripSlashes (s : Text) : Text := (s.dropWhile (· = '/')).rdropWhile (· = '/')

def publicPath (uri location : Text) (rooturl : Url) : Option Text :=
  let path := PosixPath.parse (Url.urlsplit (.ofText uri)).path.render
  let stripped := stripSlashes rooturl.path.render
  let root := PosixPath.parse (if stripped = [] then ['/'] else stripped)
  if path.isRelativeTo root then some ((PosixPath.parse location).join (path.relativeTo root)).str
  else none

variable {client} {url : Url}

lemma netloc_ne_nil_of_hostname {b : Text} (h : hostname url.netloc.render = some b) :
    url.netloc ≠ [] := by
  intro hn
  rw [hn] at h
  cases h

lemma geturl_objectUrl_iff (hn : url.netloc ≠ []) :
    (objectUrl url).geturl.render = url.geturl.render ↔
      ProjectSuffix.qgz.text <:+ url.path.render := by
  constructor
  · intro h
    by_contra hf
    obtain ⟨f, back, hg⟩ := Url.exists_geturl_of_netloc hn
    have he := hg url.path
    rw [objectUrl, if_neg hf, hg, he] at h
    simp only [Template.render_append, List.append_cancel_right_eq, List.append_cancel_left_eq] at h
    by_cases hp : url.path = []
    · rw [hp, List.nil_append, Url.rooted_nil] at h
      exact Url.render_rooted_ne_nil (by simp [ProjectSuffix.text]) h
    · rw [Url.rooted_append hp, Template.render_append, Template.render_ofText,
        List.append_right_eq_self] at h
      exact absurd h (by decide)
  · intro h
    rw [objectUrl, if_pos h]

end S3Client
end QJazz.Cache
