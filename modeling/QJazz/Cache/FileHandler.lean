import QJazz.Lexical.Suffix
import QJazz.Cache.Manager

/-! `FileProtocolHandler`: a project is a file whose name ends in `.qgs` or `.qgz`. The projects of
a root are listed by a walk through its directory. -/
namespace QJazz.Cache

open Lexical

inductive ProjectSuffix where
  | qgs
  | qgz

namespace ProjectSuffix

def text : ProjectSuffix → Text
  | qgs => ['.', 'q', 'g', 's']
  | qgz => ['.', 'q', 'g', 'z']

lemma length_text (sfx : ProjectSuffix) : sfx.text.length = 4 := by
  cases sfx <;> rfl

lemma isPart_append_text (sfx : ProjectSuffix) (s : Text) : isPart (s ++ sfx.text) = true := by
  have hl : 4 ≤ (s ++ sfx.text).length := by
    rw [List.length_append, length_text]
    omega
  rw [isPart, Bool.and_eq_true, decide_eq_true_eq, decide_eq_true_eq]
  constructor
  · intro h
    simp [h] at hl
  · intro h
    simp [h] at hl

def apply (sfx : ProjectSuffix) (p : PosixPath) : Option PosixPath :=
  if p.parts = [] then none
  else some
    { root := p.root
      parts := p.parts.dropLast ++ [p.stem ++ sfx.text]
      isPart_of_mem := by
        intro q hq
        rcases List.mem_append.1 hq with hq | hq
        · exact p.isPart_of_mem q (List.mem_of_mem_dropLast hq)
        · rw [List.mem_singleton.1 hq]
          exact sfx.isPart_append_text p.stem
      slash_notMem := by
        intro q hq
        rcases List.mem_append.1 hq with hq | hq
        · exact p.slash_notMem q (List.mem_of_mem_dropLast hq)
        · rw [List.mem_singleton.1 hq, List.mem_append, not_or]
          exact ⟨fun h => p.slash_notMem_name (PosixPath.mem_of_mem_stem h),
            (by cases sfx <;> decide)⟩ }

end ProjectSuffix

/-- The file names of a file system: what can be found out about a path, and what a walk through a
directory finds, relative to it. -/
structure FileSystem where
  stat : PosixPath → Option ℚ
  isDir : PosixPath → Bool
  isFile : PosixPath → Bool
  walk : PosixPath → List PosixPath
  walk_relative : ∀ {p q}, q ∈ walk p → q.root = .none

namespace FileSystem

variable (fs : FileSystem)

def fileMetadata (p : PosixPath) : Option ProjectMetadata :=
  (fs.stat p).map fun lastModified =>
    { uri := .ofList p.str
      name := .ofList p.stem
      scheme := "file"
      storage := some "file"
      lastModified }

def isProject (p : PosixPath) : Bool :=
  decide (p.suffix = ProjectSuffix.qgs.text) || decide (p.suffix = ProjectSuffix.qgz.text)

/-- `_check_filepath`: a path without the suffix of a project gets one of them, the last one if there
is no such file. -/
def checkFilepath (p : PosixPath) : Except StorageError PosixPath :=
  if p.isAbsolute then
    if isProject p then .ok p
    else
      match ProjectSuffix.qgs.apply p with
      | none => .error (.raised .other)
      | some q =>
        if fs.isFile q then .ok q
        else
          match ProjectSuffix.qgz.apply q with
          | none => .error (.raised .other)
          | some r => .ok r
  else .error (.raised (.notAllowed (.ofList ("file path must be absolute not ".toList ++ p.str))))

def projectMetadata (url : Url) : Except StorageError ProjectMetadata :=
  match fs.checkFilepath (.parse url.path.render) with
  | .error e => .error e
  | .ok p =>
    match fs.fileMetadata p with
    | none => .error (.fileNotFound (.ofList p.str))
    | some md => .ok md

def glob (dir : PosixPath) (sfx : ProjectSuffix) : List PosixPath :=
  ((fs.walk dir).filter fun q => sfx.text.isSuffixOf q.name).map dir.join

def projects (url : Url) : List PosixPath :=
  let path := PosixPath.parse url.path.render
  if (fs.stat path).isNone then []
  else if fs.isDir path then fs.glob path .qgs ++ fs.glob path .qgz
  else [path]

end FileSystem

@[irreducible] def publicPath (uri location : Text) (rooturl : Url) : Option Text :=
  let path := PosixPath.parse (Url.urlsplit (.ofText uri)).path.render
  let root := PosixPath.parse rooturl.path.render
  if path.isRelativeTo root then some ((PosixPath.parse location).join (path.relativeTo root)).str
  else none

structure FileRoutes where
  routes : List StaticRoute
  nodup : (routes.map StaticRoute.location).Nodup
  isFile : ∀ r ∈ routes, r.url.scheme = fileScheme

namespace FileRoutes

variable (t : FileRoutes)

def locations (search : Option Text) : List (Text × Url) :=
  match search.filter (· ≠ []) with
  | none => t.routes.map fun r => ((PosixPath.parse r.location).str, r.url)
  | some location =>
    match t.routes.find? fun r => r.location = location with
    | some r => [(location, r.url)]
    | none =>
      (t.routes.filter fun r => (PosixPath.parse r.location).isRelativeTo (.parse location)).map
        fun r => ((PosixPath.parse r.location).str, r.url)

/-- The loop of `collect_projects_ex` over the files of one location, which ends with the first
exception. -/
def collect (fs : FileSystem) (location : Text) (rooturl : Url) :
    List PosixPath → List (ProjectMetadata × Text)
  | [] => []
  | p :: ps =>
    match fs.fileMetadata p with
    | none => []
    | some md =>
      match publicPath md.uri.toList location rooturl with
      | none => []
      | some path => (md, path) :: collect fs location rooturl ps

def collectProjects (fs : FileSystem) (search : Option Text) : List (ProjectMetadata × Text) :=
  (t.locations search).flatMap fun l => collect fs l.1 l.2 (fs.projects l.2)

end FileRoutes
end QJazz.Cache
