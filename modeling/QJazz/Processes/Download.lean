import QJazz.Lexical.Suffix
import QJazz.Processes.Executor

/-! The resource of a download request goes unchanged from the url to the worker, which puts it
behind the directory of the job. -/
namespace QJazz.Processes

open Lexical PosixPath

/-- What the worker and the server find in the file system, and the media types of suffixes. -/
structure Files where
  present : PosixPath → Bool
  isFile : PosixPath → Bool
  size : PosixPath → ℕ
  typesMap : Text → Option Text

structure Link where
  href : PosixPath
  mimeType : Text
  length : ℕ
  title : Text
  deriving DecidableEq

inductive StorageError where
  /-- `FileNotFoundError` with the path -/
  | fileNotFound (path : Text)
  /-- `ValueError` of `as_uri` -/
  | relativePath
  deriving DecidableEq

def jobDir (workdir : PosixPath) (jobId : Text) : PosixPath :=
  workdir.join (.parse jobId)

def resourcePath (workdir : PosixPath) (jobId resource : Text) : PosixPath :=
  (jobDir workdir jobId).join (.parse resource)

def Files.downloadUrl (files : Files) (workdir : PosixPath) (jobId resource : Text) :
    Except StorageError Link :=
  let path := resourcePath workdir jobId resource
  if files.present path then
    let contentType := files.typesMap path.suffix
    if path.isAbsolute then
      .ok
        { href := path
          mimeType := contentType.getD "application/octet-stream".toList
          length := files.size path
          title := path.name }
    else .error .relativePath
  else .error (.fileNotFound path.str)

variable {files : Files} {workdir : PosixPath} {jobId resource : Text} {link : Link}

lemma Files.downloadUrl_href (h : files.downloadUrl workdir jobId resource = .ok link) :
    files.present (resourcePath workdir jobId resource) ∧
      (resourcePath workdir jobId resource).isAbsolute ∧
      link.href = resourcePath workdir jobId resource := by
  simp only [downloadUrl] at h
  split_ifs at h with hp hab
  cases h
  exact ⟨hp, hab, rfl⟩

lemma Files.exists_downloadUrl (hp : files.present (resourcePath workdir jobId resource))
    (hab : (resourcePath workdir jobId resource).isAbsolute) :
    ∃ link, files.downloadUrl workdir jobId resource = .ok link ∧
      link.href = resourcePath workdir jobId resource := by
  simp only [downloadUrl, hp, hab, if_true]
  exact ⟨_, rfl, rfl⟩

/-- The resource leads to a place inside the directory of the job: an absolute one by itself, a
relative one by coming back to each directory that it climbs out of. -/
def Inside (workdir : PosixPath) (jobId resource : Text) : Prop :=
  if resource.head? = some '/' then (PosixPath.parse resource).LiesUnder (jobDir workdir jobId)
  else (jobDir workdir jobId).Returns (components resource)

instance (workdir : PosixPath) (jobId resource : Text) : Decidable (Inside workdir jobId resource) :=
  inferInstanceAs (Decidable (ite _ _ _))

lemma liesUnder_jobDir_iff :
    (resourcePath workdir jobId resource).LiesUnder (jobDir workdir jobId) ↔
      Inside workdir jobId resource := by
  by_cases hh : resource.head? = some '/'
  · rw [Inside, if_pos hh, resourcePath, PosixPath.join, if_neg]
    exact fun hr => root_parse_eq_none.1 hr hh
  · have hr := root_parse_eq_none.2 hh
    rw [Inside, if_neg hh]
    refine liesUnder_iff_returns ?_ (join_parts_of_relative hr)
    simp only [PosixPath.isAbsolute, resourcePath, join_root_of_relative hr]

lemma inside_of_forall_ne (hh : resource.head? ≠ some '/')
    (h : ∀ p ∈ components resource, p ≠ ['.', '.']) : Inside workdir jobId resource := by
  rw [Inside, if_neg hh]
  exact returns_of_forall_ne h

theorem downloadUrl_confined_iff (files : Files) (workdir : PosixPath) (jobId resource : Text) :
    (∀ link, files.downloadUrl workdir jobId resource = .ok link →
        link.href.LiesUnder (jobDir workdir jobId)) ↔
      (files.present (resourcePath workdir jobId resource) = true →
        (resourcePath workdir jobId resource).isAbsolute = true →
        Inside workdir jobId resource) := by
  constructor
  · intro h hp hab
    obtain ⟨link, hl, hh⟩ := Files.exists_downloadUrl hp hab
    exact liesUnder_jobDir_iff.1 (hh ▸ h link hl)
  · intro h link hl
    obtain ⟨hp, hab, hh⟩ := Files.downloadUrl_href hl
    exact hh ▸ liesUnder_jobDir_iff.2 (h hp hab)

def allFiles : Files where
  present _ := true
  isFile _ := true
  size _ := 0
  typesMap _ := none

/-- The url of a file of another job. -/
theorem downloadUrl_escapes :
    ∃ link, allFiles.downloadUrl (.parse "/jobs".toList) "a".toList "../b/out.tif".toList =
        .ok link ∧ link.href.collapse = .parse "/jobs/b/out.tif".toList ∧
      ¬ link.href.LiesUnder (jobDir (.parse "/jobs".toList) "a".toList) :=
  ⟨_, rfl, by decide, by decide⟩

end QJazz.Processes
