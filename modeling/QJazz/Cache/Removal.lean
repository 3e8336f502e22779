import QJazz.Cache.Confinement
import QJazz.Cache.Handover
import QJazz.Cache.S3Handler
import QJazz.Cache.Suffixes

/-! `checkout` finds the entry of a project that is gone by the uri in the exception of the handler,
which need not be the one that the project was loaded with. -/
namespace QJazz.Cache

open Lexical Python
open Rpc.Worker (CheckoutStatus)

structure Storages where
  files : FileSystem
  buckets : S3Client

def candidates (f : PosixPath) : List PosixPath :=
  if FileSystem.isProject f then [f]
  else (ProjectSuffix.qgs.apply f).toList ++ (ProjectSuffix.qgz.apply f).toList

namespace Storages

def projectMetadata (s : Storages) (url : Url) : Except StorageError ProjectMetadata :=
  if url.scheme = fileScheme then s.files.projectMetadata url else s.buckets.projectMetadata url

/-- Nothing in the storage matches the url. -/
def Lacks (s : Storages) (url : Url) : Prop :=
  if url.scheme = fileScheme then
    ∀ q ∈ candidates (rootPath url), s.files.stat q = none ∧ s.files.isFile q = false
  else
    ∀ bucket, hostname url.netloc.render = some bucket →
      s.buckets.statObject bucket (S3Client.objectUrl url).path.render = .error .noSuchKey ∨
        s.buckets.statObject bucket (S3Client.objectUrl url).path.render = .error .noSuchBucket

/-- The last name that is tried for the url is the one of its project: the url has the suffix, or it
stands for a file and there is none with the first suffix. -/
def NamesLast (s : Storages) (url : Url) : Prop :=
  if url.scheme = fileScheme then
    FileSystem.isProject (rootPath url) = true ∨
      ∀ q, ProjectSuffix.qgs.apply (rootPath url) = some q → s.files.isFile q = false
  else ProjectSuffix.qgz.text <:+ url.path.render

end Storages

namespace Manager

structure Reads (cm : Manager) (s : Storages) (url : Url) : Prop where
  handles : cm.hasHandler (.ofList url.scheme.render) = true
  finds : cm.projectMetadata url = s.projectMetadata url

def LoadsThrough (cm : Manager) (cache : Entries) (url : Url) (e : CacheEntry) : Prop :=
  ∃ md after, cm.checkout cache url = .ok (.new md) ∧
    cm.update cache md .NEW = (.ok (e, .NEW), after)

end Manager

variable {fs fs' : FileSystem} {c client' : S3Client} {s s' : Storages} {url : Url}
  {md : ProjectMetadata} {e : CacheEntry} {cm later : Manager} {cache cache' : Entries}

lemma FileSystem.projectMetadata_eq_ok (h : fs.projectMetadata url = .ok md) :
    ∃ p, Completes fs (rootPath url) p ∧ fs.fileMetadata p = some md := by
  rw [projectMetadata] at h
  split at h
  · cases h
  next p hp =>
    split at h
    · cases h
    next md' hmd =>
      cases h
      exact ⟨p, completes_of_checkFilepath hp, hmd⟩

lemma FileSystem.projectMetadata_of_gone {p : PosixPath} (h : Completes fs (rootPath url) p)
    (ht : fs.stat p = none) : fs.projectMetadata url = .error (.fileNotFound (.ofList p.str)) := by
  have hh := checkFilepath_of_completes h
  rw [rootPath] at hh
  rw [projectMetadata, hh]
  simp [fileMetadata, ht]

lemma file_uri_iff (he : fs.projectMetadata url = .ok md)
    (hl : ∀ q ∈ candidates (rootPath url), fs'.stat q = none ∧ fs'.isFile q = false) :
    ∃ g, fs'.projectMetadata url = .error (.fileNotFound g) ∧
      (md.uri = g ↔ FileSystem.isProject (rootPath url) ∨
        ∀ q, ProjectSuffix.qgs.apply (rootPath url) = some q → fs.isFile q = false) := by
  obtain ⟨p, hp, hmd⟩ := FileSystem.projectMetadata_eq_ok he
  rw [uri_of_fileMetadata hmd]
  cases ho : FileSystem.isProject (rootPath url) with
  | true =>
    have hse : Completes fs' (rootPath url) (rootPath url) :=
      ⟨hp.absolute, fun _ => rfl, fun hn => by simp [ho] at hn⟩
    have hgone := (hl (rootPath url) (by simp [candidates, ho])).1
    refine ⟨_, FileSystem.projectMetadata_of_gone hse hgone, ?_⟩
    rw [hp.self ho]
    simp
  | false =>
    obtain ⟨q, hq, -, -⟩ := hp.suffixed ho
    obtain ⟨r, hr⟩ := ProjectSuffix.qgz.exists_apply (ProjectSuffix.apply_eq_some.1 hq).1
    have hk := hl q (by simp [candidates, ho, hq])
    have hla := hl r (by simp [candidates, ho, hr])
    have ht : Completes fs' (rootPath url) r :=
      (completes_of_bare ho hq hr).2 ⟨hp.absolute, by simp [hk.2]⟩
    refine ⟨_, FileSystem.projectMetadata_of_gone ht hla.1, ?_⟩
    rw [((completes_of_bare ho hq hr).1 hp).2, String.ofList_inj, PosixPath.str_injective.eq_iff]
    cases hf : fs.isFile q with
    | true => simp [hq, hf, ProjectSuffix.ne_of_apply hq hr]
    | false => simp [hq, hf]

lemma object_uri_iff (he : c.projectMetadata url = .ok md)
    (hl : ∀ b, hostname url.netloc.render = some b →
      client'.statObject b (S3Client.objectUrl url).path.render = .error .noSuchKey ∨
        client'.statObject b (S3Client.objectUrl url).path.render = .error .noSuchBucket) :
    ∃ g, client'.projectMetadata url = .error (.fileNotFound g) ∧
      (md.uri = g ↔ ProjectSuffix.qgz.text <:+ url.path.render) := by
  rw [S3Client.projectMetadata] at he
  split at he
  · cases he
  next b hu =>
    split at he
    next l ht =>
      cases he
      refine ⟨.ofList url.geturl.render, ?_, ?_⟩
      · rw [S3Client.projectMetadata, hu]
        rcases hl b hu with hgone | hgone
        · simp [hgone]
        · simp [hgone]
      · rw [String.ofList_inj,
          S3Client.geturl_objectUrl_iff (S3Client.netloc_ne_nil_of_hostname hu)]
    · cases he
    · cases he
    · cases he

lemma Storages.uri_iff (he : s.projectMetadata url = .ok md) (hl : s'.Lacks url) :
    ∃ g, s'.projectMetadata url = .error (.fileNotFound g) ∧ (md.uri = g ↔ s.NamesLast url) := by
  rw [projectMetadata] at he ⊢
  rw [Lacks] at hl
  rw [NamesLast]
  by_cases hscheme : url.scheme = fileScheme
  · rw [if_pos hscheme] at he hl ⊢
    simpa only [if_pos hscheme] using file_uri_iff he hl
  · rw [if_neg hscheme] at he hl ⊢
    simpa only [if_neg hscheme] using object_uri_iff he hl

namespace Manager

lemma LoadsThrough.metadata (h : cm.LoadsThrough cache url e) : cm.projectMetadata url = .ok e.md := by
  obtain ⟨md, a, hnew, hu⟩ := h
  have hmd := (metadata_of_checkout_new hnew).2
  rcases cm.update_new_cases cache md with ⟨err, hf⟩ | ⟨n, hentry, hl⟩
  · rw [hf] at hu
    cases hu
  · rw [hl] at hu
    cases hu
    rw [md_of_newCacheEntry hentry, hmd]

lemma checkout_of_gone {gone : String} (hr : cm.Reads s url)
    (hgone : s.projectMetadata url = .error (.fileNotFound gone)) (hm : e ∈ cache.items) :
    cm.checkout cache url = .ok (.removed e) ↔ e.uri = gone := by
  rw [checkout, if_pos hr.handles, hr.finds, hgone]
  constructor
  · intro h
    cases hget : cache.get? gone with
    | none => simp [hget] at h
    | some e' =>
      simp only [hget, Except.ok.injEq, Checkout.removed.injEq] at h
      rw [← h, (Dict.get?_eq_some hget).2]
  · rintro rfl
    have hget := Dict.get?_of_mem hm
    simp [hget]

/-- The next checkout by the url that a project was loaded through finds its entry, once nothing in
the storage matches the url any more, exactly if the last name that is tried for the url was the one of
the project. -/
theorem checkout_removed_iff (hbefore : cm.Reads s url) (hloaded : cm.LoadsThrough cache url e)
    (hafter : later.Reads s' url) (hlacks : s'.Lacks url) (hcached : e ∈ cache'.items) :
    later.checkout cache' url = .ok (.removed e) ↔ s.NamesLast url := by
  have hmd := hloaded.metadata
  rw [hbefore.finds] at hmd
  obtain ⟨g, hgone, huri⟩ := Storages.uri_iff hmd hlacks
  rw [checkout_of_gone hafter hgone hcached, ← huri]
  rfl

end Manager

def storagesWith (file : Option PosixPath) (object : Option Text) : Storages where
  files :=
    { stat p := if some p = file then some 1 else none
      isDir _ := false
      isFile p := decide (some p = file)
      walk _ := []
      walk_relative h := by cases h }
  buckets :=
    { statObject _ name := if some name = object then .ok 1 else .error .noSuchKey
      listObjects _ _ := [] }

def storageManager (s : Storages) : Manager where
  __ := mapStorage
  schemes := ["file", "s3"]
  projectMetadata := s.projectMetadata

def newMap (uri : String) (scheme storage : String) : CacheEntry where
  md := ⟨uri, "map", scheme, some storage, 1⟩
  project := mapContent
  timestamp := 2
  loadMemoryBytes := none
  loadTimeMs := 10

def mapStorages : Storages := storagesWith (some (.parse "/srv/map.qgs".toList)) (some "/map.qgz".toList)

def objectUrlOf (path : String) : Url where
  scheme := .ofText "s3".toList
  netloc := .ofText "maps".toList
  path := .ofText path.toList
  query := []
  fragment := []

lemma lacks_storagesWith_none (url : Url) : (storagesWith none none).Lacks url := by
  rw [Storages.Lacks]
  split
  · exact fun q _ => ⟨rfl, rfl⟩
  · exact fun b _ => .inl rfl

theorem checkout_removed_iff_suffixed : (storageManager (storagesWith none none)).checkout
        (.roomy [newMap "/srv/map.qgs" "file" "file"] (by decide)) (fileUrl "/srv/map.qgs") =
          .ok (.removed (newMap "/srv/map.qgs" "file" "file")) ∧
      mapStorages.NamesLast (fileUrl "/srv/map.qgs") := by
  have hl : mapStorages.NamesLast (fileUrl "/srv/map.qgs") := by
    rw [Storages.NamesLast, if_pos (by decide)]
    exact .inl (by decide +kernel)
  have ho : (storageManager mapStorages).LoadsThrough .empty (fileUrl "/srv/map.qgs")
      (newMap "/srv/map.qgs" "file" "file") :=
    ⟨mapFile, _, by decide +kernel, rfl⟩
  refine ⟨(Manager.checkout_removed_iff ⟨by decide +kernel, rfl⟩ ho ⟨by decide +kernel, rfl⟩
    (lacks_storagesWith_none _) (by simp)).2 hl, hl⟩

/-- The map was loaded from a file and from an object through urls without a suffix, and its removal is
not found: the exception names the file with the other suffix, or the object without one. -/
theorem not_checkout_removed_bare :
    (storageManager mapStorages).LoadsThrough .empty (fileUrl "/srv/map")
        (newMap "/srv/map.qgs" "file" "file") ∧ (storageManager (storagesWith none none)).checkout
        (.roomy [newMap "/srv/map.qgs" "file" "file"] (by decide)) (fileUrl "/srv/map") =
          .ok .notFound ∧ (storageManager mapStorages).LoadsThrough .empty (objectUrlOf "/map")
        (newMap "s3://maps/map.qgz" "s3" "s3") ∧ (storageManager (storagesWith none none)).checkout
        (.roomy [newMap "s3://maps/map.qgz" "s3" "s3"] (by decide)) (objectUrlOf "/map") =
          .ok .notFound :=
  ⟨⟨mapFile, _, by decide +kernel, rfl⟩, by decide +kernel,
    ⟨(newMap "s3://maps/map.qgz" "s3" "s3").md, _, by decide +kernel, rfl⟩, by decide +kernel⟩

end QJazz.Cache
