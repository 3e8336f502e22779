import QJazz.Cache.Inversion.GeoPackage
import QJazz.Cache.Inversion.ObjectStorage
import QJazz.Cache.Inversion.Postgres

/-! The public paths of a root lead back to the listed projects exactly if each project is recovered
by the rules of its handler. -/
namespace QJazz.Cache

open Lexical List

namespace StorageHandler

def Configured : StorageHandler → StaticRoute → Prop
  | s3 _, r => S3Client.FixedUrl r.url
  | database (.postgresql _) _, r => PostgresHandler.Configured r
  | database (.geopackage h) _, r => h.Configured r

def Recovers : StorageHandler → StaticRoute → Text → Prop
  | s3 _, r, name => S3Client.Recovers r.url name
  | database (.postgresql h) _, r, name => h.Recovers r name
  | database (.geopackage h) _, r, name => h.Recovers r name

lemma of_mem_names_s3 {c : S3Client} {url : Url} {n : Text}
    (h : n ∈ (s3 c).names url) : url.netloc ≠ [] ∧ (PosixPath.parse n).parts ≠ [] := by
  rw [names] at h
  cases hu : hostname url.netloc.render with
  | none =>
    rw [hu] at h
    cases h
  | some b =>
    rw [hu] at h
    obtain ⟨o, ho, rfl⟩ := mem_map.1 h
    refine ⟨S3Client.netloc_ne_nil_of_hostname hu, fun hp => ?_⟩
    have hf := (mem_filter.1 ho).2
    rw [decide_eq_true_eq, PosixPath.suffix, PosixPath.name, hp] at hf
    exact absurd hf (by decide)

/-- The public paths of a root are inverted exactly if each project is recovered. -/
theorem inverts_iff (h : StorageHandler) (r : StaticRoute) (hconf : h.Configured r) :
    h.Inverts r ↔ ∀ name ∈ h.names r.url, h.Recovers r name := by
  rw [inverts_iff_returns, uris, forall_mem_map]
  refine forall₂_congr fun name hn => ?_
  cases h with
  | s3 c =>
    obtain ⟨he, hp⟩ := of_mem_names_s3 hn
    exact S3Client.returns_iff_recovers hconf he hp
  | database h s =>
    have hne := (by simpa using (mem_filter.1 hn).2)
    cases h with
    | postgresql h => exact PostgresHandler.returns_iff_recovers hconf hne
    | geopackage h => exact GeoPackageHandler.returns_iff_recovers hconf hne

end StorageHandler

def oneObject : S3Client where
  statObject _ _ := .error .noSuchKey
  listObjects _ key := [("maps/a.qgz".toList, 1)].filter fun object => key.isPrefixOf object.1

def bucketRoute : StaticRoute where
  location := "/s3".toList
  urlstr := .ofText "s3://bucket".toList
  location_rooted := by decide

theorem inverts_iff_bucket :
    (StorageHandler.s3 oneObject).names bucketRoute.url = ["maps/a.qgz".toList] ∧
      (StorageHandler.s3 oneObject).Inverts bucketRoute := by
  have hn : (StorageHandler.s3 oneObject).names bucketRoute.url = ["maps/a.qgz".toList] := by
    decide +kernel
  have hurl : bucketRoute.url = ⟨.ofText "s3".toList, .ofText "bucket".toList, [], [], []⟩ := by
    decide +kernel
  have ho : (StorageHandler.s3 oneObject).Configured bucketRoute := by
    rw [StorageHandler.Configured, hurl]
    exact ⟨fun _ => Template.var_notMem_ofText, nofun, nofun, nofun, nofun⟩
  refine ⟨hn, (StorageHandler.inverts_iff _ _ ho).2 ?_⟩
  rw [hn, forall_mem_singleton, StorageHandler.Recovers, hurl]
  exact ⟨by decide +kernel, by decide +kernel, by decide +kernel,
    clean_iff_str.2 (all_eq_true.1 (by decide +kernel))⟩

def keyRoute : StaticRoute where
  location := "/s3".toList
  urlstr := .ofText "s3://bucket/maps".toList
  location_rooted := by decide

def templateRoute : StaticRoute where
  location := "/db".toList
  urlstr := Template.ofText "postgresql:?project=".toList ++ [.var "path"]
  location_rooted := by decide

def plainPostgres : PostgresHandler where
  conf := "postgresql://".toList
  scheme_eq := by decide +kernel

def twoProjects : StorageHandler :=
  .database (.postgresql plainPostgres) fun _ => ["a".toList, "b".toList]

/-- With a key no object is shown. With a template both projects are shown at the location, which leads
to neither of them. -/
theorem not_inverts_key :
    (StorageHandler.s3 oneObject).uris keyRoute.url = ["s3://bucket/maps/a.qgz".toList] ∧
      (StorageHandler.s3 oneObject).publicPath "s3://bucket/maps/a.qgz".toList keyRoute.location
        keyRoute.url = none ∧ ¬ (StorageHandler.s3 oneObject).Inverts keyRoute ∧
      twoProjects.uris templateRoute.url =
        ["postgresql:?project=a".toList, "postgresql:?project=b".toList] ∧
      twoProjects.publicPath "postgresql:?project=a".toList templateRoute.location templateRoute.url =
        some "/db".toList ∧
      twoProjects.publicPath "postgresql:?project=b".toList templateRoute.location templateRoute.url =
        some "/db".toList ∧
      twoProjects.fetched templateRoute "/db".toList = some "postgresql:?project=.".toList ∧
      ¬ twoProjects.Inverts templateRoute := by
  have hu : (StorageHandler.s3 oneObject).uris keyRoute.url = ["s3://bucket/maps/a.qgz".toList] := by
    decide +kernel
  have hn : (StorageHandler.s3 oneObject).publicPath "s3://bucket/maps/a.qgz".toList
      keyRoute.location keyRoute.url = none := by
    decide +kernel
  have hp : twoProjects.uris templateRoute.url =
      ["postgresql:?project=a".toList, "postgresql:?project=b".toList] := by
    decide +kernel
  have hh : twoProjects.publicPath "postgresql:?project=a".toList templateRoute.location
      templateRoute.url = some "/db".toList := by
    decide +kernel
  have hf : twoProjects.fetched templateRoute "/db".toList =
      some "postgresql:?project=.".toList := by
    decide +kernel
  refine ⟨hu, hn, fun hi => ?_, hp, hh, by decide +kernel, hf,
    fun hi => ?_⟩
  · have ho := hi.shown "s3://bucket/maps/a.qgz".toList (by rw [hu]; exact mem_cons_self)
    rw [hn] at ho
    cases ho
  · have hk := hi.back "postgresql:?project=a".toList
      (by rw [hp]; exact mem_cons_self) _ hh
    rw [hf] at hk
    exact absurd (Option.some.inj hk) (by decide +kernel)

end QJazz.Cache
