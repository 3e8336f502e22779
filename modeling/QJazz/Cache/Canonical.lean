import QJazz.Cache.DatabaseHandlers

/-! The uri of a PostgreSQL project is written by `urlencode`; the name of a GeoPackage project is
put into the uri as it is. -/
namespace QJazz.Cache

open Lexical List

namespace GeoPackageHandler

def SelfDecoding (s : Text) : Prop :=
  (∀ c ∈ s, c ≠ '#' ∧ c ≠ '&' ∧ (Symbol.char c).isUnsafe = false) ∧ unquotePlus s = s

def projectOf (url : Url) : Option Text := givenParameter "projectName" (urlParameters url)

end GeoPackageHandler

namespace DatabaseHandler

def projectOf : DatabaseHandler → Url → Option Text
  | postgresql h, url => (h.resolvedParameters url).toOption.bind (·.lookup "project")
  | geopackage _, url => GeoPackageHandler.projectOf url

def SameDatabase : DatabaseHandler → Url → Url → Prop
  | postgresql h, a, b =>
    (h.uriWith a []).netloc = (h.uriWith b []).netloc ∧
      ∀ key, key ≠ "project" → (h.merged a).lookup key = (h.merged b).lookup key
  | geopackage h, a, b => h.database a = h.database b

structure Canonical (h : DatabaseHandler) (url : Url) (uri : Text) : Prop where
  idempotent : h.resolveUri (Url.urlsplit (.ofText uri)) = .ok uri
  apart : ∀ other, CleanHost other → h.SameDatabase other url → h.projectOf other ≠ h.projectOf url →
    h.resolveUri other ≠ .ok uri

def PlainAt : DatabaseHandler → Url → Prop
  | postgresql _, _ => True
  | geopackage h, url => ∀ path, h.database url = some path → GeoPackageHandler.PlainDatabase path

/-- The project is read in an uri as it is written. -/
def KeepsProject : DatabaseHandler → Url → Prop
  | postgresql _, _ => True
  | geopackage _, url =>
    ∀ project, GeoPackageHandler.projectOf url = some project → GeoPackageHandler.SelfDecoding project

end DatabaseHandler

namespace PostgresHandler

variable {h : PostgresHandler} {url o : Url} {uri : Text}

lemma resolveUri_eq_ok : h.resolveUri url = .ok uri ↔
      ∃ q, h.resolvedParameters url = .ok q ∧ (h.uriWith url q).geturl.render = uri := by
  rw [resolveUri]
  cases h.resolvedParameters url <;> simp [Except.map]

lemma resolveUri_idempotent (hh : CleanHost url) (huri : h.resolveUri url = .ok uri) :
    h.resolveUri (Url.urlsplit (.ofText uri)) = .ok uri := by
  obtain ⟨q, hq, rfl⟩ := resolveUri_eq_ok.1 huri
  have hr := resolved_of_resolvedParameters hq
  rw [urlsplit_uriWith hh, resolveUri_eq_ok]
  exact ⟨q, resolvedParameters_uriWith hr, by rw [uriWith_uriWith]⟩

lemma resolvedParameters_of_resolveUri (hh : CleanHost url) (huri : h.resolveUri url = .ok uri) :
    h.resolvedParameters url = .ok (urlParameters (Url.urlsplit (.ofText uri))) := by
  obtain ⟨q, hq, rfl⟩ := resolveUri_eq_ok.1 huri
  rw [urlsplit_uriWith hh, urlParameters_uriWith (resolved_of_resolvedParameters hq), hq]

lemma canonical (hh : CleanHost url) (huri : h.resolveUri url = .ok uri) :
    (DatabaseHandler.postgresql h).Canonical url uri where
  idempotent := resolveUri_idempotent hh huri
  apart o hother _ hproject hsame := by
    refine hproject ?_
    change (h.resolvedParameters o).toOption.bind _ = (h.resolvedParameters url).toOption.bind _
    rw [resolvedParameters_of_resolveUri hother hsame, resolvedParameters_of_resolveUri hh huri]

end PostgresHandler

namespace GeoPackageHandler

variable {h : GeoPackageHandler} {url : Url} {p : PosixPath} {project s v uri : Text}

lemma projectKey_append (s : Text) : projectKey ++ s = "projectName".toList ++ '=' :: s := by
  have hk : projectKey = "projectName".toList ++ ['='] := by decide +kernel
  rw [hk, append_assoc, singleton_append]

lemma parseQsl_projectKey (hne : s ≠ []) (hm : '&' ∉ s) :
    parseQsl (projectKey ++ s) = [("projectName", unquotePlus s)] := by
  have hn : unquotePlus "projectName".toList = "projectName".toList := by decide +kernel
  rw [projectKey_append, parseQsl_field (by decide) (by decide) hne hm, hn, String.ofList_toList]

lemma mem_of_given {qs : Text} (hv : givenParameter "projectName" (parameters qs) = some v) :
    ("projectName", v) ∈ parseQsl qs := by
  rcases mem_updateDict (Json.mem_of_lookup (givenParameter_eq_some.1 hv).1) with hn | hm
  · cases hn
  · exact hm

lemma length_le_of_given (hv : givenParameter "projectName" (parameters (projectKey ++ s)) = some v) :
    v.length ≤ s.length ∧ ('&' ∈ s → v.length < s.length) := by
  have hm := mem_of_given hv
  have hf {a : Text} (ha : '&' ∉ a) (hv : ("projectName", v) ∈ parseQsl (projectKey ++ a)) :
      v.length ≤ a.length := by
    by_cases hn : a = []
    · have he : parseQsl projectKey = [] := by decide +kernel
      rw [hn, append_nil, he] at hv
      cases hv
    · rw [parseQsl_projectKey hn ha, mem_singleton] at hv
      rw [(Prod.mk.inj hv).2]
      exact length_unquotePlus_le a
  by_cases hp : '&' ∈ s
  · obtain ⟨a, b, rfl, ha⟩ := eq_append_cons_of_mem hp
    rw [← append_assoc, parseQsl_append, mem_append] at hm
    have hlt : v.length < (a ++ '&' :: b).length := by
      rw [length_append, length_cons]
      rcases hm with hm | hm
      · have := hf ha hm
        omega
      · have := length_lt_of_mem_parseQsl hm
        dsimp only at this
        omega
    exact ⟨hlt.le, fun _ => hlt⟩
  · exact ⟨hf hp hm, fun h => absurd h hp⟩

lemma legible_sublist (s : Text) : (legible s).Sublist s :=
  (takeWhile_sublist _).trans filter_sublist

lemma legible_of_forall (hs : ∀ c ∈ s, c ≠ '#' ∧ (Symbol.char c).isUnsafe = false) : legible s = s := by
  have hf : s.filter (fun c => !(Symbol.char c).isUnsafe) = s := by
    rw [filter_eq_self]
    intro c hc
    rw [(hs c hc).2]
    rfl
  rw [legible, hf, takeWhile_eq_self_iff]
  exact fun c hc => decide_eq_true (hs c hc).1

lemma of_mem_legible {c : Char} (hc : c ∈ legible s) : c ≠ '#' ∧ (Symbol.char c).isUnsafe = false := by
  have hh := mem_takeWhile_imp hc
  have hf := (List.mem_filter.1 ((takeWhile_sublist _).mem hc)).2
  exact ⟨by simpa using hh, by simpa using hf⟩

lemma given_legible_iff (hne : s ≠ []) :
    givenParameter "projectName" (parameters (projectKey ++ legible s)) = some s ↔ SelfDecoding s := by
  constructor
  · intro hv
    obtain ⟨hle, hlt⟩ := length_le_of_given hv
    have hl := (legible_sublist s).eq_of_length_le hle
    rw [hl] at hv hlt
    have hp : '&' ∉ s := fun hm => absurd (hlt hm) (lt_irrefl _)
    have hm := mem_of_given hv
    rw [parseQsl_projectKey hne hp, mem_singleton] at hm
    refine ⟨fun c hc => ?_, (Prod.mk.inj hm).2.symm⟩
    have hr := of_mem_legible (hl.symm ▸ hc)
    exact ⟨hr.1, ne_of_mem_of_not_mem hc hp, hr.2⟩
  · rintro ⟨hh, hd⟩
    have hp : '&' ∉ s := fun hm => (hh _ hm).2.1 rfl
    rw [legible_of_forall fun c hc => ⟨(hh c hc).1, (hh c hc).2.2⟩, parameters,
      parseQsl_projectKey hne hp, hd, givenParameter_eq_some]
    exact ⟨by simp [updateDict, setKey], hne⟩

lemma resolveUri_eq_ok : h.resolveUri url = .ok uri ↔
      ∃ p project, h.database url = some p ∧ projectOf url = some project ∧
        projectUri p project = uri := by
  rw [resolveUri, projectOf]
  cases h.database url <;> cases givenParameter "projectName" (urlParameters url) <;> simp

lemma projectUri_injective : projectUri p s = projectUri p v ↔ s = v := by
  simp [projectUri]

lemma of_urlsplit_projectUri (ht : PlainDatabase p) (s : Text) :
    h.database (Url.urlsplit (.ofText (projectUri p s))) = some p ∧
      projectOf (Url.urlsplit (.ofText (projectUri p s))) =
        givenParameter "projectName" (parameters (projectKey ++ legible s)) := by
  obtain ⟨hp, hq⟩ := urlsplit_projectUri ht s
  constructor
  · rw [database, hp, Template.render_ofText, if_pos p.str_ne_nil, PosixPath.parse_str]
  · rw [projectOf, urlParameters, hq, Template.render_ofText]

lemma canonical_iff_selfDecoding (hd : h.database url = some p) (ht : PlainDatabase p)
    (hp : projectOf url = some project) :
    (DatabaseHandler.geopackage h).Canonical url (projectUri p project) ↔ SelfDecoding project := by
  obtain ⟨hm, he⟩ := of_urlsplit_projectUri (h := h) ht project
  have hi : h.resolveUri (Url.urlsplit (.ofText (projectUri p project))) =
      .ok (projectUri p project) ↔ SelfDecoding project := by
    rw [← given_legible_iff (givenParameter_eq_some.1 hp).2, resolveUri_eq_ok, hm, he]
    constructor
    · rintro ⟨_, name, ht, hn, heq⟩
      cases ht
      rwa [projectUri_injective.1 heq] at hn
    · exact fun hn => ⟨p, project, rfl, hn, rfl⟩
  refine ⟨fun ho => hi.1 ho.idempotent, fun hl => ?_⟩
  refine ⟨hi.2 hl, fun other _ hm hne huri => hne ?_⟩
  obtain ⟨path', project', hh, hr, heq⟩ := resolveUri_eq_ok.1 huri
  have hm : h.database other = h.database url := hm
  rw [hh, hd, Option.some.injEq] at hm
  rw [hm] at heq
  change projectOf other = projectOf url
  rw [hr, hp, projectUri_injective.1 heq]

end GeoPackageHandler

/-- The uri of an accepted url is canonical exactly if its project is read in it as it is written. -/
theorem canonical_iff (h : DatabaseHandler) (url : Url) (uri : Text) (hhost : CleanHost url)
    (hplain : h.PlainAt url) (haccepted : h.resolveUri url = .ok uri) :
    h.Canonical url uri ↔ h.KeepsProject url := by
  cases h with
  | postgresql h => exact iff_of_true (PostgresHandler.canonical hhost haccepted) trivial
  | geopackage h =>
    obtain ⟨path, project, ht, hp, rfl⟩ := GeoPackageHandler.resolveUri_eq_ok.1 haccepted
    rw [GeoPackageHandler.canonical_iff_selfDecoding ht (hplain path ht) hp]
    constructor
    · intro he p hr
      cases hp.symm.trans hr
      exact he
    · exact fun hk => hk project hp

def mapsHandler : PostgresHandler where
  conf := "postgresql://localhost/?dbname=maps".toList
  scheme_eq := by decide +kernel

theorem canonical_iff_quoted : (DatabaseHandler.postgresql mapsHandler).Canonical
      (Url.urlsplit (.ofText "postgresql:?project=a%26b".toList))
      "postgresql://localhost?dbname=maps&project=a%26b".toList :=
  (canonical_iff (.postgresql mapsHandler) _ _ (cleanHost_urlsplit fun _ => Template.var_notMem_ofText)
    trivial (by decide +kernel)).2 trivial

theorem not_canonical_unquoted : (DatabaseHandler.geopackage ⟨none⟩).resolveUri
        (Url.urlsplit (.ofText "geopackage:/maps.gpkg?projectName=a%26b".toList)) =
      .ok "geopackage:/maps.gpkg?projectName=a&b".toList ∧
    (DatabaseHandler.geopackage ⟨none⟩).resolveUri
        (Url.urlsplit (.ofText "geopackage:/maps.gpkg?projectName=a&b".toList)) =
      .ok "geopackage:/maps.gpkg?projectName=a".toList ∧
    ¬ (DatabaseHandler.geopackage ⟨none⟩).Canonical
      (Url.urlsplit (.ofText "geopackage:/maps.gpkg?projectName=a%26b".toList))
      "geopackage:/maps.gpkg?projectName=a&b".toList := by
  have hg : (DatabaseHandler.geopackage ⟨none⟩).resolveUri
      (Url.urlsplit (.ofText "geopackage:/maps.gpkg?projectName=a&b".toList)) =
        .ok "geopackage:/maps.gpkg?projectName=a".toList := by
    decide +kernel
  refine ⟨by decide +kernel, hg, fun hn => ?_⟩
  have hm := Except.ok.inj (hg.symm.trans hn.idempotent)
  exact absurd hm (by decide +kernel)

end QJazz.Cache
