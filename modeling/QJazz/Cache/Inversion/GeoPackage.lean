import QJazz.Cache.Inversion.Model

/-! The name of a project is put into the uri as it is, read there for the public path, put into the
query in the place of the template, and read there again. -/
namespace QJazz.Cache

open Lexical List PosixPath StorageHandler

namespace GeoPackageHandler

/-- The database can stand in an uri, and the query has at most the template for the project, which is
spelled as it is. -/
structure Configured (h : GeoPackageHandler) (r : StaticRoute) : Prop where
  database : ∃ path, h.database r.url = some path ∧ PlainDatabase path
  query : QueryFor "projectName" r.url.query
  spelled : .var "path" ∉ r.url.query →
    (urlParameters r.url).lookup "projectName" ≠ some (Symbol.var "path").text

/-- Without a template the project is the one of the root, whose path is not changed by an empty
path behind it. With one the name of the project is read as it is written, in an uri and as a path.
-/
structure Recovers (h : GeoPackageHandler) (r : StaticRoute) (name : Text) : Prop where
  fixed : .var "path" ∉ r.url.query →
    projectOf r.url = some name ∧ h.database (appendPath r.url (.parse [])) = h.database r.url
  templated : .var "path" ∈ r.url.query →
    SelfDecoding name ∧ (PosixPath.parse name).root = .none ∧ (PosixPath.parse name).str = name ∧
      (name = (Symbol.var "path").text →
        h.database (appendPath r.url (.parse name)) = h.database r.url)

variable {h : GeoPackageHandler} {r : StaticRoute} {url : Url} {path p q : PosixPath}
  {name s v : Text} {stored : Url → List Text}

lemma lookup_urlParameters (url : Url) : (urlParameters url).lookup "projectName" = projectOf url := by
  cases hl : (urlParameters url).lookup "projectName" with
  | none =>
    rw [projectOf, givenParameter, hl]
    rfl
  | some v =>
    have hne : v ≠ [] := ne_nil_of_mem_urlParameters (Json.mem_of_lookup hl)
    rw [projectOf, givenParameter_eq_some.2 ⟨hl, hne⟩]

lemma projectUri_inj (hp : Clean p) (hq : Clean q) :
    projectUri p s = projectUri q v ↔ p = q ∧ s = v := by
  have hu {p : PosixPath} (hp : Clean p) : '?' ∉ p.str := fun hm =>
    absurd (clean_iff_str.1 hp _ hm) (by decide)
  constructor
  · intro heq
    rw [projectUri, projectUri, append_cancel_left_eq, List.cons.injEq] at heq
    have hr : p.str = q.str := by
      have ht := congrArg (List.takeWhile (· ≠ '?')) heq.2
      have hne {p : PosixPath} (hp : Clean p) : ∀ c ∈ p.str, decide (c ≠ '?') = true := fun c hc =>
        decide_eq_true (ne_of_mem_of_not_mem hc (hu hp))
      rw [takeWhile_append_of_pos (hne hp), takeWhile_append_of_pos (hne hq)] at ht
      simpa using ht
    rw [hr, append_cancel_left_eq, List.cons.injEq, append_cancel_left_eq] at heq
    exact ⟨str_injective hr, heq.2.2⟩
  · rintro ⟨rfl, rfl⟩
    rfl

lemma resolveUri_eq_iff (ht : Clean path) (hurl : ∀ p, h.database url = some p → Clean p) :
    h.resolveUri url = .ok (projectUri path name) ↔
      h.database url = some path ∧ projectOf url = some name := by
  rw [resolveUri_eq_ok]
  constructor
  · rintro ⟨p, s, hp, hs, heq⟩
    obtain ⟨rfl, rfl⟩ := (projectUri_inj (hurl p hp) ht).1 heq
    exact ⟨hp, hs⟩
  · exact fun ho => ⟨path, name, ho.1, ho.2, rfl⟩

lemma database_appendPath (path : PosixPath) :
    h.database (appendPath url path) = some ((rootPath url).join path) := by
  have ht : (appendPath url path).path.render = ((rootPath url).join path).str :=
    Template.render_ofText _
  rw [database, ht, if_pos (str_ne_nil _), parse_str]

lemma clean_parse_nil : Clean (.parse []) := fun _ hp => absurd hp not_mem_nil

lemma clean_rootPath (hd : h.database url = some path) (hp : Clean path) :
    Clean (rootPath url) := by
  rw [database] at hd
  split at hd
  · cases hd
    exact hp
  next he =>
    rw [rootPath, not_not.1 he]
    exact clean_parse_nil

lemma clean_database_placed (hd : h.database url = some path) (ht : Clean path)
    (hq : ¬ InQuery url q → Clean q) : ∀ p, h.database (placed url q) = some p → Clean p := by
  intro p hp
  rw [placed] at hp
  split at hp
  · have hm := hp
    cases hd.symm.trans hm
    exact ht
  next hin =>
    rw [database_appendPath] at hp
    cases hp
    intro a hr
    rw [PosixPath.join] at hr
    split at hr
    · exact (mem_append.1 hr).elim ((clean_rootPath hd ht) a) ((hq hin) a)
    · exact (hq hin) a hr

lemma returns_of_fixed (hn : h.Configured r) (hq : Fixed r.url.query) :
    (StorageHandler.database (.geopackage h) stored).Returns r
        ((StorageHandler.database (.geopackage h) stored).uriOf r.url name) ↔
      projectOf r.url = some name ∧ h.database (appendPath r.url (.parse [])) = h.database r.url := by
  obtain ⟨path, hd, hp⟩ := hn.database
  have huri : (StorageHandler.database (.geopackage h) stored).uriOf r.url name = projectUri path name := by
    rw [StorageHandler.uriOf, DatabaseHandler.uriOf, hd, Option.getD_some]
  have hu : (StorageHandler.database (.geopackage h) stored).publicPath (projectUri path name)
      r.location r.url = some (PosixPath.parse r.location).str :=
    if_neg (hn.spelled (hq.fields _))
  have he := clean_database_placed (q := .parse []) hd hp.clean fun _ => clean_parse_nil
  have hr : (StorageHandler.database (.geopackage h) stored).resolveUri
      (placed r.url (.parse [])) = some (projectUri path name) ↔
        h.database (placed r.url (.parse [])) = some path ∧
          projectOf (placed r.url (.parse [])) = some name :=
    toOption_eq_some.trans (resolveUri_eq_iff hp.clean he)
  have hl : placed r.url (.parse []) = appendPath r.url (.parse []) :=
    if_neg fun hin => hq.fields _ hin.1
  have ho : projectOf (appendPath r.url (.parse [])) = projectOf r.url := rfl
  rw [huri, returns_iff hq.fillable hu, relativeTo_self, hr,
    hl, ho, hd, and_iff_right (isRelativeTo_self _), and_comm]

lemma projectOf_placed {f b : Text} (hq : Templated "projectName" url.query f b) (q : PosixPath) :
    projectOf (placed url q) = givenParameter "projectName" (parameters (projectKey ++ q.str)) := by
  rw [projectOf, givenParameter, givenParameter, hq.urlParameters_placed,
    lookup_parameters_between hq.front_key hq.back_key, projectKey_append]

lemma lookup_of_templated {f b : Text} (hq : Templated "projectName" url.query f b) :
    (urlParameters url).lookup "projectName" = some (Symbol.var "path").text := by
  rw [urlParameters, hq.render_query, lookup_parameters_between hq.front_key hq.back_key]
  decide +kernel

lemma relativeTo_join_sublist (p q : PosixPath) :
    ((p.join q).relativeTo p).parts.Sublist q.parts := by
  by_cases hr : q.root = .none
  · rw [relativeTo_join hr]
  · rw [PosixPath.join, if_neg hr]
    exact drop_sublist _ _

lemma head?_str_of_relative (h : q.root = .none) : q.str.head? ≠ some '/' := by
  rw [← root_parse_eq_none, parse_str, h]

/-- If the text that is read in the place of a name is not longer than what is read in the uri of the
name, and read as the name again, nothing is changed on the way. -/
lemma eq_of_read_back (hm : name ≠ [])
    (hr : givenParameter "projectName" (parameters (projectKey ++ legible name)) = some v)
    (hg : s.length ≤ v.length)
    (hk : givenParameter "projectName" (parameters (projectKey ++ s)) = some name) :
    v = name ∧ plusToBlank s = name ∧ s.length = name.length := by
  obtain ⟨hread_le, hread_lt⟩ := length_le_of_given hr
  obtain ⟨hback_le, hback_lt⟩ := length_le_of_given hk
  have hlegible_le := (legible_sublist name).length_le
  have he := (legible_sublist name).eq_of_length_le (by omega)
  rw [he] at hr hread_lt
  have hread_amp : '&' ∉ name := fun hme => absurd (hread_lt hme) (by omega)
  have hback_amp : '&' ∉ s := fun hme => absurd (hback_lt hme) (by omega)
  have hs : s ≠ [] := by
    rintro rfl
    exact hm (length_eq_zero_iff.1 (by simpa using hback_le))
  have hv : v = unquotePlus name := by
    have hme := mem_of_given hr
    rw [parseQsl_projectKey hm hread_amp, mem_singleton] at hme
    exact (Prod.mk.inj hme).2
  have hn : name = unquotePlus s := by
    have hme := mem_of_given hk
    rw [parseQsl_projectKey hs hback_amp, mem_singleton] at hme
    exact (Prod.mk.inj hme).2
  have hl : plusToBlank s = name := by
    rw [← unquotePlus_of_length (by rw [← hn]; omega), ← hn]
  refine ⟨?_, hl, by omega⟩
  have hp : '+' ∉ name := hl ▸ plus_notMem_plusToBlank s
  rw [hv, unquotePlus_of_length (by rw [← hv]; omega), plusToBlank_of_notMem hp]

lemma head?_plusToBlank (s : Text) : (plusToBlank s).head? = some '/' ↔ s.head? = some '/' := by
  cases s with
  | nil => rfl
  | cons c s =>
    by_cases hc : c = '+'
    · simp [plusToBlank, hc]
    · simp [plusToBlank, hc]

lemma clean_of_not_inQuery (hm : .var "path" ∈ url.query) (hin : ¬ InQuery url q) : Clean q := by
  have ht : q.str = (Symbol.var "path").text := by
    by_contra hne
    exact hin ⟨hm, hne⟩
  rw [clean_iff_str, ht]
  exact List.all_eq_true.1 (by decide)

/-- With a template a project is shown at a path that leads back to it exactly if its name is read as it
is written. -/
lemma returns_of_templated {f b : Text} (ho : h.Configured r)
    (hq : Templated "projectName" r.url.query f b) (hn : name ≠ []) :
    (StorageHandler.database (.geopackage h) stored).Returns r
        ((StorageHandler.database (.geopackage h) stored).uriOf r.url name) ↔
      SelfDecoding name ∧ (PosixPath.parse name).root = .none ∧ (PosixPath.parse name).str = name ∧
        (name = (Symbol.var "path").text →
          h.database (appendPath r.url (.parse name)) = h.database r.url) := by
  obtain ⟨path, hd, hi⟩ := ho.database
  have huri : (StorageHandler.database (.geopackage h) stored).uriOf r.url name = projectUri path name := by
    rw [StorageHandler.uriOf, DatabaseHandler.uriOf, hd, Option.getD_some]
  have hre := (of_urlsplit_projectUri (h := h) hi name).2
  have hp : (StorageHandler.database (.geopackage h) stored).publicPath (projectUri path name)
      r.location r.url = (givenParameter "projectName" (parameters (projectKey ++ legible name))).map
        fun o => ((PosixPath.parse r.location).join (.parse o)).str := by
    rw [← hre, ← lookup_urlParameters]
    exact if_pos (lookup_of_templated hq)
  have he (q : PosixPath) : (StorageHandler.database (.geopackage h) stored).resolveUri
      (placed r.url q) = some (projectUri path name) ↔ h.database (placed r.url q) = some path ∧
        givenParameter "projectName" (parameters (projectKey ++ q.str)) = some name := by
    rw [← projectOf_placed hq]
    exact toOption_eq_some.trans (resolveUri_eq_iff hi.clean
      (clean_database_placed hd hi.clean (clean_of_not_inQuery hq.mem)))
  rw [huri]
  constructor
  · intro hu
    cases hv : givenParameter "projectName" (parameters (projectKey ++ legible name)) with
    | none =>
      rw [hv] at hp
      exact absurd hu (not_returns_of_none hp)
    | some v =>
      rw [hv] at hp
      obtain ⟨-, hba⟩ := (returns_iff hq.fillable hp).1 hu
      obtain ⟨hl, hgi⟩ := (he _).1 hba
      have hh := length_str_le (givenParameter_eq_some.1 hv).2 rfl
        (relativeTo_join_sublist (.parse r.location) (.parse v))
      obtain ⟨rfl, hk, hm⟩ := eq_of_read_back hn hv hh hgi
      have hr : (PosixPath.parse v).root = .none := by
        rw [root_parse_eq_none, ← hk, ne_eq, head?_plusToBlank]
        exact head?_str_of_relative rfl
      rw [relativeTo_join hr] at hl hm
      have hst := str_parse_of_length hn hr hm.ge
      refine ⟨(given_legible_iff hn).1 hv, hr, hst, fun ht => ?_⟩
      have hno : ¬ InQuery r.url (.parse v) := fun hin => hin.2 (hst.trans ht)
      rw [placed, if_neg hno] at hl
      rw [hl, hd]
  · rintro ⟨hf, hr, hst, ht⟩
    have hv := (given_legible_iff hn).2 hf
    rw [hv] at hp
    have hg : legible name = name :=
      legible_of_forall fun c hc => ⟨(hf.1 c hc).1, (hf.1 c hc).2.2⟩
    rw [hg] at hv
    rw [returns_iff hq.fillable hp, relativeTo_join hr, he, hst]
    refine ⟨isRelativeTo_join hr, ?_, hv⟩
    rw [placed]
    split
    · exact hd
    next hin =>
      rw [ht, hd]
      by_contra hne
      exact hin ⟨hq.mem, by rwa [hst]⟩

lemma returns_iff_recovers (ho : h.Configured r) (hn : name ≠ []) :
    (StorageHandler.database (.geopackage h) stored).Returns r
        ((StorageHandler.database (.geopackage h) stored).uriOf r.url name) ↔ h.Recovers r name := by
  rcases ho.query with hq | ⟨f, b, hq⟩
  · rw [returns_of_fixed ho hq]
    exact ⟨fun hk => ⟨fun _ => hk, fun hm => absurd hm (hq.fields _)⟩,
      fun hr => hr.fixed (hq.fields _)⟩
  · rw [returns_of_templated ho hq hn]
    exact ⟨fun hk => ⟨fun ht => absurd hq.mem ht, fun _ => hk⟩,
      fun hr => hr.templated hq.mem⟩

end GeoPackageHandler

end QJazz.Cache
