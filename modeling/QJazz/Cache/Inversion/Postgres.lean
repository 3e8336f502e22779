import QJazz.Cache.Inversion.Model

/-! `resolve_uri` takes a path of one part for the project, and the root of an absolute path is a
part. -/
namespace QJazz.Cache

open Lexical

lemma pathParts_eq_nil {p : PosixPath} : pathParts p = [] ↔ p = .parse [] := by
  rw [pathParts]
  split
  next hr => exact ⟨fun hp => PosixPath.ext hr hp, fun h => by rw [h]; rfl⟩
  next hr =>
    refine iff_of_false (List.cons_ne_nil _ _) ?_
    rintro rfl
    exact hr rfl

namespace PostgresHandler

/-- The host can stand in an uri, and the query has at most the template for the project. -/
structure Configured (r : StaticRoute) : Prop where
  host : CleanHost r.url
  query : QueryFor "project" r.url.query

def projectAt (url : Url) (project : Text) : Text :=
  if .var "path" ∈ url.query then ['.'] else project

/-- If the root names no project, its path with the name of the project behind it has the name as
its only part. If it names one, its path is empty and the location stands for the project. -/
structure Recovers (h : PostgresHandler) (r : StaticRoute) (name : Text) : Prop where
  unnamed : givenParameter "project" (h.merged r.url) = none →
    ((PosixPath.parse r.location).join (.parse name)).isRelativeTo (.parse r.location) = true ∧
      pathParts ((rootPath r.url).join
        (((PosixPath.parse r.location).join (.parse name)).relativeTo (.parse r.location))) = [name]
  named : ∀ project, givenParameter "project" (h.merged r.url) = some project →
    rootPath r.url = .parse [] ∧ name = projectAt r.url project

variable {h : PostgresHandler} {r : StaticRoute} {url : Url} {q : List (String × Text)}
  {name project : Text} {s : Url → List Text}

lemma resolveUri_eq_iff {url' : Url} (ho : CleanHost url) (hn : url'.netloc = url.netloc)
    (hq : h.Resolved q) :
    h.resolveUri url' = .ok (h.uriWith url q).geturl.render ↔ h.resolvedParameters url' = .ok q := by
  have hh : CleanHost url' := by rwa [CleanHost, hn]
  constructor
  · intro huri
    rw [resolvedParameters_of_resolveUri hh huri, urlsplit_uriWith ho, urlParameters_uriWith hq]
  · intro hp
    refine resolveUri_eq_ok.2 ⟨q, hp, ?_⟩
    rw [uriWith, uriWith, hn]

lemma publicPath_uriWith (hh : CleanHost url) (hn : name ≠ []) (l : Text) :
    h.publicPath (h.uriWith url (setKey "project" name (h.merged url))).geturl.render l url =
      some (if givenParameter "project" (h.merged url) = none then
        (PosixPath.parse l).join (.parse name) else .parse l).str := by
  rw [publicPath, urlsplit_uriWith hh, urlParameters_uriWith (resolved_setKey hn),
    lookup_setKey_self]
  split <;> rfl

lemma setKey_inj {d : List (String × Text)} {v w : Text} :
    setKey "project" v d = setKey "project" w d ↔ v = w := by
  refine ⟨fun h => ?_, fun h => by rw [h]⟩
  have hl := congrArg (List.lookup "project") h
  rwa [lookup_setKey_self, lookup_setKey_self, Option.some.injEq] at hl

lemma resolvedParameters_of_unnamed (hg : givenParameter "project" (h.merged url) = none) :
    h.resolvedParameters url = .ok (setKey "project" name (h.merged url)) ↔
      pathParts (rootPath url) = [name] := by
  simp only [resolvedParameters, hg, and_true, ne_eq, not_true_eq_false, and_false, if_false]
  split
  next ho =>
    obtain ⟨p, hp⟩ := List.length_eq_one_iff.1 ho
    have hr : pathParts (rootPath url) = [p] := hp
    rw [hp, hr, Except.ok.injEq, List.headD_cons, setKey_inj]
    simp
  next ho =>
    refine iff_of_false (by simp) fun hp => ho ?_
    have hr : pathParts (.parse url.path.render) = [name] := hp
    rw [hr]
    rfl

lemma resolvedParameters_of_named (hg : givenParameter "project" (h.merged url) = some project) :
    h.resolvedParameters url = .ok q ↔ rootPath url = .parse [] ∧ h.merged url = q := by
  simp only [resolvedParameters, hg, reduceCtorEq, and_false, if_false, ne_eq, not_false_eq_true,
    and_true]
  split
  next hn =>
    have hr : rootPath url = .parse [] := pathParts_eq_nil.1 (List.length_eq_zero_iff.1 hn)
    simp [hr]
  next hn =>
    refine iff_of_false (by simp) fun hr => hn ?_
    have hp : pathParts (.parse url.path.render) = [] := pathParts_eq_nil.2 hr.1
    rw [hp]
    rfl

lemma merged_templated {f b v : Text} (hq : Templated "project" url.query f b)
    (hv : v ≠ []) (hm : '&' ∉ v) :
    updateDict h.query (parameters (lead f ++ (("project".toList ++ '=' :: v) ++ trail b))) =
      setKey "project" (unquotePlus v) (h.merged url) := by
  have hk : unquotePlus "project".toList = "project".toList := by decide +kernel
  have hf {v : Text} (hv : v ≠ []) (hm : '&' ∉ v) :
      parseQsl ("project".toList ++ '=' :: v) = [("project", unquotePlus v)] := by
    rw [parseQsl_field (by decide) (by decide) hv hm, hk, String.ofList_toList]
  have hurl : urlParameters url = parameters (lead f ++
      (("project".toList ++ '=' :: (Symbol.var "path").text) ++ trail b)) := by
    rw [urlParameters, hq.render_query]
  rw [parameters_between hq.back_key (hf (v := (Symbol.var "path").text) (by decide) (by decide))
    (hf hv hm), ← hurl, updateDict_setKey (nodup_urlParameters url)]
  rfl

lemma given_of_templated {f b : Text} (hq : Templated "project" url.query f b) :
    givenParameter "project" (h.merged url) ≠ none := by
  have hm := merged_templated (h := h) (v := (Symbol.var "path").text) hq (by decide) (by decide)
  have he : h.merged url = setKey "project" (unquotePlus (Symbol.var "path").text) (h.merged url) := by
    rw [← hm, merged, urlParameters, hq.render_query]
  have hl : (h.merged url).lookup "project" = some (unquotePlus (Symbol.var "path").text) := by
    rw [he, lookup_setKey_self]
  rw [givenParameter_eq_some.2 ⟨hl, unquotePlus_ne_nil (by decide)⟩]
  exact Option.some_ne_none _

lemma placed_of_named (hq : QueryFor "project" url.query)
    (hg : givenParameter "project" (h.merged url) = some project) :
    rootPath (placed url (.parse [])) = rootPath url ∧
      h.merged (placed url (.parse [])) = setKey "project" (projectAt url project) (h.merged url) := by
  rcases hq with hq | ⟨f, b, hq⟩
  · rw [placed_of_fixed hq, rootPath_appendPath, PosixPath.join_parse_nil, projectAt,
      if_neg (hq.fields _), setKey_of_lookup (givenParameter_eq_some.1 hg).1]
    exact ⟨rfl, rfl⟩
  · have hin : InQuery url (.parse []) := ⟨hq.mem, by decide⟩
    constructor
    · rw [placed, if_pos hin]
      rfl
    · have hd : unquotePlus (PosixPath.parse []).str = ['.'] := by decide +kernel
      rw [merged, hq.urlParameters_placed, merged_templated hq (by decide) (by decide), hd,
        projectAt, if_pos hq.mem]

lemma returns_iff_recovers (ho : Configured r) (hn : name ≠ []) :
    (StorageHandler.database (.postgresql h) s).Returns r
        ((StorageHandler.database (.postgresql h) s).uriOf r.url name) ↔ h.Recovers r name := by
  have hp : (StorageHandler.database (.postgresql h) s).publicPath
      ((StorageHandler.database (.postgresql h) s).uriOf r.url name) r.location r.url =
        some (if givenParameter "project" (h.merged r.url) = none then
          (PosixPath.parse r.location).join (.parse name) else .parse r.location).str :=
    publicPath_uriWith ho.host hn r.location
  have hf : Fillable r.url.query := by
    rcases ho.query with hq | ⟨f, b, hq⟩
    · exact hq.fillable
    · exact hq.fillable
  have he (p : PosixPath) : (StorageHandler.database (.postgresql h) s).resolveUri
      (placed r.url p) = some ((StorageHandler.database (.postgresql h) s).uriOf r.url name) ↔
        h.resolvedParameters (placed r.url p) = .ok (setKey "project" name (h.merged r.url)) :=
    toOption_eq_some.trans
      (resolveUri_eq_iff ho.host (netloc_placed r.url p) (resolved_setKey hn))
  cases hg : givenParameter "project" (h.merged r.url) with
  | none =>
    have hx : Fixed r.url.query := by
      rcases ho.query with hq | ⟨f, b, hq⟩
      · exact hq
      · exact absurd hg (given_of_templated hq)
    rw [if_pos hg] at hp
    have ht (p : PosixPath) : h.resolvedParameters (placed r.url p) =
        .ok (setKey "project" name (h.merged r.url)) ↔ pathParts ((rootPath r.url).join p) = [name] := by
      rw [placed_of_fixed hx, ← rootPath_appendPath]
      exact resolvedParameters_of_unnamed hg
    rw [StorageHandler.returns_iff hf hp, he, ht]
    exact ⟨fun hk => ⟨fun _ => hk, fun project hpr => by simp [hg] at hpr⟩,
      fun hr => hr.unnamed hg⟩
  | some project =>
    rw [if_neg (by simp [hg])] at hp
    obtain ⟨hro, hd⟩ := placed_of_named ho.query hg
    have hi : givenParameter "project" (h.merged (placed r.url (.parse []))) =
        some (projectAt r.url project) := by
      rw [hd, givenParameter_eq_some, projectAt]
      refine ⟨lookup_setKey_self, ?_⟩
      split
      · decide
      · exact (givenParameter_eq_some.1 hg).2
    rw [StorageHandler.returns_iff hf hp, PosixPath.relativeTo_self, he,
      resolvedParameters_of_named hi, hro, hd, setKey_inj,
      and_iff_right (PosixPath.isRelativeTo_self _)]
    constructor
    · rintro ⟨hm, rfl⟩
      refine ⟨fun hno => by simp [hg] at hno, fun o hj => ?_⟩
      cases hg.symm.trans hj
      exact ⟨hm, rfl⟩
    · intro hr
      obtain ⟨hm, heq⟩ := hr.named project hg
      exact ⟨hm, heq.symm⟩

end PostgresHandler

end QJazz.Cache
