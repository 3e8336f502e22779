import QJazz.Cache.FileHandler

/-! A project is listed under the location of the route whose root it was found in, and fetched by
the first route that contains its public path, which is made from the uri after `urlsplit`. -/
namespace QJazz.Cache

open Lexical List PosixPath

def visible (p : PosixPath) : PosixPath := .parse (Url.urlsplit (.ofText p.str)).path.render

def rootPath (url : Url) : PosixPath := .parse url.path.render

def shownAt (location : Text) (rooturl : Url) (p : PosixPath) : PosixPath :=
  (PosixPath.parse location).join ((visible p).relativeTo (rootPath rooturl))

/-- The file that is looked for at a path: the path itself if it has the suffix of a project, else the
file with a suffix, if there is one, and otherwise the one with the last suffix. -/
structure Completes (fs : FileSystem) (f p : PosixPath) : Prop where
  absolute : f.isAbsolute = true
  self : FileSystem.isProject f = true → p = f
  suffixed : FileSystem.isProject f = false →
    ∃ q, ProjectSuffix.qgs.apply f = some q ∧
      (fs.isFile q = true → p = q) ∧ (fs.isFile q = false → ProjectSuffix.qgz.apply q = some p)

/-- The query of an url can be filled in: it has no brace and no field but the path. -/
structure Fillable (query : Template) : Prop where
  opening : .char '{' ∉ query
  closing : .char '}' ∉ query
  fields : ∀ x, .var x ∈ query → x = "path"

/-- A route leads from a public path to a file: by the rest of the path behind its root, unless the
rest goes into its query. -/
structure Leads (fs : FileSystem) (r : StaticRoute) (shown p : PosixPath) : Prop where
  fillable : Fillable r.url.query
  appended : ¬ InQuery r.url (shown.relativeTo (.parse r.location)) →
    Completes fs ((rootPath r.url).join (shown.relativeTo (.parse r.location))) p
  queried : InQuery r.url (shown.relativeTo (.parse r.location)) → Completes fs (rootPath r.url) p

namespace FileRoutes

variable (t : FileRoutes) (fs : FileSystem)

def first (shown : PosixPath) : Option StaticRoute :=
  t.routes.find? fun r => shown.isRelativeTo (.parse r.location)

/-- The first route that contains the public path of a file leads to the file. -/
def Recovers (location : Text) (rooturl : Url) (p : PosixPath) : Prop :=
  ∃ r, t.first (shownAt location rooturl p) = some r ∧ Leads fs r (shownAt location rooturl p) p

def listedFiles (rooturl : Url) : List PosixPath :=
  (fs.projects rooturl).takeWhile fun p =>
    (fs.stat p).isSome && (visible p).isRelativeTo (rootPath rooturl)

def FetchedBack (direct allowDirect : Bool) (listed : ProjectMetadata × Text) : Prop :=
  ∃ url md, resolvePath (t.routes.map .static) direct listed.2 allowDirect = .ok url ∧
    fs.projectMetadata url = .ok md ∧ md.uri = listed.1.uri

end FileRoutes

variable {fs : FileSystem} {f p : PosixPath}

lemma completes_of_checkFilepath (h : fs.checkFilepath f = .ok p) : Completes fs f p := by
  rw [FileSystem.checkFilepath] at h
  split at h
  next hab =>
    split at h
    next ho =>
      cases h
      exact ⟨hab, fun _ => rfl, fun hn => by simp [ho] at hn⟩
    next ho =>
      split at h
      · cases h
      next q hq =>
        refine ⟨hab, fun hp => absurd hp ho, fun _ => ⟨q, hq, ?_⟩⟩
        split at h
        next hi =>
          cases h
          exact ⟨fun _ => rfl, fun hn => by simp [hi] at hn⟩
        next hi =>
          split at h
          · cases h
          next r hr =>
            cases h
            exact ⟨fun hf => absurd hf hi, fun _ => hr⟩
  · cases h

lemma checkFilepath_of_completes (h : Completes fs f p) : fs.checkFilepath f = .ok p := by
  rw [FileSystem.checkFilepath, if_pos h.absolute]
  cases hp : FileSystem.isProject f with
  | true => rw [if_pos rfl, h.self hp]
  | false =>
    obtain ⟨q, hq, hg, hz⟩ := h.suffixed hp
    cases hf : fs.isFile q with
    | true => simp [hq, hf, hg hf]
    | false => simp [hq, hf, hz hf]

lemma checkFilepath_eq_ok : fs.checkFilepath f = .ok p ↔ Completes fs f p :=
  ⟨completes_of_checkFilepath, checkFilepath_of_completes⟩

lemma exists_fileMetadata (h : (fs.stat p).isSome) :
    ∃ md, fs.fileMetadata p = some md ∧ md.uri = .ofList p.str := by
  obtain ⟨i, ht⟩ := Option.isSome_iff_exists.1 h
  rw [FileSystem.fileMetadata, ht]
  exact ⟨_, rfl, rfl⟩

lemma uri_of_fileMetadata {md : ProjectMetadata} (h : fs.fileMetadata p = some md) :
    md.uri = .ofList p.str := by
  obtain ⟨i, -, rfl⟩ := Option.map_eq_some_iff.1 h
  rfl

lemma projectMetadata_uri_iff {url : Url} (ht : (fs.stat p).isSome) :
    (∃ md, fs.projectMetadata url = .ok md ∧ md.uri = .ofList p.str) ↔
      Completes fs (rootPath url) p := by
  rw [← checkFilepath_eq_ok, rootPath]
  constructor
  · rintro ⟨md, hmd, huri⟩
    rw [FileSystem.projectMetadata] at hmd
    split at hmd
    · cases hmd
    next q hq =>
      split at hmd
      · cases hmd
      next md' hm =>
        cases hmd
        have hr := String.ofList_injective ((uri_of_fileMetadata hm).symm.trans huri)
        rwa [← str_injective hr]
  · intro h
    obtain ⟨md, hmd, huri⟩ := exists_fileMetadata ht
    refine ⟨md, ?_, huri⟩
    rw [FileSystem.projectMetadata, h]
    simp only [hmd]

lemma findRoute_static (o : List StaticRoute) (a : PosixPath) : findRoute (o.map .static) a =
      .ok ((o.find? fun r => a.isRelativeTo (.parse r.location)).map fun r =>
        { route := .static r, location := .parse r.location, rooturl := r.url }) := by
  induction o with
  | nil => rfl
  | cons r o ih =>
    rw [map_cons, findRoute, RouteDef.resolvePath, StaticRoute.resolvePath]
    by_cases h : a.isRelativeTo (.parse r.location) = true
    · simp [h]
    · simp [h, ih]

lemma isOk_placePath_iff {rooturl : Url} {a : PosixPath} :
    (∃ url, placePath rooturl a = .ok url) ↔ Fillable rooturl.query := by
  have hn (x : String) :
      (if x = "path" then some a.str else none).isSome = true ↔ x = "path" := by
    by_cases hx : x = "path" <;> simp [hx]
  rw [placePath]
  cases hf : Template.format (fun x => if x = "path" then some a.str else none)
      rooturl.query with
  | none =>
    refine iff_of_false (by simp) fun h => ?_
    have hm := Template.format_eq_some.2
      ⟨⟨h.opening, h.closing, fun x hx => (hn x).2 (h.fields x hx)⟩, rfl⟩
    rw [hf] at hm
    cases hm
  | some q =>
    obtain ⟨⟨ho, hl, hu⟩, -⟩ := Template.format_eq_some.1 hf
    refine iff_of_true ?_ ⟨ho, hl, fun x hx => (hn x).1 (hu x hx)⟩
    simp only
    split <;> exact ⟨_, rfl⟩

@[simp] lemma rootPath_appendPath (rooturl : Url) (path : PosixPath) :
    rootPath (appendPath rooturl path) = (rootPath rooturl).join path := by
  rw [rootPath, appendPath, Template.render_ofText, parse_str]
  rfl

lemma leads_iff {r : StaticRoute} {s : PosixPath} :
    (∃ url, placePath r.url (s.relativeTo (.parse r.location)) = .ok url ∧
      Completes fs (rootPath url) p) ↔ Leads fs r s p := by
  constructor
  · rintro ⟨url, hurl, ho⟩
    have hf := isOk_placePath_iff.1 ⟨url, hurl⟩
    rcases placePath_eq_ok hurl with ⟨hin, rfl⟩ | ⟨hin, rfl⟩
    · exact ⟨hf, fun hn => absurd hin hn, fun _ => ho⟩
    · rw [rootPath_appendPath] at ho
      exact ⟨hf, fun _ => ho, fun hy => absurd hy hin⟩
  · intro h
    obtain ⟨url, hurl⟩ := isOk_placePath_iff.2 h.fillable
    refine ⟨url, hurl, ?_⟩
    rcases placePath_eq_ok hurl with ⟨hin, rfl⟩ | ⟨hin, rfl⟩
    · exact h.queried hin
    · rw [rootPath_appendPath]
      exact h.appended hin

namespace FileRoutes

variable {t : FileRoutes} {direct allowDirect : Bool} {location : Text} {rooturl : Url}

lemma resolvePath_of_first {s : PosixPath} {r : StaticRoute} (h : t.first s = some r) :
    resolvePath (t.routes.map .static) direct s.str allowDirect =
      placePath r.url (s.relativeTo (.parse r.location)) := by
  rw [first] at h
  rw [resolvePath, parse_str, findRoute_static, h]
  rfl

lemma first_isSome (rooturl : Url) (p : PosixPath) {r : StaticRoute} (hr : r ∈ t.routes)
    (hl : PosixPath.parse location = .parse r.location) :
    (t.first (shownAt location rooturl p)).isSome = true := by
  rw [first, List.find?_isSome]
  refine ⟨r, hr, ?_⟩
  rw [PosixPath.isRelativeTo, shownAt, ← hl, join_root_of_relative rfl,
    join_parts_of_relative rfl]
  simp

lemma fetchedBack_iff {md : ProjectMetadata} {r : StaticRoute} (hr : r ∈ t.routes)
    (hl : PosixPath.parse location = .parse r.location) (hmd : fs.fileMetadata p = some md) :
    t.FetchedBack fs direct allowDirect (md, (shownAt location rooturl p).str) ↔
      t.Recovers fs location rooturl p := by
  have ht : (fs.stat p).isSome := by
    obtain ⟨m, hi, -⟩ := Option.map_eq_some_iff.1 hmd
    rw [hi]
    rfl
  obtain ⟨i, hf⟩ := Option.isSome_iff_exists.1
    (first_isSome rooturl p hr hl)
  have he : t.Recovers fs location rooturl p ↔
      Leads fs i (shownAt location rooturl p) p := by
    constructor
    · rintro ⟨r', hr', hd⟩
      cases hf.symm.trans hr'
      exact hd
    · exact fun h => ⟨i, hf, h⟩
  rw [he, ← leads_iff, FetchedBack, resolvePath_of_first hf, uri_of_fileMetadata hmd]
  refine exists_congr fun url => ?_
  rw [exists_and_left, projectMetadata_uri_iff ht]

lemma publicPath_eq (location : Text) (rooturl : Url) (p : PosixPath) :
    publicPath p.str location rooturl =
      if (visible p).isRelativeTo (rootPath rooturl) then some (shownAt location rooturl p).str
      else none := by
  rw [publicPath]
  rfl

lemma mem_collect {l : ProjectMetadata × Text} (ps : List PosixPath) :
    l ∈ collect fs location rooturl ps ↔ ∃ p ∈ ps.takeWhile fun p =>
          (fs.stat p).isSome && (visible p).isRelativeTo (rootPath rooturl),
        fs.fileMetadata p = some l.1 ∧ l.2 = (shownAt location rooturl p).str := by
  induction ps with
  | nil => simp [collect]
  | cons p ps ih =>
    rw [collect]
    cases ht : fs.stat p with
    | none => simp [FileSystem.fileMetadata, ht]
    | some i =>
      have ho : (fs.stat p).isSome := by rw [ht]; rfl
      obtain ⟨md, hmd, huri⟩ := exists_fileMetadata ho
      simp only [hmd, huri, String.toList_ofList, publicPath_eq]
      by_cases hr : (visible p).isRelativeTo (rootPath rooturl) = true
      · rw [if_pos hr, takeWhile_cons_of_pos (by simp [ht, hr])]
        simp only [mem_cons, ih, exists_eq_or_imp, hmd, Option.some.injEq]
        refine or_congr_left ?_
        rw [Prod.ext_iff, eq_comm (a := md)]
      · rw [if_neg hr, takeWhile_cons_of_neg (by simp [hr])]
        simp

lemma exists_route_of_mem_locations {s : Option Text} {l : Text × Url} (h : l ∈ t.locations s) :
    ∃ r ∈ t.routes, PosixPath.parse l.1 = .parse r.location ∧ l.2 = r.url := by
  rw [locations] at h
  split at h
  · obtain ⟨r, hr, rfl⟩ := List.mem_map.1 h
    exact ⟨r, hr, parse_str _, rfl⟩
  next location he =>
    split at h
    next r hf =>
      obtain rfl := mem_singleton.1 h
      have hl : r.location = location := by simpa using List.find?_some hf
      exact ⟨r, List.mem_of_find?_eq_some hf, by rw [hl], rfl⟩
    · obtain ⟨r, hr, rfl⟩ := List.mem_map.1 h
      exact ⟨r, (List.mem_filter.1 hr).1, parse_str _, rfl⟩

/-- All listed projects can be fetched back exactly when all listed files are recovered. -/
theorem fetchedBack_iff_recovers (t : FileRoutes) (fs : FileSystem) (search : Option Text)
    (direct allowDirect : Bool) :
    (∀ listed ∈ t.collectProjects fs search, t.FetchedBack fs direct allowDirect listed) ↔
      ∀ l ∈ t.locations search, ∀ p ∈ listedFiles fs l.2, t.Recovers fs l.1 l.2 p := by
  constructor
  · intro h l hl p hp
    obtain ⟨r, hr, ho, -⟩ := exists_route_of_mem_locations hl
    have hi := mem_takeWhile_imp hp
    rw [Bool.and_eq_true] at hi
    obtain ⟨md, hmd, -⟩ := exists_fileMetadata hi.1
    refine (fetchedBack_iff hr ho hmd).1 (h _ (mem_flatMap.2 ⟨l, hl, ?_⟩))
    exact (mem_collect _).2 ⟨p, hp, hmd, rfl⟩
  · rintro h ⟨md, a⟩ hi
    obtain ⟨l, hl, hm⟩ := mem_flatMap.1 hi
    obtain ⟨r, hr, ho, -⟩ := exists_route_of_mem_locations hl
    obtain ⟨p, hp, hmd, rfl⟩ := (mem_collect _).1 hm
    exact (fetchedBack_iff hr ho hmd).2 (h l hl p hp)

end FileRoutes

structure PlainPath (p : PosixPath) : Prop where
  root : p.root = .single
  query : '?' ∉ p.str
  fragment : '#' ∉ p.str
  safe : ∀ c ∈ p.str, (Symbol.char c).isUnsafe = false

def isPathChar (c : Char) : Bool :=
  decide (c ≠ '?') && decide (c ≠ '#') && !(Symbol.char c).isUnsafe

def Clean (p : PosixPath) : Prop := ∀ part ∈ p.parts, ∀ c ∈ part, isPathChar c = true

lemma isPathChar_iff {c : Char} :
    isPathChar c ↔ c ≠ '?' ∧ c ≠ '#' ∧ (Symbol.char c).isUnsafe = false := by
  simp [isPathChar, and_assoc]

lemma clean_iff_str : Clean p ↔ ∀ c ∈ p.str, isPathChar c = true := by
  have hr : components p.str = p.parts := congrArg PosixPath.parts p.parse_str
  constructor
  · intro h c hc
    by_cases hl : c = '/'
    · rw [hl]
      decide
    by_cases hd : c = '.'
    · rw [hd]
      decide
    obtain ⟨a, hp, hm⟩ := exists_mem_components hc hl hd
    exact h a (hr ▸ hp) c hm
  · intro h a hp c hc
    have hl : c ≠ '/' := ne_of_mem_of_not_mem hc (p.slash_notMem a hp)
    exact h c (mem_of_mem_components (hr.symm ▸ hp) hc hl)

lemma plainPath_iff : PlainPath p ↔ p.root = .single ∧ Clean p := by
  rw [clean_iff_str]
  constructor
  · intro h
    refine ⟨h.root, fun c hc => isPathChar_iff.2 ⟨?_, ?_, h.safe c hc⟩⟩
    · exact ne_of_mem_of_not_mem hc h.query
    · exact ne_of_mem_of_not_mem hc h.fragment
  · rintro ⟨hr, hl⟩
    exact
      { root := hr
        query := fun hm => absurd (hl _ hm) (by decide)
        fragment := fun hm => absurd (hl _ hm) (by decide)
        safe := fun c hc => (isPathChar_iff.1 (hl c hc)).2.2 }

lemma str_of_single (h : p.root = .single) : p.str = '/' :: ['/'].intercalate p.parts := by
  rw [PosixPath.str, if_neg (by simp [h]), h]
  rfl

lemma splitScheme_of_rooted (t : Template) :
    Url.splitScheme (.char '/' :: t) = ([], .char '/' :: t) := by
  rcases Url.splitScheme_cases (.char '/' :: t) with hn | ⟨s, i, hp, hl, -, -⟩
  · exact hn
  · cases s with
    | nil => cases hl
    | cons a s =>
      rw [cons_append, List.cons.injEq] at hp
      rw [← hp.1] at hl
      cases hl

lemma strip_of_rooted (s : Text) : Url.strip (.ofText ('/' :: s)) =
      .char '/' :: (Template.ofText s).filter fun a => !a.isUnsafe := by
  have ho : Template.ofText ('/' :: s) = .char '/' :: Template.ofText s := rfl
  rw [ho, Url.strip, dropWhile_cons_of_neg (by decide), filter_cons_of_pos (by decide)]

lemma strip_of_safe {s : Text} (h : ∀ c ∈ s, (Symbol.char c).isUnsafe = false) :
    Url.strip (.ofText ('/' :: s)) = .ofText ('/' :: s) := by
  have hf : (Template.ofText s).filter (fun a => !a.isUnsafe) = Template.ofText s := by
    rw [filter_eq_self]
    intro a ha
    obtain ⟨c, hc, rfl⟩ := List.mem_map.1 ha
    simp [h c hc]
  rw [strip_of_rooted, hf]
  rfl

lemma scheme_urlsplit_of_rooted {s : Text} (h : s.head? = some '/') :
    (Url.urlsplit (.ofText s)).scheme = [] := by
  cases s with
  | nil => cases h
  | cons c s =>
    cases h
    change (Url.splitScheme (Url.strip (.ofText ('/' :: s)))).1 = []
    rw [strip_of_rooted, splitScheme_of_rooted]

lemma path_urlsplit_of_rooted {s : Text} (h : ∀ c ∈ s, (Symbol.char c).isUnsafe = false) :
    (Url.urlsplit (.ofText ('/' :: s))).path =
      (Url.splitTail (Url.splitNetloc (.ofText ('/' :: s))).2).1 := by
  have ho : Template.ofText ('/' :: s) = .char '/' :: Template.ofText s := rfl
  have hscheme : Url.splitScheme (.ofText ('/' :: s)) = ([], .ofText ('/' :: s)) := by
    rw [ho, splitScheme_of_rooted]
  rw [Url.urlsplit]
  simp only [strip_of_safe h, hscheme]

lemma splitTail_of_notMem {s : Text} (hu : '?' ∉ s) (hr : '#' ∉ s) :
    (Url.splitTail (.ofText s)).1 = .ofText s := by
  rw [Url.splitTail_fst, takeWhile_eq_self_iff]
  intro a ha
  obtain ⟨c, hc, rfl⟩ := List.mem_map.1 ha
  have hq : c ≠ '?' := ne_of_mem_of_not_mem hc hu
  have hf : c ≠ '#' := ne_of_mem_of_not_mem hc hr
  simp [hq, hf]

lemma path_urlsplit_of_plainPath (h : PlainPath p) :
    (Url.urlsplit (.ofText p.str)).path = .ofText p.str := by
  have hst := str_of_single h.root
  have hf : ∀ c ∈ ['/'].intercalate p.parts, (Symbol.char c).isUnsafe = false :=
    fun c hc => h.safe c (hst ▸ mem_cons_of_mem _ hc)
  have hn : Url.splitNetloc (.ofText p.str) = ([], .ofText p.str) := by
    rcases Url.splitNetloc_cases (.ofText p.str) with ⟨ho, -⟩ | ⟨r, hp, -⟩
    · exact ho
    · have ht : Template.ofText (['/'].intercalate p.parts) = .char '/' :: r := by
        rw [hst] at hp
        exact (List.cons.inj hp).2
      have hh := congrArg List.head? ht
      rw [Template.ofText, List.head?_map] at hh
      obtain ⟨c, hc, hr⟩ := Option.map_eq_some_iff.1 hh
      cases hr
      exact absurd hc p.head?_intercalate
  have ht := splitTail_of_notMem h.query h.fragment
  rw [hst] at hn ht ⊢
  rw [path_urlsplit_of_rooted hf, hn, ht]

lemma visible_of_plainPath (h : PlainPath p) : visible p = p := by
  rw [visible, path_urlsplit_of_plainPath h, Template.render_ofText, parse_str]

lemma head?_maps : "/maps".toList.head? = some '/' := by decide

/-- A nested location that is declared behind the one around it cannot be reached. -/
def nestedRoutes : FileRoutes where
  routes :=
    [⟨"/maps".toList, .ofText "/srv/maps".toList, by decide⟩,
      ⟨"/maps/private".toList, .ofText "/srv/private".toList, by decide⟩]
  nodup := by decide
  isFile := by decide +kernel

def oneProject : FileSystem where
  stat p :=
    if p = .parse "/srv/private".toList ∨ p = .parse "/srv/private/a.qgs".toList then some 1 else none
  isDir p := decide (p = .parse "/srv/private".toList)
  isFile p := decide (p = .parse "/srv/private/a.qgs".toList)
  walk p := if p = .parse "/srv/private".toList then [.parse "a.qgs".toList] else []
  walk_relative := by
    intro p q hq
    split at hq
    · rw [List.mem_singleton.1 hq]
      rfl
    · cases hq

/-- The project is listed, and its public path leads into the root of the first route. -/
theorem not_fetchedBack_nested :
    (⟨"/srv/private/a.qgs", "a", "file", some "file", 1⟩, "/maps/private/a.qgs".toList) ∈
        nestedRoutes.collectProjects oneProject none ∧
      ¬ nestedRoutes.FetchedBack oneProject false false
        (⟨"/srv/private/a.qgs", "a", "file", some "file", 1⟩, "/maps/private/a.qgs".toList) := by
  refine ⟨by decide +kernel, ?_⟩
  rintro ⟨url, md, hurl, hmd, -⟩
  have hf : resolvePath (nestedRoutes.routes.map .static) false "/maps/private/a.qgs".toList false =
      .ok ⟨fileScheme, [], .ofText "/srv/maps/private/a.qgs".toList, [], []⟩ := by
    decide +kernel
  cases hf.symm.trans hurl
  have hgone : oneProject.projectMetadata
      ⟨fileScheme, [], .ofText "/srv/maps/private/a.qgs".toList, [], []⟩ =
      .error (.fileNotFound "/srv/maps/private/a.qgs") := by
    decide +kernel
  cases hgone.symm.trans hmd

end QJazz.Cache
