import QJazz.Cache.Inversion.Model

/-! The path of the uri of an object is absolute and the key of the root is made relative, so that
`public_path` raises for every root with a key. -/
namespace QJazz.Cache

open Lexical List Template PosixPath

namespace S3Client

structure FixedUrl (url : Url) : Prop where
  netloc : ∀ x, .var x ∉ url.netloc
  query : ∀ x, .var x ∉ url.query
  fragment : ∀ x, .var x ∉ url.fragment
  opening : .char '{' ∉ url.query
  closing : .char '}' ∉ url.query

/-- The root has no key, and the name can stand behind a host. -/
structure Recovers (url : Url) (name : Text) : Prop where
  keyless : stripSlashes url.path.render = []
  root : (rootPath url).root ≠ .double
  name_root : (PosixPath.parse name).root ≠ .double
  clean : Clean (.parse name)

lemma FixedUrl.fillable {url : Url} (h : FixedUrl url) : Fillable url.query :=
  ⟨h.opening, h.closing, fun x hx => absurd hx (h.query x)⟩

lemma head?_dropWhile_slash (s : Text) : (s.dropWhile (· = '/')).head? ≠ some '/' := by
  intro hh
  have hn := List.head?_dropWhile_not (fun c : Char => decide (c = '/')) s
  rw [hh] at hn
  exact absurd hn (by decide)

lemma head?_stripSlashes (s : Text) : (stripSlashes s).head? ≠ some '/' := by
  intro hh
  obtain ⟨t, ht⟩ := rdropWhile_prefix (· = '/') (s.dropWhile (· = '/'))
  obtain ⟨e, hr⟩ := List.head?_eq_some_iff.1 hh
  rw [stripSlashes] at hr
  rw [hr] at ht
  exact head?_dropWhile_slash s (by rw [← ht]; rfl)

lemma eq_slash_of_stripSlashes {s : Text} (h : stripSlashes s = []) : ∀ c ∈ s, c = '/' := by
  rw [stripSlashes, rdropWhile_eq_nil_iff] at h
  have hn : s.dropWhile (· = '/') = [] := by
    cases hd : s.dropWhile (· = '/') with
    | nil => rfl
    | cons c e =>
      rw [hd] at h
      have hc : c = '/' := by simpa using h c mem_cons_self
      exact absurd (by rw [hd, hc]; rfl) (head?_dropWhile_slash s)
  simpa using dropWhile_eq_nil_iff.1 hn

variable {url : Url} {p q : PosixPath} {name : Text}

def behindSlash (p : PosixPath) : Text :=
  (if p.root = .double then ['/'] else []) ++ ['/'].intercalate p.parts

lemma rooted_slash (s : Text) : Url.rooted (.ofText ('/' :: s)) = .ofText ('/' :: s) :=
  if_neg fun h => h.2 rfl

lemma rooted_str (h : p.parts ≠ []) :
    Url.rooted (.ofText p.str) = .ofText ('/' :: behindSlash p) := by
  have ht : p.str = p.root.text ++ ['/'].intercalate p.parts := if_neg fun he => h he.2
  cases hr : p.root with
  | none =>
    rw [hr] at ht
    have hne : Template.ofText p.str ≠ [] := by
      simpa [Template.ofText] using p.str_ne_nil
    have hh : (Template.ofText p.str).head? ≠ some (.char '/') := by
      rw [ht, Template.ofText, List.head?_map]
      simpa [Root.text] using p.head?_intercalate
    rw [Url.rooted, if_pos ⟨hne, hh⟩, ht, behindSlash, if_neg (by simp [hr])]
    rfl
  | single =>
    rw [ht, behindSlash, if_neg (by simp [hr]), hr]
    exact rooted_slash _
  | double =>
    rw [ht, behindSlash, if_pos hr, hr]
    exact rooted_slash _

lemma mem_rooted {t : Template} {a : Symbol} (h : a ∈ Url.rooted t) : a = .char '/' ∨ a ∈ t := by
  rw [Url.rooted] at h
  split at h
  · exact mem_cons.1 h
  · exact .inr h

lemma geturl_of_netloc (hw : url.WellFormed) (hn : url.netloc ≠ []) (path : Template) :
    Url.geturl { url with path } = url.scheme ++ .char ':' :: (Url.slashes ++ url.netloc ++
      Url.rooted path ++ url.tail) := by
  have hh : Url.hierarchy { url with path } = Url.slashes ++ url.netloc ++ Url.rooted path :=
    if_pos hn
  have hscheme : Url.IsScheme (Url.scheme { url with path }) := hw.isScheme
  rw [Url.geturl_of_isScheme hscheme, hh]
  rfl

lemma path_urlsplit_geturl (hw : url.WellFormed) (hf : FixedUrl url) (hn : url.netloc ≠ [])
    {path : Template} {s : Text} (hp : Url.rooted path = .ofText ('/' :: s)) :
    (Url.urlsplit (.ofText (Url.geturl { url with path }).render)).path =
      Url.kept (.ofText ('/' :: s)) := by
  -- the rest of the path stands for a field, so that its characters need not be those of a path
  let u : Url := { url with path := [.char '/', .var "name"] }
  have hu : u.WellFormed :=
    { netloc_delim := hw.netloc_delim
      path_query := by simp [u]
      path_fragment := by simp [u]
      query_fragment := hw.query_fragment
      safe := by
        intro a ha
        simp only [u, mem_append] at ha
        rcases ha with ((ha | ha) | ha) | ha
        · exact hw.safe a (by simp [ha])
        · rcases mem_cons.1 ha with rfl | ha
          · rfl
          · rw [mem_singleton.1 ha]
            rfl
        · exact hw.safe a (by simp [ha])
        · exact hw.safe a (by simp [ha])
      isScheme := hw.isScheme
      rooted := fun _ => .inr rfl }
  have hi : Template.subst (fun _ => s) url.tail = url.tail := by
    refine subst_eq_self fun x hx => ?_
    rcases mem_append.1 hx with hx | hx
    · exact (Url.mem_optional hx).elim nofun (hf.query x)
    · exact (Url.mem_optional hx).elim nofun (hf.fragment x)
  have ht : Template.subst (fun _ => s) u.geturl = Url.geturl { url with path } := by
    rw [geturl_of_netloc hw hn, geturl_of_netloc hw hn, hp, subst_append,
      Url.subst_scheme hw.isScheme, subst_char, subst_append, subst_append,
      subst_append, hi, subst_eq_self hf.netloc]
    simp [Url.rooted, Url.slashes, Template.ofText]
  have hh : u.hierarchy = Url.slashes ++ u.netloc ++ u.path := if_pos hn
  rw [← ht, ofText_render fun _ => var_notMem_subst,
    Url.path_urlsplit_subst hu hf.netloc hh rfl]
  simp [u, Template.ofText]

lemma geturl_eq_iff (hw : url.WellFormed) (hn : url.netloc ≠ []) {s t : Template} :
    (Url.geturl { url with path := s }).render = (Url.geturl { url with path := t }).render ↔
      (Url.rooted s).render = (Url.rooted t).render := by
  rw [geturl_of_netloc hw hn, geturl_of_netloc hw hn]
  simp [Template.render]

def readPath (p : PosixPath) : PosixPath :=
  .parse (Url.kept (.ofText ('/' :: behindSlash p))).render

lemma kept_of_pathChars {s : Text} (h : ∀ c ∈ s, isPathChar c) :
    Url.kept (.ofText s) = .ofText s := by
  have he : ∀ a ∈ Template.ofText s, a.isUnsafe = false := by
    intro a ha
    obtain ⟨c, hc, rfl⟩ := List.mem_map.1 ha
    exact (isPathChar_iff.1 (h c hc)).2.2
  have ht : ∀ a ∈ Template.ofText s, Url.isPathSymbol a := by
    intro a ha
    obtain ⟨c, hc, rfl⟩ := List.mem_map.1 ha
    obtain ⟨hq, hf, -⟩ := isPathChar_iff.1 (h c hc)
    simp [Url.isPathSymbol, hq, hf]
  have hn : Url.kept [] = [] := rfl
  have hp := Url.kept_append (t := []) he ht
  rwa [hn, append_nil] at hp

lemma isPathChar_of_mem_kept {s : Text} {c : Char} (h : c ∈ (Url.kept (.ofText s)).render) :
    isPathChar c = true := by
  have hm {a : Symbol} (ha : a ∈ Url.kept (.ofText s)) : a ∈ Template.ofText s :=
    (List.mem_filter.1 ((takeWhile_sublist _).mem ha)).1
  rw [mem_render fun x hx => var_notMem_ofText (hm hx)] at h
  have hp := mem_takeWhile_imp h
  have hf := (List.mem_filter.1 ((takeWhile_sublist _).mem h)).2
  rw [isPathChar_iff]
  simp only [Url.isPathSymbol, Bool.and_eq_true, decide_eq_true_eq, ne_eq, Symbol.char.injEq] at hp
  exact ⟨hp.1, hp.2, by simpa using hf⟩

lemma readPath_root_ne_none (p : PosixPath) : (readPath p).root ≠ .none := by
  have ho : Url.kept (.ofText ('/' :: behindSlash p)) =
      .char '/' :: Url.kept (.ofText (behindSlash p)) :=
    Url.kept_append (s := [.char '/']) (by decide) (by decide)
  rw [readPath, ne_eq, root_parse_eq_none, ho, not_not]
  rfl

lemma clean_readPath (p : PosixPath) : Clean (readPath p) := by
  intro a hp c hc
  have hl : c ≠ '/' := ne_of_mem_of_not_mem hc ((readPath p).slash_notMem a hp)
  exact isPathChar_of_mem_kept (mem_of_mem_components hp hc hl)

lemma isPathChar_behindSlash (h : Clean p) : ∀ c ∈ '/' :: behindSlash p, isPathChar c = true := by
  intro c hc
  by_cases hl : c = '/'
  · rw [hl]
    decide
  · have hm : c ∈ ['/'].intercalate p.parts := by
      rw [mem_cons, behindSlash, mem_append] at hc
      rcases hc with hc | hc | hc
      · exact absurd hc hl
      · split at hc
        · exact absurd (mem_singleton.1 hc) hl
        · cases hc
      · exact hc
    obtain ⟨a, hp, hc⟩ := (mem_intercalate hl).1 hm
    exact h a hp c hc

lemma readPath_of_clean (h : Clean p) :
    (readPath p).parts = p.parts ∧ ((readPath p).root = .single ↔ p.root ≠ .double) := by
  rw [readPath, kept_of_pathChars (isPathChar_behindSlash h), render_ofText]
  by_cases hr : p.root = .double
  · rw [behindSlash, if_pos hr]
    have ht : '/' :: (['/'] ++ ['/'].intercalate p.parts) =
        Root.double.text ++ ['/'].intercalate p.parts := rfl
    rw [ht, parse_parts, components_root_append, p.components_intercalate,
      parse_root, rootOf_append _ p.head?_intercalate]
    simp [hr]
  · rw [behindSlash, if_neg hr]
    have ht : '/' :: ([] ++ ['/'].intercalate p.parts) =
        Root.single.text ++ ['/'].intercalate p.parts := rfl
    rw [ht, parse_parts, components_root_append, p.components_intercalate,
      parse_root, rootOf_append _ p.head?_intercalate]
    simp [hr]

lemma publicPath_of_key (hw : url.WellFormed) (hf : FixedUrl url) (hn : url.netloc ≠ [])
    (hp : p.parts ≠ []) (hk : stripSlashes url.path.render ≠ []) (l : Text) :
    publicPath (Url.geturl { url with path := .ofText p.str }).render l url = none := by
  have hr : (PosixPath.parse (stripSlashes url.path.render)).root = .none :=
    root_parse_eq_none.2 (head?_stripSlashes _)
  have ho : ¬ (readPath p).isRelativeTo (.parse (stripSlashes url.path.render)) := by
    rw [isRelativeTo_iff, hr]
    exact fun h => readPath_root_ne_none p h.1
  rw [publicPath, path_urlsplit_geturl hw hf hn (rooted_str hp), if_neg hk]
  exact if_neg ho

lemma publicPath_of_keyless (hw : url.WellFormed) (hf : FixedUrl url) (hn : url.netloc ≠ [])
    (hp : p.parts ≠ []) (hk : stripSlashes url.path.render = []) (l : Text) :
    publicPath (Url.geturl { url with path := .ofText p.str }).render l url =
      if (readPath p).root = .single then
        some ((PosixPath.parse l).join ((readPath p).relativeTo (.parse ['/']))).str
      else none := by
  have hi : (readPath p).isRelativeTo (.parse ['/']) ↔ (readPath p).root = .single := by
    rw [isRelativeTo_iff]
    exact and_iff_left nil_prefix
  rw [publicPath, path_urlsplit_geturl hw hf hn (rooted_str hp), if_pos hk]
  by_cases hr : (readPath p).root = .single
  · rw [if_pos hr]
    exact if_pos (hi.2 hr)
  · rw [if_neg hr]
    exact if_neg fun h => hr (hi.1 h)

lemma parts_rootPath_of_keyless (hk : stripSlashes url.path.render = []) : (rootPath url).parts = [] := by
  have hl := components_append_slashes (s := []) (eq_slash_of_stripSlashes hk)
  rwa [nil_append, components_nil] at hl

def lookedFor (url : Url) (p : PosixPath) : PosixPath :=
  (rootPath url).join ((readPath p).relativeTo (.parse ['/']))

lemma parts_lookedFor (hk : stripSlashes url.path.render = []) :
    (lookedFor url p).parts = (readPath p).parts := by
  rw [lookedFor, join_parts_of_relative rfl, parts_rootPath_of_keyless hk]
  rfl

lemma root_lookedFor (url : Url) (p : PosixPath) : (lookedFor url p).root = (rootPath url).root :=
  join_root_of_relative rfl

lemma clean_of_rooted (hm : (Url.rooted (.ofText q.str)).render = '/' :: behindSlash p)
    (hq : Clean q) : Clean p := by
  intro a hp c hc
  have hl : c ≠ '/' := ne_of_mem_of_not_mem hc (p.slash_notMem a hp)
  have he : c ∈ (Url.rooted (.ofText q.str)).render := by
    rw [hm, behindSlash]
    exact mem_cons_of_mem _ (mem_append_right _ ((mem_intercalate hl).2 ⟨a, hp, hc⟩))
  have hv : ∀ x, .var x ∉ Url.rooted (.ofText q.str) := fun x hx =>
    (mem_rooted hx).elim nofun var_notMem_ofText
  rw [mem_render hv] at he
  rcases mem_rooted he with he | he
  · exact absurd (Symbol.char.inj he) hl
  · exact clean_iff_str.1 hq c (char_mem_ofText.1 he)

lemma lookedFor_iff (hp : p.parts ≠ []) (hk : stripSlashes url.path.render = []) :
    (readPath p).root = .single ∧
        (Url.rooted (.ofText (lookedFor url p).str)).render = (Url.rooted (.ofText p.str)).render ↔
      (rootPath url).root ≠ .double ∧ p.root ≠ .double ∧ Clean p := by
  rw [rooted_str hp, render_ofText]
  constructor
  · rintro ⟨hi, hm⟩
    have he : Clean p := clean_of_rooted hm (by
      intro a ht
      rw [parts_lookedFor hk] at ht
      exact clean_readPath p a ht)
    obtain ⟨hr, ho⟩ := readPath_of_clean he
    have hl := (parts_lookedFor hk).trans hr
    have hd := ho.1 hi
    refine ⟨fun hurl => ?_, hd, he⟩
    rw [rooted_str (hl ▸ hp), render_ofText, behindSlash, behindSlash, root_lookedFor,
      if_pos hurl, if_neg hd, hl] at hm
    exact absurd (congrArg List.length hm) (by simp)
  · rintro ⟨hurl, hd, he⟩
    obtain ⟨hr, ho⟩ := readPath_of_clean he
    have hl := (parts_lookedFor hk).trans hr
    refine ⟨ho.2 hd, ?_⟩
    rw [rooted_str (hl ▸ hp), render_ofText, behindSlash, behindSlash, root_lookedFor,
      if_neg hurl, if_neg hd, hl]

variable {c : S3Client} {r : StaticRoute}

/-- An object is shown at a path that leads back to it exactly if the root has no key and the name can
stand behind a host. -/
lemma returns_iff_recovers (hf : FixedUrl r.url) (hn : r.url.netloc ≠ [])
    (hr : (PosixPath.parse name).parts ≠ []) :
    (StorageHandler.s3 c).Returns r ((StorageHandler.s3 c).uriOf r.url name) ↔
      Recovers r.url name := by
  have hw : r.url.WellFormed := wellFormed_validateUrl r.urlstr
  by_cases hk : stripSlashes r.url.path.render = []
  · have hp := publicPath_of_keyless hw hf hn hr hk r.location
    have hif := lookedFor_iff hr hk
    by_cases hi : (readPath (.parse name)).root = .single
    · have hh : (StorageHandler.s3 c).publicPath ((StorageHandler.s3 c).uriOf r.url name)
          r.location r.url = some ((PosixPath.parse r.location).join
            ((readPath (.parse name)).relativeTo (.parse ['/']))).str := by
        rw [StorageHandler.publicPath, StorageHandler.uriOf, hp, if_pos hi]
      have he : (StorageHandler.s3 c).resolveUri
          (placed r.url ((readPath (.parse name)).relativeTo (.parse ['/']))) =
            some (Url.geturl { r.url with path := .ofText (lookedFor r.url (.parse name)).str }).render := by
        rw [placed, if_neg (fun h => hf.query _ h.1)]
        rfl
      rw [StorageHandler.returns_iff hf.fillable hh, relativeTo_join rfl, he,
        StorageHandler.uriOf, Option.some.injEq, geturl_eq_iff hw hn,
        and_iff_right (isRelativeTo_join rfl)]
      constructor
      · intro hm
        obtain ⟨hurl, hd, hl⟩ := hif.1 ⟨hi, hm⟩
        exact ⟨hk, hurl, hd, hl⟩
      · exact fun h => (hif.2 ⟨h.root, h.name_root, h.clean⟩).2
    · rw [if_neg hi] at hp
      refine iff_of_false (StorageHandler.not_returns_of_none hp) fun h => hi ?_
      exact (hif.2 ⟨h.root, h.name_root, h.clean⟩).1
  · have hp := publicPath_of_key hw hf hn hr hk r.location
    exact iff_of_false (StorageHandler.not_returns_of_none hp) fun h => hk h.keyless

end S3Client
end QJazz.Cache
