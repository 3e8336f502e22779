import Mathlib.Data.List.TakeWhile
import QJazz.Lexical.Template

/-! Python's `urlsplit` and `urlunsplit`, on texts whose symbols may be fields of a template. -/
namespace QJazz.Lexical
open List Template

structure Url where
  scheme : Template
  netloc : Template
  path : Template
  query : Template
  fragment : Template
  deriving DecidableEq

def cut (c : Char) (t : Template) : Template × Option Template :=
  match t.dropWhile (· ≠ .char c) with
  | [] => (t, none)
  | _ :: tail => (t.takeWhile (· ≠ .char c), some tail)

namespace Symbol

/-- The control characters and the blank, stripped at the start of an url. -/
def isBlank : Symbol → Bool
  | char c => decide (c.toNat ≤ 0x20)
  | var _ => false

/-- The characters removed everywhere in an url. -/
def isUnsafe : Symbol → Bool
  | char c => decide (c = '\t') || decide (c = '\r') || decide (c = '\n')
  | var _ => false

def isSchemeChar : Symbol → Bool
  | char c => c.isAlphanum || decide (c = '+') || decide (c = '-') || decide (c = '.')
  | var _ => false

def isAlpha : Symbol → Bool
  | char c => c.isAlpha
  | var _ => false

def lower : Symbol → Symbol
  | char c => char c.toLower
  | var x => var x

def isDelim (a : Symbol) : Bool :=
  decide (a = char '/') || decide (a = char '?') || decide (a = char '#')

lemma isSchemeChar_lt {c : Char} (h : (char c).isSchemeChar) : c.toNat < 128 := by
  simp only [isSchemeChar, Bool.or_eq_true, decide_eq_true_eq] at h
  rcases h with ((h | rfl) | rfl) | rfl
  · delta Char.isAlphanum Char.isAlpha Char.isUpper Char.isLower Char.isDigit at h
    simp only [Bool.or_eq_true, Bool.and_eq_true, decide_eq_true_eq, UInt32.le_iff_toNat_le,
      ge_iff_le] at h
    have hc : c.toNat = c.val.toNat := rfl
    have hu : 'Z'.val.toNat = 90 := rfl
    have hl : 'z'.val.toNat = 122 := rfl
    have hd : '9'.val.toNat = 57 := rfl
    omega
  all_goals decide

lemma lower_ascii : ∀ n : Fin 128, (char (Char.ofNat n)).isSchemeChar →
    (char (Char.ofNat n)).lower.lower = (char (Char.ofNat n)).lower ∧
      (char (Char.ofNat n)).lower.isAlpha = (char (Char.ofNat n)).isAlpha ∧
      (char (Char.ofNat n)).lower.isSchemeChar = true := by
  decide +kernel

lemma lower_isSchemeChar {a : Symbol} (h : a.isSchemeChar) :
    a.lower.lower = a.lower ∧ a.lower.isAlpha = a.isAlpha ∧ a.lower.isSchemeChar = true := by
  cases a with
  | char c =>
    have hc := lower_ascii ⟨c.toNat, isSchemeChar_lt h⟩
    rw [Char.ofNat_toNat] at hc
    exact hc h
  | var x => cases h

end Symbol

namespace Url

def strip (t : Template) : Template :=
  (t.dropWhile Symbol.isBlank).filter fun a => !a.isUnsafe

def splitScheme (t : Template) : Template × Template :=
  match cut ':' t with
  | (head, some tail) =>
    if (head.head?.any Symbol.isAlpha && head.all Symbol.isSchemeChar) = true then
      (head.map Symbol.lower, tail)
    else ([], t)
  | (_, none) => ([], t)

def splitNetloc : Template → Template × Template
  | .char '/' :: .char '/' :: t =>
    (t.takeWhile fun a => !a.isDelim, t.dropWhile fun a => !a.isDelim)
  | t => ([], t)

def splitTail (t : Template) : Template × Template × Template :=
  let fragment := cut '#' t
  let query := cut '?' fragment.1
  (query.1, query.2.getD [], fragment.2.getD [])

def urlsplit (t : Template) : Url :=
  let scheme := splitScheme (strip t)
  let netloc := splitNetloc scheme.2
  let tail := splitTail netloc.2
  { scheme := scheme.1
    netloc := netloc.1
    path := tail.1
    query := tail.2.1
    fragment := tail.2.2 }

/-- The schemes whose urls have a host part (`uses_netloc`). -/
def usesNetloc : List String :=
  ["", "ftp", "http", "gopher", "nntp", "telnet", "imap", "wais", "file", "mms", "https", "shttp",
    "snews", "prospero", "rtsp", "rtsps", "rtspu", "rsync", "svn", "svn+ssh", "sftp", "nfs", "git",
    "git+ssh", "ws", "wss", "itms-services"]

def slashes : Template := [.char '/', .char '/']

def hierarchy (u : Url) : Template :=
  if u.netloc ≠ [] then
    slashes ++ u.netloc ++
      (if u.path ≠ [] ∧ u.path.head? ≠ some (.char '/') then .char '/' :: u.path else u.path)
  else if u.path.take 2 = slashes then slashes ++ u.path
  else if u.scheme ≠ [] ∧ String.ofList u.scheme.render ∈ usesNetloc ∧
      (u.path = [] ∨ u.path.head? = some (.char '/')) then slashes ++ u.path
  else u.path

def optional (c : Char) (t : Template) : Template :=
  if t = [] then [] else .char c :: t

def geturl (u : Url) : Template :=
  (if u.scheme ≠ [] then u.scheme ++ .char ':' :: u.hierarchy else u.hierarchy) ++
    optional '?' u.query ++ optional '#' u.fragment

end Url

section Cut

variable {c : Char} {s t : Template} {a : Symbol}

lemma cut_of_notMem (h : .char c ∉ t) : cut c t = (t, none) := by
  have hd : t.dropWhile (· ≠ .char c) = [] := by
    rw [dropWhile_eq_nil_iff]
    intro a ha
    simp only [decide_eq_true_eq]
    rintro rfl
    exact h ha
  rw [cut, hd]

lemma cut_append (h : .char c ∉ s) : cut c (s ++ .char c :: t) = (s, some t) := by
  have hs : ∀ a ∈ s, decide (a ≠ .char c) := by
    intro a ha
    simp only [decide_eq_true_eq]
    rintro rfl
    exact h ha
  rw [cut, dropWhile_append_of_pos hs, takeWhile_append_of_pos hs]
  simp

lemma cut_cases (c : Char) (t : Template) : (.char c ∉ t ∧ cut c t = (t, none)) ∨
      ∃ s i, t = s ++ .char c :: i ∧ .char c ∉ s ∧ cut c t = (s, some i) := by
  by_cases h : .char c ∈ t
  · obtain ⟨s, i, rfl, hs⟩ := eq_append_cons_of_mem h
    exact Or.inr ⟨s, i, rfl, hs, cut_append hs⟩
  · exact Or.inl ⟨h, cut_of_notMem h⟩

lemma cut_fst (c : Char) (t : Template) : (cut c t).1 = t.takeWhile (· ≠ .char c) := by
  cases h : t.dropWhile (· ≠ .char c) with
  | nil =>
    rw [cut, h]
    exact (takeWhile_eq_self_iff.2 (dropWhile_eq_nil_iff.1 h)).symm
  | cons a r => rw [cut, h]

lemma notMem_cut_fst : .char c ∉ (cut c t).1 := by
  obtain ⟨h, heq⟩ | ⟨s, i, rfl, h, heq⟩ := cut_cases c t
  · rwa [heq]
  · rwa [heq]

lemma mem_of_mem_cut_fst (h : a ∈ (cut c t).1) : a ∈ t := by
  obtain ⟨-, heq⟩ | ⟨s, i, rfl, -, heq⟩ := cut_cases c t
  · rwa [heq] at h
  · rw [heq] at h
    exact mem_append_left _ h

lemma mem_of_mem_cut_snd (h : a ∈ (cut c t).2.getD []) : a ∈ t := by
  obtain ⟨-, heq⟩ | ⟨s, i, rfl, -, heq⟩ := cut_cases c t
  · rw [heq] at h
    cases h
  · rw [heq] at h
    exact mem_append_right _ (mem_cons_of_mem _ h)

end Cut

namespace Url

/-- The parts of an url that has been split are free of the separators behind them, and of the
characters that are removed. -/
structure Split (u : Url) : Prop where
  netloc_delim : ∀ a ∈ u.netloc, a.isDelim = false
  path_query : .char '?' ∉ u.path
  path_fragment : .char '#' ∉ u.path
  query_fragment : .char '#' ∉ u.query
  safe : ∀ a ∈ u.netloc ++ u.path ++ u.query ++ u.fragment, a.isUnsafe = false

/-- A scheme that splitting recognises and leaves as it is. -/
structure IsScheme (s : Template) : Prop where
  head : s.head?.any Symbol.isAlpha = true
  chars : ∀ a ∈ s, a.isSchemeChar = true
  lower : s.map Symbol.lower = s

structure WellFormed (u : Url) : Prop extends Split u where
  isScheme : IsScheme u.scheme
  rooted : u.netloc ≠ [] → u.path = [] ∨ u.path.head? = some (.char '/')

variable {s t n : Template} {a : Symbol} {u : Url} {σ : String → Text}

lemma mem_of_mem_splitTail
    (h : a ∈ (splitTail t).1 ∨ a ∈ (splitTail t).2.1 ∨ a ∈ (splitTail t).2.2) : a ∈ t := by
  rcases h with h | h | h
  · exact mem_of_mem_cut_fst (mem_of_mem_cut_fst h)
  · exact mem_of_mem_cut_fst (mem_of_mem_cut_snd h)
  · exact mem_of_mem_cut_snd h

lemma splitTail_fst (t : Template) :
    (splitTail t).1 = t.takeWhile fun a => decide (a ≠ .char '?') && decide (a ≠ .char '#') := by
  change (cut '?' (cut '#' t).1).1 = _
  rw [cut_fst, cut_fst, takeWhile_takeWhile]
  simp

lemma splitNetloc_cases (t : Template) : (splitNetloc t = ([], t) ∧ ∀ r, t ≠ slashes ++ r) ∨
      ∃ r, t = slashes ++ r ∧ splitNetloc t =
        (r.takeWhile fun a => !a.isDelim, r.dropWhile fun a => !a.isDelim) := by
  by_cases h : ∃ r, t = slashes ++ r
  · obtain ⟨r, rfl⟩ := h
    exact Or.inr ⟨r, rfl, rfl⟩
  · have hne : ∀ r, t ≠ slashes ++ r := fun r hr => h ⟨r, hr⟩
    refine Or.inl ⟨?_, hne⟩
    rw [splitNetloc]
    rintro r rfl
    exact hne r rfl

lemma mem_of_mem_splitNetloc (h : a ∈ (splitNetloc t).1 ∨ a ∈ (splitNetloc t).2) : a ∈ t := by
  obtain ⟨heq, -⟩ | ⟨r, rfl, heq⟩ := splitNetloc_cases t
  · rw [heq] at h
    exact h.resolve_left (not_mem_nil)
  · rw [heq] at h
    refine mem_append_right _ ?_
    cases h with
    | inl h => exact (takeWhile_sublist _).mem h
    | inr h => exact (dropWhile_sublist _).mem h

lemma isDelim_of_mem_splitNetloc (h : a ∈ (splitNetloc t).1) : a.isDelim = false := by
  obtain ⟨heq, -⟩ | ⟨r, rfl, heq⟩ := splitNetloc_cases t
  · rw [heq] at h
    cases h
  · rw [heq] at h
    simpa using mem_takeWhile_imp h

lemma head_splitNetloc (h : (splitNetloc t).1 ≠ []) :
    (splitNetloc t).2.head?.all Symbol.isDelim = true := by
  obtain ⟨heq, -⟩ | ⟨r, rfl, heq⟩ := splitNetloc_cases t
  · rw [heq] at h
    exact absurd rfl h
  · rw [heq]
    cases hr : r.dropWhile fun a => !a.isDelim with
    | nil => rfl
    | cons a r' =>
      have := List.head?_dropWhile_not (fun a : Symbol => !a.isDelim) r
      simpa [hr] using this

lemma splitScheme_cases (t : Template) : splitScheme t = ([], t) ∨
      ∃ s i, t = s ++ .char ':' :: i ∧ s.head?.any Symbol.isAlpha ∧
        (∀ a ∈ s, a.isSchemeChar) ∧ splitScheme t = (s.map Symbol.lower, i) := by
  rw [splitScheme]
  obtain ⟨-, heq⟩ | ⟨s, i, rfl, -, heq⟩ := cut_cases ':' t
  · rw [heq]
    exact Or.inl rfl
  · rw [heq]
    by_cases hs : (s.head?.any Symbol.isAlpha && s.all Symbol.isSchemeChar) = true
    · have hs' := hs
      rw [Bool.and_eq_true, List.all_eq_true] at hs'
      exact Or.inr ⟨s, i, rfl, hs'.1, hs'.2, if_pos hs⟩
    · exact Or.inl (if_neg hs)

lemma mem_of_mem_splitScheme_snd (h : a ∈ (splitScheme t).2) : a ∈ t := by
  obtain heq | ⟨s, i, rfl, -, -, heq⟩ := splitScheme_cases t
  · rwa [heq] at h
  · rw [heq] at h
    exact mem_append_right _ (mem_cons_of_mem _ h)

lemma mem_of_mem_urlsplit (h : a ∈ (urlsplit t).netloc ++ (urlsplit t).path ++
    (urlsplit t).query ++ (urlsplit t).fragment) : a ∈ strip t := by
  apply mem_of_mem_splitScheme_snd
  simp only [mem_append, or_assoc] at h
  cases h with
  | inl h => exact mem_of_mem_splitNetloc (Or.inl h)
  | inr h => exact mem_of_mem_splitNetloc (Or.inr (mem_of_mem_splitTail h))

lemma split_urlsplit (t : Template) : Split (urlsplit t) where
  netloc_delim _ h := isDelim_of_mem_splitNetloc h
  path_query := notMem_cut_fst
  path_fragment h := notMem_cut_fst (mem_of_mem_cut_fst h)
  query_fragment h := notMem_cut_fst (mem_of_mem_cut_snd h)
  safe _ h := (by simpa using (List.mem_filter.1 (mem_of_mem_urlsplit h)).2)

lemma var_notMem_urlsplit {x : String} (h : .var x ∉ t) :
    .var x ∉ (urlsplit t).netloc ++ (urlsplit t).path ++ (urlsplit t).query ++
      (urlsplit t).fragment := by
  intro hx
  have ht := (List.mem_filter.1 (mem_of_mem_urlsplit hx)).1
  exact h ((dropWhile_sublist _).mem ht)

lemma isScheme_urlsplit (h : (urlsplit t).scheme ≠ []) : IsScheme (urlsplit t).scheme := by
  change (splitScheme (strip t)).1 ≠ [] at h
  change IsScheme (splitScheme (strip t)).1
  obtain heq | ⟨s, i, -, he, hh, heq⟩ := splitScheme_cases (strip t)
  · rw [heq] at h
    exact absurd rfl h
  · rw [heq]
    exact
      { head := by
          cases s with
          | nil => exact he | cons a s =>
            exact (Symbol.lower_isSchemeChar (hh a mem_cons_self)).2.1.trans he
        chars := by
          intro a ha
          obtain ⟨b, hb, rfl⟩ := List.mem_map.1 ha
          exact (Symbol.lower_isSchemeChar (hh b hb)).2.2
        lower := by
          rw [List.map_map]
          exact map_congr_left fun a ha => (Symbol.lower_isSchemeChar (hh a ha)).1 }

lemma wellFormed_urlsplit (t : Template) (hs : IsScheme s) :
    WellFormed { urlsplit t with scheme := s } where
  netloc_delim := (split_urlsplit t).netloc_delim
  path_query := (split_urlsplit t).path_query
  path_fragment := (split_urlsplit t).path_fragment
  query_fragment := (split_urlsplit t).query_fragment
  safe := (split_urlsplit t).safe
  isScheme := hs
  rooted := by
    intro hne
    have hh := head_splitNetloc hne
    change (splitTail (splitNetloc (splitScheme (strip t)).2).2).1 = [] ∨
      (splitTail (splitNetloc (splitScheme (strip t)).2).2).1.head? = _
    rw [splitTail_fst]
    generalize (splitNetloc (splitScheme (strip t)).2).2 = r at hh ⊢
    cases r with
    | nil => exact Or.inl rfl
    | cons a r =>
      have he : a = .char '/' ∨ a = .char '?' ∨ a = .char '#' := by
        simpa [Symbol.isDelim, or_assoc] using hh
      rcases he with rfl | rfl | rfl
      · exact Or.inr (by simp)
      · exact Or.inl (by simp)
      · exact Or.inl (by simp)

def subst (σ : String → Text) (u : Url) : Url where
  scheme := u.scheme
  netloc := Template.subst σ u.netloc
  path := Template.subst σ u.path
  query := Template.subst σ u.query
  fragment := Template.subst σ u.fragment

def tail (u : Url) : Template :=
  optional '?' u.query ++ optional '#' u.fragment

lemma geturl_of_isScheme (h : IsScheme u.scheme) :
    u.geturl = u.scheme ++ .char ':' :: (u.hierarchy ++ u.tail) := by
  have hne : u.scheme ≠ [] := by
    intro hn
    have hh := h.head
    rw [hn] at hh
    cases hh
  simp [geturl, hne, tail]

lemma isUnsafe_of_isSchemeChar (h : a.isSchemeChar) : a.isUnsafe = false := by
  cases a with
  | char c =>
    by_cases hc : (Symbol.char c).isUnsafe = true
    · simp only [Symbol.isUnsafe, Bool.or_eq_true, decide_eq_true_eq] at hc
      rcases hc with (rfl | rfl) | rfl <;> exact absurd h (by decide)
    · simpa using hc
  | var x => rfl

lemma isBlank_of_isAlpha (h : a.isAlpha) : a.isBlank = false := by
  cases a with
  | char c =>
    rw [Symbol.isAlpha] at h
    delta Char.isAlpha Char.isUpper Char.isLower at h
    simp only [Bool.or_eq_true, Bool.and_eq_true, decide_eq_true_eq, UInt32.le_iff_toNat_le,
      ge_iff_le] at h
    have hc : c.toNat = c.val.toNat := rfl
    have hu : 'A'.val.toNat = 65 := rfl
    have hl : 'a'.val.toNat = 97 := rfl
    simp only [Symbol.isBlank, decide_eq_false_iff_not]
    omega
  | var x => rfl

lemma strip_scheme (h : IsScheme s) :
    strip (s ++ .char ':' :: t) = s ++ .char ':' :: t.filter fun a => !a.isUnsafe := by
  have hl : (s ++ .char ':' :: t).dropWhile Symbol.isBlank = s ++ .char ':' :: t := by
    cases s with
    | nil => cases h.head
    | cons a s => simp [isBlank_of_isAlpha h.head]
  have hf : s.filter (fun a => !a.isUnsafe) = s := by
    rw [filter_eq_self]
    intro a ha
    simp [isUnsafe_of_isSchemeChar (h.chars a ha)]
  rw [strip, hl, filter_append, hf]
  rfl

lemma splitScheme_append (h : IsScheme s) : splitScheme (s ++ .char ':' :: t) = (s, t) := by
  have ho : .char ':' ∉ s := fun hm => absurd (h.chars _ hm) (by decide)
  have hs : (s.head?.any Symbol.isAlpha && s.all Symbol.isSchemeChar) := by
    rw [Bool.and_eq_true, List.all_eq_true]
    exact ⟨h.head, h.chars⟩
  rw [splitScheme, cut_append ho]
  exact (if_pos hs).trans (by rw [h.lower])

lemma splitNetloc_append (hn : ∀ a ∈ n, a.isDelim = false)
    (ht : t.head?.all Symbol.isDelim) : splitNetloc (slashes ++ n ++ t) = (n, t) := by
  have hp : ∀ a ∈ n, (!a.isDelim) := by
    intro a ha
    simp [hn a ha]
  change (List.takeWhile _ (n ++ t), List.dropWhile _ (n ++ t)) = (n, t)
  rw [takeWhile_append_of_pos hp, dropWhile_append_of_pos hp]
  cases t with
  | nil => simp
  | cons a t =>
    have ha : a.isDelim := ht
    simp [ha]

lemma splitNetloc_of_ne (h : ∀ r, t ≠ slashes ++ r) : splitNetloc t = ([], t) := by
  obtain ⟨heq, -⟩ | ⟨r, rfl, -⟩ := splitNetloc_cases t
  · exact heq
  · exact absurd rfl (h r)

lemma splitTail_join {p q f : Template} (hpq : .char '?' ∉ p) (hpf : .char '#' ∉ p)
    (hqf : .char '#' ∉ q) : splitTail (p ++ (optional '?' q ++ optional '#' f)) = (p, q, f) := by
  have hr : .char '#' ∉ p ++ optional '?' q := by
    by_cases hq : q = []
    · simpa [optional, hq] using hpf
    · simpa [optional, hq] using ⟨hpf, hqf⟩
  have hu : cut '#' (p ++ (optional '?' q ++ optional '#' f)) =
      (p ++ optional '?' q, if f = [] then none else some f) := by
    rw [← append_assoc]
    by_cases hf : f = []
    · simpa [optional, hf] using cut_of_notMem hr
    · simpa [hf, optional] using cut_append hr
  have ht : cut '?' (p ++ optional '?' q) = (p, if q = [] then none else some q) := by
    by_cases hq : q = []
    · simpa [optional, hq] using cut_of_notMem hpq
    · simpa [hq, optional] using cut_append hpq
  rw [splitTail, hu, ht]
  by_cases hf : f = [] <;> by_cases hq : q = [] <;> simp [hf, hq]

lemma head?_tail (u : Url) : u.tail.head?.all Symbol.isDelim = true := by
  by_cases hq : u.query = []
  · by_cases hf : u.fragment = []
    · simp [tail, optional, hq, hf]
    · simp [tail, optional, hq, hf, Symbol.isDelim]
  · simp [tail, optional, hq, Symbol.isDelim]

lemma subst_scheme (h : IsScheme s) : Template.subst σ s = s :=
  subst_eq_self fun _ hx => nomatch h.chars _ hx

lemma subst_optional (c : Char) (h : ∀ x, .var x ∈ t → σ x ≠ []) :
    Template.subst σ (optional c t) = optional c (Template.subst σ t) := by
  by_cases ht : t = []
  · simp [optional, ht]
  · simp [optional, ht, subst_eq_nil h]

lemma head?_ofText_append {s : Text} (hne : s ≠ []) (hs : '/' ∉ s) :
    (Template.ofText s ++ t).head? ≠ some (.char '/') := by
  cases s with
  | nil => exact absurd rfl hne
  | cons c s =>
    intro h
    simp only [Template.ofText, map_cons, cons_append, List.head?_cons,
      Option.some.injEq, Symbol.char.injEq] at h
    exact hs (by simp [h])

lemma subst_append_ne_slashes (hσ : ∀ x, .var x ∈ s → σ x ≠ [] ∧ '/' ∉ σ x)
    (hs : s.take 2 ≠ slashes) (ht : t.head? ≠ some (.char '/')) (r : Template) :
    Template.subst σ s ++ t ≠ slashes ++ r := by
  intro heq
  cases s with
  | nil =>
    rw [subst_nil, nil_append] at heq
    exact ht (by rw [heq]; rfl)
  | cons a s =>
    cases a with
    | var x =>
      obtain ⟨hne, hx⟩ := hσ x mem_cons_self
      rw [subst_var, append_assoc] at heq
      exact head?_ofText_append hne hx (by rw [heq]; rfl)
    | char c =>
      rw [subst_char, cons_append] at heq
      injection heq with hc heq
      cases s with
      | nil =>
        rw [subst_nil, nil_append] at heq
        exact ht (by rw [heq]; rfl)
      | cons b s =>
        cases b with
        | var x =>
          obtain ⟨hne, hx⟩ := hσ x (by simp)
          rw [subst_var, append_assoc] at heq
          exact head?_ofText_append hne hx (by rw [heq]; rfl)
        | char d =>
          rw [subst_char, cons_append] at heq
          injection heq with hd heq
          exact hs (by rw [hc, hd]; rfl)

lemma head?_subst_rooted (h : s = [] ∨ s.head? = some (.char '/'))
    (ht : t.head?.all Symbol.isDelim) :
    (Template.subst σ s ++ t).head?.all Symbol.isDelim = true := by
  cases s with
  | nil => exact ht
  | cons a s =>
    have ha : a = .char '/' := by simpa using h
    rw [ha]
    rfl

lemma slash_ne_of_isDelim_tail (u : Url) : u.tail.head? ≠ some (.char '/') := by
  by_cases hq : u.query = []
  · by_cases hf : u.fragment = []
    · simp [tail, optional, hq, hf]
    · simp [tail, optional, hq, hf]
  · simp [tail, optional, hq]

/-- The url has a place for a host part without having one. -/
def EmptyHost (u : Url) : Prop :=
  u.scheme ≠ [] ∧ String.ofList u.scheme.render ∈ usesNetloc ∧
    (u.path = [] ∨ u.path.head? = some (.char '/'))

/-- A joined url has a host part before a path that begins with a slash or is empty, or it has no
place for one and its path does not begin with two slashes. -/
lemma hierarchy_cases (hu : WellFormed u) : (u.hierarchy = slashes ++ u.netloc ++ u.path ∧
      (u.path = [] ∨ u.path.head? = some (.char '/'))) ∨
    (u.hierarchy = u.path ∧ u.netloc = [] ∧ u.path.take 2 ≠ slashes ∧ ¬ u.EmptyHost) := by
  rw [hierarchy]
  by_cases hn : u.netloc = []
  · rw [if_neg (not_not_intro hn)]
    by_cases ht : u.path.take 2 = slashes
    · rw [if_pos ht, hn, append_nil]
      have hh : (u.path.take 2).head? = u.path.head? := by simp [List.head?_take]
      exact Or.inl ⟨rfl, Or.inr (by rw [← hh, ht]; rfl)⟩
    · rw [if_neg ht]
      by_cases hr : u.scheme ≠ [] ∧ String.ofList u.scheme.render ∈ usesNetloc ∧
          (u.path = [] ∨ u.path.head? = some (.char '/'))
      · rw [if_pos hr, hn, append_nil]
        exact Or.inl ⟨rfl, hr.2.2⟩
      · rw [if_neg hr]
        exact Or.inr ⟨rfl, hn, ht, hr⟩
  · have hr := hu.rooted hn
    rw [if_pos hn, if_neg (fun h => hr.elim h.1 h.2)]
    exact Or.inl ⟨rfl, hr⟩

lemma splitNetloc_hierarchy (hu : WellFormed u) (hσ : ∀ x, .var x ∈ u.path → σ x ≠ [] ∧ '/' ∉ σ x)
    (hn : ∀ a ∈ Template.subst σ u.netloc, a.isDelim = false)
    (ht : t.head?.all Symbol.isDelim) (ht' : t.head? ≠ some (.char '/')) :
    splitNetloc (Template.subst σ u.hierarchy ++ t) =
      (Template.subst σ u.netloc, Template.subst σ u.path ++ t) := by
  obtain ⟨hh, hr⟩ | ⟨hh, he, hk, -⟩ := hierarchy_cases hu
  · rw [hh, subst_append, subst_append, append_assoc]
    exact splitNetloc_append hn (head?_subst_rooted hr ht)
  · rw [hh, he]
    exact splitNetloc_of_ne (subst_append_ne_slashes hσ hk ht')

lemma tail_subst (h : ∀ x, .var x ∈ u.query ++ u.fragment → σ x ≠ []) :
    Template.subst σ u.tail = (u.subst σ).tail := by
  rw [tail, subst_append, subst_optional _ fun x hx => h x (by simp [hx]),
    subst_optional _ fun x hx => h x (by simp [hx])]
  rfl

lemma mem_geturl (hu : WellFormed u) (h : a ∈ u.path ++ u.query ++ u.fragment) :
    a ∈ u.geturl := by
  have ho (c : Char) (t : Template) (ha : a ∈ t) : a ∈ optional c t := by
    rw [optional, if_neg (ne_nil_of_mem ha)]
    exact mem_cons_of_mem _ ha
  have hh : a ∈ u.path → a ∈ u.hierarchy := by
    intro ha
    obtain ⟨heq, -⟩ | ⟨heq, -⟩ := hierarchy_cases hu <;> simp [heq, ha]
  rw [geturl_of_isScheme hu.isScheme]
  refine mem_append_right _ (mem_cons_of_mem _ ?_)
  rw [tail, mem_append, mem_append]
  simp only [mem_append, or_assoc] at h
  rcases h with h | h | h
  · exact Or.inl (hh h)
  · exact Or.inr (Or.inl (ho _ _ h))
  · exact Or.inr (Or.inr (ho _ _ h))

lemma geturl_subst (hu : WellFormed u) : Template.subst σ u.geturl =
      u.scheme ++ .char ':' :: (Template.subst σ u.hierarchy ++ Template.subst σ u.tail) := by
  rw [geturl_of_isScheme hu.isScheme, subst_append, subst_scheme hu.isScheme]
  simp

lemma mem_optional {c : Char} (h : a ∈ optional c t) : a = .char c ∨ a ∈ t := by
  by_cases ht : t = []
  · rw [optional, if_pos ht] at h
    cases h
  · rw [optional, if_neg ht] at h
    exact mem_cons.1 h

lemma isUnsafe_of_mem_tail (hs : Split u) (h : a ∈ u.tail) : a.isUnsafe = false := by
  cases mem_append.1 h with
  | inl h | inr h =>
    cases mem_optional h with
    | inl h => exact h ▸ rfl
    | inr h => exact hs.safe a (by simp [h])

lemma isUnsafe_of_mem_hierarchy (hu : WellFormed u) (hs : Split (u.subst σ))
    (h : a ∈ Template.subst σ u.hierarchy) : a.isUnsafe = false := by
  obtain ⟨hh, -⟩ | ⟨hh, -⟩ := hierarchy_cases hu
  · rw [hh, subst_append, subst_append, mem_append, mem_append] at h
    rcases h with (h | h) | h
    · have hl : a = .char '/' := by simpa [slashes] using h
      exact hl ▸ rfl
    · exact hs.safe a (by simp [subst, h])
    · exact hs.safe a (by simp [subst, h])
  · rw [hh] at h
    exact hs.safe a (by simp [subst, h])

lemma filter_joined (hu : WellFormed u) (hs : Split (u.subst σ)) :
    (Template.subst σ u.hierarchy ++ (u.subst σ).tail).filter (fun a => !a.isUnsafe) =
      Template.subst σ u.hierarchy ++ (u.subst σ).tail := by
  rw [filter_eq_self]
  intro a ha
  rw [Bool.not_eq_true']
  cases mem_append.1 ha with
  | inl h => exact isUnsafe_of_mem_hierarchy hu hs h
  | inr h => exact isUnsafe_of_mem_tail hs h

/-- Substituting in a joined url and splitting it is substituting in its parts, exactly if the parts
that result could have come from splitting. -/
lemma urlsplit_subst_iff (hu : WellFormed u)
    (hσ : ∀ x, .var x ∈ u.path ++ u.query ++ u.fragment → σ x ≠ [] ∧ '/' ∉ σ x) :
    urlsplit (Template.subst σ u.geturl) = u.subst σ ↔ Split (u.subst σ) := by
  constructor
  · intro heq
    rw [← heq]
    exact split_urlsplit _
  · intro hs
    have ht : Template.subst σ u.tail = (u.subst σ).tail :=
      tail_subst fun x hx => (hσ x (by simpa [or_assoc] using Or.inr (by simpa using hx))).1
    have hn := splitNetloc_hierarchy hu (fun x hx => hσ x (by simp [hx])) hs.netloc_delim
      (head?_tail (u.subst σ)) (slash_ne_of_isDelim_tail _)
    have hj : splitTail (Template.subst σ u.path ++ (u.subst σ).tail) =
        (Template.subst σ u.path, Template.subst σ u.query, Template.subst σ u.fragment) :=
      splitTail_join hs.path_query hs.path_fragment hs.query_fragment
    rw [urlsplit, geturl_subst hu, strip_scheme hu.isScheme, splitScheme_append hu.isScheme, ht,
      filter_joined hu hs]
    simp only [hn, hj]
    rfl

lemma var_notMem_geturl (hu : WellFormed u) {x : String}
    (h : .var x ∉ u.netloc ++ u.path ++ u.query ++ u.fragment) : .var x ∉ u.geturl := by
  simp only [mem_append, not_or] at h
  obtain ⟨⟨⟨hn, hp⟩, hq⟩, hf⟩ := h
  have ho {c : Char} {t : Template} (ht : .var x ∉ t) : .var x ∉ optional c t := by
    intro hx
    rcases mem_optional hx with hx | hx
    · cases hx
    · exact ht hx
  have hh : .var x ∉ u.hierarchy := by
    obtain ⟨heq, -⟩ | ⟨heq, -⟩ := hierarchy_cases hu
    · simp [heq, slashes, hn, hp]
    · rwa [heq]
  rw [geturl_of_isScheme hu.isScheme, mem_append, mem_cons, tail, mem_append, mem_append]
  rintro (hx | hx | hx | hx | hx)
  · exact nomatch hu.isScheme.chars _ hx
  · cases hx
  · exact hh hx
  · exact ho hq hx
  · exact ho hf hx

lemma urlsplit_geturl (hu : WellFormed u)
    (h : ∀ x, .var x ∉ u.netloc ++ u.path ++ u.query ++ u.fragment) :
    urlsplit (.ofText u.geturl.render) = u := by
  have hp {t : Template} (ht : t ⊆ u.netloc ++ u.path ++ u.query ++ u.fragment) :
      Template.subst (fun _ => []) t = t :=
    subst_eq_self fun x hx => h x (ht hx)
  have hsu : u.subst (fun _ => []) = u := by
    rw [subst, hp (by intro; simp +contextual), hp (by intro; simp +contextual),
      hp (by intro; simp +contextual), hp (by intro; simp +contextual)]
  have hg : ∀ x, .var x ∉ u.geturl := fun x => var_notMem_geturl hu (h x)
  have hl := (urlsplit_subst_iff (σ := fun _ => []) hu fun x hx =>
    absurd (by simp only [mem_append] at hx ⊢; tauto) (h x)).2 (by rw [hsu]; exact hu.toSplit)
  rw [subst_eq_self hg, hsu] at hl
  rw [ofText_render hg, hl]

lemma takeWhile_append_of_head {p : Symbol → Bool} (h : t.head?.any p = false) :
    (s ++ t).takeWhile p = s.takeWhile p := by
  have ht : t.takeWhile p = [] := by
    cases t with
    | nil => rfl
    | cons a t => simpa using h
  rw [takeWhile_append, ht, append_nil]
  split
  case isTrue hlen => exact (( takeWhile_prefix p).eq_of_length hlen).symm
  case isFalse => rfl

def isPathSymbol (a : Symbol) : Bool :=
  decide (a ≠ .char '?') && decide (a ≠ .char '#')

lemma head?_filter_tail (u : Url) :
    ((Template.subst σ u.tail).filter fun a => !a.isUnsafe).head?.any isPathSymbol = false := by
  by_cases hq : u.query = []
  · by_cases hf : u.fragment = []
    · simp [tail, optional, hq, hf]
    · simp [tail, optional, hq, hf, Symbol.isUnsafe, isPathSymbol]
  · simp [tail, optional, hq, Symbol.isUnsafe, isPathSymbol]

def kept (t : Template) : Template :=
  (t.filter fun a => !a.isUnsafe).takeWhile isPathSymbol

/-- The path of an url with a fixed host part and an absolute path, after texts have been put in:
the characters that are removed are gone, and it ends before the first `?` or `#`. -/
lemma path_urlsplit_subst (hu : WellFormed u) (hn : ∀ x, .var x ∉ u.netloc)
    (hh : u.hierarchy = slashes ++ u.netloc ++ u.path) (hr : u.path.head? = some (.char '/')) :
    (urlsplit (Template.subst σ u.geturl)).path = kept (Template.subst σ u.path) := by
  have he : (slashes ++ u.netloc).filter (fun a => !a.isUnsafe) = slashes ++ u.netloc := by
    rw [filter_eq_self]
    intro a ha
    rw [Bool.not_eq_true']
    cases mem_append.1 ha with
    | inl h =>
      have hl : a = .char '/' := by simpa [slashes] using h
      exact hl ▸ rfl
    | inr h => exact hu.safe a (by simp [h])
  have hf : (Template.subst σ u.hierarchy ++ Template.subst σ u.tail).filter
      (fun a => !a.isUnsafe) =
        slashes ++ u.netloc ++ ((Template.subst σ u.path).filter (fun a => !a.isUnsafe) ++
          (Template.subst σ u.tail).filter fun a => !a.isUnsafe) := by
    have ht : Template.subst σ (slashes ++ u.netloc) = slashes ++ u.netloc :=
      subst_eq_self (by simpa [slashes] using hn)
    rw [hh, subst_append, ht, append_assoc, filter_append, he, filter_append]
  have hd : ((Template.subst σ u.path).filter (fun a => !a.isUnsafe) ++
      (Template.subst σ u.tail).filter fun a => !a.isUnsafe).head?.all Symbol.isDelim = true := by
    cases hp : u.path with
    | nil => simp [hp] at hr
    | cons a p =>
      have ha : a = .char '/' := by simpa [hp] using hr
      rw [ha]
      rfl
  rw [urlsplit, geturl_subst hu, strip_scheme hu.isScheme, splitScheme_append hu.isScheme, hf]
  simp only [splitNetloc_append hu.netloc_delim hd]
  rw [splitTail_fst]
  exact takeWhile_append_of_head (head?_filter_tail u)

lemma kept_append (he : ∀ a ∈ s, a.isUnsafe = false) (hp : ∀ a ∈ s, isPathSymbol a) :
    kept (s ++ t) = s ++ kept t := by
  have hf : s.filter (fun a => !a.isUnsafe) = s := by
    rw [filter_eq_self]
    intro a ha
    rw [he a ha]
    rfl
  rw [kept, filter_append, hf, takeWhile_append_of_pos hp]
  rfl

def rooted (p : Template) : Template :=
  if p ≠ [] ∧ p.head? ≠ some (.char '/') then .char '/' :: p else p

@[simp] lemma rooted_nil : rooted [] = [] := rfl

lemma rooted_append (h : s ≠ []) : rooted (s ++ t) = rooted s ++ t := by
  rw [rooted, rooted, List.head?_append_of_ne_nil _ h]
  simp only [ne_eq, append_eq_nil_iff, h, false_and, not_false_eq_true, true_and]
  split <;> rfl

lemma render_rooted_ne_nil (h : s.render ≠ []) : (rooted s).render ≠ [] := by
  rw [rooted]
  split
  · exact cons_ne_nil _ _
  · exact h

lemma exists_geturl_of_netloc (h : u.netloc ≠ []) :
    ∃ f back, ∀ p, geturl { u with path := p } = f ++ rooted p ++ back := by
  refine ⟨(if u.scheme ≠ [] then u.scheme ++ [.char ':'] else []) ++ slashes ++ u.netloc,
    optional '?' u.query ++ optional '#' u.fragment, fun p => ?_⟩
  have hh : hierarchy { u with path := p } = slashes ++ u.netloc ++ rooted p := if_pos h
  rw [geturl, hh]
  by_cases hs : u.scheme = []
  · simp [hs]
  · simp [hs]

def front (u : Url) : Template :=
  (if u.scheme = [] then [] else u.scheme ++ [.char ':']) ++ (slashes ++ u.netloc)

lemma geturl_eq_front (h : u.netloc ≠ []) : u.geturl = u.front ++ (rooted u.path ++ u.tail) := by
  have hh : u.hierarchy = slashes ++ u.netloc ++ rooted u.path := if_pos h
  rw [geturl, hh, front]
  by_cases hs : u.scheme = [] <;> simp [hs, tail]

lemma head?_rooted_append (u : Url) : (rooted u.path ++ u.tail).head?.all Symbol.isDelim = true := by
  cases hp : rooted u.path with
  | nil => exact head?_tail u
  | cons a p =>
    have ha : a = .char '/' := by
      rw [rooted] at hp
      split at hp
      · cases hp
        rfl
      next hn =>
        rw [hp] at hn
        simpa using hn
    rw [ha]
    rfl

lemma splitScheme_slash (t : Template) : splitScheme (.char '/' :: t) = ([], .char '/' :: t) := by
  obtain heq | ⟨s, r, hs, he, -⟩ := splitScheme_cases (.char '/' :: t)
  · exact heq
  · cases s with
    | nil => cases he
    | cons a s =>
      cases hs
      cases he

lemma filter_slashes_append (hu : Split u) (r : Template) :
    (slashes ++ u.netloc ++ r).filter (fun a => !a.isUnsafe) =
      slashes ++ u.netloc ++ r.filter fun a => !a.isUnsafe := by
  have hn : u.netloc.filter (fun a => !a.isUnsafe) = u.netloc :=
    filter_eq_self.2 fun a ha => by rw [hu.safe a (by simp [ha])]; rfl
  rw [filter_append, filter_append, hn]
  rfl

lemma netloc_urlsplit_front {r : Template} (hr : r.head?.all Symbol.isDelim) :
    (urlsplit ((urlsplit t).front ++ r)).netloc = (urlsplit t).netloc := by
  have hu := split_urlsplit t
  have hf : (r.filter fun a => !a.isUnsafe).head?.all Symbol.isDelim := by
    cases r with
    | nil => rfl
    | cons a r =>
      have ha : a.isDelim := hr
      have he : a.isUnsafe = false := by
        simp only [Symbol.isDelim, Bool.or_eq_true, decide_eq_true_eq] at ha
        rcases ha with (rfl | rfl) | rfl <;> rfl
      simpa [he] using ha
  have hn := splitNetloc_append hu.netloc_delim hf
  change (splitNetloc (splitScheme (strip (front _ ++ r))).2).1 = _
  rw [front]
  by_cases hs : (urlsplit t).scheme = []
  · have hd : (slashes ++ (urlsplit t).netloc ++ r).dropWhile Symbol.isBlank =
        slashes ++ (urlsplit t).netloc ++ r := rfl
    have he : splitScheme (slashes ++ (urlsplit t).netloc ++ r.filter fun a => !a.isUnsafe) =
        ([], slashes ++ (urlsplit t).netloc ++ r.filter fun a => !a.isUnsafe) := splitScheme_slash _
    rw [if_pos hs, nil_append, strip, hd, filter_slashes_append hu, he, hn]
  · rw [if_neg hs, append_assoc, append_assoc, singleton_append,
      strip_scheme (isScheme_urlsplit hs), splitScheme_append (isScheme_urlsplit hs),
      filter_slashes_append hu, hn]

end Url
end QJazz.Lexical
