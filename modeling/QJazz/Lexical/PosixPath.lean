import Mathlib.Data.List.Basic
import Mathlib.Data.List.Infix

/-! Paths as Python's `PurePosixPath` keeps them: a root and components, where empty and `.`
components are dropped and `..` stays. -/
namespace QJazz.Lexical
open List

section SplitOn

variable {α : Type*} {a b : α} {s p : List α}

lemma mem_intercalate {ps : List (List α)} (h : b ≠ a) :
    b ∈ [a].intercalate ps ↔ ∃ p ∈ ps, b ∈ p := by
  induction ps with
  | nil => simp
  | cons p ps ih =>
    cases ps with
    | nil => simp
    | cons q ps =>
      rw [intercalate_cons_cons, mem_append, mem_append, ih]
      simp [h]

lemma intercalate_sublist {ps qs : List (List α)} (h : qs.Sublist ps) :
    ([a].intercalate qs).Sublist ([a].intercalate ps) := by
  induction h with
  | slnil => exact List.Sublist.refl _
  | @cons qs ps p h ih =>
    cases ps with
    | nil =>
      rw [sublist_nil.1 h]
      exact nil_sublist _
    | cons q ps =>
      rw [intercalate_cons_cons]
      exact ih.trans (sublist_append_right _ _)
  | @cons_cons qs ps p h ih =>
    cases ps with
    | nil => rw [sublist_nil.1 h]
    | cons q ps =>
      rw [intercalate_cons_cons]
      cases qs with
      | nil =>
        rw [intercalate_singleton, append_assoc]
        exact sublist_append_left _ _
      | cons q' qs =>
        rw [intercalate_cons_cons]
        exact ih.append_left _

variable [BEq α] [LawfulBEq α]

lemma length_le_of_mem_splitOn (h : p ∈ s.splitOn a) : p.length ≤ s.length := by
  have hu := intercalate_sublist (a := a) (singleton_sublist.2 h)
  rw [intercalate_singleton, intercalate_splitOn] at hu
  exact hu.length_le

lemma notMem_of_mem_splitOn (h : p ∈ s.splitOn a) : a ∉ p := by
  induction s generalizing p with
  | nil =>
    rw [splitOn_nil, mem_singleton] at h
    simp [h]
  | cons b s ih =>
    rw [splitOn_cons_eq_if_modifyHead] at h
    by_cases hb : b = a
    · rw [if_pos (by simpa using hb), mem_cons] at h
      cases h with
      | inl h => simp [h]
      | inr h => exact ih h
    · rw [if_neg (by simpa using hb)] at h
      cases hs : s.splitOn a with
      | nil => exact absurd hs (splitOn_ne_nil _ _)
      | cons q qs =>
        rw [hs, modifyHead_cons, mem_cons] at h
        cases h with
        | inl h =>
          rw [h, mem_cons, not_or]
          exact ⟨fun h => hb h.symm, ih (by simp [hs])⟩
        | inr h => exact ih (by simp [hs, h])

lemma exists_mem_splitOn (h : b ≠ a) : b ∈ s ↔ ∃ p ∈ s.splitOn a, b ∈ p := by
  rw [← mem_intercalate h, intercalate_splitOn]

lemma length_splitOn (a : α) (s : List α) : (s.splitOn a).length = s.count a + 1 := by
  induction s with
  | nil => rfl
  | cons b s ih =>
    rw [splitOn_cons_eq_if_modifyHead]
    by_cases hb : b = a
    · simp [hb, ih]
    · simp [hb, ih]

end SplitOn

abbrev Text := List Char

instance : LawfulBEq Text := inferInstance

/-- The root of a path: none for a relative path, and exactly two leading slashes are kept. -/
inductive Root where
  | none
  | single
  | double
  deriving DecidableEq

def Root.text : Root → Text
  | .none => []
  | .single => ['/']
  | .double => ['/', '/']

def rootOf : Text → Root
  | '/' :: '/' :: '/' :: _ => .single
  | '/' :: '/' :: _ => .double
  | '/' :: _ => .single
  | _ => .none

def isPart (p : Text) : Bool :=
  decide (p ≠ []) && decide (p ≠ ['.'])

def components (s : Text) : List Text :=
  (s.splitOn '/').filter isPart

structure PosixPath where
  root : Root
  parts : List Text
  isPart_of_mem : ∀ p ∈ parts, isPart p = true
  slash_notMem : ∀ p ∈ parts, '/' ∉ p
  deriving DecidableEq

lemma eq_of_mem_components {s p : Text} (hl : '/' ∉ s) (h : p ∈ components s) : p = s := by
  rw [components, splitOn_eq_singleton hl] at h
  exact mem_singleton.1 (List.mem_filter.1 h).1

lemma components_append_slash (s t : Text) :
    components (s ++ '/' :: t) = components s ++ components t := by
  rw [components, splitOn_append_cons_self, filter_append]
  rfl

@[simp] lemma components_nil : components [] = [] := rfl

lemma exists_mem_components {s : Text} {c : Char} (h : c ∈ s) (hl : c ≠ '/')
    (hd : c ≠ '.') : ∃ p ∈ components s, c ∈ p := by
  obtain ⟨p, hp, hc⟩ := (exists_mem_splitOn hl).1 h
  refine ⟨p, List.mem_filter.2 ⟨hp, ?_⟩, hc⟩
  have hne : p ≠ [] := ne_nil_of_mem hc
  have hnd : p ≠ ['.'] := by
    intro hp
    rw [hp, mem_singleton] at hc
    exact hd hc
  simp [isPart, hne, hnd]

lemma mem_of_mem_components {s p : Text} {c : Char} (hp : p ∈ components s) (hc : c ∈ p)
    (hl : c ≠ '/') : c ∈ s :=
  (exists_mem_splitOn hl).2 ⟨p, (List.mem_filter.1 hp).1, hc⟩

namespace PosixPath

@[ext]
lemma ext {p q : PosixPath} (hr : p.root = q.root) (hp : p.parts = q.parts) : p = q := by
  cases p
  cases q
  simp_all

def parse (s : Text) : PosixPath where
  root := rootOf s
  parts := components s
  isPart_of_mem _ h := (List.mem_filter.1 h).2
  slash_notMem _ h := notMem_of_mem_splitOn (List.mem_filter.1 h).1

def str (p : PosixPath) : Text :=
  if p.root = .none ∧ p.parts = [] then ['.'] else p.root.text ++ ['/'].intercalate p.parts

def isRelativeTo (p location : PosixPath) : Bool :=
  decide (p.root = location.root) && location.parts.isPrefixOf p.parts

def relativeTo (p location : PosixPath) : PosixPath where
  root := .none
  parts := p.parts.drop location.parts.length
  isPart_of_mem q h := p.isPart_of_mem q (List.mem_of_mem_drop h)
  slash_notMem q h := p.slash_notMem q (List.mem_of_mem_drop h)

/-- An absolute second path replaces the first one. -/
def join (p q : PosixPath) : PosixPath :=
  if q.root = .none then
    { root := p.root
      parts := p.parts ++ q.parts
      isPart_of_mem := by
        intro r h
        exact (List.mem_append.1 h).elim (p.isPart_of_mem r) (q.isPart_of_mem r)
      slash_notMem := by
        intro r h
        exact (List.mem_append.1 h).elim (p.slash_notMem r) (q.slash_notMem r) }
  else q

variable {p q : PosixPath}

@[simp] lemma parse_parts (s : Text) : (parse s).parts = components s := rfl

@[simp] lemma parse_root (s : Text) : (parse s).root = rootOf s := rfl

@[simp] lemma relativeTo_root (p l : PosixPath) : (p.relativeTo l).root = .none :=
  rfl

lemma join_root_of_relative (h : q.root = .none) : (p.join q).root = p.root := by
  rw [join, if_pos h]

lemma join_parts_of_relative (h : q.root = .none) : (p.join q).parts = p.parts ++ q.parts := by
  rw [join, if_pos h]

lemma components_intercalate (p : PosixPath) :
    components (['/'].intercalate p.parts) = p.parts := by
  by_cases hp : p.parts = []
  · rw [hp]
    rfl
  · rw [components, splitOn_intercalate _ p.slash_notMem hp]
    exact filter_eq_self.2 p.isPart_of_mem

lemma components_root_append (r : Root) (s : Text) : components (r.text ++ s) = components s := by
  cases r with
  | none => rfl
  | single => exact components_append_slash [] s
  | double => exact (components_append_slash ['/'] s).trans rfl

lemma head?_intercalate (p : PosixPath) : (['/'].intercalate p.parts).head? ≠ some '/' := by
  cases hp : p.parts with
  | nil => simp
  | cons q qs =>
    have hm : q ∈ p.parts := by simp [hp]
    have hl := p.slash_notMem q hm
    have hr := p.isPart_of_mem q hm
    cases q with
    | nil => simp [isPart] at hr
    | cons c q =>
      have hc : c ≠ '/' := by
        rintro rfl
        simp at hl
      cases qs with
      | nil => simpa using hc
      | cons r qs => simpa [intercalate_cons_cons] using hc

lemma rootOf_append (r : Root) {s : Text} (h : s.head? ≠ some '/') : rootOf (r.text ++ s) = r := by
  cases s with
  | nil => cases r <;> rfl
  | cons c s =>
    have hc : c ≠ '/' := by simpa using h
    cases r <;> simp [Root.text, rootOf, hc]

lemma parse_str (p : PosixPath) : parse p.str = p := by
  by_cases h : p.root = .none ∧ p.parts = []
  · rw [str, if_pos h]
    exact ext h.1.symm h.2.symm
  · rw [str, if_neg h]
    exact ext (rootOf_append p.root p.head?_intercalate)
      ((components_root_append p.root _).trans p.components_intercalate)

lemma str_ne_nil (p : PosixPath) : p.str ≠ [] := by
  intro hn
  have hp := p.parse_str
  rw [hn] at hp
  rw [← hp] at hn
  exact absurd hn (by decide)

lemma str_injective : Function.Injective str := by
  intro p q h
  rw [← parse_str p, h, parse_str]

end PosixPath

/-- A normalised path: how many levels it climbs, and the components it then descends by. -/
structure Climb where
  ups : ℕ
  names : List Text
  deriving DecidableEq

namespace Climb

variable (grounded : Bool) {c d : Climb}

/-- One more component. At the root of an absolute path `..` stays where it is. -/
def push (c : Climb) (part : Text) : Climb :=
  if part = ['.', '.'] then
    if c.names ≠ [] then { c with names := c.names.dropLast }
    else if grounded then c else { c with ups := c.ups + 1 }
  else { c with names := c.names ++ [part] }

def walk (parts : List Text) : Climb :=
  parts.foldl (push grounded) ⟨0, []⟩

def after (c d : Climb) : Climb :=
  if d.ups ≤ c.names.length then
    { c with names := c.names.take (c.names.length - d.ups) ++ d.names }
  else
    { ups := if grounded then c.ups else c.ups + (d.ups - c.names.length)
      names := d.names }

lemma push_after (r : Text) :
    (after grounded c d).push grounded r = after grounded c (d.push false r) := by
  by_cases hp : r = ['.', '.']
  · by_cases hn : d.names = []
    · by_cases hlt : d.ups < c.names.length
      · have ht : c.names.take (c.names.length - d.ups) ≠ [] := by
          rw [ne_eq, take_eq_nil_iff, not_or]
          exact ⟨by omega, by rintro h; simp [h] at hlt⟩
        simp [push, after, hp, hn, hlt.le, ht, Nat.succ_le_of_lt hlt, dropLast_eq_take, take_take]
        omega
      · by_cases heq : d.ups = c.names.length
        · cases grounded <;> simp [push, after, hp, hn, heq]
        · have hgt : c.names.length < d.ups := by omega
          have hno : ¬ d.ups ≤ c.names.length := by omega
          have ho : ¬ d.ups + 1 ≤ c.names.length := by omega
          cases grounded <;> simp [push, after, hp, hn, hno, ho]
          omega
    · by_cases hle : d.ups ≤ c.names.length
      · simp [push, after, hp, hn, hle, dropLast_append_of_ne_nil]
      · simp [push, after, hp, hn, hle]
  · by_cases hle : d.ups ≤ c.names.length
    · simp [push, after, hp, hle]
    · simp [push, after, hp, hle]

lemma foldl_push (c : Climb) (r : List Text) :
    r.foldl (push grounded) c = after grounded c (walk false r) := by
  induction r using List.reverseRecOn with
  | nil => simp [walk, after]
  | append_singleton r t ih =>
    rw [foldl_append, ih]
    exact (push_after grounded t).trans (by rw [walk, walk, foldl_append]; rfl)

lemma walk_append (r t : List Text) :
    walk grounded (r ++ t) = after grounded (walk grounded r) (walk false t) := by
  rw [walk, foldl_append]
  exact foldl_push grounded _ t

lemma mem_names_walk {r : List Text} {q : Text} (h : q ∈ (walk grounded r).names) :
    q ∈ r ∧ q ≠ ['.', '.'] := by
  induction r using List.reverseRecOn with
  | nil => simp [walk] at h
  | append_singleton r t ih =>
    rw [walk, foldl_append] at h
    change q ∈ (push grounded (walk grounded r) t).names at h
    by_cases hp : t = ['.', '.']
    · have hq : q ∈ (walk grounded r).names := by
        by_cases hn : (walk grounded r).names = []
        · cases grounded <;> simp [push, hp, hn] at h
        · simp only [push, hp, hn, if_true, ne_eq, not_false_eq_true] at h
          exact mem_of_mem_dropLast h
      exact ⟨mem_append_left _ (ih hq).1, (ih hq).2⟩
    · simp only [push, hp, if_false, mem_append, mem_singleton] at h
      rcases h with hq | rfl
      · exact ⟨mem_append_left _ (ih hq).1, (ih hq).2⟩
      · exact ⟨by simp, hp⟩

lemma walk_of_forall_ne {r : List Text} (h : ∀ t ∈ r, t ≠ ['.', '.']) :
    walk grounded r = ⟨0, r⟩ := by
  induction r using List.reverseRecOn with
  | nil => rfl
  | append_singleton r t ih =>
    have hp : walk grounded r = ⟨0, r⟩ := ih fun q hq => h q (by simp [hq])
    rw [walk, foldl_append]
    change push grounded (walk grounded r) t = _
    rw [hp, push, if_neg (h t (by simp))]

end Climb

namespace PosixPath

def isAbsolute (p : PosixPath) : Bool :=
  decide (p.root ≠ .none)

lemma isAbsolute_parse (s : Text) : (parse s).isAbsolute = decide (s.head? = some '/') := by
  rw [isAbsolute, parse_root]
  cases s with
  | nil => rfl
  | cons c s =>
    by_cases hc : c = '/'
    · have hr : rootOf ('/' :: s) ≠ .none := by
        rw [rootOf.eq_def]
        split <;> simp_all
      simp [hr, hc]
    · have hr : rootOf (c :: s) = .none := by
        rw [rootOf.eq_def]
        split <;> simp_all
      simp [hr, hc]

lemma root_parse_eq_none {s : Text} : (parse s).root = .none ↔ s.head? ≠ some '/' := by
  have hab := isAbsolute_parse s
  rw [isAbsolute, decide_eq_decide] at hab
  exact not_iff_not.1 (hab.trans not_not.symm)

lemma str_parse_of_isPart {s : Text} (h : ∀ i ∈ s.splitOn '/', isPart i) :
    (parse s).str = s := by
  have hp : components s = s.splitOn '/' := filter_eq_self.2 h
  have hh : s.head? ≠ some '/' := by
    cases s with
    | nil => simp
    | cons c s =>
      rintro hc
      have hc : c = '/' := by simpa using hc
      have hm : [] ∈ (c :: s).splitOn '/' := by simp [hc, splitOn_cons_eq_if_modifyHead]
      exact absurd (h [] hm) (by simp [isPart])
  have hne : components s ≠ [] := hp ▸ splitOn_ne_nil _ _
  rw [str, if_neg (by simp [hne]), root_parse_eq_none.2 hh, parse_parts, hp]
  exact intercalate_splitOn '/'

lemma isPart_of_str_parse {s : Text} (hh : s.head? ≠ some '/') (hd : s ≠ ['.'])
    (h : (parse s).str = s) : ∀ i ∈ s.splitOn '/', isPart i = true := by
  have hr := root_parse_eq_none.2 hh
  have hne : (parse s).parts ≠ [] := by
    intro hn
    rw [str, if_pos ⟨hr, hn⟩] at h
    exact hd h.symm
  rw [str, if_neg fun hn => hne hn.2, hr] at h
  have hp : s.splitOn '/' = (parse s).parts := by
    conv_lhs => rw [← h]
    exact splitOn_intercalate _ (parse s).slash_notMem hne
  rw [hp]
  exact (parse s).isPart_of_mem

lemma join_parse {s t : Text} (hs : s ≠ []) (hl : '/' ∉ s) (ht : t.head? ≠ some '/') :
    (parse s).join (parse t) = parse (s ++ '/' :: t) := by
  have he : s.head? ≠ some '/' := fun h => hl (mem_of_head? h)
  have hh : (s ++ '/' :: t).head? ≠ some '/' := by
    rwa [List.head?_append_of_ne_nil _ hs]
  refine ext ?_ ?_
  · rw [join_root_of_relative (root_parse_eq_none.2 ht), root_parse_eq_none.2 he,
      root_parse_eq_none.2 hh]
  · rw [join_parts_of_relative (root_parse_eq_none.2 ht)]
    exact (components_append_slash s t).symm

lemma join_parse_of_absolute {s t : Text} (ht : t.head? = some '/') :
    (parse s).join (parse t) = parse t := by
  rw [join, if_neg fun hr => root_parse_eq_none.1 hr ht]

lemma head?_str {p : PosixPath} (h : p.root ≠ .none) : p.str.head? = some '/' := by
  rw [str, if_neg fun hn => h hn.1]
  cases hr : p.root with
  | none => exact absurd hr h
  | single | double => rfl

/-- The path with its `..` components resolved, without looking at the file system. -/
def normalise (p : PosixPath) : Climb :=
  Climb.walk p.isAbsolute p.parts

/-- An absolute path with its `..` components resolved. -/
def collapse (p : PosixPath) : PosixPath where
  root := p.root
  parts := (Climb.walk true p.parts).names
  isPart_of_mem q h := p.isPart_of_mem q (Climb.mem_names_walk true h).1
  slash_notMem q h := p.slash_notMem q (Climb.mem_names_walk true h).1

def LiesUnder (p q : PosixPath) : Prop :=
  p.isAbsolute = q.isAbsolute ∧ p.normalise.ups = q.normalise.ups ∧
    q.normalise.names <+: p.normalise.names

instance (p q : PosixPath) : Decidable (p.LiesUnder q) :=
  inferInstanceAs (Decidable (_ ∧ _ ∧ _))

/-- The components `tail` behind `p` do not climb out of it, or they come down again through the
directories that they climbed out of. -/
def Returns (p : PosixPath) (tail : List Text) : Prop :=
  (p.isAbsolute = false → (Climb.walk false tail).ups ≤ p.normalise.names.length) ∧
    p.normalise.names.drop (p.normalise.names.length - (Climb.walk false tail).ups) <+:
      (Climb.walk false tail).names

instance (p : PosixPath) (tail : List Text) : Decidable (p.Returns tail) :=
  inferInstanceAs (Decidable (_ ∧ _))

def LiesStrictlyUnder (p q : PosixPath) : Prop :=
  p.LiesUnder q ∧ p.normalise ≠ q.normalise

instance (p q : PosixPath) : Decidable (p.LiesStrictlyUnder q) :=
  inferInstanceAs (Decidable (_ ∧ _))

lemma normalise_of_forall_ne {p : PosixPath} (h : ∀ r ∈ p.parts, r ≠ ['.', '.']) :
    p.normalise = ⟨0, p.parts⟩ :=
  Climb.walk_of_forall_ne _ h

lemma liesStrictlyUnder_iff {p q : PosixPath} (hp : ∀ r ∈ p.parts, r ≠ ['.', '.'])
    (hq : ∀ r ∈ q.parts, r ≠ ['.', '.']) : p.LiesStrictlyUnder q ↔
      p.isAbsolute = q.isAbsolute ∧ q.parts <+: p.parts ∧ p.parts ≠ q.parts := by
  rw [LiesStrictlyUnder, LiesUnder, normalise_of_forall_ne hp, normalise_of_forall_ne hq]
  simp [and_assoc]

lemma isRelativeTo_iff {p q : PosixPath} :
    p.isRelativeTo q ↔ p.root = q.root ∧ q.parts <+: p.parts := by
  simp [isRelativeTo]

lemma prefix_and_ne_iff {α : Type*} {l m : List α} (h : m ≠ []) :
    l <+: m ∧ m ≠ l ↔ l <+: m.dropLast := by
  constructor
  · rintro ⟨⟨t, rfl⟩, hne⟩
    have ht : t ≠ [] := by
      rintro rfl
      simp at hne
    rw [dropLast_append_of_ne_nil ht]
    exact prefix_append _ _
  · intro hl
    refine ⟨hl.trans ( dropLast_prefix m), ?_⟩
    rintro rfl
    have he := hl.length_le
    have hp := length_pos_iff.2 h
    rw [length_dropLast] at he
    omega

lemma isRelativeTo_and_ne_iff {p q : PosixPath} : p.isRelativeTo q ∧ p ≠ q ↔
      p.root = q.root ∧ p.parts ≠ [] ∧ q.parts <+: p.parts.dropLast := by
  rw [isRelativeTo_iff]
  by_cases hp : p.parts = []
  · simp only [hp, ne_eq, not_true_eq_false, false_and, and_false, iff_false, prefix_nil]
    rintro ⟨⟨hr, hq⟩, hne⟩
    exact hne (ext hr (hp.trans hq.symm))
  · rw [← prefix_and_ne_iff hp]
    constructor
    · rintro ⟨⟨hr, he⟩, hne⟩
      exact ⟨hr, hp, he, fun h => hne (ext hr h)⟩
    · rintro ⟨hr, _, he, hne⟩
      exact ⟨⟨hr, he⟩, fun h => hne (by rw [h])⟩

lemma join_relativeTo {p q : PosixPath} (h : p.isRelativeTo q) :
    q.join (p.relativeTo q) = p := by
  obtain ⟨hr, hp⟩ := isRelativeTo_iff.1 h
  refine ext ?_ ?_
  · rw [join_root_of_relative (relativeTo_root p q), hr]
  · rw [join_parts_of_relative (relativeTo_root p q)]
    exact prefix_iff_eq_append.1 hp

lemma isRelativeTo_join {p q : PosixPath} (h : q.root = .none) : (p.join q).isRelativeTo p = true := by
  rw [isRelativeTo_iff, join_root_of_relative h, join_parts_of_relative h]
  exact ⟨rfl, prefix_append _ _⟩

lemma relativeTo_join {p q : PosixPath} (h : q.root = .none) : (p.join q).relativeTo p = q := by
  refine ext h.symm ?_
  change (p.join q).parts.drop p.parts.length = q.parts
  rw [join_parts_of_relative h, drop_left]

@[simp] lemma relativeTo_self (p : PosixPath) : p.relativeTo p = parse [] :=
  ext rfl (drop_length)

lemma isRelativeTo_self (p : PosixPath) : p.isRelativeTo p = true :=
  isRelativeTo_iff.2 ⟨rfl, prefix_rfl⟩

@[simp] lemma join_parse_nil (p : PosixPath) : p.join (parse []) = p :=
  ext (join_root_of_relative rfl) ((join_parts_of_relative rfl).trans (append_nil _))

lemma liesUnder_refl (p : PosixPath) : p.LiesUnder p :=
  ⟨rfl, rfl, prefix_rfl⟩

lemma liesUnder_iff_returns {p q : PosixPath} {tail : List Text}
    (hr : q.isAbsolute = p.isAbsolute) (ht : q.parts = p.parts ++ tail) :
    q.LiesUnder p ↔ p.Returns tail := by
  have hq : q.normalise = Climb.after p.isAbsolute p.normalise (Climb.walk false tail) := by
    rw [normalise, ht, hr, Climb.walk_append]
    rfl
  rw [LiesUnder, Returns, hq]
  generalize p.normalise = c
  generalize Climb.walk false tail = d
  by_cases hle : d.ups ≤ c.names.length
  · have hl : c.names <+: c.names.take (c.names.length - d.ups) ++ d.names ↔
        c.names.drop (c.names.length - d.ups) <+: d.names := by
      nth_rewrite 1 [← take_append_drop (c.names.length - d.ups) c.names]
      exact prefix_append_right_inj _
    simp [Climb.after, hle, hr, hl]
  · have hu : c.names.length - d.ups = 0 := by omega
    cases hp : p.isAbsolute with
    | true => simp [Climb.after, hle, hr, hp, hu]
    | false =>
      have hne : d.ups - c.names.length ≠ 0 := by omega
      simp [Climb.after, hle, hr, hp, hne]

lemma returns_of_forall_ne {p : PosixPath} {tail : List Text}
    (h : ∀ r ∈ tail, r ≠ ['.', '.']) : p.Returns tail := by
  rw [Returns, Climb.walk_of_forall_ne false h]
  simp

lemma intercalate_components_sublist (s : Text) : (['/'].intercalate (components s)).Sublist s := by
  have hu : (['/'].intercalate (components s)).Sublist (['/'].intercalate (s.splitOn '/')) :=
    intercalate_sublist filter_sublist
  rwa [intercalate_splitOn] at hu

lemma length_str_le {s : Text} {q : PosixPath} (hs : s ≠ []) (hr : q.root = .none)
    (hp : q.parts.Sublist (components s)) : q.str.length ≤ s.length := by
  rw [str]
  split
  · exact length_pos_iff.2 hs
  · rw [hr]
    exact ((intercalate_sublist hp).trans (intercalate_components_sublist s)).length_le

lemma str_parse_of_length {s : Text} (hs : s ≠ []) (hr : (parse s).root = .none)
    (hl : s.length ≤ (parse s).str.length) : (parse s).str = s := by
  rw [str] at hl ⊢
  split at hl
  next he =>
    rw [if_pos he]
    obtain ⟨c, t, rfl⟩ := exists_cons_of_ne_nil hs
    have ht : t = [] := by simpa using hl
    have hc : c = '.' := by
      by_contra hd
      have hh : c ≠ '/' := by
        rintro rfl
        exact root_parse_eq_none.1 hr rfl
      obtain ⟨r, hp, -⟩ := exists_mem_components (s := c :: t) mem_cons_self hh hd
      rw [← parse_parts, he.2] at hp
      cases hp
    rw [ht, hc]
  next he =>
    rw [if_neg he]
    rw [hr] at hl ⊢
    exact (intercalate_components_sublist s).eq_of_length_le hl

lemma rootOf_append_of_mem {s : Text} (t : Text) {c : Char} (hc : c ∈ s) (hl : c ≠ '/') :
    rootOf (s ++ t) = rootOf s := by
  fun_cases rootOf s with
  | case1 s => rfl
  | case2 s ht =>
    cases s with
    | nil => simp [hl] at hc
    | cons d s =>
      have hd : d ≠ '/' := fun h => ht s (by rw [h])
      simp [rootOf, hd]
  | case3 s _ he =>
    cases s with
    | nil => simp [hl] at hc
    | cons d s =>
      have hd : d ≠ '/' := fun h => he s (by rw [h])
      simp [rootOf, hd]
  | case4 s _ _ hf =>
    cases s with
    | nil => cases hc
    | cons d s =>
      have hd : d ≠ '/' := fun h => hf s (by rw [h])
      simp [rootOf, hd]

lemma components_append_slashes {s t : Text} (h : ∀ c ∈ t, c = '/') :
    components (s ++ t) = components s := by
  induction t generalizing s with
  | nil => rw [append_nil]
  | cons c t ih =>
    obtain rfl : c = '/' := h c mem_cons_self
    have ht := ih (s := []) fun c hc => h c (mem_cons_of_mem _ hc)
    rw [nil_append] at ht
    rw [components_append_slash, ht, components_nil, append_nil]

lemma parse_append_slashes {s t : Text} (hne : s ≠ []) (hl : s.getLast hne ≠ '/')
    (h : ∀ c ∈ t, c = '/') : parse (s ++ t) = parse s :=
  ext (rootOf_append_of_mem t (getLast_mem hne) hl) (components_append_slashes h)

end PosixPath
end QJazz.Lexical
