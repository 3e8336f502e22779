import Mathlib.Data.List.DropRight
import QJazz.Lexical.PosixPath

/-! A filter is read from a pattern of the configuration and written back as a text; the mark `re:`
of an expression is read and not written. -/
namespace QJazz.Map

open Lexical List

/-- The lower case of a text, which has stars at its ends where the text has them, and regular
expressions that ignore the case. -/
structure Library where
  lower : Text → Text
  valid : Text → Bool
  isMatch : Text → Text → Bool
  lower_lower : ∀ s, lower (lower s) = lower s
  lower_ne_nil : ∀ s, s ≠ [] → lower s ≠ []
  head?_lower : ∀ s, (lower s).head? = some '*' ↔ s.head? = some '*'
  getLast?_lower : ∀ s, (lower s).getLast? = some '*' ↔ s.getLast? = some '*'

inductive HeaderFilter where
  | Plain (s : Text)
  | Prefix (s : Text)
  | Suffix (s : Text)
  | Regex (r : Text)
deriving DecidableEq

def mark : Text := ['r', 'e', ':']

def trimMark : Text → Text
  | 'r' :: 'e' :: ':' :: s => trimMark s
  | s => s

namespace HeaderFilter

def write : HeaderFilter → Text
  | .Plain s => s
  | .Prefix s => s ++ ['*']
  | .Suffix s => '*' :: s
  | .Regex r => r

variable (lib : Library)

def readText (v : Text) : HeaderFilter :=
  if v.head? = some '*' then .Suffix (lib.lower (v.dropWhile (· = '*')))
  else if v.getLast? = some '*' then .Prefix (lib.lower (v.rdropWhile (· = '*')))
  else .Plain (lib.lower v)

def readRegex (v : Text) : Option HeaderFilter :=
  if lib.valid (trimMark v) then some (.Regex (trimMark v)) else none

def read (v : Text) : Option HeaderFilter :=
  if mark <+: v then readRegex lib v else some (readText lib v)

def apply : HeaderFilter → Text → Bool
  | .Plain s, k => k.map Char.toLower = s.map Char.toLower
  | .Prefix s, k => s <+: k
  | .Suffix s, k => s <:+ k
  | .Regex r, k => lib.isMatch r k

def isNameChar (c : Char) : Bool := c.isLower || c.isDigit || decide (c ∈ "!#$%&'*+-.^_`|~".toList)

def IsName (k : Text) : Prop := k ≠ [] ∧ ∀ c ∈ k, isNameChar c = true

def SameNames (f g : HeaderFilter) : Prop := ∀ k, IsName k → f.apply lib k = g.apply lib k

/-- The filter that is read from a pattern is written as a text from which a filter is read that
accepts the same names. -/
def Survives (v : Text) : Prop :=
  ∀ f, read lib v = some f → ∃ g, read lib f.write = some g ∧ SameNames lib f g

def isRegex : HeaderFilter → Bool
  | .Regex _ => true
  | _ => false

def Unmarked (f : HeaderFilter) : Prop := f.isRegex = false ∧ ¬ mark <+: f.write

/-- The other meaning of what is written: an expression taken as a name or the start of one, or a text
taken as an expression. -/
def counterpart : HeaderFilter → Option HeaderFilter
  | .Regex r => some (readText lib r)
  | f => readRegex lib f.write

variable {lib} {f g : HeaderFilter} {v s : Text}

lemma not_mark_trimMark (s : Text) : ¬ mark <+: trimMark s := by
  fun_induction trimMark s with
  | case1 s ih => exact ih
  | case2 s hs =>
    rintro ⟨t, rfl⟩
    exact hs t rfl

lemma read_of_mark (h : mark <+: v) : read lib v = readRegex lib v := if_pos h

lemma read_of_not_mark (h : ¬ mark <+: v) : read lib v = some (readText lib v) := if_neg h

lemma dropWhile_star (h : s.head? ≠ some '*') : s.dropWhile (· = '*') = s := by
  cases s with
  | nil => rfl
  | cons c s => exact dropWhile_cons_of_neg (by simpa using h)

lemma head?_dropWhile_star (s : Text) : (s.dropWhile (· = '*')).head? ≠ some '*' := by
  intro h
  have hf := List.head?_dropWhile_not (· = '*') s
  simp [h] at hf

lemma getLast?_rdropWhile_star (s : Text) : (s.rdropWhile (· = '*')).getLast? ≠ some '*' := by
  rw [List.rdropWhile, List.getLast?_reverse]
  exact head?_dropWhile_star s.reverse

lemma readText_write (v : Text) : readText lib (readText lib v).write = readText lib v := by
  rw [readText.eq_def lib v]
  split
  next hh =>
    have ht := mt (lib.head?_lower _).1 (head?_dropWhile_star v)
    rw [write, readText, if_pos List.head?_cons, dropWhile_cons_of_pos (by simp),
      dropWhile_star ht, lib.lower_lower]
  next hh =>
    split
    next hl =>
      have ht := mt (lib.getLast?_lower _).1 (getLast?_rdropWhile_star v)
      have hne : v.rdropWhile (· = '*') ≠ [] := by
        intro hn
        have hal := rdropWhile_eq_nil_iff.1 hn
        cases v with
        | nil => cases hl
        | cons c v => exact hh (by simpa using hal c mem_cons_self)
      have hf : (v.rdropWhile (· = '*')).head? ≠ some '*' := by
        intro hf
        obtain ⟨r, hr⟩ := rdropWhile_prefix (fun c => decide (c = '*')) v
        rw [← hr, List.head?_append, hf] at hh
        exact hh rfl
      have ho : (lib.lower (v.rdropWhile (· = '*')) ++ ['*']).head? ≠ some '*' := by
        rw [List.head?_append_of_ne_nil _ (lib.lower_ne_nil _ hne)]
        exact mt (lib.head?_lower _).1 hf
      rw [write, readText, if_neg ho, if_pos (by simp), rdropWhile_concat_pos _ _ _ (by simp), List.rdropWhile, dropWhile_star (by rwa [List.head?_reverse]), reverse_reverse, lib.lower_lower]
    next hl =>
      rw [write, readText, if_neg (mt (lib.head?_lower v).1 hh),
        if_neg (mt (lib.getLast?_lower v).1 hl), lib.lower_lower]

lemma isRegex_readText (v : Text) : (readText lib v).isRegex = false := by
  rw [readText]
  split
  · rfl
  · split <;> rfl

lemma counterpart_of_text (h : f.isRegex = false) : f.counterpart lib = readRegex lib f.write := by
  cases f with
  | Regex r => cases h
  | _ => rfl

lemma read_write (h : read lib v = some f) : f.Unmarked ∧ read lib f.write = some f ∨
      ¬ f.Unmarked ∧ read lib f.write = f.counterpart lib := by
  by_cases hm : mark <+: v
  · rw [read_of_mark hm, readRegex] at h
    split at h
    · cases h
      refine .inr ⟨fun hu => absurd hu.1 Bool.noConfusion, ?_⟩
      exact read_of_not_mark (not_mark_trimMark v)
    · cases h
  · rw [read_of_not_mark hm, Option.some.injEq] at h
    subst h
    have ht : (readText lib v).isRegex = false := isRegex_readText v
    by_cases hw : mark <+: (readText lib v).write
    · refine .inr ⟨fun hu => hu.2 hw, ?_⟩
      rw [read_of_mark hw, counterpart_of_text ht]
    · refine .inl ⟨⟨ht, hw⟩, ?_⟩
      rw [read_of_not_mark hw, readText_write]

lemma toLower_toLower (c : Char) : c.toLower.toLower = c.toLower := by
  delta Char.toLower
  grind

lemma toLower_eq_star {c : Char} : c.toLower = '*' ↔ c = '*' := by
  constructor
  · delta Char.toLower
    intro h
    split at h
    next hu =>
      have hv := congrArg Char.val h
      grind
    · exact h
  · rintro rfl
    rfl

def words : Library where
  lower := List.map Char.toLower
  valid s := s.all Char.isAlphanum
  isMatch r k := r.map Char.toLower <:+: k.map Char.toLower
  lower_lower s := by simp [toLower_toLower]
  lower_ne_nil s h := by simpa using h
  head?_lower s := by
    rw [List.head?_map, Option.map_eq_some_iff]
    simp [toLower_eq_star]
  getLast?_lower s := by
    rw [List.getLast?_map, Option.map_eq_some_iff]
    simp [toLower_eq_star]

end HeaderFilter
end QJazz.Map
