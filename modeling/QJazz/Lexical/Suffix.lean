import Mathlib.Data.List.DropRight
import QJazz.Lexical.PosixPath

/-! Suffixes are those of `pathlib` up to Python 3.12: what begins with the last dot of the name,
unless the dot is its first or its last character. -/
namespace QJazz.Lexical
open List

def splitSuffix (name : Text) : Text × Text :=
  let behind := name.rtakeWhile (· ≠ '.')
  if behind ≠ [] ∧ behind.length + 1 < name.length then
    (name.take (name.length - (behind.length + 1)), '.' :: behind)
  else (name, [])

lemma splitSuffix_of_notMem {name : Text} (h : '.' ∉ name) : splitSuffix name = (name, []) := by
  have hl : name.rtakeWhile (· ≠ '.') = name := by
    rw [rtakeWhile_eq_self_iff]
    intro c hc
    simpa using ne_of_mem_of_not_mem hc h
  rw [splitSuffix, hl, if_neg (by omega)]

lemma splitSuffix_dot {f behind : Text} (h : '.' ∉ behind) : splitSuffix (f ++ '.' :: behind) =
      if f ≠ [] ∧ behind ≠ [] then (f, '.' :: behind) else (f ++ '.' :: behind, []) := by
  have he : (f ++ '.' :: behind).rtakeWhile (· ≠ '.') = behind := by
    have hp : ∀ c ∈ behind.reverse, decide (c ≠ '.') := by
      intro c hc
      simpa using ne_of_mem_of_not_mem (mem_reverse.1 hc) h
    rw [List.rtakeWhile, reverse_append, reverse_cons, append_assoc, takeWhile_append_of_pos hp]
    simp
  have hl : (f ++ '.' :: behind).length = f.length + (behind.length + 1) := by
    simp
  have ho : behind.length + 1 < (f ++ '.' :: behind).length ↔ f ≠ [] := by
    rw [hl, ← length_pos_iff]
    omega
  rw [splitSuffix]
  simp only [he, ho, and_comm (a := behind ≠ [])]
  split
  · rw [hl, Nat.add_sub_cancel, take_left]
  · rfl

lemma exists_last_dot {n : Text} (h : '.' ∈ n) :
    ∃ f behind, n = f ++ '.' :: behind ∧ '.' ∉ behind := by
  obtain ⟨b, f, hp, hk⟩ := eq_append_cons_of_mem (mem_reverse.2 h)
  refine ⟨f.reverse, b.reverse, ?_, by simpa using hk⟩
  rw [← reverse_reverse n, hp]
  simp

lemma splitSuffix_append (name : Text) : (splitSuffix name).1 ++ (splitSuffix name).2 = name := by
  by_cases h : '.' ∈ name
  · obtain ⟨f, b, rfl, he⟩ := exists_last_dot h
    rw [splitSuffix_dot he]
    split
    · rfl
    · exact append_nil _
  · rw [splitSuffix_of_notMem h, append_nil]

namespace PosixPath

def name (p : PosixPath) : Text := p.parts.getLast?.getD []

def suffix (p : PosixPath) : Text := (splitSuffix p.name).2

def stem (p : PosixPath) : Text := (splitSuffix p.name).1

lemma stem_append_suffix (p : PosixPath) : p.stem ++ p.suffix = p.name :=
  splitSuffix_append p.name

lemma mem_of_mem_stem {p : PosixPath} {c : Char} (h : c ∈ p.stem) : c ∈ p.name := by
  rw [stem, splitSuffix] at h
  split at h
  · exact mem_of_mem_take h
  · exact h

lemma slash_notMem_name (p : PosixPath) : '/' ∉ p.name := by
  rw [name]
  cases hl : p.parts.getLast? with
  | none => simp
  | some q => exact p.slash_notMem q (mem_of_getLast? hl)

lemma name_eq_getLast {p : PosixPath} (h : p.parts ≠ []) : p.name = p.parts.getLast h := by
  rw [name, List.getLast?_eq_some_getLast h, Option.getD_some]

lemma isPart_name {p : PosixPath} (h : p.parts ≠ []) : isPart p.name = true := by
  rw [name_eq_getLast h]
  exact p.isPart_of_mem _ (getLast_mem h)

lemma stem_ne_nil {p : PosixPath} (h : p.parts ≠ []) : p.stem ≠ [] := by
  have hn : p.name ≠ [] := by
    have := isPart_name h
    rintro hi
    simp [isPart, hi] at this
  rw [stem, splitSuffix]
  split
  next hl =>
    rw [ne_eq, take_eq_nil_iff, not_or]
    exact ⟨by omega, hn⟩
  · exact hn

def validSuffix (sfx : Text) : Bool :=
  decide (sfx.head? = some '.') && decide (1 < sfx.length) && decide ('/' ∉ sfx)

lemma one_lt_length_of_validSuffix {sfx : Text} (h : validSuffix sfx) :
    1 < sfx.length := by
  simp only [validSuffix, Bool.and_eq_true, decide_eq_true_eq] at h
  exact h.1.2

lemma slash_notMem_of_validSuffix {sfx : Text} (h : validSuffix sfx) : '/' ∉ sfx := by
  simp only [validSuffix, Bool.and_eq_true, decide_eq_true_eq] at h
  exact h.2

lemma two_lt_length_stem_append {p : PosixPath} {sfx : Text} (hf : validSuffix sfx)
    (hp : p.parts ≠ []) : 2 < (p.stem ++ sfx).length := by
  have ht := length_pos_iff.2 (stem_ne_nil hp)
  have hl := one_lt_length_of_validSuffix hf
  rw [length_append]
  omega

def withSuffix (p : PosixPath) (sfx : Text) : Option PosixPath :=
  if h : validSuffix sfx = true ∧ p.parts ≠ [] then
    some
      { root := p.root
        parts := p.parts.dropLast ++ [p.stem ++ sfx]
        isPart_of_mem := by
          intro q hq
          rcases List.mem_append.1 hq with hq | hq
          · exact p.isPart_of_mem q (List.mem_of_mem_dropLast hq)
          · have hlength := two_lt_length_stem_append h.1 h.2
            rw [← List.mem_singleton.1 hq] at hlength
            rw [isPart, Bool.and_eq_true, decide_eq_true_eq, decide_eq_true_eq]
            constructor
            · rintro rfl
              simp at hlength
            · rintro rfl
              simp at hlength
        slash_notMem := by
          intro q hq
          rcases List.mem_append.1 hq with hq | hq
          · exact p.slash_notMem q (List.mem_of_mem_dropLast hq)
          · rw [List.mem_singleton.1 hq, List.mem_append, not_or]
            exact ⟨fun h => p.slash_notMem_name (mem_of_mem_stem h),
              slash_notMem_of_validSuffix h.1⟩ }
  else none

lemma withSuffix_eq_some {p q : PosixPath} {sfx : Text} :
    p.withSuffix sfx = some q ↔ validSuffix sfx ∧ p.parts ≠ [] ∧ q.root = p.root ∧
      q.parts = p.parts.dropLast ++ [p.stem ++ sfx] := by
  rw [withSuffix]
  split
  next h =>
    rw [Option.some.injEq]
    constructor
    · rintro rfl
      exact ⟨h.1, h.2, rfl, rfl⟩
    · rintro ⟨_, _, hr, hp⟩
      exact ext hr.symm hp.symm
  next h =>
    simp only [reduceCtorEq, false_iff]
    exact fun hq => h ⟨hq.1, hq.2.1⟩

lemma intercalate_append_last (a b : Text) (l : List Text) :
    ['/'].intercalate (l ++ [a ++ b]) = ['/'].intercalate (l ++ [a]) ++ b := by
  induction l with
  | nil => simp
  | cons c l ih =>
    obtain ⟨d, l', hl⟩ : ∃ d l', l ++ [a] = d :: l' := exists_cons_of_ne_nil (by simp)
    obtain ⟨d', l'', hl'⟩ : ∃ d l', l ++ [a ++ b] = d :: l' := exists_cons_of_ne_nil (by simp)
    rw [cons_append, cons_append, hl, hl', intercalate_cons_cons,
      intercalate_cons_cons, ← hl, ← hl', ih]
    simp

lemma exists_str_of_stem {p q : PosixPath} {sfx : Text} (hne : p.parts ≠ [])
    (ho : q.root = p.root) (hr : q.parts = p.parts.dropLast ++ [p.stem ++ sfx]) :
    ∃ front, p.str = front ++ p.suffix ∧ q.str = front ++ sfx := by
  have hp : p.parts = p.parts.dropLast ++ [p.stem ++ p.suffix] := by
    rw [stem_append_suffix, name_eq_getLast hne]
    exact (dropLast_append_getLast hne).symm
  refine ⟨p.root.text ++ ['/'].intercalate (p.parts.dropLast ++ [p.stem]), ?_, ?_⟩
  · rw [str, if_neg fun h => hne h.2, hp, intercalate_append_last, ← hp, append_assoc]
  · rw [str, if_neg fun h => by simp [hr] at h, ho, hr, intercalate_append_last, append_assoc]

end PosixPath
end QJazz.Lexical
