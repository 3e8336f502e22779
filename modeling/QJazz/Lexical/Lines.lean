import Mathlib.Data.List.DropRight
import QJazz.Lexical.PosixPath

/-! Names are written on lines of their own by `print`, and read back from the stripped lines of the
file that are not empty. -/
namespace QJazz.Lexical
open List

def isSpace (c : Char) : Bool :=
  let n := c.toNat
  decide (0x09 ≤ n ∧ n ≤ 0x0D) || decide (0x1C ≤ n ∧ n ≤ 0x20) || decide (n = 0x85) ||
    decide (n = 0xA0) || decide (n = 0x1680) || decide (0x2000 ≤ n ∧ n ≤ 0x200A) ||
    decide (n = 0x2028) || decide (n = 0x2029) || decide (n = 0x202F) || decide (n = 0x205F) ||
    decide (n = 0x3000)

def strip (s : Text) : Text := (s.dropWhile isSpace).rdropWhile isSpace

def isBreak (c : Char) : Bool := decide (c = '\n') || decide (c = '\r')

def translateNewlines : Text → Text
  | '\r' :: '\n' :: s => '\n' :: translateNewlines s
  | '\r' :: s => '\n' :: translateNewlines s
  | c :: s => c :: translateNewlines s
  | [] => []

/-- The lines of a file without their ends. Behind the last end there is an empty one, which makes no
difference here. -/
def readLines (text : Text) : List Text := (translateNewlines text).splitOn '\n'

def printLines (names : List Text) : Text := names.flatMap (· ++ ['\n'])

def readNames (text : Text) : List Text := ((readLines text).map strip).filter (· ≠ [])

def LineStable (name : Text) : Prop := (∀ c ∈ name, isBreak c = false) ∧ strip name = name

variable {s : Text} {c : Char} {names : List Text}

lemma translateNewlines_cons (h : c ≠ '\r') (s : Text) :
    translateNewlines (c :: s) = c :: translateNewlines s := by
  rw [translateNewlines]
  · exact fun _ hc => absurd hc h
  · exact h

lemma translateNewlines_of_notMem (h : '\r' ∉ s) : translateNewlines s = s := by
  induction s with
  | nil => rfl
  | cons c s ih =>
    rw [mem_cons, not_or] at h
    rw [translateNewlines_cons (Ne.symm h.1), ih h.2]

lemma filter_translateNewlines (s : Text) :
    (translateNewlines s).filter (· ≠ '\n') = s.filter fun c => !isBreak c := by
  fun_induction translateNewlines s with
  | case1 s ih | case2 s h ih => simpa [isBreak] using ih
  | case3 c s h h' ih =>
    have hr : c ≠ '\r' := h'
    by_cases hn : c = '\n'
    · simpa [isBreak, hn] using ih
    · simpa [isBreak, hn, hr] using ih
  | case4 => rfl

lemma flatten_splitOn {α : Type*} [DecidableEq α] (a : α) (l : List α) :
    (l.splitOn a).flatten = l.filter (· ≠ a) := by
  induction l with
  | nil => rfl
  | cons b l ih =>
    rw [splitOn_cons_eq_if_modifyHead]
    by_cases hb : b = a
    · simp [hb, ih]
    · obtain ⟨p, ps, hps⟩ := exists_cons_of_ne_nil (splitOn_ne_nil a l)
      rw [hps] at ih
      simp only [hps, modifyHead_cons]
      simpa [hb] using ih

lemma flatten_readLines (t : Text) : (readLines t).flatten = t.filter fun c => !isBreak c := by
  rw [readLines, flatten_splitOn, filter_translateNewlines]

lemma filter_printLines (names : List Text) :
    (printLines names).filter (fun c => !isBreak c) = names.flatten.filter fun c => !isBreak c := by
  induction names with
  | nil => rfl
  | cons n names ih =>
    rw [printLines, flatMap_cons, ← printLines, filter_append, ih, filter_append,
      flatten_cons, filter_append]
    simp [isBreak]

lemma readLines_printLines (h : ∀ name ∈ names, ∀ c ∈ name, isBreak c = false) :
    readLines (printLines names) = names ++ [[]] := by
  have hcr : '\r' ∉ printLines names := by
    intro he
    obtain ⟨name, hn, hc⟩ := mem_flatMap.1 he
    obtain hc | hc := mem_append.1 hc
    · exact absurd (h name hn _ hc) (by decide)
    · exact absurd (mem_singleton.1 hc) (by decide)
  rw [readLines, translateNewlines_of_notMem hcr]
  clear hcr
  induction names with
  | nil => rfl
  | cons name names ih =>
    obtain ⟨hn, hm⟩ := forall_mem_cons.1 h
    have hlf : '\n' ∉ name := fun hc => absurd (hn _ hc) (by decide)
    have ho : printLines (name :: names) = name ++ '\n' :: printLines names := by
      simp [printLines]
    rw [ho, splitOn_append_cons_self, splitOn_eq_singleton hlf, ih hm]
    rfl

lemma strip_sublist (s : Text) : (strip s).Sublist s :=
  (( rdropWhile_prefix _ _).sublist).trans (dropWhile_sublist _)

lemma flatten_filter_ne_nil (l : List Text) : (l.filter (· ≠ [])).flatten = l.flatten := by
  induction l with
  | nil => rfl
  | cons p l ih =>
    by_cases hp : p = []
    · simpa [hp] using ih
    · simpa [hp] using ih

lemma length_flatten_map_strip_le (l : List Text) :
    (l.map strip).flatten.length ≤ l.flatten.length := by
  induction l with
  | nil => exact Nat.le_refl 0
  | cons p l ih =>
    have hp := (strip_sublist p).length_le
    rw [map_cons, flatten_cons, flatten_cons, length_append, length_append]
    omega

lemma strip_eq_of_length {l : List Text} (h : l.flatten.length ≤ (l.map strip).flatten.length) :
    ∀ p ∈ l, strip p = p := by
  induction l with
  | nil => exact forall_mem_nil _
  | cons p l ih =>
    have hp := (strip_sublist p).length_le
    have hl := length_flatten_map_strip_le l
    rw [map_cons, flatten_cons, flatten_cons, length_append, length_append] at h
    refine forall_mem_cons.2 ⟨?_, ih (by omega)⟩
    exact (strip_sublist p).eq_of_length (by omega)

lemma readNames_printLines (hne : [] ∉ names) (h : ∀ n ∈ names, LineStable n) :
    readNames (printLines names) = names := by
  have ht : names.map strip = names.map id := map_congr_left fun n hn => (h n hn).2
  rw [readNames, readLines_printLines fun n hn => (h n hn).1, map_append, ht,
    List.map_id, filter_append, filter_eq_self.2]
  · exact append_nil _
  · intro n hn
    exact decide_eq_true (ne_of_mem_of_not_mem hn hne)

lemma lineStable_of_length (h : names.flatten.length ≤ (readNames (printLines names)).flatten.length) :
    ∀ name ∈ names, LineStable name := by
  have he : (readNames (printLines names)).flatten =
      ((readLines (printLines names)).map strip).flatten := flatten_filter_ne_nil _
  have hl : (readLines (printLines names)).flatten = names.flatten.filter fun c => !isBreak c := by
    rw [flatten_readLines, filter_printLines]
  have hi := length_flatten_map_strip_le (readLines (printLines names))
  have hf := length_filter_le (fun c => !isBreak c) names.flatten
  rw [he] at h
  rw [hl] at hi
  have hr : ∀ name ∈ names, ∀ c ∈ name, isBreak c = false := by
    have hal := length_filter_eq_length_iff.1 (Nat.le_antisymm hf (by omega))
    intro name hn c hc
    simpa using hal c (mem_flatten.2 ⟨name, hn, hc⟩)
  have ht := strip_eq_of_length (l := readLines (printLines names)) (by rw [hl]; omega)
  rw [readLines_printLines hr] at ht
  exact fun name hn => ⟨hr name hn, ht name (mem_append_left _ hn)⟩

end QJazz.Lexical
