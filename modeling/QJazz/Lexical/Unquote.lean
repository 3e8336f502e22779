import Mathlib.Data.List.DropRight
import QJazz.Lexical.Percent

/-! A separator that is written as it is, such as the slash of a path, is kept by the decoding of
percent codes, and the texts before and behind it are decoded on their own. -/
namespace QJazz.Lexical
open List

namespace Utf8

variable {b : ℕ}

lemma le_lower_of_mem_lead (b : ℕ) : ∀ p ∈ lead b, 0x80 ≤ p.lower := by
  rw [lead]
  split_ifs <;> simp

lemma decodeFrom_append_of_lt (hb : b < 0x80) (as bs : List ℕ) (e : Option Pending)
    (ht : ∀ p ∈ e, 0x80 ≤ p.lower) :
    decodeFrom e (as ++ b :: bs) = decodeFrom e as ++ Char.ofNat b :: decode bs := by
  have hf (a : ℕ) : ∀ p ∈ (first a).2, 0x80 ≤ p.lower := by
    intro p hp
    rw [first] at hp
    split at hp
    · cases hp
    · split at hp
      next q hq =>
        cases hp
        exact le_lower_of_mem_lead a _ hq
      · cases hp
  induction as generalizing e with
  | nil =>
    cases e with
    | none => exact decode_of_lt hb
    | some p =>
      have hl := ht p rfl
      rw [nil_append, decodeFrom, decodeFrom, if_neg (by omega), first, if_pos hb]
      rfl
  | cons a as ih =>
    cases e with
    | none => rw [cons_append, decodeFrom, decodeFrom, ih _ (hf a), append_assoc]
    | some p =>
      rw [cons_append, decodeFrom, decodeFrom]
      split
      · split
        · rw [ih none fun q hq => by cases hq]
          rfl
        · rw [ih (some _) (by simp)]
      · rw [ih _ (hf a), cons_append, append_assoc]

lemma decode_append_of_lt (hb : b < 0x80) (as bs : List ℕ) :
    decode (as ++ b :: bs) = decode as ++ Char.ofNat b :: decode bs :=
  decodeFrom_append_of_lt hb as bs none fun p hp => by cases hp

end Utf8

structure Separator (c : Char) : Prop where
  ascii : c.toNat < 0x80
  ne_percent : c ≠ '%'
  notHex : hexValue c = none

lemma separator_slash : Separator '/' := ⟨by decide, by decide, by decide⟩

namespace Separator

variable {c : Char}

lemma percentBytes_pair (h : Separator c) (d : Char) (t : Text) :
    percentBytes (d :: c :: t) = d.toNat :: percentBytes (c :: t) := by
  cases t with
  | nil => rfl
  | cons e t =>
    rw [percentBytes]
    split
    · rw [h.notHex]
    · rfl

lemma percentBytes_append (h : Separator c) (s t : Text) :
    percentBytes (s ++ c :: t) = percentBytes s ++ c.toNat :: percentBytes t := by
  have he : percentBytes (c :: t) = c.toNat :: percentBytes t := percentBytes_of_ne h.ne_percent
  fun_induction percentBytes s with
  | case1 => exact he
  | case2 d => rw [singleton_append, h.percentBytes_pair, he, singleton_append]
  | case3 d e =>
    have ht : percentBytes (d :: e :: c :: t) = d.toNat :: percentBytes (e :: c :: t) := by
      rw [percentBytes]
      split
      · cases hexValue e <;> rw [h.notHex]
      · rfl
    rw [cons_append, singleton_append, ht, h.percentBytes_pair, he]
    rfl
  | case4 d e s x y hy hx ih =>
    simp only [cons_append]
    rw [percentBytes_code hx hy, ih]
  | case5 d e s hcode ih =>
    simp only [cons_append] at ih ⊢
    rw [percentBytes, if_pos rfl, ← ih]
    split
    · exact absurd ‹_› (hcode _ _ ‹_›)
    · rfl
  | case6 a d e s hne ih =>
    rw [cons_append, percentBytes_of_ne hne, ih]
    rfl

lemma decode_percentBytes_append (h : Separator c) (s t : Text) :
    Utf8.decode (percentBytes (s ++ c :: t)) =
      Utf8.decode (percentBytes s) ++ c :: Utf8.decode (percentBytes t) := by
  rw [h.percentBytes_append, Utf8.decode_append_of_lt h.ascii, Char.ofNat_toNat]

lemma unquoteRuns_run (h : Separator c) (s run t : Text) :
    unquoteRuns (s ++ c :: run) t = Utf8.decode (percentBytes s) ++ c :: unquoteRuns run t := by
  induction t generalizing run with
  | nil => exact h.decode_percentBytes_append s run
  | cons d t ih =>
    rw [unquoteRuns, unquoteRuns]
    split
    · rw [append_assoc, cons_append, ih]
    · rw [h.decode_percentBytes_append, append_assoc]
      rfl

lemma unquoteRuns_append (h : Separator c) (run s t : Text) :
    unquoteRuns run (s ++ c :: t) = unquoteRuns run s ++ c :: unquoteRuns [] t := by
  induction s generalizing run with
  | nil =>
    rw [nil_append, unquoteRuns, unquoteRuns, if_pos h.ascii]
    exact h.unquoteRuns_run run [] t
  | cons d s ih =>
    rw [cons_append, unquoteRuns, unquoteRuns]
    split
    · exact ih _
    · rw [ih, append_assoc]
      rfl

end Separator

variable {c : Char} {s t : Text}

lemma unquoteRuns_of_notMem {run : Text} (hr : '%' ∉ run) (hi : ∀ c ∈ run, c.toNat < 0x80)
    (hs : '%' ∉ s) : unquoteRuns run s = run ++ s := by
  have hk {run : Text} (hr : '%' ∉ run) (hi : ∀ c ∈ run, c.toNat < 0x80) :
      Utf8.decode (percentBytes run) = run := by
    rw [percentBytes_of_notMem hr, Utf8.decode_ascii hi]
  induction s generalizing run with
  | nil => rw [unquoteRuns, hk hr hi, append_nil]
  | cons c s ih =>
    rw [mem_cons, not_or] at hs
    rw [unquoteRuns]
    split
    next hc =>
      rw [ih (by simp [hr, hs.1]) (by simpa [or_imp, forall_and] using ⟨hi, hc⟩) hs.2, append_assoc]
      rfl
    · rw [hk hr hi, ih not_mem_nil (fun c hc => absurd hc not_mem_nil) hs.2]
      rfl

lemma unquote_eq_unquoteRuns (s : Text) : unquote s = unquoteRuns [] s := by
  rw [unquote]
  split
  · rfl
  next hs => exact (unquoteRuns_of_notMem not_mem_nil (by simp) hs).symm

lemma unquote_append (h : Separator c) (s t : Text) :
    unquote (s ++ c :: t) = unquote s ++ c :: unquote t := by
  simp only [unquote_eq_unquoteRuns, h.unquoteRuns_append]

lemma length_unquote_le (s : Text) : (unquote s).length ≤ s.length := by
  simpa [unquote_eq_unquoteRuns] using length_unquoteRuns_le [] s

lemma unquote_eq_nil : unquote s = [] ↔ s = [] := by
  constructor
  · intro h
    by_contra hs
    exact unquoteRuns_ne_nil (.inr hs) ((unquote_eq_unquoteRuns s).symm.trans h)
  · rintro rfl
    rfl

def trimSlashes (s : Text) : Text := s.rdropWhile (· = '/')

def Slashes (s : Text) : Prop := ∀ c ∈ s, c = '/'

variable {s u p : Text}

lemma slashes_nil : Slashes [] := forall_mem_nil _

lemma slashes_cons : Slashes ('/' :: s) ↔ Slashes s := by simp [Slashes]

lemma Slashes.cons (h : Slashes s) : Slashes ('/' :: s) := slashes_cons.2 h

lemma trimSlashes_append_slashes (hu : Slashes u) : trimSlashes (s ++ u) = trimSlashes s := by
  have hl : ∀ c ∈ u.reverse, decide (c = '/') = true :=
    fun c hc => decide_eq_true (hu c (mem_reverse.1 hc))
  rw [trimSlashes, List.rdropWhile, reverse_append, dropWhile_append_of_pos hl]
  rfl

lemma trimSlashes_eq_nil : trimSlashes s = [] ↔ Slashes s := by
  rw [trimSlashes, rdropWhile_eq_nil_iff]
  simp only [decide_eq_true_eq, Slashes]

lemma trimSlashes_append (hu : ¬ Slashes u) : trimSlashes (s ++ u) = s ++ trimSlashes u := by
  have hne : (u.reverse.dropWhile fun c => decide (c = '/')).isEmpty ≠ true := by
    intro h
    refine hu (trimSlashes_eq_nil.1 ?_)
    rw [trimSlashes, List.rdropWhile, List.isEmpty_iff.1 h, reverse_nil]
  rw [trimSlashes, List.rdropWhile, reverse_append, dropWhile_append, if_neg hne,
    reverse_append, reverse_reverse]
  rfl

lemma trimSlashes_eq_self : trimSlashes s = s ↔ s.getLast? ≠ some '/' := by
  rw [trimSlashes, rdropWhile_eq_self_iff]
  cases s using List.reverseRecOn <;> simp

lemma exists_eq_trimSlashes_append (s : Text) : ∃ u, Slashes u ∧ s = trimSlashes s ++ u :=
  ⟨s.rtakeWhile (· = '/'), fun c hc => by simpa using mem_rtakeWhile_imp hc,
    rdropWhile_append_rtakeWhile.symm⟩

lemma Slashes.unquote (hu : Slashes u) : Lexical.unquote u = u := by
  rw [Lexical.unquote, if_neg fun h => absurd (hu _ h) (by decide)]

lemma Slashes.unquote_append (hu : Slashes u) (s : Text) :
    Lexical.unquote (u ++ s) = u ++ Lexical.unquote s := by
  induction u with
  | nil => rfl
  | cons c u ih =>
    obtain rfl : c = '/' := hu c mem_cons_self
    have hp := Lexical.unquote_append separator_slash [] (u ++ s)
    rw [cons_append, ← nil_append ('/' :: (u ++ s)), hp, ih fun d hd => hu d (mem_cons_of_mem _ hd)]
    rfl

lemma unquote_append_slashes (hu : Slashes u) : unquote (s ++ u) = unquote s ++ u := by
  cases u with
  | nil => rw [append_nil, append_nil]
  | cons c u =>
    obtain rfl : c = '/' := hu c mem_cons_self
    rw [unquote_append separator_slash, Slashes.unquote fun d hd => hu d (mem_cons_of_mem _ hd)]

lemma trimSlashes_unquote_trimSlashes (s : Text) :
    trimSlashes (unquote (trimSlashes s)) = trimSlashes (unquote s) := by
  obtain ⟨u, hu, hs⟩ := exists_eq_trimSlashes_append s
  conv_rhs => rw [hs, unquote_append_slashes hu, trimSlashes_append_slashes hu]

lemma unquote_trimSlashes_eq : unquote (trimSlashes s) = unquote s ↔ s.getLast? ≠ some '/' := by
  rw [← trimSlashes_eq_self]
  refine ⟨fun h => ?_, fun h => by rw [h]⟩
  obtain ⟨u, hu, hs⟩ := exists_eq_trimSlashes_append s
  rw [hs, unquote_append_slashes hu, ← hs, eq_comm, append_right_eq_self] at h
  rw [h, append_nil] at hs
  exact hs.symm

lemma Slashes.eq_nil_of_unquote (hu : Slashes u) (h : p = u ++ Lexical.unquote p) : u = [] := by
  induction hl : p.length using Nat.strong_induction_on generalizing p with
  | _ n ih =>
    by_contra hne
    have hr : Lexical.unquote p = u ++ Lexical.unquote (Lexical.unquote p) := by
      conv_lhs => rw [h, hu.unquote_append]
    have hlt := congrArg List.length h
    have hp := length_pos_of_ne_nil hne
    rw [length_append] at hlt
    exact hne (ih _ (by omega) hr rfl)

end QJazz.Lexical
