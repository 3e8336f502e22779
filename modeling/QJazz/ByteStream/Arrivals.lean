import Mathlib.Data.List.Basic
import Mathlib.Data.Nat.Basic
import Mathlib.Tactic.Common

/-! A stream is the list of the pieces in which its bytes become available. -/
namespace QJazz.ByteStream
open List

abbrev Bytes := List UInt8

/-- The pieces are not empty: a read of an open stream returns at least one byte. -/
def Open (cs : List Bytes) : Prop := ∀ c ∈ cs, c ≠ []

/-- A read of at most `n` bytes; nothing is returned at the end of the stream. -/
def read (n : ℕ) : List Bytes → Bytes × List Bytes
  | [] => ([], [])
  | c :: cs => if c.length ≤ n then (c, cs) else (c.take n, c.drop n :: cs)

/-- Reads until `n` bytes have arrived; a loop that meets the end of the stream does not return. The
first argument bounds the number of reads. -/
def fillWith : ℕ → ℕ → List Bytes → Option (Bytes × List Bytes)
  | _, 0, cs => some ([], cs)
  | 0, _ + 1, _ => none
  | fuel + 1, n + 1, cs =>
    match read (n + 1) cs with
    | ([], _) => none
    | (b, rest) => (fillWith fuel (n + 1 - b.length) rest).map fun p => (b ++ p.1, p.2)

def fill (n : ℕ) (cs : List Bytes) : Option (Bytes × List Bytes) := fillWith n n cs

def readAll (n : ℕ) (cs : List Bytes) : Option (Bytes × List Bytes) :=
  (fill (n - (read n cs).1.length) (read n cs).2).map fun p => ((read n cs).1 ++ p.1, p.2)

def Cut (cs : List Bytes) (p : ℕ) : Prop := ∃ pre post, cs = pre ++ post ∧ pre.flatten.length = p

variable {n p f : ℕ} {c b : Bytes} {cs rest : List Bytes}

lemma Open.tail (h : Open (c :: cs)) : Open cs := fun d hd => h d (mem_cons_of_mem _ hd)

lemma Open.length_pos (h : Open (c :: cs)) : 0 < c.length :=
  length_pos_of_ne_nil (h c mem_cons_self)

lemma Open.eq_nil (h : Open cs) (he : cs.flatten = []) : cs = [] := by
  cases cs with
  | nil => rfl
  | cons c cs =>
    have hc : c = [] := (append_eq_nil_iff.1 he).1
    exact absurd hc (h c mem_cons_self)

lemma read_of_le (h : c.length ≤ n) : read n (c :: cs) = (c, cs) := if_pos h

lemma read_of_lt (h : n < c.length) : read n (c :: cs) = (c.take n, c.drop n :: cs) :=
  if_neg (not_le.2 h)

lemma read_append (n : ℕ) (cs : List Bytes) : (read n cs).1 ++ (read n cs).2.flatten = cs.flatten := by
  cases cs with
  | nil => rfl
  | cons c cs =>
    rcases le_or_gt c.length n with h | h
    · rw [read_of_le h, flatten_cons]
    · rw [read_of_lt h, flatten_cons, flatten_cons, ← append_assoc, take_append_drop]

lemma read_length_le (n : ℕ) (cs : List Bytes) : (read n cs).1.length ≤ n := by
  cases cs with
  | nil => exact Nat.zero_le n
  | cons c cs =>
    rcases le_or_gt c.length n with h | h
    · rwa [read_of_le h]
    · rw [read_of_lt h]
      exact length_take_le n c

lemma read_open (hopen : Open cs) : Open (read n cs).2 := by
  cases cs with
  | nil => exact hopen
  | cons c cs =>
    rcases le_or_gt c.length n with h | h
    · rw [read_of_le h]
      exact hopen.tail
    · rw [read_of_lt h]
      intro d hd
      rcases mem_cons.1 hd with rfl | hd
      · exact fun hn => absurd (drop_eq_nil_iff.1 hn) (not_le.2 h)
      · exact hopen.tail d hd

lemma read_ne_nil (hopen : Open cs) (hcs : cs ≠ []) (hn : 0 < n) : (read n cs).1 ≠ [] := by
  cases cs with
  | nil => exact absurd rfl hcs
  | cons c cs =>
    have hp := hopen.length_pos
    apply ne_nil_of_length_pos
    rcases le_or_gt c.length n with h | h
    · rwa [read_of_le h]
    · rw [read_of_lt h, length_take]
      exact lt_min hn hp

lemma cut_zero : Cut cs 0 := ⟨[], cs, rfl, rfl⟩

lemma cut_cons : Cut (c :: cs) p ↔ p = 0 ∨ ∃ q, Cut cs q ∧ p = c.length + q := by
  constructor
  · rintro ⟨pre, o, heq, hlen⟩
    cases pre with
    | nil => exact .inl hlen.symm
    | cons d pre =>
      obtain ⟨rfl, rfl⟩ := List.cons.inj heq
      refine .inr ⟨pre.flatten.length, ⟨pre, o, rfl, rfl⟩, ?_⟩
      rw [← hlen, flatten_cons, length_append]
  · rintro (rfl | ⟨q, ⟨pre, o, rfl, hlen⟩, rfl⟩)
    · exact cut_zero
    · refine ⟨c :: pre, o, rfl, ?_⟩
      rw [flatten_cons, length_append, hlen]

lemma cut_read (n : ℕ) (cs : List Bytes) (hp : 0 < p) : Cut (read n cs).2 p ↔ Cut cs (p + (read n cs).1.length) := by
  cases cs with
  | nil => exact Iff.rfl
  | cons c cs =>
    rcases le_or_gt c.length n with h | h
    · rw [read_of_le h, cut_cons]
      constructor
      · exact fun hu => .inr ⟨p, hu, Nat.add_comm _ _⟩
      · rintro (hz | ⟨q, hq, heq⟩)
        · omega
        · dsimp only at heq
          obtain rfl : p = q := by omega
          exact hq
    · have ht := length_take_of_le (Nat.le_of_lt h)
      rw [read_of_lt h, cut_cons, cut_cons, ht, length_drop]
      constructor
      · rintro (hz | ⟨q, hq, heq⟩)
        · omega
        · exact .inr ⟨q, hq, by omega⟩
      · rintro (hz | ⟨q, hq, heq⟩)
        · omega
        · exact .inr ⟨q, hq, by omega⟩

structure Reads (n : ℕ) (cs : List Bytes) (b : Bytes) (rest : List Bytes) : Prop where
  append : b ++ rest.flatten = cs.flatten
  length : b.length = n
  isOpen : Open rest
  cut : ∀ p, 0 < p → (Cut rest p ↔ Cut cs (p + n))

lemma fillWith_reads (hopen : Open cs) (hf : n ≤ f) (hn : n ≤ cs.flatten.length) :
    ∃ b rest, fillWith f n cs = some (b, rest) ∧ Reads n cs b rest := by
  induction f generalizing n cs with
  | zero =>
    obtain rfl : n = 0 := Nat.le_zero.1 hf
    exact ⟨[], cs, rfl, rfl, rfl, hopen, fun _ _ => Iff.rfl⟩
  | succ f ih =>
    cases n with
    | zero => exact ⟨[], cs, rfl, rfl, rfl, hopen, fun _ _ => Iff.rfl⟩
    | succ n =>
      have hne : cs ≠ [] := by
        rintro rfl
        exact absurd hn (Nat.not_succ_le_zero n)
      have he := read_append (n + 1) cs
      have hle := read_length_le (n + 1) cs
      have hb := read_ne_nil hopen hne n.succ_pos
      have ht := read_open (n := n + 1) hopen
      have hu := fun p (hp : 0 < p) => cut_read (n + 1) cs hp
      unfold fillWith
      generalize read (n + 1) cs = r at he hle hb ht hu
      obtain ⟨b, rest⟩ := r
      dsimp only at he hle hb ht hu
      have hpo := length_pos_of_ne_nil hb
      have ho : b.length + rest.flatten.length = cs.flatten.length := by
        rw [← he, length_append]
      obtain ⟨b', e, hi, hr⟩ :=
        ih (n := n + 1 - b.length) ht (by omega) (by omega)
      refine ⟨b ++ b', e, ?_, ?_, ?_, hr.isOpen, fun p hp => ?_⟩
      · split
        next heq => exact absurd (congrArg Prod.fst heq) hb
        next heq =>
          obtain ⟨rfl, rfl⟩ := Prod.mk.inj heq
          rw [hi, Option.map_some]
      · rw [append_assoc, hr.append, he]
      · rw [length_append, hr.length]
        omega
      · have hpb : p + (n + 1 - b.length) + b.length = p + (n + 1) := by omega
        rw [hr.cut p hp, hu _ (Nat.add_pos_left hp _)]
        show Cut cs (p + (n + 1 - b.length) + b.length) ↔ _
        rw [hpb]

lemma fill_reads (hopen : Open cs) (hn : n ≤ cs.flatten.length) :
    ∃ b rest, fill n cs = some (b, rest) ∧ Reads n cs b rest :=
  fillWith_reads hopen le_rfl hn

lemma readAll_reads (hopen : Open cs) (hn : n ≤ cs.flatten.length) :
    ∃ b rest, readAll n cs = some (b, rest) ∧ Reads n cs b rest := by
  have he := read_append n cs
  have hle := read_length_le n cs
  have hu := fun p (hp : 0 < p) => cut_read n cs hp
  have ht : (read n cs).1.length + (read n cs).2.flatten.length = cs.flatten.length := by
    rw [← he, length_append]
  obtain ⟨b, rest, hf, hr⟩ :=
    fill_reads (n := n - (read n cs).1.length) (read_open (n := n) hopen) (by omega)
  refine ⟨(read n cs).1 ++ b, rest, ?_, ?_, ?_, hr.isOpen, fun p hp => ?_⟩
  · rw [readAll, hf, Option.map_some]
  · rw [append_assoc, hr.append, he]
  · rw [length_append, hr.length]
    omega
  · have hpn : p + (n - (read n cs).1.length) + (read n cs).1.length = p + n := by omega
    rw [hr.cut p hp, hu _ (Nat.add_pos_left hp _), hpn]

lemma read_reads (hopen : Open cs) (hn : n ≤ cs.flatten.length)
    (hw : ∀ k, 0 < k → k < n → ¬ Cut cs k) : Reads n cs (read n cs).1 (read n cs).2 := by
  have hl : (read n cs).1.length = n := by
    cases cs with
    | nil => exact (Nat.le_zero.1 hn).symm
    | cons c cs =>
      have hc : ¬ c.length < n := by
        intro hlt
        exact hw c.length hopen.length_pos hlt (cut_cons.2 (.inr ⟨0, cut_zero, rfl⟩))
      rcases le_or_gt c.length n with h | h
      · rw [read_of_le h]
        show c.length = n
        omega
      · rw [read_of_lt h]
        exact length_take_of_le (Nat.le_of_lt h)
  refine ⟨read_append n cs, hl, read_open hopen, fun p hp => ?_⟩
  rw [cut_read n cs hp, hl]

lemma read_length_lt {k : ℕ} (hu : Cut cs k) (hk : 0 < k) (hkn : k < n) :
    (read n cs).1.length < n := by
  cases cs with
  | nil => exact Nat.zero_lt_of_lt hkn
  | cons c cs =>
    rcases cut_cons.1 hu with rfl | ⟨q, -, rfl⟩
    · exact absurd hk (lt_irrefl 0)
    · rw [read_of_le (by omega)]
      show c.length < n
      omega

lemma Reads.eq {d tail : Bytes} (h : Reads n cs b rest) (hcs : cs.flatten = d ++ tail)
    (hd : d.length = n) : b = d ∧ rest.flatten = tail :=
  append_inj (h.append.trans hcs) (h.length.trans hd.symm)

/-- Reads until `n` bytes have arrived, also behind the end of the stream, where every read returns
nothing; `none` if that has not happened after the given number of reads. -/
def readUntil : ℕ → ℕ → List Bytes → Option (Bytes × List Bytes)
  | _, 0, cs => some ([], cs)
  | 0, _ + 1, _ => none
  | calls + 1, n + 1, cs =>
    (readUntil calls (n + 1 - (read (n + 1) cs).1.length) (read (n + 1) cs).2).map fun p =>
      ((read (n + 1) cs).1 ++ p.1, p.2)

variable {calls : ℕ}

lemma readUntil_succ : readUntil (calls + 1) (n + 1) cs =
      (readUntil calls (n + 1 - (read (n + 1) cs).1.length) (read (n + 1) cs).2).map fun p =>
        ((read (n + 1) cs).1 ++ p.1, p.2) := rfl

lemma readUntil_of_fillWith {r : Bytes × List Bytes} (h : fillWith f n cs = some r) :
    readUntil f n cs = some r := by
  induction f generalizing n cs r with
  | zero =>
    cases n with
    | zero => exact h
    | succ n => cases h
  | succ f ih =>
    cases n with
    | zero => exact h
    | succ n =>
      rw [readUntil_succ]
      unfold fillWith at h
      split at h
      · cases h
      next b rest hr =>
        obtain ⟨q, hq, rfl⟩ := Option.map_eq_some_iff.1 h
        rw [hr, ih hq]
        rfl

lemma readUntil_eq_none (h : cs.flatten.length < n) : readUntil calls n cs = none := by
  induction calls generalizing n cs with
  | zero =>
    cases n with
    | zero => exact absurd h (Nat.not_lt_zero _)
    | succ n => rfl
  | succ calls ih =>
    cases n with
    | zero => exact absurd h (Nat.not_lt_zero _)
    | succ n =>
      have hp := congrArg List.length (read_append (n + 1) cs)
      rw [length_append] at hp
      rw [readUntil_succ, ih (by omega), Option.map_none]

lemma fill_eq_none (h : cs.flatten.length < n) : fill n cs = none := by
  by_contra ho
  obtain ⟨r, hr⟩ := Option.ne_none_iff_exists'.1 ho
  have he := readUntil_of_fillWith hr
  rw [readUntil_eq_none h] at he
  cases he

lemma exists_readUntil_iff (hopen : Open cs) :
    (∃ calls, (readUntil calls n cs).isSome) ↔ n ≤ cs.flatten.length := by
  constructor
  · rintro ⟨calls, h⟩
    by_contra hshort
    rw [readUntil_eq_none (not_le.1 hshort)] at h
    cases h
  · intro hn
    obtain ⟨b, rest, hf, -⟩ := fill_reads hopen hn
    exact ⟨n, by rw [readUntil_of_fillWith hf]; rfl⟩

end QJazz.ByteStream
