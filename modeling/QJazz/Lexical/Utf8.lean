import QJazz.Lexical.PosixPath

/-! The encoding of a text, and its decoding with one replacement character for each longest start
of a character, as CPython and the WHATWG standard do it. -/
namespace QJazz.Lexical.Utf8
open List

def encodeChar (c : Char) : List ℕ :=
  if c.toNat < 0x80 then [c.toNat]
  else if c.toNat < 0x800 then [0xC0 + c.toNat / 0x40, 0x80 + c.toNat % 0x40]
  else if c.toNat < 0x10000 then
    [0xE0 + c.toNat / 0x1000, 0x80 + c.toNat / 0x40 % 0x40, 0x80 + c.toNat % 0x40]
  else
    [0xF0 + c.toNat / 0x40000, 0x80 + c.toNat / 0x1000 % 0x40, 0x80 + c.toNat / 0x40 % 0x40,
      0x80 + c.toNat % 0x40]

def encode (s : Text) : List ℕ := s.flatMap encodeChar

/-- A character that has begun: its bits so far, the range of the next byte, and how many bytes follow
that one. -/
structure Pending where
  value : ℕ
  lower : ℕ
  upper : ℕ
  later : ℕ
deriving DecidableEq

/-- The first byte of a character with several bytes. -/
def lead (b : ℕ) : Option Pending :=
  if 0xC2 ≤ b ∧ b ≤ 0xDF then some ⟨b - 0xC0, 0x80, 0xBF, 0⟩
  else if b = 0xE0 then some ⟨0, 0xA0, 0xBF, 1⟩
  else if b = 0xED then some ⟨0xD, 0x80, 0x9F, 1⟩
  else if 0xE1 ≤ b ∧ b ≤ 0xEF then some ⟨b - 0xE0, 0x80, 0xBF, 1⟩
  else if b = 0xF0 then some ⟨0, 0x90, 0xBF, 2⟩
  else if b = 0xF4 then some ⟨4, 0x80, 0x8F, 2⟩
  else if 0xF1 ≤ b ∧ b ≤ 0xF3 then some ⟨b - 0xF0, 0x80, 0xBF, 2⟩
  else none

def replacement : Char := '�'

def first (b : ℕ) : Text × Option Pending :=
  if b < 0x80 then ([Char.ofNat b], none)
  else
    match lead b with
    | some p => ([], some p)
    | none => ([replacement], none)

/-- The text of the bytes, with a character that may have begun. -/
def decodeFrom : Option Pending → List ℕ → Text
  | none, [] => []
  | some _, [] => [replacement]
  | none, b :: bs => (first b).1 ++ decodeFrom (first b).2 bs
  | some p, b :: bs =>
    if p.lower ≤ b ∧ b ≤ p.upper then
      match p.later with
      | 0 => Char.ofNat (p.value * 0x40 + (b - 0x80)) :: decodeFrom none bs
      | n + 1 => decodeFrom (some ⟨p.value * 0x40 + (b - 0x80), 0x80, 0xBF, n⟩) bs
    else replacement :: ((first b).1 ++ decodeFrom (first b).2 bs)

def decode (bs : List ℕ) : Text := decodeFrom none bs

variable {b : ℕ} {bs : List ℕ} {c : Char} {p : Pending}

lemma decode_of_lt (h : b < 0x80) : decode (b :: bs) = Char.ofNat b :: decode bs := by
  rw [decode, decodeFrom, first, if_pos h]
  rfl

lemma decode_of_lead (h : 0x80 ≤ b) (hp : lead b = some p) :
    decode (b :: bs) = decodeFrom (some p) bs := by
  rw [decode, decodeFrom, first, if_neg (by omega), hp]
  rfl

lemma decodeFrom_last (h : p.lower ≤ b ∧ b ≤ p.upper) (hl : p.later = 0) :
    decodeFrom (some p) (b :: bs) = Char.ofNat (p.value * 0x40 + (b - 0x80)) :: decode bs := by
  rw [decodeFrom, if_pos h, hl]
  rfl

lemma decodeFrom_later {n : ℕ} (h : p.lower ≤ b ∧ b ≤ p.upper) (hl : p.later = n + 1) :
    decodeFrom (some p) (b :: bs) =
      decodeFrom (some ⟨p.value * 0x40 + (b - 0x80), 0x80, 0xBF, n⟩) bs := by
  rw [decodeFrom, if_pos h, hl]

lemma toNat_cases (c : Char) : c.toNat < 0xD800 ∨ 0xDFFF < c.toNat ∧ c.toNat < 0x110000 := c.valid

lemma lead_two : ∀ k : Fin 30, lead (0xC2 + k) = some ⟨2 + k, 0x80, 0xBF, 0⟩ := by decide

lemma lead_three : ∀ k : Fin 16, lead (0xE0 + k) =
    some ⟨k, if k.val = 0 then 0xA0 else 0x80, if k.val = 0xD then 0x9F else 0xBF, 1⟩ := by decide

lemma lead_four : ∀ k : Fin 5, lead (0xF0 + k) =
    some ⟨k, if k.val = 0 then 0x90 else 0x80, if k.val = 4 then 0x8F else 0xBF, 2⟩ := by decide

variable {n : ℕ}

lemma decode_two (hle : 0x80 ≤ n) (hlt : n < 0x800) :
    decode ([0xC0 + n / 0x40, 0x80 + n % 0x40] ++ bs) = Char.ofNat n :: decode bs := by
  have hl := lead_two ⟨n / 0x40 - 2, by omega⟩
  have hy : 0xC2 + (n / 0x40 - 2) = 0xC0 + n / 0x40 := by omega
  simp only [hy] at hl
  have hv : (2 + (n / 0x40 - 2)) * 0x40 + (0x80 + n % 0x40 - 0x80) = n := by omega
  rw [cons_append, cons_append, nil_append, decode_of_lead (by omega) hl,
    decodeFrom_last ⟨Nat.le_add_right _ _, by simp only; omega⟩ rfl, hv]

lemma decode_three (hle : 0x800 ≤ n) (hlt : n < 0x10000) (hi : n < 0xD800 ∨ 0xDFFF < n) :
    decode ([0xE0 + n / 0x1000, 0x80 + n / 0x40 % 0x40, 0x80 + n % 0x40] ++ bs) =
      Char.ofNat n :: decode bs := by
  have hl := lead_three ⟨n / 0x1000, by omega⟩
  dsimp only at hl
  have hv : (n / 0x1000 * 0x40 + (0x80 + n / 0x40 % 0x40 - 0x80)) * 0x40 +
      (0x80 + n % 0x40 - 0x80) = n := by omega
  rw [cons_append, cons_append, cons_append, nil_append,
    decode_of_lead (by omega) hl, decodeFrom_later (n := 0) ?_ rfl,
    decodeFrom_last ⟨Nat.le_add_right _ _, by simp only; omega⟩ rfl, hv]
  simp only
  split_ifs <;> omega

lemma decode_four (hle : 0x10000 ≤ n) (hlt : n < 0x110000) :
    decode ([0xF0 + n / 0x40000, 0x80 + n / 0x1000 % 0x40, 0x80 + n / 0x40 % 0x40, 0x80 + n % 0x40] ++
      bs) = Char.ofNat n :: decode bs := by
  have hl := lead_four ⟨n / 0x40000, by omega⟩
  dsimp only at hl
  have hv : ((n / 0x40000 * 0x40 + (0x80 + n / 0x1000 % 0x40 - 0x80)) * 0x40 +
      (0x80 + n / 0x40 % 0x40 - 0x80)) * 0x40 + (0x80 + n % 0x40 - 0x80) = n := by omega
  rw [cons_append, cons_append, cons_append, cons_append, nil_append,
    decode_of_lead (by omega) hl, decodeFrom_later (n := 1) ?_ rfl,
    decodeFrom_later (n := 0) ⟨Nat.le_add_right _ _, by simp only; omega⟩ rfl,
    decodeFrom_last ⟨Nat.le_add_right _ _, by simp only; omega⟩ rfl, hv]
  simp only
  split_ifs <;> omega

lemma decode_encodeChar (c : Char) (bs : List ℕ) :
    decode (encodeChar c ++ bs) = c :: decode bs := by
  have hv := toNat_cases c
  have hh := Char.ofNat_toNat c
  rw [encodeChar]
  split
  next h => rw [cons_append, nil_append, decode_of_lt h, hh]
  next h1 =>
    split
    next h => rw [decode_two (by omega) h, hh]
    next h2 =>
      split
      next h => rw [decode_three (by omega) h (by omega), hh]
      next h3 => rw [decode_four (by omega) (by omega), hh]

lemma decode_encode (s : Text) : decode (encode s) = s := by
  induction s with
  | nil => rfl
  | cons c s ih =>
    rw [encode, flatMap_cons, decode_encodeChar, ← encode, ih]

lemma lt_of_mem_encode {s : Text} (h : b ∈ encode s) : b < 0x100 := by
  obtain ⟨c, -, hb⟩ := mem_flatMap.1 h
  have hv := toNat_cases c
  rw [encodeChar] at hb
  split_ifs at hb <;> simp only [mem_cons, not_mem_nil, or_false] at hb <;> omega

lemma decode_ascii {s : Text} (h : ∀ c ∈ s, c.toNat < 0x80) : decode (s.map Char.toNat) = s := by
  induction s with
  | nil => rfl
  | cons c s ih =>
    rw [map_cons, decode_of_lt (h c mem_cons_self), Char.ofNat_toNat,
      ih fun d hd => h d (mem_cons_of_mem _ hd)]

lemma decodeFrom_ne_nil (p : Pending) (bs : List ℕ) : decodeFrom (some p) bs ≠ [] := by
  induction bs generalizing p with
  | nil => exact cons_ne_nil _ _
  | cons b bs ih =>
    rw [decodeFrom]
    split
    · split
      · exact cons_ne_nil _ _
      · exact ih _
    · exact cons_ne_nil _ _

lemma decode_ne_nil (h : bs ≠ []) : decode bs ≠ [] := by
  obtain ⟨b, bs, rfl⟩ := exists_cons_of_ne_nil h
  rw [decode, decodeFrom, first]
  split
  · exact cons_ne_nil _ _
  · split
    · exact decodeFrom_ne_nil _ bs
    · exact cons_ne_nil _ _

lemma length_decodeFrom_le (bs : List ℕ) : (decodeFrom none bs).length ≤ bs.length ∧
      ∀ p, (decodeFrom (some p) bs).length ≤ bs.length + 1 := by
  induction bs with
  | nil => exact ⟨le_rfl, fun _ => le_rfl⟩
  | cons b bs ih =>
    have hf : ((first b).1 ++ decodeFrom (first b).2 bs).length ≤ bs.length + 1 := by
      rw [first]
      split
      · simpa using ih.1
      · split
        · simpa using ih.2 _
        · simpa using ih.1
    refine ⟨?_, fun p => ?_⟩
    · rw [decodeFrom]
      exact hf
    · rw [decodeFrom]
      split
      · split
        · exact Nat.le_succ_of_le (Nat.succ_le_succ ih.1)
        · exact Nat.le_succ_of_le (ih.2 _)
      · exact Nat.succ_le_succ hf

lemma length_decode_le (bs : List ℕ) : (decode bs).length ≤ bs.length := (length_decodeFrom_le bs).1

end QJazz.Lexical.Utf8
