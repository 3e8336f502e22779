import QJazz.Lexical.PosixPath

/-! A query of the form `key=value&key=value` is read as a list of fields, and numbers in it as
unsigned integers of 16 bits. -/
namespace QJazz.Lexical
open List

abbrev U16 := Fin 65536

namespace U16

def checked (n : ℕ) : Option U16 := if h : n < 65536 then some ⟨n, h⟩ else none

def fromStr (s : Text) : Option U16 :=
  let digits := if s.head? = some '+' then s.tail else s
  if digits ≠ [] ∧ digits.all Char.isDigit = true then checked (Nat.ofDigitChars 10 digits 0)
  else none

def display (n : U16) : Text := Nat.toDigits 10 n

lemma checked_eq_some {n : ℕ} {m : U16} : checked n = some m ↔ n = m := by
  rw [checked]
  split
  next h => simp [Fin.ext_iff]
  next h =>
    simp only [reduceCtorEq, false_iff]
    rintro rfl
    exact h m.isLt

@[simp] lemma checked_val (n : U16) : checked n = some n := checked_eq_some.2 rfl

lemma isDigit_of_mem_display {n : U16} {c : Char} (h : c ∈ n.display) : c.isDigit = true :=
  Nat.isDigit_of_mem_toDigits (by decide) (by decide) h

lemma fromStr_toDigits (n : ℕ) : fromStr (Nat.toDigits 10 n) = checked n := by
  have hd {c : Char} (h : c ∈ Nat.toDigits 10 n) : c.isDigit = true :=
    Nat.isDigit_of_mem_toDigits (by decide) (by decide) h
  have hh : (Nat.toDigits 10 n).head? ≠ some '+' := fun h =>
    absurd (hd (mem_of_mem_head? h)) (by decide)
  have hl : (Nat.toDigits 10 n).all Char.isDigit = true := List.all_eq_true.2 fun c hc => hd hc
  have hv : Nat.ofDigitChars 10 (Nat.toDigits 10 n) 0 = n :=
    Nat.ofDigitChars_toDigits (by decide) (by decide)
  simp [fromStr, hh, hl, hv, Nat.toDigits_ne_nil]

lemma fromStr_display (n : U16) : fromStr n.display = some n :=
  (fromStr_toDigits n).trans (checked_val n)

end U16

/-- The decoding of the texts in a form, which replaces plus signs and percent codes. -/
structure FormDecoder where
  decode : Text → Text
  decode_plain : ∀ s, '%' ∉ s → '+' ∉ s → decode s = s

def Plain (s : Text) : Prop := ∀ c ∈ s, c ≠ '%' ∧ c ≠ '+' ∧ c ≠ '&' ∧ c ≠ '='

instance (s : Text) : Decidable (Plain s) :=
  List.decidableBAll (fun c => c ≠ '%' ∧ c ≠ '+' ∧ c ≠ '&' ∧ c ≠ '=') s

lemma Plain.percent_notMem {s : Text} (h : Plain s) : '%' ∉ s := fun hm => (h _ hm).1 rfl

lemma Plain.plus_notMem {s : Text} (h : Plain s) : '+' ∉ s := fun hm => (h _ hm).2.1 rfl

def writeField (x : Text × Text) : Text := x.1 ++ '=' :: x.2

namespace FormDecoder

variable (f : FormDecoder)

def field (piece : Text) : Text × Text :=
  (f.decode (piece.takeWhile (· ≠ '=')), f.decode (piece.dropWhile (· ≠ '=')).tail)

def parse (s : Text) : List (Text × Text) := ((s.splitOn '&').filter (· ≠ [])).map f.field

variable {f} {s : Text}

lemma decode_of_plain (h : Plain s) : f.decode s = s :=
  f.decode_plain s h.percent_notMem h.plus_notMem

lemma field_writeField {x : Text × Text} (hk : Plain x.1) (hp : '%' ∉ x.2)
    (hl : '+' ∉ x.2) : f.field (writeField x) = x := by
  have hne : ∀ c ∈ x.1, decide (c ≠ '=') := fun c hc => decide_eq_true (hk c hc).2.2.2
  rw [field, writeField, takeWhile_append_of_pos hne, dropWhile_append_of_pos hne]
  simp [decode_of_plain hk, f.decode_plain x.2 hp hl]

lemma parse_writeField {fields : List (Text × Text)} (hne : fields ≠ [])
    (h : ∀ x ∈ fields, Plain x.1 ∧ Plain x.2) :
    f.parse (['&'].intercalate (fields.map writeField)) = fields := by
  have ham : ∀ piece ∈ fields.map writeField, '&' ∉ piece := by
    intro piece hp hm
    obtain ⟨x, hx, rfl⟩ := List.mem_map.1 hp
    rw [writeField, mem_append, mem_cons] at hm
    rcases hm with hm | hm | hm
    · exact ((h x hx).1 _ hm).2.2.1 rfl
    · exact absurd hm (by decide)
    · exact ((h x hx).2 _ hm).2.2.1 rfl
  have hf : (fields.map writeField).filter (· ≠ []) = fields.map writeField := by
    refine filter_eq_self.2 fun piece hp => ?_
    obtain ⟨x, -, rfl⟩ := List.mem_map.1 hp
    simp [writeField]
  rw [parse, splitOn_intercalate _ ham (by simpa using hne), hf, List.map_map]
  calc fields.map (f.field ∘ writeField)
    _ = fields.map id := map_congr_left fun x hx =>
      field_writeField (h x hx).1 (h x hx).2.percent_notMem (h x hx).2.plus_notMem
    _ = fields := List.map_id fields

end FormDecoder
end QJazz.Lexical
