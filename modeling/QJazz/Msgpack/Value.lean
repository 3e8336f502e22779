import Mathlib.Algebra.Order.Ring.Int
import QJazz.Json.Basic

/-! Packing is taken to be faithful, so a frame is the value it packs; its size is that of the
shortest encoding. -/
namespace QJazz.Msgpack
open List

inductive Value where
  | nil
  | bool (b : Bool)
  | int (n : ℤ)
  | float (q : ℚ)
  | str (s : String)
  | bin (bytes : List UInt8)
  | arr (items : List Value)
  | map (fields : List (String × Value))

namespace Value

def ofOption {α : Type*} (f : α → Value) : Option α → Value
  | none => .nil
  | some a => f a

/-- A number of a JSON document: an integer where it is one and fits, else a float. -/
def ofNum (q : ℚ) : Value :=
  if q.den = 1 ∧ -2 ^ 63 ≤ q.num ∧ q.num < 2 ^ 64 then .int q.num else .float q

mutual
def ofJson : Json → Value
  | .null => .nil
  | .bool b => .bool b
  | .num q => ofNum q
  | .str s => .str s
  | .arr items => .arr (ofJsonItems items)
  | .obj fields => .map (ofJsonFields fields)
termination_by structural v => v

def ofJsonItems : List Json → List Value
  | [] => []
  | v :: rest => ofJson v :: ofJsonItems rest
termination_by structural items => items

def ofJsonFields : List (String × Json) → List (String × Value)
  | [] => []
  | (k, v) :: rest => (k, ofJson v) :: ofJsonFields rest
termination_by structural fields => fields
end

end Value

abbrev Decoder (α : Type*) := Value → Option α

abbrev Fields := List (String × Value)

namespace Decoder

variable {α β : Type*} {d : Decoder α} {e : Decoder β} {f : α → Value} {g : β → Value}

def str : Decoder String
  | .str s => some s
  | _ => none

def bool : Decoder Bool
  | .bool b => some b
  | _ => none

def int : Decoder ℤ
  | .int n => some n
  | _ => none

def bytes : Decoder (List UInt8)
  | .bin bs => some bs
  | _ => none

def enum (values : List (String × α)) : Decoder α
  | .str s => values.lookup s
  | _ => none

def optional (d : Decoder α) : Decoder (Option α)
  | .nil => some none
  | v => (d v).map some

def list (d : Decoder α) : Decoder (List α)
  | .arr items => items.mapM d
  | _ => none

def pair (d : Decoder α) (e : Decoder β) : Decoder (α × β)
  | .arr [v, w] => (d v).bind fun a => (e w).map fun b => (a, b)
  | _ => none

def required (name : String) (d : Decoder α) (fields : Fields) : Option α :=
  (fields.lookup name).bind d

def field (name : String) (d : Decoder α) (default : α) (fields : Fields) : Option α :=
  match fields.lookup name with
  | some v => d v
  | none => some default

@[simp] lemma required_cons (n key : String) (v : Value) (fields : Fields) :
    required n d ((key, v) :: fields) = if n = key then d v else required n d fields := by
  by_cases h : n = key
  · simp [required, h]
  · simp [required, List.lookup_cons, beq_false_of_ne h, h]

@[simp] lemma field_cons (n key : String) (a : α) (v : Value) (fields : Fields) :
    field n d a ((key, v) :: fields) = if n = key then d v else field n d a fields := by
  by_cases h : n = key
  · simp [field, h]
  · simp [field, List.lookup_cons, beq_false_of_ne h, h]

@[simp] lemma field_nil (n : String) (default : α) : field n d default [] = some default := rfl

@[simp] lemma str_str (s : String) : str (.str s) = some s := rfl

@[simp] lemma bool_bool (b : Bool) : Decoder.bool (.bool b) = some b := rfl

@[simp] lemma int_int (n : ℤ) : int (.int n) = some n := rfl

def Inverts (d : Decoder α) (f : α → Value) : Prop := ∀ a, d (f a) = some a

lemma str_inverts : Inverts str .str := fun _ => rfl

lemma bytes_inverts : Inverts bytes .bin := fun _ => rfl

lemma Inverts.optional (h : Inverts d f) (hn : ∀ a, f a ≠ .nil) :
    Inverts (optional d) (Value.ofOption f) := by
  intro o
  cases o with
  | none => rfl
  | some a =>
    have hd := h a
    have hne := hn a
    unfold Decoder.optional Value.ofOption
    split
    next heq => exact absurd heq hne
    next => rw [hd, Option.map_some]

lemma Inverts.list (h : Inverts d f) : Inverts (list d) fun as => .arr (as.map f) := by
  intro as
  show (as.map f).mapM d = some as
  induction as with
  | nil => rfl
  | cons a as ih => simp [h a, ih]

lemma Inverts.pair (hd : Inverts d f) (he : Inverts e g) :
    Inverts (pair d e) fun p => .arr [f p.1, g p.2] := by
  intro p
  simp [Decoder.pair, hd p.1, he p.2]

end Decoder

def intSize (n : ℤ) : ℕ :=
  if -32 ≤ n ∧ n < 2 ^ 7 then 1
  else if -2 ^ 7 ≤ n ∧ n < 2 ^ 8 then 2
  else if -2 ^ 15 ≤ n ∧ n < 2 ^ 16 then 3
  else if -2 ^ 31 ≤ n ∧ n < 2 ^ 32 then 5
  else 9

def strSize (n : ℕ) : ℕ :=
  (if n < 32 then 1 else if n < 2 ^ 8 then 2 else if n < 2 ^ 16 then 3 else 5) + n

def binSize (n : ℕ) : ℕ :=
  (if n < 2 ^ 8 then 2 else if n < 2 ^ 16 then 3 else 5) + n

def countSize (n : ℕ) : ℕ :=
  if n < 16 then 1 else if n < 2 ^ 16 then 3 else 5

def textSize (s : String) : ℕ :=
  strSize s.utf8ByteSize

def headerSize (names : List String) : ℕ := countSize names.length + (names.map textSize).sum

def optionSize {α : Type*} (f : α → ℕ) : Option α → ℕ
  | none => 1
  | some a => f a

@[simp] lemma optionSize_none {α : Type*} (f : α → ℕ) : optionSize f none = 1 := rfl

@[simp] lemma optionSize_some {α : Type*} (f : α → ℕ) (a : α) : optionSize f (some a) = f a := rfl

def FitsInt64 (n : ℤ) : Prop := -2 ^ 63 ≤ n ∧ n < 2 ^ 63

instance (n : ℤ) : Decidable (FitsInt64 n) := inferInstanceAs (Decidable (_ ∧ _))

namespace Value

mutual
def size : Value → ℕ
  | .nil => 1
  | .bool _ => 1
  | .int n => intSize n
  | .float _ => 9
  | .str s => textSize s
  | .bin bytes => binSize bytes.length
  | .arr items => countSize items.length + itemsSize items
  | .map fields => countSize fields.length + fieldsSize fields
termination_by structural v => v

def itemsSize : List Value → ℕ
  | [] => 0
  | v :: rest => size v + itemsSize rest
termination_by structural items => items

def fieldsSize : List (String × Value) → ℕ
  | [] => 0
  | (k, v) :: rest => textSize k + size v + fieldsSize rest
termination_by structural fields => fields
end

mutual
def packs : Value → Bool
  | .int n => decide (-2 ^ 63 ≤ n ∧ n < 2 ^ 64)
  | .arr items => itemsPack items
  | .map fields => fieldsPack fields
  | _ => true
termination_by structural v => v

def itemsPack : List Value → Bool
  | [] => true
  | v :: rest => packs v && itemsPack rest
termination_by structural items => items

def fieldsPack : List (String × Value) → Bool
  | [] => true
  | (_, v) :: rest => packs v && fieldsPack rest
termination_by structural fields => fields
end

variable {α : Type*} {f : α → Value} {g : α → ℕ}

lemma itemsSize_map (i : List α) : itemsSize (i.map f) = (i.map fun a => (f a).size).sum := by
  induction i with
  | nil => rfl
  | cons a i ih => rw [map_cons, itemsSize, ih, map_cons, sum_cons]

lemma fieldsSize_eq (i : List (String × Value)) : fieldsSize i =
      (i.map fun f => textSize f.1).sum + (i.map fun f => f.2.size).sum := by
  induction i with
  | nil => rfl
  | cons f i ih =>
    rw [fieldsSize, ih, map_cons, map_cons, sum_cons, sum_cons]
    omega

lemma size_record {i : List (String × Value)} {a : List String} {n : ℕ}
    (hi : headerSize a = n) (hn : i.map Prod.fst = a) :
    (Value.map i).size = n + (i.map fun f => f.2.size).sum := by
  subst hn
  rw [size, fieldsSize_eq, ← hi, headerSize, length_map, List.map_map, Nat.add_assoc]
  rfl

lemma itemsPack_map (i : List α) : itemsPack (i.map f) = i.all fun a => (f a).packs := by
  induction i with
  | nil => rfl
  | cons a i ih => rw [map_cons, itemsPack, ih, all_cons]

lemma size_ofOption (h : ∀ a, (f a).size = g a) (o : Option α) :
    (ofOption f o).size = optionSize g o := by
  cases o with
  | none => rfl
  | some a => exact h a

@[simp] lemma size_text (o : Option String) : (ofOption .str o).size = optionSize textSize o :=
  size_ofOption (fun _ => rfl) o

@[simp] lemma size_number (o : Option ℤ) : (ofOption .int o).size = optionSize intSize o :=
  size_ofOption (fun _ => rfl) o

end Value

lemma FitsInt64.packs {n : ℤ} (h : FitsInt64 n) : (Value.int n).packs = true := by
  have hle := h.1
  have hlt := h.2
  simp only [Value.packs, decide_eq_true_eq]
  omega

namespace Decoder

def int64 : Decoder ℤ
  | .int n => if FitsInt64 n then some n else none
  | _ => none

lemma int64_int (n : ℤ) : int64 (.int n) = if FitsInt64 n then some n else none := rfl

lemma int64_of_fits {n : ℤ} (h : FitsInt64 n) : int64 (.int n) = some n :=
  if_pos h

def intMap : Decoder (List (String × ℤ))
  | .map fields => fields.mapM fun f => (int64 f.2).map fun n => (f.1, n)
  | _ => none

lemma fits_of_int64 {n m : ℤ} (h : int64 (.int n) = some m) : FitsInt64 n ∧ m = n := by
  rw [int64_int, Option.ite_none_right_eq_some] at h
  exact ⟨h.1, (Option.some.inj h.2).symm⟩

lemma optional_int64_iff {o : Option ℤ} :
    optional int64 (.ofOption .int o) = some o ↔ ∀ n ∈ o, FitsInt64 n := by
  cases o with
  | none => simp [optional, Value.ofOption]
  | some n =>
    by_cases h : FitsInt64 n
    · simp [optional, Value.ofOption, int64_int, h]
    · simp [optional, Value.ofOption, int64_int, h]

lemma intMap_iff {i : List (String × ℤ)} :
    intMap (.map (i.map fun f => (f.1, .int f.2))) = some i ↔ ∀ f ∈ i, FitsInt64 f.2 := by
  induction i with
  | nil => simp [intMap]
  | cons f i ih =>
    by_cases h : FitsInt64 f.2
    · have hh : (int64 (.int f.2)).map (fun n => (f.1, n)) = some f := by
        rw [int64_of_fits h]
        rfl
      have hm : intMap (.map ((f :: i).map fun f => (f.1, .int f.2))) =
          (intMap (.map (i.map fun f => (f.1, .int f.2)))).map (f :: ·) := by
        rw [map_cons, intMap, mapM_cons, hh, intMap]
        cases (i.map fun f => (f.1, Value.int f.2)).mapM fun f =>
          (int64 f.2).map fun n => (f.1, n) <;> rfl
      rw [hm, forall_mem_cons, ← ih]
      simp [h]
    · simp [intMap, int64_int, h]

end Decoder

end QJazz.Msgpack
