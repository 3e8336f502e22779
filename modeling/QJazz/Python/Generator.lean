import Mathlib.Data.List.Basic
import Mathlib.Data.List.ReduceOption

/-! A generator goes through a list and for each element raises, yields an item or goes on without
one. -/
namespace QJazz.Python
open List

variable {α : Type*} {n m : ℕ} {l s : List α}

def slices (n : ℕ) (l : List α) : List (List α) :=
  (List.range ((l.length + n - 1) / n)).map fun k => (l.drop (k * n)).take n

lemma flatten_slices_range (n k : ℕ) (l : List α) :
    ((List.range k).map fun i => (l.drop (i * n)).take n).flatten = l.take (k * n) := by
  induction k with
  | zero => simp
  | succ k ih =>
    rw [range_succ, map_append, flatten_append, ih, Nat.succ_mul, take_add]
    simp

lemma flatten_slices (h : 0 < n) : (slices n l).flatten = l := by
  rw [slices, flatten_slices_range]
  apply take_of_length_le
  have hd := Nat.div_add_mod (l.length + n - 1) n
  have hm := Nat.mod_lt (l.length + n - 1) h
  rw [Nat.mul_comm]
  omega

lemma exists_of_mem_slices (h : 0 < n) (hs : s ∈ slices n l) :
    ∃ k, k * n < l.length ∧ s.length = min n (l.length - k * n) := by
  obtain ⟨k, hk, rfl⟩ := List.mem_map.1 hs
  rw [mem_range, Nat.lt_div_iff_mul_lt h] at hk
  refine ⟨k, by omega, ?_⟩
  rw [length_take, length_drop]

lemma length_slices (h : 0 < n) (hl : l.length = m * n) : (slices n l).length = m := by
  have he : m * n + n - 1 = n - 1 + n * m := by
    rw [Nat.mul_comm]
    omega
  rw [slices, length_map, length_range, hl, he, Nat.add_mul_div_left _ _ h,
    Nat.div_eq_of_lt (by omega), Nat.zero_add]

lemma length_of_mem_slices (h : 0 < n) (hl : l.length = m * n) (hs : s ∈ slices n l) :
    s.length = n := by
  obtain ⟨k, hk, he⟩ := exists_of_mem_slices h hs
  rw [hl] at hk he
  have hm := Nat.mul_le_mul_right n (Nat.lt_of_mul_lt_mul_right hk)
  rw [Nat.succ_mul] at hm
  omega

variable {ε α : Type*}

/-- The function `itertools.islice` over what a generator does for each element. -/
def islice : ℕ → ℕ → List (Except ε (Option α)) → Except ε (List α)
  | 0, 0, _ => .ok []
  | _, _, [] => .ok []
  | _, _, .error err :: _ => .error err
  | skip, take, .ok none :: items => islice skip take items
  | skip + 1, take, .ok (some _) :: items => islice skip take items
  | 0, take + 1, .ok (some a) :: items => (islice 0 take items).map (a :: ·)

/-- The pages of a listing, one after the other, up to the first that raises. -/
def pages (page : ℕ → Except ε (List α)) : ℕ → Except ε (List α)
  | 0 => .ok []
  | n + 1 => (pages page n).bind fun front => (page n).map (front ++ ·)

/-- The items that come before the first element that raises. -/
def yielded : List (Except ε (Option α)) → List α
  | [] => []
  | .error _ :: _ => []
  | .ok none :: items => yielded items
  | .ok (some a) :: items => a :: yielded items

def raises : List (Except ε (Option α)) → Bool
  | [] => false
  | .error _ :: _ => true
  | .ok _ :: items => raises items

variable {skip take limit n : ℕ} {err : ε} {l : List (Option α)} {items : List (Except ε (Option α))}
  {page : ℕ → Except ε (List α)}

lemma islice_ok : islice skip take (l.map .ok : List (Except ε (Option α))) =
    .ok ((l.reduceOption.drop skip).take take) := by
  induction l generalizing skip take with
  | nil => cases skip <;> cases take <;> simp [islice]
  | cons o l ih =>
    cases o with
    | none => cases skip <;> cases take <;> simp [islice, ih]
    | some a => cases skip <;> cases take <;> simp [islice, ih, Except.map]

lemma islice_error (h : l.reduceOption.length < skip + take) :
    islice skip take (l.map .ok ++ .error err :: items) = .error err := by
  induction l generalizing skip take with
  | nil =>
    cases skip with
    | succ skip => simp [islice]
    | zero =>
      cases take with
      | zero => simp at h
      | succ take => simp [islice]
  | cons o l ih =>
    cases o with
    | none =>
      rw [reduceOption_cons_of_none] at h
      cases skip with
      | succ skip => exact ih h
      | zero =>
        cases take with
        | zero => omega
        | succ take => exact ih h
    | some a =>
      rw [reduceOption_cons_of_some, length_cons] at h
      cases skip with
      | succ skip => exact ih (by omega)
      | zero =>
        cases take with
        | zero => omega
        | succ take =>
          rw [map_cons, cons_append, islice, ih (by omega)]
          rfl

lemma islice_eq_ok_iff {page : List α} : islice skip take items = .ok page ↔
    (raises items → skip + take ≤ (yielded items).length) ∧
      page = ((yielded items).drop skip).take take := by
  fun_induction islice skip take items generalizing page with
  | case1 items =>
    rw [Except.ok.injEq, eq_comm]
    simp
  | case2 skip take h =>
    rw [Except.ok.injEq, eq_comm]
    simp [raises, yielded]
  | case3 skip take err items h =>
    have hp : ¬ skip + take ≤ 0 := fun hle => h (by omega) (by omega)
    simp only [reduceCtorEq, raises, yielded, length_nil, forall_const, hp, false_and]
  | case4 skip take items h ih => exact ih
  | case5 skip take a items ih =>
    rw [ih, raises, yielded, length_cons, drop_succ_cons, Nat.succ_add, Nat.succ_le_succ_iff]
  | case6 take a items ih =>
    have hm : (islice 0 take items).map (a :: ·) = .ok page ↔
        ∃ r, islice 0 take items = .ok r ∧ a :: r = page := by
      cases islice 0 take items <;> simp [Except.map]
    simp only [hm, ih, raises, yielded, length_cons, Nat.zero_add, drop_zero,
      take_succ_cons, Nat.succ_le_succ_iff]
    constructor
    · rintro ⟨r, ⟨hle, rfl⟩, rfl⟩
      exact ⟨hle, rfl⟩
    · rintro ⟨hle, rfl⟩
      exact ⟨_, ⟨hle, rfl⟩, rfl⟩

lemma ok_or_error (items : List (Except ε (Option α))) :
    (∃ l : List (Option α), items = l.map .ok) ∨
      ∃ (l : List (Option α)) (err : ε) (rest : List (Except ε (Option α))),
        items = l.map .ok ++ .error err :: rest := by
  induction items with
  | nil => exact Or.inl ⟨[], rfl⟩
  | cons i items ih =>
    cases i with
    | error err => exact Or.inr ⟨[], err, items, rfl⟩
    | ok o =>
      obtain ⟨l, rfl⟩ | ⟨l, err, rest, rfl⟩ := ih
      · exact Or.inl ⟨o :: l, rfl⟩
      · exact Or.inr ⟨o :: l, err, rest, rfl⟩

lemma pages_error (h : page n = .error err) : ∃ err', pages page (n + 1) = .error err' := by
  rw [pages]
  cases pages page n with
  | error err' => exact ⟨err', rfl⟩
  | ok f => exact ⟨err, by rw [h]; rfl⟩

lemma pages_islice_ok :
    pages (fun p => islice (p * limit) limit (l.map .ok : List (Except ε (Option α)))) n =
      .ok (l.reduceOption.take (n * limit)) := by
  induction n with
  | zero => simp [pages]
  | succ n ih =>
    rw [pages, ih, islice_ok, Nat.add_mul, Nat.one_mul, take_add]
    rfl

end QJazz.Python
