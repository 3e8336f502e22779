import Mathlib.Algebra.Order.Group.Nat
import Mathlib.Data.List.DropRight

/-! A list is cut into pages, and the elements that have no item are left out of their pages. -/
namespace QJazz.Paging
open List Option

variable {α β : Type*}

def slice (size k : ℕ) (l : List α) : List α := (l.take ((k + 1) * size)).drop (k * size)

def reach (f : α → Option β) (l : List α) : ℕ := (l.rdropWhile fun x => (f x).isNone).length

/-- What a client sees from page `k` on, if it comes to the last page within the given number of
requests. -/
def collect (page : ℕ → Option (List β × Bool)) : ℕ → ℕ → Option (List β)
  | 0, _ => none
  | n + 1, k =>
    (page k).bind fun x => if x.2 then (collect page n (k + 1)).map (x.1 ++ ·) else some x.1

/-- The client sees the items, and a page has a next one exactly if a later one is not empty. -/
structure Complete (page : ℕ → Option (List β × Bool)) (items : List β) : Prop where
  all : ∃ n, collect page n 0 = some items
  next : ∀ k, ∃ x, page k = some x ∧ (x.2 = true ↔ ∃ m y, k < m ∧ page m = some y ∧ y.1 ≠ [])

variable {f : α → Option β} {l : List α} {size t k n m : ℕ}
  {p : ℕ → Option (List β × Bool)} {i items' : List β}

lemma filterMap_ne_nil : l.filterMap f ≠ [] ↔ ∃ x ∈ l, (f x).isSome = true := by
  rw [Ne, filterMap_eq_nil_iff]
  simp only [not_forall, isSome_iff_ne_none, exists_prop]

lemma filterMap_filter_eq_iff {p : α → Bool} :
    (l.filter p).filterMap f = l.filterMap f ↔ ∀ x ∈ l, (f x).isSome → p x = true := by
  constructor
  · intro h x hx hi
    have hl := congrArg List.length h
    rw [length_filterMap_eq_countP, length_filterMap_eq_countP, countP_eq_length_filter,
      countP_eq_length_filter, filter_comm, length_filter_eq_length_iff] at hl
    exact hl x (List.mem_filter.2 ⟨hx, hi⟩)
  · intro h
    rw [filterMap_filter]
    refine filterMap_congr fun x hx => ?_
    cases hi : f x with
    | none => simp
    | some b => simp [h x hx (by rw [hi]; rfl)]

lemma mem_slice {x : α} :
    x ∈ slice size k l ↔ ∃ i, k * size ≤ i ∧ i < (k + 1) * size ∧ l[i]? = some x := by
  rw [slice, mem_iff_getElem?]
  constructor
  · rintro ⟨i, hi⟩
    rw [List.getElem?_drop, List.getElem?_take] at hi
    split at hi
    next hlt => exact ⟨k * size + i, Nat.le_add_right _ _, hlt, hi⟩
    · cases hi
  · rintro ⟨i, hle, hlt, hi⟩
    refine ⟨i - k * size, ?_⟩
    rw [List.getElem?_drop, List.getElem?_take, Nat.add_sub_cancel' hle, if_pos hlt, hi]

lemma slice_append_drop (size k : ℕ) (l : List α) :
    slice size k l ++ l.drop ((k + 1) * size) = l.drop (k * size) := by
  have hle : k * size ≤ (k + 1) * size := Nat.mul_le_mul_right _ (Nat.le_succ k)
  have hd : l.drop ((k + 1) * size) = (l.drop (k * size)).drop ((k + 1) * size - k * size) := by
    rw [drop_drop, Nat.add_sub_cancel' hle]
  rw [slice, drop_take, hd, take_append_drop]

lemma filterMap_slice_append (size k : ℕ) :
    (slice size k l).filterMap f ++ (l.drop ((k + 1) * size)).filterMap f =
      (l.drop (k * size)).filterMap f := by
  rw [← filterMap_append, slice_append_drop]

lemma mem_drop {x : α} : x ∈ l.drop n ↔ ∃ i, n ≤ i ∧ l[i]? = some x := by
  rw [mem_iff_getElem?]
  constructor
  · rintro ⟨i, hi⟩
    exact ⟨n + i, Nat.le_add_right _ _, List.getElem?_drop ▸ hi⟩
  · rintro ⟨i, hle, hi⟩
    exact ⟨i - n, by rw [List.getElem?_drop, Nat.add_sub_cancel' hle, hi]⟩

lemma reach_concat_of_none {a : α} (ha : f a = none) : reach f (l ++ [a]) = reach f l := by
  rw [reach, rdropWhile_concat_pos _ _ _ (by simp [ha])]
  rfl

lemma reach_concat_of_some {a : α} {b : β} (ha : f a = some b) :
    reach f (l ++ [a]) = l.length + 1 := by
  rw [reach, rdropWhile_concat_neg _ _ _ (by simp [ha]), length_append]
  rfl

lemma lt_reach_iff : n < reach f l ↔ (l.drop n).filterMap f ≠ [] := by
  induction l using List.reverseRecOn with
  | nil => simp [reach]
  | append_singleton l a ih =>
    rw [drop_append, filterMap_append]
    cases ha : f a with
    | none =>
      have hl : ([a].drop (n - l.length)).filterMap f = [] := by
        cases n - l.length <;> simp [ha]
      rw [reach_concat_of_none ha, hl, append_nil, ih]
    | some b =>
      rw [reach_concat_of_some ha]
      by_cases hn : n ≤ l.length
      · rw [Nat.sub_eq_zero_of_le hn]
        simp [ha, Nat.lt_succ_of_le hn]
      · have hp : n - l.length ≠ 0 := by omega
        simp only [drop_eq_nil_of_le (Nat.le_of_not_le hn), filterMap_nil, nil_append]
        cases hr : n - l.length with
        | zero => exact absurd hr hp
        | succ j =>
          simp only [drop_succ_cons, drop_nil, filterMap_nil, ne_eq, not_true_eq_false, iff_false]
          omega

lemma exists_later_iff (hz : 0 < size) :
    (∃ m, k < m ∧ (slice size m l).filterMap f ≠ []) ↔ (k + 1) * size < reach f l := by
  rw [lt_reach_iff, filterMap_ne_nil]
  simp only [filterMap_ne_nil, mem_slice, mem_drop]
  constructor
  · rintro ⟨m, hm, x, ⟨i, hle, -, hi⟩, hx⟩
    exact ⟨x, ⟨i, (Nat.mul_le_mul_right size hm).trans hle, hi⟩, hx⟩
  · rintro ⟨x, ⟨i, hle, hi⟩, hx⟩
    have hlt : i < (i / size + 1) * size := (Nat.div_lt_iff_lt_mul hz).1 (Nat.lt_succ_self _)
    exact ⟨i / size, (Nat.le_div_iff_mul_le hz).2 hle, x,
      ⟨i, Nat.div_mul_le_self i size, hlt, hi⟩, hx⟩

lemma forall_lt_iff_iff (hi : 0 < size) :
    (∀ k, (k + 1) * size < n ↔ (k + 1) * size < m) ↔ (n - 1) / size = (m - 1) / size := by
  have hl (n k : ℕ) : (k + 1) * size < n ↔ k < (n - 1) / size := by
    rw [← Nat.succ_le_iff, ← Nat.succ_le_iff, Nat.le_div_iff_mul_le hi, Nat.succ_eq_add_one,
      Nat.succ_eq_add_one]
    have hp : 0 < (k + 1) * size := Nat.mul_pos (Nat.succ_pos k) hi
    omega
  simp only [hl]
  refine ⟨fun h => ?_, fun h k => by rw [h]⟩
  exact le_antisymm (not_lt.1 fun hlt => lt_irrefl _ ((h _).1 hlt))
    (not_lt.1 fun hlt => lt_irrefl _ ((h _).2 hlt))

lemma collect_unique (h : collect p n k = some i) (h' : collect p m k = some items') :
    i = items' := by
  induction n generalizing m k i items' with
  | zero => cases h
  | succ n ih =>
    cases m with
    | zero => cases h'
    | succ m =>
      rw [collect] at h h'
      obtain ⟨x, hx, h⟩ := bind_eq_some_iff.1 h
      rw [hx, bind_some] at h'
      split at h
      next hn =>
        rw [if_pos hn] at h'
        obtain ⟨e, he, rfl⟩ := map_eq_some_iff.1 h
        obtain ⟨r, hr, rfl⟩ := map_eq_some_iff.1 h'
        rw [ih he hr]
      next hn =>
        rw [if_neg hn] at h'
        exact Option.some.inj (h.symm.trans h')

section Pages

variable (hpage : ∀ k, p k = some ((slice size k l).filterMap f, decide ((k + 1) * size < t)))
include hpage

lemma collect_of_lt (h : (k + 1) * size < t) :
    collect p (n + 1) k = (collect p n (k + 1)).map ((slice size k l).filterMap f ++ ·) := by
  rw [collect, hpage, bind_some, if_pos (decide_eq_true h)]

lemma collect_of_le (h : t ≤ (k + 1) * size) :
    collect p (n + 1) k = some ((slice size k l).filterMap f) := by
  have hl : decide ((k + 1) * size < t) ≠ true := by simpa using h
  rw [collect, hpage, bind_some, if_neg hl]

lemma collect_eq (hr : ∀ k, (k + 1) * size < t ↔ (k + 1) * size < reach f l)
    (hn : t ≤ (k + n) * size) :
    collect p (n + 1) k = some ((l.drop (k * size)).filterMap f) := by
  have hl {k : ℕ} (hle : t ≤ (k + 1) * size) :
      (slice size k l).filterMap f = (l.drop (k * size)).filterMap f := by
    have ho : (l.drop ((k + 1) * size)).filterMap f = [] := by
      by_contra hne
      exact absurd ((hr k).2 (lt_reach_iff.2 hne)) (not_lt.2 hle)
    rw [← filterMap_slice_append, ho, append_nil]
  -- by induction on the number of pages that may follow
  induction n generalizing k with
  | zero =>
    have hle := hn.trans (Nat.mul_le_mul_right _ (Nat.le_succ k))
    rw [collect_of_le hpage hle, hl hle]
  | succ n ih =>
    by_cases he : (k + 1) * size < t
    · rw [collect_of_lt hpage he, ih (by rwa [Nat.add_assoc, Nat.add_comm 1 n]), map_some,
        filterMap_slice_append]
    · rw [collect_of_le hpage (not_lt.1 he), hl (not_lt.1 he)]

lemma complete_iff (hi : 0 < size) : Complete p i ↔
      i = l.filterMap f ∧ (t - 1) / size = (reach f l - 1) / size := by
  have he (k : ℕ) : (∃ m y, k < m ∧ p m = some y ∧ y.1 ≠ []) ↔ (k + 1) * size < reach f l := by
    rw [← exists_later_iff hi]
    simp only [hpage, Option.some.injEq, exists_eq_left', exists_and_left]
  have ho (hr : ∀ k, (k + 1) * size < t ↔ (k + 1) * size < reach f l) :
      collect p (t + 1) 0 = some (l.filterMap f) := by
    have hn : t ≤ (0 + t) * size := by
      rw [Nat.zero_add]
      exact Nat.le_mul_of_pos_right t hi
    rw [collect_eq hpage hr hn, Nat.zero_mul, drop_zero]
  rw [← forall_lt_iff_iff hi]
  constructor
  · intro h
    have hr (k : ℕ) : (k + 1) * size < t ↔ (k + 1) * size < reach f l := by
      obtain ⟨x, hx, hf⟩ := h.next k
      rw [hpage] at hx
      cases hx
      rwa [decide_eq_true_eq, he] at hf
    obtain ⟨n, hn⟩ := h.all
    exact ⟨collect_unique hn (ho hr), hr⟩
  · rintro ⟨rfl, hr⟩
    refine ⟨⟨_, ho hr⟩, fun k => ⟨_, hpage k, ?_⟩⟩
    rw [decide_eq_true_eq, he]
    exact hr k

end Pages

end QJazz.Paging
