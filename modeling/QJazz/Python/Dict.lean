import Mathlib.Algebra.Order.Ring.Nat
import Mathlib.Data.List.Nodup
import Mathlib.Data.List.ReduceOption
import Mathlib.Data.Nat.Log

/-! A dictionary keeps its items in a table of slots in the order of insertion. -/
namespace QJazz.Python
open List

/-- How many slots of a table of the given size may be in use. -/
def usableFraction (size : ℕ) : ℕ := 2 * size / 3

structure Dict (α κ : Type*) (key : α → κ) where
  log2Size : ℕ
  slots : List (Option α)
  fits : slots.length ≤ usableFraction (2 ^ log2Size)
  nodup : (slots.reduceOption.map key).Nodup

lemma reduceOption_filter {α : Type*} (p : α → Bool) (s : List (Option α)) :
    (s.map fun o => o.filter p).reduceOption = s.reduceOption.filter p := by
  induction s with
  | nil => rfl
  | cons o s ih =>
    cases o with
    | none => simpa using ih
    | some a => cases h : p a <;> simp [Option.filter_some, h, ih]

lemma reduceOption_map_some {α : Type*} (l : List α) : (l.map some).reduceOption = l := by
  induction l with
  | nil => rfl
  | cons a l ih => rw [map_cons, reduceOption_cons_of_some, ih]

namespace Dict

variable {α κ ε : Type*} {key : α → κ}

def items (d : Dict α κ key) : List α := d.slots.reduceOption

lemma nodup_items (d : Dict α κ key) : (d.items.map key).Nodup := d.nodup

def length (d : Dict α κ key) : ℕ := d.items.length

def usable (d : Dict α κ key) : ℕ := usableFraction (2 ^ d.log2Size) - d.slots.length

def empty : Dict α κ key where
  log2Size := 0
  slots := []
  fits := Nat.zero_le _
  nodup := List.nodup_nil

def growth (used : ℕ) : ℕ := max 3 (Nat.clog 2 (3 * used))

lemma lt_usableFraction_growth (used : ℕ) : used < usableFraction (2 ^ growth used) := by
  have hm : 2 ^ 3 ≤ 2 ^ growth used := Nat.pow_le_pow_right (by omega) (le_max_left _ _)
  have hu : 3 * used ≤ 2 ^ growth used :=
    (Nat.le_pow_clog (by omega) _).trans (Nat.pow_le_pow_right (by omega) (le_max_right _ _))
  rw [usableFraction]
  omega

def roomy (l : List α) (h : (l.map key).Nodup) : Dict α κ key where
  log2Size := growth (2 * l.length)
  slots := l.map some
  fits := by
    have hlt := lt_usableFraction_growth (2 * l.length)
    rw [List.length_map]
    omega
  nodup := by rwa [reduceOption_map_some]

@[simp] lemma items_roomy (l : List α) (h : (l.map key).Nodup) : (roomy l h).items = l :=
  reduceOption_map_some l

lemma length_le_usable_roomy (l : List α) (h : (l.map key).Nodup) :
    l.length ≤ (roomy l h).usable := by
  have hlt := lt_usableFraction_growth (2 * l.length)
  rw [usable]
  simp only [roomy, length_map]
  omega

def insert (d : Dict α κ key) (a : α) (h : key a ∉ d.items.map key) : Dict α κ key :=
  have hnodup : ((d.items ++ [a]).map key).Nodup := by
    rw [List.map_append, List.map_singleton]
    refine List.nodup_append.2 ⟨d.nodup, List.nodup_singleton _, ?_⟩
    rintro k hk j hj rfl
    exact h (List.mem_singleton.1 hj ▸ hk)
  if hroom : d.slots.length < usableFraction (2 ^ d.log2Size) then
    { log2Size := d.log2Size
      slots := d.slots ++ [some a]
      fits := by
        rw [List.length_append]
        exact hroom
      nodup := by
        rw [List.reduceOption_append]
        exact hnodup }
  else
    { log2Size := growth d.length
      slots := d.items.map some ++ [some a]
      fits := by
        rw [List.length_append, List.length_map]
        exact lt_usableFraction_growth d.length
      nodup := by
        rw [List.reduceOption_append, reduceOption_map_some]
        exact hnodup }

@[simp] lemma items_insert {d : Dict α κ key} {a : α} (h : key a ∉ d.items.map key) :
    (d.insert a h).items = d.items ++ [a] := by
  rw [insert]
  split
  · exact reduceOption_append _ _
  · rw [items, reduceOption_append, reduceOption_map_some]
    rfl

/-- The first item from a position on, and the position behind it. -/
def firstFrom : ℕ → List (Option α) → Option (α × ℕ)
  | _, [] => none
  | pos, some a :: _ => some (a, pos + 1)
  | pos, none :: slots => firstFrom (pos + 1) slots

def seek (d : Dict α κ key) (pos : ℕ) : Option (α × ℕ) := firstFrom pos (d.slots.drop pos)

/-- The rest of a loop over the items. Before each item the iterator checks that the dictionary has
as many items as at the start and that it has not given as many already. -/
def forEach (changed : ε) (body : α → Dict α κ key → Option ε × Dict α κ key) (used : ℕ) :
    ℕ → ℕ → Dict α κ key → Option ε × Dict α κ key
  | 0, pos, d =>
    if d.length = used ∧ d.seek pos = none then (none, d) else (some changed, d)
  | len + 1, pos, d =>
    if d.length = used then
      match d.seek pos with
      | none => (none, d)
      | some (a, next) =>
        match body a d with
        | (some e, d') => (some e, d')
        | (none, d') => forEach changed body used len next d'
    else (some changed, d)

def forItems (changed : ε) (body : α → Dict α κ key → Option ε × Dict α κ key) (d : Dict α κ key) :
    Option ε × Dict α κ key :=
  forEach changed body d.length d.length 0 d

/-- The items that the rest of a loop is run for. -/
def visits (body : α → Dict α κ key → Option ε × Dict α κ key) (used : ℕ) :
    ℕ → ℕ → Dict α κ key → List α
  | 0, _, _ => []
  | len + 1, pos, d =>
    if d.length = used then
      match d.seek pos with
      | none => []
      | some (a, next) =>
        a ::
          match body a d with
          | (some _, _) => []
          | (none, d') => visits body used len next d'
    else []

def visitItems (body : α → Dict α κ key → Option ε × Dict α κ key) (d : Dict α κ key) : List α :=
  visits body d.length d.length 0 d

def rest (d : Dict α κ key) (pos : ℕ) : List α := (d.slots.drop pos).reduceOption

lemma firstFrom_spec (s : List (Option α)) (pos : ℕ) :
    (firstFrom pos s = none ∧ s.reduceOption = []) ∨
      ∃ a i, firstFrom pos s = some (a, pos + i + 1) ∧ i < s.length ∧
        s.reduceOption = a :: (s.drop (i + 1)).reduceOption := by
  induction s generalizing pos with
  | nil => exact Or.inl ⟨rfl, rfl⟩
  | cons o s ih =>
    cases o with
    | some a => exact Or.inr ⟨a, 0, rfl, by simp, by simp⟩
    | none =>
      rcases ih (pos + 1) with ⟨hn, hi⟩ | ⟨a, i, ho, hlt, hco⟩
      · exact Or.inl ⟨hn, by simpa using hi⟩
      · refine Or.inr ⟨a, i + 1, ?_, by simpa using hlt, by simpa using hco⟩
        rw [firstFrom, ho]
        congr 2
        omega

lemma seek_cases (d : Dict α κ key) (pos : ℕ) : (d.seek pos = none ∧ d.rest pos = []) ∨
      ∃ a next, d.seek pos = some (a, next) ∧ next ≤ d.slots.length ∧
        d.rest pos = a :: d.rest next := by
  rcases firstFrom_spec (d.slots.drop pos) pos with h | ⟨a, i, ho, hlt, hn⟩
  · exact Or.inl h
  · rw [length_drop] at hlt
    refine Or.inr ⟨a, pos + i + 1, ho, by omega, ?_⟩
    rw [rest, hn, drop_drop, rest, Nat.add_assoc]

lemma rest_zero (d : Dict α κ key) : d.rest 0 = d.items := rfl

lemma rest_sublist (d : Dict α κ key) (pos : ℕ) : (d.rest pos).Sublist d.items :=
  (drop_sublist pos d.slots).filterMap id

variable {d : Dict α κ key} {changed : ε} {body : α → Dict α κ key → Option ε × Dict α κ key}

lemma forEach_of_same {len pos : ℕ} (hlen : (d.rest pos).length ≤ len)
    (hm : ∀ a ∈ d.rest pos, body a d = (none, d)) :
    forEach changed body d.length len pos d = (none, d) := by
  induction len generalizing pos with
  | zero =>
    rcases seek_cases d pos with ⟨hn, -⟩ | ⟨a, next, -, -, ho⟩
    · simp [forEach, hn]
    · simp [ho] at hlen
  | succ len ih =>
    rcases seek_cases d pos with ⟨hn, -⟩ | ⟨a, next, he, -, ho⟩
    · simp [forEach, hn]
    · rw [ho] at hlen hm
      simp only [forEach, he, if_true, hm a mem_cons_self]
      refine ih ?_ fun b hb => hm b (mem_cons_of_mem _ hb)
      simpa using hlen

lemma visits_of_same {len pos : ℕ} (hlen : (d.rest pos).length ≤ len)
    (hm : ∀ a ∈ d.rest pos, body a d = (none, d)) :
    visits body d.length len pos d = d.rest pos := by
  induction len generalizing pos with
  | zero => exact (length_eq_zero_iff.1 (Nat.le_zero.1 hlen)).symm
  | succ len ih =>
    rcases seek_cases d pos with ⟨hn, hi⟩ | ⟨a, next, ho, -, hco⟩
    · simp [visits, hn, hi]
    · rw [hco] at hlen hm ⊢
      simp only [visits, ho, if_true, hm a mem_cons_self]
      rw [ih (by simpa using hlen) fun b hb => hm b (mem_cons_of_mem _ hb)]

lemma forItems_invariant {P : Dict α κ key → Prop}
    (ho : ∀ a (d : Dict α κ key), a ∈ d.items → P d → P (body a d).2) (hd : P d) :
    P (forItems changed body d).2 := by
  suffices h : ∀ u len pos (d : Dict α κ key), P d → P (forEach changed body u len pos d).2 from
    h _ _ _ d hd
  intro u len
  induction len with
  | zero =>
    intro pos d hd
    rw [forEach]
    split <;> exact hd
  | succ len ih =>
    intro pos d hd
    rw [forEach]
    split
    · rcases seek_cases d pos with ⟨hn, -⟩ | ⟨a, next, hm, -, hco⟩
      · rw [hn]
        exact hd
      · have he : a ∈ d.items := (d.rest_sublist pos).subset (hco ▸ mem_cons_self)
        have hk := ho a d he hd
        rw [hm]
        rcases hr : body a d with ⟨_ | e, d'⟩
        · rw [hr] at hk
          simp only [hr]
          exact ih next d' hk
        · rw [hr] at hk
          simp only [hr]
          exact hk
    · exact hd

variable [DecidableEq κ]

def get? (d : Dict α κ key) (k : κ) : Option α := d.items.find? fun a => key a = k

def erase (d : Dict α κ key) (k : κ) : Dict α κ key where
  log2Size := d.log2Size
  slots := d.slots.map fun o => o.filter fun a => key a ≠ k
  fits := by
    rw [List.length_map]
    exact d.fits
  nodup := by
    rw [reduceOption_filter]
    exact d.nodup.sublist (List.filter_sublist.map key)

def replace (d : Dict α κ key) (a : α) : Dict α κ key where
  log2Size := d.log2Size
  slots := d.slots.map (Option.map fun b => if key b = key a then a else b)
  fits := by
    rw [List.length_map]
    exact d.fits
  nodup := by
    have hkeys : (key ∘ fun b => if key b = key a then a else b) = key := by
      funext b
      by_cases h : key b = key a <;> simp [h]
    rw [List.reduceOption_map, List.map_map, hkeys]
    exact d.nodup

def set (d : Dict α κ key) (a : α) : Dict α κ key :=
  if h : key a ∈ d.items.map key then d.replace a else d.insert a h

variable {a b : α} {k : κ}

@[simp] lemma items_erase : (d.erase k).items = d.items.filter fun a => key a ≠ k :=
  reduceOption_filter _ _

lemma notMem_erase : k ∉ (d.erase k).items.map key := by
  simp

lemma length_erase_lt (h : a ∈ d.items) : (d.erase (key a)).length < d.length := by
  rw [length, items_erase, length, length_filter_lt_length_iff_exists]
  exact ⟨a, h, by simp⟩

lemma get?_of_mem (h : a ∈ d.items) : d.get? (key a) = some a := by
  have hk := d.nodup_items
  rw [get?]
  generalize d.items = i at h hk
  induction i with
  | nil => cases h
  | cons b i ih =>
    rw [map_cons, nodup_cons] at hk
    rcases mem_cons.1 h with rfl | h
    · simp
    · have hne : key b ≠ key a := fun heq => hk.1 (heq ▸ List.mem_map_of_mem h)
      simp [hne, ih h hk.2]

lemma eq_of_key_eq (ha : a ∈ d.items) (hb : b ∈ d.items) (h : key a = key b) : a = b := by
  have hget := get?_of_mem ha
  rw [h, get?_of_mem hb] at hget
  exact (Option.some.inj hget).symm

lemma get?_eq_none : d.get? k = none ↔ k ∉ d.items.map key := by
  simp [get?]

lemma get?_eq_some (h : d.get? k = some a) : a ∈ d.items ∧ key a = k :=
  ⟨List.mem_of_find?_eq_some h, by simpa using List.find?_some h⟩

lemma get?_erase (d : Dict α κ key) (k j : κ) :
    (d.erase k).get? j = if j = k then none else d.get? j := by
  rw [get?, items_erase, List.find?_filter, get?]
  split
  next h =>
    rw [List.find?_eq_none]
    rintro a - ha
    simp_all
  next h =>
    refine congrArg (fun p => List.find? p d.items) (funext fun a => ?_)
    by_cases ha : key a = j
    · simp [ha, h]
    · simp [ha]

lemma length_erase_le (d : Dict α κ key) (k : κ) : (d.erase k).length ≤ d.length := by
  rw [length, items_erase, length]
  exact length_filter_le _ _

@[simp] lemma items_replace :
    (d.replace a).items = d.items.map fun b => if key b = key a then a else b :=
  reduceOption_map

lemma length_set_of_mem (h : key a ∈ d.items.map key) : (d.set a).length = d.length := by
  rw [set, dif_pos h, length, items_replace, length_map, length]

lemma length_set_le (d : Dict α κ key) (a : α) : (d.set a).length ≤ d.length + 1 := by
  by_cases h : key a ∈ d.items.map key
  · exact (length_set_of_mem h).le.trans (Nat.le_succ _)
  · rw [set, dif_neg h, length, items_insert, length_append, length, length_singleton]

lemma get?_set (d : Dict α κ key) (a : α) (k : κ) :
    (d.set a).get? k = if k = key a then some a else d.get? k := by
  by_cases he : key a ∈ d.items.map key
  · have hm : (d.set a).get? k = (d.get? k).map fun b => if key b = key a then a else b := by
      rw [get?, set, dif_pos he, items_replace, List.find?_map, get?]
      congr 2
      funext b
      by_cases hb : key b = key a <;> simp [hb]
    rw [hm]
    split
    next hk =>
      obtain ⟨b, hb, hy⟩ := List.mem_map.1 he
      rw [hk, ← hy, get?_of_mem hb, Option.map_some, if_pos rfl]
    next hk =>
      cases hget : d.get? k with
      | none => rfl
      | some b => simp [(get?_eq_some hget).2, hk]
  · rw [get?, set, dif_neg he, items_insert, List.find?_append, ← get?]
    split
    next hk =>
      rw [hk, get?_eq_none.2 he]
      simp
    next hk => simp [Ne.symm hk]

/-- A body that leaves the dictionary as it is for the items that satisfy `still`. For another item
it raises, changes the number of items or moves the item to the end. -/
structure Refreshes (body : α → Dict α κ key → Option ε × Dict α κ key) (still : α → Prop) :
    Prop where
  same : ∀ {a : α} {d : Dict α κ key}, still a → body a d = (none, d)
  moves : ∀ {a : α} {d d' : Dict α κ key}, a ∈ d.items → ¬ still a → body a d = (none, d') →
    d'.length = d.length → ∃ b, key b = key a ∧ d' = (d.erase (key a)).set b

lemma rest_set_erase {pos next : ℕ} (ho : d.rest pos = a :: d.rest next)
    (he : next ≤ d.slots.length) (hroom : 0 < d.usable) (hy : key b = key a) :
    ((d.erase (key a)).set b).rest next = d.rest next ++ [b] ∧
      ((d.erase (key a)).set b).usable + 1 = d.usable := by
  have hnew : key b ∉ (d.erase (key a)).items.map key := hy ▸ notMem_erase
  have hr : (d.erase (key a)).slots.length < usableFraction (2 ^ (d.erase (key a)).log2Size) := by
    rw [usable] at hroom
    simp only [erase, length_map]
    omega
  have hl : ((d.erase (key a)).set b).slots = (d.erase (key a)).slots ++ [some b] := by
    rw [set, dif_neg hnew, insert, dif_pos hr]
  have hi : ((d.erase (key a)).set b).log2Size = d.log2Size := by
    rw [set, dif_neg hnew, insert, dif_pos hr]
    rfl
  -- the keys are distinct, so no item further on has the key of the one that was passed
  have hk : ∀ c ∈ d.rest next, key c ≠ key a := by
    have hn := d.nodup.sublist ((d.rest_sublist pos).map key)
    rw [ho, map_cons, nodup_cons] at hn
    intro c hc heq
    exact hn.1 (heq ▸ List.mem_map_of_mem hc)
  constructor
  · rw [rest, hl, drop_append_of_le_length (by simpa [erase] using he), reduceOption_append]
    simp only [erase, ← map_drop]
    rw [reduceOption_filter, filter_eq_self.2 fun c hc => by simpa using hk c hc]
    rfl
  · rw [usable, hl, hi, usable]
    rw [usable] at hroom
    simp only [erase, length_append, length_map, length_singleton]
    omega

variable {s : α → Prop}

lemma forEach_raises_of_lt (h : Refreshes body s) {used len pos : ℕ}
    (hlt : len < (d.rest pos).length) (hroom : len ≤ d.usable) :
    (forEach changed body used len pos d).1 ≠ none := by
  induction len generalizing pos d with
  | zero =>
    rcases seek_cases d pos with ⟨-, hni⟩ | ⟨a, next, ho, -, -⟩
    · simp [hni] at hlt
    · simp [forEach, ho]
  | succ len ih =>
    by_cases hu : d.length = used
    · rcases seek_cases d pos with ⟨-, hni⟩ | ⟨a, next, ho, he, hn⟩
      · simp [hni] at hlt
      · have hm : a ∈ d.items := (d.rest_sublist pos).subset (hn ▸ mem_cons_self)
        have hlt' : len < (d.rest next).length := by simpa [hn] using hlt
        simp only [forEach, hu, if_true, ho]
        rcases hd : body a d with ⟨_ | e, d'⟩
        · by_cases ht : s a
          · obtain ⟨-, rfl⟩ := Prod.mk.inj ((h.same ht).symm.trans hd)
            exact ih hlt' (by omega)
          · by_cases hi : d'.length = d.length
            · obtain ⟨b, hk, rfl⟩ := h.moves hm ht hd hi
              obtain ⟨hr, hl⟩ := rest_set_erase hn he (by omega) hk
              refine ih ?_ (by omega)
              rw [hr, length_append]
              omega
            · have hne : ¬ d'.length = used := fun heq => hi (heq.trans hu.symm)
              cases len <;> simp [forEach, hne]
        · simp
    · simp [forEach, hu]

lemma forEach_raises (h : Refreshes body s) {len pos : ℕ} (hlen : (d.rest pos).length = len)
    (hroom : len ≤ d.usable) (hh : ∃ a ∈ d.rest pos, ¬ s a) :
    (forEach changed body d.length len pos d).1 ≠ none := by
  induction len generalizing pos with
  | zero =>
    obtain ⟨a, ha, -⟩ := hh
    rw [length_eq_zero_iff.1 hlen] at ha
    cases ha
  | succ len ih =>
    rcases seek_cases d pos with ⟨-, hni⟩ | ⟨a, next, hm, hn, ho⟩
    · simp [hni] at hlen
    · have he : a ∈ d.items := (d.rest_sublist pos).subset (ho ▸ mem_cons_self)
      have hl : (d.rest next).length = len := by simpa [ho] using hlen
      simp only [forEach, if_true, hm]
      by_cases ht : s a
      · simp only [h.same ht]
        refine ih hl (by omega) ?_
        obtain ⟨c, hc, hno⟩ := hh
        rw [ho] at hc
        rcases mem_cons.1 hc with rfl | hc
        · exact absurd ht hno
        · exact ⟨c, hc, hno⟩
      · rcases hd : body a d with ⟨_ | e, d'⟩
        · by_cases hi : d'.length = d.length
          · obtain ⟨b, hk, rfl⟩ := h.moves he ht hd hi
            obtain ⟨hr, hu⟩ := rest_set_erase ho hn (by omega) hk
            refine forEach_raises_of_lt h ?_ (by omega)
            rw [hr, length_append, hl]
            simp
          · cases len <;> simp [forEach, hi]
        · simp

/-- Whatever the table looks like, the loop ends without an error exactly when it has nothing to
change. -/
lemma forItems_iff (h : Refreshes body s) (d : Dict α κ key) :
    (∀ d' : Dict α κ key, d'.items = d.items → (forItems changed body d').1 = none) ↔
      ∀ a ∈ d.items, s a := by
  constructor
  · intro he
    by_contra hchange
    push Not at hchange
    have hi := items_roomy d.items d.nodup_items
    refine forEach_raises h (rfl : (rest _ 0).length = _) ?_ ?_ (he (roomy d.items d.nodup_items) hi)
    · rw [rest_zero, hi]
      exact length_le_usable_roomy _ _
    · rwa [rest_zero, hi]
  · intro ht d' hi
    have hm : ∀ a ∈ d'.rest 0, body a d' = (none, d') := by
      intro a ha
      rw [rest_zero, hi] at ha
      exact h.same (ht a ha)
    exact congrArg Prod.fst (forEach_of_same (le_refl d'.length) hm)

end Dict
end QJazz.Python
