import Mathlib.Data.Rat.Defs
import Mathlib.Data.List.Nodup

/-! Objects are association lists in insertion order. A well-formed value has distinct keys in every
object it contains. -/
namespace QJazz
open List

inductive Json where
  | null
  | bool (b : Bool)
  | num (n : ℚ)
  | str (s : String)
  | arr (items : List Json)
  | obj (fields : List (String × Json))
deriving Repr

namespace Json

mutual
def decEq : (a b : Json) → Decidable (a = b)
  | .null, .null => isTrue rfl
  | .bool a, .bool b => decidable_of_iff (a = b) (by simp)
  | .num a, .num b => decidable_of_iff (a = b) (by simp)
  | .str a, .str b => decidable_of_iff (a = b) (by simp)
  | .arr a, .arr b => have := decEqItems a b; decidable_of_iff (a = b) (by simp)
  | .obj a, .obj b => have := decEqFields a b; decidable_of_iff (a = b) (by simp)
  | .null, .bool _ | .null, .num _ | .null, .str _ | .null, .arr _ | .null, .obj _
  | .bool _, .null | .bool _, .num _ | .bool _, .str _ | .bool _, .arr _ | .bool _, .obj _
  | .num _, .null | .num _, .bool _ | .num _, .str _ | .num _, .arr _ | .num _, .obj _
  | .str _, .null | .str _, .bool _ | .str _, .num _ | .str _, .arr _ | .str _, .obj _
  | .arr _, .null | .arr _, .bool _ | .arr _, .num _ | .arr _, .str _ | .arr _, .obj _
  | .obj _, .null | .obj _, .bool _ | .obj _, .num _ | .obj _, .str _ | .obj _, .arr _ =>
    isFalse (by simp)
termination_by structural a => a

def decEqItems : (a b : List Json) → Decidable (a = b)
  | [], [] => isTrue rfl
  | a :: as, b :: bs =>
    have := decEq a b
    have := decEqItems as bs
    decidable_of_iff (a = b ∧ as = bs) (by simp)
  | [], _ :: _ | _ :: _, [] => isFalse (by simp)
termination_by structural a => a

def decEqFields : (a b : List (String × Json)) → Decidable (a = b)
  | [], [] => isTrue rfl
  | (j, a) :: as, (k, b) :: bs =>
    have := decEq a b
    have := decEqFields as bs
    decidable_of_iff (j = k ∧ a = b ∧ as = bs) (by simp [and_assoc])
  | [], _ :: _ | _ :: _, [] => isFalse (by simp)
termination_by structural a => a
end

instance : DecidableEq Json := decEq

mutual
def wellFormed : Json → Bool
  | .arr items => wellFormedItems items
  | .obj fields => decide ((fields.map Prod.fst).Nodup) && wellFormedFields fields
  | _ => true
termination_by structural v => v

def wellFormedItems : List Json → Bool
  | [] => true
  | v :: rest => wellFormed v && wellFormedItems rest
termination_by structural items => items

def wellFormedFields : List (String × Json) → Bool
  | [] => true
  | (_, v) :: rest => wellFormed v && wellFormedFields rest
termination_by structural fields => fields
end

lemma wellFormed_obj {f : List (String × Json)} (h : (obj f).wellFormed) :
    (f.map Prod.fst).Nodup ∧ wellFormedFields f = true := by
  simpa [wellFormed] using h

def truthy : Json → Bool
  | .null => false
  | .bool b => b
  | .num n => n ≠ 0
  | .str s => s ≠ ""
  | .arr items => items ≠ []
  | .obj fields => fields ≠ []

end Json

section Dictionary
variable {V : Type*} {j k : String} {v w : V} {d : List (String × V)}

def setKey (k : String) (v : V) : List (String × V) → List (String × V)
  | [] => [(k, v)]
  | (j, w) :: rest => if j = k then (k, v) :: rest else (j, w) :: setKey k v rest

@[simp] lemma lookup_setKey_self : (setKey k v d).lookup k = some v := by
  induction d with
  | nil => simp [setKey]
  | cons i d ih =>
    obtain ⟨j, w⟩ := i
    by_cases h : j = k
    · simp [setKey, h]
    · have hk : (k == j) = false := by simpa using Ne.symm h
      simp [setKey, h, lookup_cons, hk, ih]

lemma lookup_setKey_ne (h : j ≠ k) : (setKey k v d).lookup j = d.lookup j := by
  have hj : (j == k) = false := by simpa using h
  induction d with
  | nil => simp [setKey, lookup_cons, hj]
  | cons t d ih =>
    obtain ⟨i, w⟩ := t
    by_cases hi : i = k
    · subst i
      simp [setKey, lookup_cons, hj]
    · simp [setKey, hi, lookup_cons, ih]

lemma setKey_of_lookup (h : d.lookup k = some v) : setKey k v d = d := by
  induction d with
  | nil => simp at h
  | cons i d ih =>
    obtain ⟨j, w⟩ := i
    by_cases hj : j = k
    · subst j
      simp only [lookup_cons, beq_self_eq_true, Option.some.injEq] at h
      simp [setKey, h]
    · have hk : (k == j) = false := by simpa using Ne.symm hj
      simp only [lookup_cons, hk] at h
      simp [setKey, hj, ih h]

lemma mem_setKey {x : String × V} (h : x ∈ setKey k v d) : x = (k, v) ∨ x ∈ d := by
  induction d with
  | nil => exact .inl (mem_singleton.1 h)
  | cons y d ih =>
    rw [setKey] at h
    split at h
    · rcases mem_cons.1 h with rfl | hm
      · exact .inl rfl
      · exact .inr (mem_cons_of_mem _ hm)
    · rcases mem_cons.1 h with rfl | hm
      · exact .inr mem_cons_self
      · exact (ih hm).imp id (mem_cons_of_mem _)

lemma mem_keys_setKey (h : j = k ∨ j ∈ d.map Prod.fst) : j ∈ (setKey k v d).map Prod.fst := by
  induction d with
  | nil => simpa [setKey] using h
  | cons y d ih =>
    rw [setKey]
    split
    next heq => simpa [heq] using h
    · rw [map_cons, mem_cons]
      rcases h with rfl | h
      · exact .inr (ih (.inl rfl))
      · exact (mem_cons.1 h).imp id fun h => ih (.inr h)

lemma lookup_of_mem (hd : (d.map Prod.fst).Nodup) (h : (k, v) ∈ d) : d.lookup k = some v := by
  induction d with
  | nil => simp at h
  | cons i d ih =>
    obtain ⟨j, w⟩ := i
    rw [map_cons, nodup_cons] at hd
    rcases mem_cons.1 h with heq | ht
    · simp only [Prod.mk.injEq] at heq
      simp [heq.1, heq.2]
    · have hne : k ≠ j := by
        rintro rfl
        exact hd.1 (List.mem_map.2 ⟨(k, v), ht, rfl⟩)
      have hk : (k == j) = false := by simpa using hne
      rw [lookup_cons, hk]
      exact ih hd.2 ht

end Dictionary

end QJazz
