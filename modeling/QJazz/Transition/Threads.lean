import Mathlib.Data.List.Basic
import Mathlib.Data.Nat.Notation
import Mathlib.Tactic.TypeStar

/-! Counting arguments weigh each thread and compare the totals before and after the step. -/
namespace QJazz.Transition
open List

variable {τ υ : Type*}

def total (f : τ → ℕ) : List τ → ℕ
  | [] => 0
  | a :: threads => f a + total f threads

variable {f g : τ → ℕ} {threads : List τ} {a b : τ} {i : ℕ}

@[simp] lemma total_nil : total f [] = 0 := rfl

@[simp] lemma total_cons : total f (a :: threads) = f a + total f threads := rfl

@[simp] lemma total_append {l : List τ} : total f (threads ++ l) = total f threads + total f l := by
  induction threads with
  | nil => simp
  | cons c threads ih =>
    rw [List.cons_append, total_cons, total_cons, ih, Nat.add_assoc]

lemma total_set (h : threads[i]? = some a) :
    total f (threads.set i b) + f a = total f threads + f b := by
  induction threads generalizing i with
  | nil => simp at h
  | cons c threads ih =>
    cases i with
    | zero =>
      simp only [List.getElem?_cons_zero, Option.some.injEq] at h
      subst c
      simp only [List.set_cons_zero, total_cons]
      omega
    | succ i =>
      have hr := ih (by simpa using h)
      simp only [List.set_cons_succ, total_cons]
      omega

lemma total_map (k : υ → τ) (l : List υ) : total f (l.map k) = total (f ∘ k) l := by
  induction l with
  | nil => rfl
  | cons c l ih =>
    rw [List.map_cons, total_cons, total_cons, ih]
    rfl

lemma total_eq_zero : total f threads = 0 ↔ ∀ a ∈ threads, f a = 0 := by
  induction threads with
  | nil => simp
  | cons c threads ih => simp [ih]

lemma le_total (h : threads[i]? = some a) : f a ≤ total f threads := by
  induction threads generalizing i with
  | nil => simp at h
  | cons c threads ih =>
    rw [total_cons]
    cases i with
    | zero =>
      simp only [List.getElem?_cons_zero, Option.some.injEq] at h
      subst c
      omega
    | succ i =>
      have hr := ih (by simpa using h)
      omega

lemma total_mono (h : ∀ a, f a ≤ g a) : total f threads ≤ total g threads := by
  induction threads with
  | nil => exact Nat.le_refl 0
  | cons c threads ih =>
    have hc := h c
    rw [total_cons, total_cons]
    omega

lemma total_add : total (fun a => f a + g a) threads = total f threads + total g threads := by
  induction threads with
  | nil => rfl
  | cons c threads ih =>
    rw [total_cons, total_cons, total_cons, ih]
    omega

variable {ρ : Type*}

lemma head?_append_of_head {lock a : List ρ} {h : ρ} (hh : lock.head? = some h) :
    (lock ++ a).head? = some h := by
  rw [List.head?_append, hh]
  rfl

variable [DecidableEq ρ]

/-- Nothing in front of the request is in its way. -/
def granted (alone : ρ → Bool) (lock : List ρ) (r : ρ) : Bool :=
  decide (r ∈ lock) && (lock.takeWhile fun q => q ≠ r).all fun q => !alone q && !alone r

variable {alone : ρ → Bool} {l : List ρ} {q r h : ρ}

lemma granted_of_head (hr : l.head? = some r) : granted alone l r = true := by
  cases l with
  | nil => cases hr
  | cons h e =>
    cases hr
    simp [granted]

lemma head_of_granted (hr : granted alone l r) (hl : alone r) :
    l.head? = some r := by
  cases l with
  | nil => simp [granted] at hr
  | cons h e =>
    by_cases heq : h = r
    · rw [heq]
      rfl
    · simp [granted, heq, hl] at hr

lemma head?_erase_of_ne (hh : l.head? = some h) (hne : q ≠ h) : (l.erase q).head? = some h := by
  cases l with
  | nil => cases hh
  | cons a e =>
    cases hh
    rw [erase_cons_tail (by simpa using hne.symm)]
    rfl

lemma idxOf_erase_le (hne : q ≠ r) : (l.erase q).idxOf r ≤ l.idxOf r := by
  induction l with
  | nil => exact Nat.le_refl _
  | cons a e ih =>
    by_cases haq : a = q
    · subst haq
      rw [erase_cons_head, idxOf_cons_ne _ hne]
      exact Nat.le_succ _
    · rw [erase_cons_tail (by simpa using haq)]
      by_cases har : a = r
      · simp [har]
      · rw [idxOf_cons_ne _ har, idxOf_cons_ne _ har]
        exact Nat.succ_le_succ ih

lemma idxOf_erase_lt (hh : l.head? = some q) (hne : q ≠ r) :
    (l.erase q).idxOf r < l.idxOf r := by
  cases l with
  | nil => cases hh
  | cons a e =>
    cases hh
    rw [erase_cons_head, idxOf_cons_ne _ hne]
    exact Nat.lt_succ_self _

end QJazz.Transition
