import Mathlib.Data.List.Sort
import Mathlib.Order.Basic

/-! A stable sort by a key in a linear order. Where two elements have the same key, they are in the
result in the order in which they were given. -/
namespace QJazz.Sorting
open List

variable {α κ : Type*} [LinearOrder κ]

def sortByKey (key : α → κ) (l : List α) : List α := l.mergeSort fun a b => key a ≤ key b

variable {key : α → κ} {l : List α} {a b : α}

lemma sortByKey_perm (key : α → κ) (l : List α) : (sortByKey key l).Perm l :=
  mergeSort_perm _ _

lemma key_trans (a b c : α) (hab : decide (key a ≤ key b))
    (hbc : decide (key b ≤ key c)) : decide (key a ≤ key c) = true := by
  simp only [decide_eq_true_eq] at hab hbc ⊢
  exact hab.trans hbc

lemma key_total (a b : α) : (decide (key a ≤ key b) || decide (key b ≤ key a)) = true := by
  simp only [Bool.or_eq_true, decide_eq_true_eq]
  exact le_total _ _

lemma key_le_of_sublist (h : [a, b].Sublist (sortByKey key l)) : key a ≤ key b := by
  have ho : (sortByKey key l).Pairwise fun a b => decide (key a ≤ key b) = true :=
    pairwise_mergeSort key_trans key_total l
  exact of_decide_eq_true (pairwise_iff_forall_sublist.1 ho h)

lemma filter_sortByKey (key : α → κ) (l : List α) (k : κ) :
    (sortByKey key l).filter (fun a => key a = k) = l.filter fun a => key a = k := by
  have hp :
      (l.filter fun a => key a = k).Pairwise fun a b => decide (key a ≤ key b) = true := by
    refine pairwise_of_forall_mem_list fun a ha b hb => decide_eq_true ?_
    rw [of_decide_eq_true (mem_filter.1 ha).2, of_decide_eq_true (mem_filter.1 hb).2]
  have hu := (sublist_mergeSort key_trans key_total hp filter_sublist).filter
    fun a => decide (key a = k)
  have hl := ((sortByKey_perm key l).filter fun a => decide (key a = k)).length_eq
  rw [filter_filter] at hu
  simp only [Bool.and_self] at hu
  exact (hu.eq_of_length hl.symm).symm

lemma pair_sublist_filter (ha : key a = key b) :
    [a, b].Sublist (l.filter fun c => key c = key b) ↔ [a, b].Sublist l := by
  constructor
  · exact fun h => h.trans filter_sublist
  · intro h
    have hf := h.filter fun c => decide (key c = key b)
    simpa [ha] using hf

lemma pair_sublist_sortByKey (h : key a = key b) :
    [a, b].Sublist (sortByKey key l) ↔ [a, b].Sublist l := by
  rw [← pair_sublist_filter h, filter_sortByKey, pair_sublist_filter h]

end QJazz.Sorting
