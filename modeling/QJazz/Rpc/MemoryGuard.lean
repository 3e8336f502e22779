import Mathlib.Algebra.Order.BigOperators.Group.List
import Mathlib.Data.Rat.Floor
import QJazz.Sorting.ByKey

/-! `kill_out_of_memory_processes`: when the workers take more than a given fraction of the memory,
they are killed until they take less, those with the most thousandths of the memory first, and of
equal ones the last in the list. -/
namespace QJazz.Rpc.MemoryGuard
open Sorting List

/-- What the system tells of a process. The resident memory is a number of pages. -/
structure Stat where
  ppid : ℤ
  state : Char
  rss : ℕ
deriving DecidableEq

structure Worker where
  pid : ℤ
  mem : ℚ
deriving DecidableEq

def memUsage (this : ℤ) (totalMem : ℚ) (pagesize : ℕ) (stat : ℤ → Option Stat) (processes : List ℤ) :
    List Worker :=
  processes.filterMap fun pid =>
    (stat pid).bind fun st =>
      if st.ppid ≠ this ∨ st.state = 'Z' ∨ st.state = 'X' then none
      else some { pid, mem := (st.rss * pagesize : ℕ) / totalMem }

def thousandths (mem : ℚ) : ℤ :=
  max (-2 ^ 63) (min (2 ^ 63 - 1) (if 0 ≤ mem then ⌊mem * 1000⌋ else ⌈mem * 1000⌉))

def Worker.rank (w : Worker) : ℤ := thousandths w.mem

def memoryFraction (ws : List Worker) : ℚ := (ws.map Worker.mem).sum

def order (ws : List Worker) : List Worker :=
  (sortByKey Worker.rank ws).reverse

/-- The workers that are killed, where `kill` tells for which processes the signal can be sent. -/
def killLoop (kill : ℤ → Bool) (hwm : ℚ) : ℚ → List Worker → List Worker
  | _, [] => []
  | fraction, w :: ws =>
    if kill w.pid then
      w :: if fraction - w.mem < hwm then [] else killLoop kill hwm (fraction - w.mem) ws
    else killLoop kill hwm fraction ws

def killed (kill : ℤ → Bool) (hwm : ℚ) (ws : List Worker) : List Worker :=
  if hwm < memoryFraction ws then killLoop kill hwm (memoryFraction ws) (order ws) else []

def killOutOfMemoryProcesses (kill : ℤ → Bool) (this : ℤ) (stat : ℤ → Option Stat)
    (processes : List ℤ) (totalMem : ℚ) (pagesize : ℕ) (hwm : ℚ) : List ℤ :=
  (killed kill hwm (memUsage this totalMem pagesize stat processes)).map Worker.pid

/-- The victims are the largest workers, in this order, and as few as bring the others down to the
mark. -/
structure Guards (hwm : ℚ) (ws victims : List Worker) : Prop where
  idle : memoryFraction ws ≤ hwm → victims = []
  largest : ∃ spared, (victims ++ spared).Perm ws ∧
    (victims.Pairwise fun a b => b.mem ≤ a.mem) ∧ (∀ a ∈ victims, ∀ b ∈ spared, b.mem ≤ a.mem) ∧
      (memoryFraction ws - memoryFraction victims ≤ hwm ∨ spared = [])
  needed : ∀ front, front <+: victims → front ≠ victims →
    hwm < memoryFraction ws - memoryFraction front

/-- A victim takes no less memory than the workers with the same thousandths before it in the list. -/
def TiesInOrder (ws victims : List Worker) : Prop :=
  ∀ a ∈ victims, ∀ b, [b, a].Sublist ws → b.rank = a.rank → b.mem ≤ a.mem

/-- What is left before the last victim is never the mark itself. -/
def PassesMark (hwm : ℚ) (ws victims : List Worker) : Prop :=
  ∀ front, front <+: victims → front ≠ victims → memoryFraction ws - memoryFraction front ≠ hwm

variable {ws l : List Worker} {a b : Worker} {hwm fraction : ℚ}

lemma thousandths_mono {p q : ℚ} (h : p ≤ q) : thousandths p ≤ thousandths q := by
  have hm : p * 1000 ≤ q * 1000 := mul_le_mul_of_nonneg_right h (by norm_num)
  have hi : (if 0 ≤ p then ⌊p * 1000⌋ else ⌈p * 1000⌉) ≤
      if 0 ≤ q then ⌊q * 1000⌋ else ⌈q * 1000⌉ := by
    by_cases hp : 0 ≤ p
    · rw [if_pos hp, if_pos (hp.trans h)]
      exact Int.floor_le_floor hm
    · rw [if_neg hp]
      by_cases hq : 0 ≤ q
      · rw [if_pos hq]
        have hn : ⌈p * 1000⌉ ≤ 0 := Int.ceil_le.2 (by push_cast; linarith)
        have ho : 0 ≤ ⌊q * 1000⌋ := Int.floor_nonneg.2 (by linarith)
        exact hn.trans ho
      · rw [if_neg hq]
        exact Int.ceil_le_ceil hm
  exact max_le_max le_rfl (min_le_min le_rfl hi)

lemma order_perm (ws : List Worker) : (order ws).Perm ws :=
  (reverse_perm _).trans (sortByKey_perm _ ws)

lemma rank_le_of_sublist (h : [a, b].Sublist (order ws)) : b.rank ≤ a.rank := by
  have hp : [b, a].Sublist (sortByKey Worker.rank ws) := reverse_sublist.1 h
  exact key_le_of_sublist hp

lemma sublist_order_iff (h : b.rank = a.rank) :
    [a, b].Sublist (order ws) ↔ [b, a].Sublist ws := by
  have hr : [a, b].Sublist (order ws) ↔
      [b, a].Sublist (sortByKey Worker.rank ws) := by
    rw [order, ← reverse_sublist, reverse_reverse]
    rfl
  rw [hr, pair_sublist_sortByKey h]

lemma mem_le_of_sublist (h : [a, b].Sublist (order ws))
    (ht : [b, a].Sublist ws → b.rank = a.rank → b.mem ≤ a.mem) : b.mem ≤ a.mem := by
  rcases (rank_le_of_sublist h).lt_or_eq with hlt | heq
  · exact (not_le.1 fun hle => absurd (thousandths_mono hle) (not_le.2 hlt)).le
  · exact ht ((sublist_order_iff heq).1 h) heq

def sent : ℤ → Bool := fun _ => true

lemma memoryFraction_cons (w : Worker) (ws : List Worker) :
    memoryFraction (w :: ws) = w.mem + memoryFraction ws := sum_cons

/-- The victims come first in the order. Until the last one the mark is not passed, and it is passed
then unless there is no other worker. -/
lemma killLoop_spec (hwm fraction : ℚ) (l : List Worker) :
    ∃ s, l = killLoop sent hwm fraction l ++ s ∧
      (∀ f, f <+: killLoop sent hwm fraction l → f ≠ killLoop sent hwm fraction l →
        f = [] ∨ hwm ≤ fraction - memoryFraction f) ∧
      (fraction - memoryFraction (killLoop sent hwm fraction l) < hwm ∨ s = []) := by
  induction l generalizing fraction with
  | nil => exact ⟨[], rfl, fun f h _ => .inl (prefix_nil.1 h), .inr rfl⟩
  | cons w l ih =>
    have he : sent w.pid := rfl
    rw [killLoop, if_pos he]
    split
    next hlt =>
      refine ⟨l, rfl, fun f h hne => .inl ?_, .inl ?_⟩
      · rcases prefix_cons_iff.1 h with rfl | ⟨t, rfl, ht⟩
        · rfl
        · rw [prefix_nil.1 ht] at hne
          exact absurd rfl hne
      · rwa [memoryFraction, map_singleton, sum_singleton]
    next hle =>
      obtain ⟨s, hl, hf, hn⟩ := ih (fraction - w.mem)
      refine ⟨s, congrArg (w :: ·) hl, fun f h hne => ?_, ?_⟩
      · rcases prefix_cons_iff.1 h with rfl | ⟨t, rfl, ht⟩
        · exact .inl rfl
        · right
          rw [memoryFraction_cons, ← sub_sub]
          rcases hf t ht fun heq => hne (congrArg (w :: ·) heq) with rfl | hle'
          · simpa [memoryFraction] using hle
          · exact hle'
      · rwa [memoryFraction_cons, ← sub_sub]

lemma killed_of_lt (h : hwm < memoryFraction ws) :
    killed sent hwm ws = killLoop sent hwm (memoryFraction ws) (order ws) := if_pos h

lemma killed_of_le (h : memoryFraction ws ≤ hwm) : killed sent hwm ws = [] := if_neg (not_lt.2 h)

lemma guards_of_le (h : memoryFraction ws ≤ hwm) : Guards hwm ws (killed sent hwm ws) := by
  rw [killed_of_le h]
  refine ⟨fun _ => rfl, ⟨ws, .refl _, .nil, fun a ha => absurd ha not_mem_nil, .inl ?_⟩, ?_⟩
  · simpa [memoryFraction] using h
  · exact fun f hf hne => absurd (prefix_nil.1 hf) hne

lemma guards_of_ties (hlt : hwm < memoryFraction ws) (ht : TiesInOrder ws (killed sent hwm ws))
    (hp : PassesMark hwm ws (killed sent hwm ws)) : Guards hwm ws (killed sent hwm ws) := by
  rw [killed_of_lt hlt] at ht hp ⊢
  obtain ⟨s, ho, hf, he⟩ := killLoop_spec hwm (memoryFraction ws) (order ws)
  generalize killLoop sent hwm (memoryFraction ws) (order ws) = victims at *
  have hle {a b : Worker} (ha : a ∈ victims) (h : [a, b].Sublist (order ws)) : b.mem ≤ a.mem :=
    mem_le_of_sublist h (ht a ha b)
  refine ⟨fun h => absurd hlt (not_lt.2 h), ⟨s, ?_, ?_, ?_, ?_⟩, fun f h hne => ?_⟩
  · rw [← ho]
    exact order_perm ws
  · refine pairwise_iff_forall_sublist.2 fun {a b} h => hle (h.subset mem_cons_self) ?_
    rw [ho]
    exact h.trans (sublist_append_left _ _)
  · intro a ha b hb
    refine hle ha ?_
    rw [ho]
    exact (singleton_sublist.2 ha).append (singleton_sublist.2 hb)
  · exact he.imp_left le_of_lt
  · rcases hf f h hne with rfl | hl
    · simpa [memoryFraction] using hlt
    · exact lt_of_le_of_ne hl (hp f h hne).symm

lemma Guards.ties (h : Guards hwm ws (killed sent hwm ws)) (hlt : hwm < memoryFraction ws) :
    TiesInOrder ws (killed sent hwm ws) := by
  intro a ha b hu hti
  obtain ⟨s, he, hp, hr, -⟩ := h.largest
  obtain ⟨others, ho, -⟩ := killLoop_spec hwm (memoryFraction ws) (order ws)
  rw [← killed_of_lt hlt] at ho
  have ht : s.Perm others := by
    refine (perm_append_left_iff (killed sent hwm ws)).1 (he.trans ?_)
    rw [← ho]
    exact (order_perm ws).symm
  have hi := (sublist_order_iff hti).2 hu
  rw [ho] at hi
  obtain ⟨l₁, l₂, heq, hl₁, hl₂⟩ := sublist_append_iff.1 hi
  by_cases hb : b ∈ others
  · exact hr a ha b (ht.mem_iff.2 hb)
  · -- the second worker cannot be among the others, so both are victims
    have hn : l₂ = [] := by
      rcases eq_nil_or_concat l₂ with hn | ⟨f, c, rfl⟩
      · exact hn
      · rw [concat_eq_append, ← append_assoc] at heq
        have hc : b = c := by simpa using congrArg List.getLast? heq
        exact absurd (hl₂.subset (by simp [hc])) hb
    rw [hn, append_nil] at heq
    rw [← heq] at hl₁
    exact pairwise_iff_forall_sublist.1 hp hl₁

def halves : List Worker := [⟨1, 5009 / 10000⟩, ⟨2, 5001 / 10000⟩]

lemma killed_halves : killed sent (9 / 10) halves = [⟨2, 5001 / 10000⟩] := by
  have hk : thousandths (5009 / 10000) = 500 ∧ thousandths (5001 / 10000) = 500 := by
    decide +kernel
  have ho : order halves = [⟨2, 5001 / 10000⟩, ⟨1, 5009 / 10000⟩] := by
    simp [order, halves, sortByKey, List.mergeSort, Worker.rank, hk]
  have ht : memoryFraction halves = 1001 / 1000 := by norm_num [memoryFraction, halves]
  rw [killed, ho, ht, if_pos (by norm_num)]
  norm_num [killLoop, sent]

def quarter : List Worker := [⟨1, 1 / 2⟩, ⟨2, 1 / 4⟩]

lemma killed_quarter : killed sent (1 / 4) quarter = quarter := by
  have hk : thousandths (1 / 2) = 500 ∧ thousandths (1 / 4) = 250 := by decide +kernel
  have ho : order quarter = quarter := by
    simp [order, quarter, sortByKey, List.mergeSort, Worker.rank, -one_div, hk]
  have ht : memoryFraction quarter = 3 / 4 := by norm_num [memoryFraction, quarter]
  rw [killed, ho, ht, if_pos (by norm_num)]
  norm_num [killLoop, sent, quarter]

end QJazz.Rpc.MemoryGuard
