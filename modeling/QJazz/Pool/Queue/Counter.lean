import QJazz.Pool.Accounting
import QJazz.Pool.Queue.Waiters

/-! A send counts its item after it has released the lock, so an item in the queue may be counted by
somebody else, or be taken off before it was counted. -/
namespace QJazz.Pool.Queue
open Transition

variable {α : Type*}

/-- What a caller that has changed the queue has still to do to the counter. -/
inductive Debt where
  | add
  | subtract
  | store
deriving DecidableEq

namespace Thread

def debt : Thread α → Option Debt
  | .recount => some .add
  | .uncount _ => some .subtract
  | .storeCount _ => some .store
  | _ => none

def owes (d : Debt) (a : Thread α) : ℕ := if a.debt = some d then 1 else 0

def locking (a : Thread α) : ℕ := a.holdsLock.toNat

def ended : Thread α → Bool
  | .done _ | .dropped | .finished => true
  | _ => false

lemma locking_ignoresWake : IgnoresWake (locking : Thread α → ℕ) := fun _ => rfl

lemma debt_of_ended {a : Thread α} (h : a.ended) : a.debt = none := by
  cases a <;> simp_all [ended, debt]

lemma owes_le_locking (a : Thread α) : a.owes .subtract + a.owes .store ≤ a.locking := by
  cases a <;> simp [owes, debt, locking, holdsLock]

end Thread

namespace State
open Thread

variable {s t : State α} {i : ℕ} {target : Option ℕ} {a b : Thread α} {e : Event α}

def owing (s : State α) (d : Debt) : ℕ := total (owes d) s.threads

def AtRest (s : State α) : Prop := ∀ a ∈ s.threads, a.ended = true

instance (s : State α) : Decidable s.AtRest := inferInstanceAs (Decidable (∀ a ∈ s.threads, _))

/-- The busy, idle and dead workers as `stats_raw` computes them from the counter, if no difference
falls below zero. -/
def statsRaw (s : State α) (numProcesses dead : ℕ) : Option (ℕ × ℕ × ℕ) :=
  if 0 ≤ s.count ∧ s.count + dead ≤ numProcesses then
    some (numProcesses - s.count.toNat - dead, s.count.toNat, dead)
  else none

/-- The counter is not below zero, and at rest it is the length of the queue, which is then what the
statistics are made from. -/
structure Counted (s : State α) : Prop where
  nonneg : 0 ≤ s.count
  length : s.AtRest → s.count = s.queue.length
  stats : s.AtRest → ∀ dead busy, s.statsRaw (dead + s.queue.length + busy) dead =
    some (busy, s.queue.length, dead)

def Agrees (s : State α) : Prop :=
  s.owing .store = 0 → s.count + s.owing .add = s.queue.length + s.owing .subtract

/-- The counting comes in time: nobody stores the length while an item in the queue is not yet counted,
and nobody takes more items off the counter than are counted. -/
def InTime (s : State α) : Event α → Prop
  | .step i _ => ∀ a ∈ s.threads[i]?,
    (a.debt = some .store → s.owing .add = 0) ∧
      (a.debt = some .subtract → s.owing .add ≤ s.queue.length)
  | _ => True

instance (s : State α) : (e : Event α) → Decidable (s.InTime e)
  | .step i _ => inferInstanceAs (Decidable (∀ a ∈ s.threads[i]?, _ ∧ _))
  | .call _ | .cancel _ _ | .setMaxRequests _ => isTrue trivial

def Exclusive (s : State α) : Prop := total locking s.threads ≤ 1

lemma locking_eq_zero (h : s.locked = false) : total locking s.threads = 0 := by
  rw [total_eq_zero]
  intro a ha
  have hfree := List.any_eq_false.1 h a ha
  simp [locking, hfree]

lemma owing_le_locking (s : State α) :
    s.owing .subtract + s.owing .store ≤ total locking s.threads := by
  unfold owing
  rw [← total_add]
  exact total_mono owes_le_locking

inductive Counting (s t : State α) (a b : Thread α) : Prop
  | neutral (ha : a.debt = none) (hb : b.debt = none) (hlock : b.locking ≤ a.locking)
      (hqueue : t.queue = s.queue) (hcount : t.count = s.count)
  | push (ha : a.debt = none) (hb : b.debt = some .add) (hlock : b.locking = 0)
      (hfree : s.locked = false) (hqueue : t.queue.length = s.queue.length + 1)
      (hcount : t.count = s.count)
  | pop (ha : a.debt = none) (hb : b.debt = some .subtract) (hfree : s.locked = false)
      (hqueue : t.queue.length + 1 = s.queue.length) (hcount : t.count = s.count)
  | change (ha : a.debt = none) (hb : b.debt = some .store) (hfree : s.locked = false)
      (hcount : t.count = s.count)
  | add (ha : a.debt = some .add) (hb : b.debt = none) (hlock : b.locking = 0)
      (hqueue : t.queue = s.queue) (hcount : t.count = s.count + 1)
  | subtract (ha : a.debt = some .subtract) (hb : b.debt = none) (hlock : b.locking = 0)
      (hqueue : t.queue = s.queue) (hcount : t.count = s.count - 1)
  | store (ha : a.debt = some .store) (hb : b.debt = none)
      (hqueue : t.queue = s.queue) (hcount : t.count = s.queue.length)

def Shifts (s t : State α) (a b : Thread α) : Prop :=
  ∀ f : Thread α → ℕ, IgnoresWake f → total f t.threads + f a = total f s.threads + f b

lemma notify_same (h : s.notify target = some t) : t.queue = s.queue ∧ t.count = s.count := by
  rcases notify_cases h with ⟨j, -, rfl⟩ | ⟨-, rfl⟩
  · exact ⟨rfl, rfl⟩
  · exact ⟨rfl, rfl⟩

lemma free_of_underLock {u : State α} (h : s.underLock t = some u) : s.locked = false ∧ u = t := by
  unfold underLock at h
  split at h
  · cases h
  next hfree =>
    cases h
    exact ⟨by simpa using hfree, rfl⟩

lemma Shifts.of_goto (hi : s.threads[i]? = some a) (ht : t.threads = s.threads.set i b) :
    Shifts s t a b := by
  intro f _
  rw [ht]
  exact total_set hi

lemma Shifts.of_notify (hi : s.threads[i]? = some a) (hn : (s.goto i b).notify target = some t) :
    Shifts s t a b := by
  intro f hf
  rw [(notify_total hf hn).1]
  exact total_set hi

lemma advance_counting (hi : s.threads[i]? = some a) (he : s.advance i target a = some t) :
    ∃ b, Shifts s t a b ∧ Counting s t a b := by
  cases a with
  | arrive | check wk =>
    cases he
    refine ⟨_, .of_goto hi rfl, .neutral rfl ?_ ?_ rfl rfl⟩ <;> split_ifs <;> rfl
  | pop wk =>
    obtain ⟨hfree, ht⟩ := free_of_underLock he
    split at ht
    next m q hq =>
      subst t
      exact ⟨.uncount m, .of_goto hi rfl, .pop rfl rfl hfree (by simp [goto, hq]) rfl⟩
    next hq =>
      subst t
      exact ⟨.enlist wk, .of_goto hi rfl, .neutral rfl rfl le_rfl rfl rfl⟩
  | uncount m =>
    cases he
    exact ⟨_, .of_goto hi rfl, .subtract rfl rfl rfl rfl rfl⟩
  | poll e =>
    cases he
    split_ifs
    · exact ⟨.resumed, .of_goto hi rfl, .neutral rfl rfl le_rfl rfl rfl⟩
    · exact ⟨.resumed, .of_goto hi rfl, .neutral rfl rfl le_rfl rfl rfl⟩
    · exact ⟨.waiting, .of_goto hi rfl, .neutral rfl rfl le_rfl rfl rfl⟩
  | push m =>
    obtain ⟨hfree, rfl⟩ := free_of_underLock he
    exact ⟨.recount, .of_goto hi rfl, .push rfl rfl rfl hfree (by simp [goto]) rfl⟩
  | recount =>
    cases he
    exact ⟨_, .of_goto hi rfl, .add rfl rfl rfl rfl rfl⟩
  | notifyOne =>
    obtain ⟨hqueue, hcount⟩ := notify_same he
    exact ⟨.finished, .of_notify hi he, .neutral rfl rfl le_rfl hqueue hcount⟩
  | pushAll items | drain n | retain k =>
    obtain ⟨hfree, rfl⟩ := free_of_underLock he
    exact ⟨_, .of_goto hi rfl, .change rfl rfl hfree rfl⟩
  | storeCount sent =>
    cases he
    exact ⟨_, .of_goto hi rfl, .store rfl rfl rfl rfl⟩
  | notifyAll sent =>
    cases sent with
    | zero =>
      cases he
      exact ⟨_, .of_goto hi rfl, .neutral rfl rfl (Nat.zero_le _) rfl rfl⟩
    | succ sent =>
      obtain ⟨hqueue, hcount⟩ := notify_same he
      exact ⟨.notifyAll sent, .of_notify hi he, .neutral rfl rfl le_rfl hqueue hcount⟩
  | notifyWaiters =>
    cases he
    refine ⟨.finished, fun f hf => ?_, .neutral rfl rfl le_rfl rfl rfl⟩
    have hw : (s.threads.map wake)[i]? = some .notifyWaiters := by simp [hi, wake]
    have ho := total_set (f := f) (b := .finished) hw
    rwa [wake_total hf] at ho
  | enlist wk | create | notified all | resumed | closing =>
    cases he
    exact ⟨_, .of_goto hi rfl, .neutral rfl rfl le_rfl rfl rfl⟩
  | waiting | done result | dropped | finished => cases he

lemma cancel_counting (hi : s.threads[i]? = some a) (ht : s.cancel i target a = some t) :
    a.debt = none ∧ Shifts s t a .dropped ∧ Counting s t a .dropped := by
  have hh := (cancel_moved hi ht).2.2.2
  cases a with
  | waiting =>
    cases ht
    exact ⟨rfl, hh, .neutral rfl rfl le_rfl rfl rfl⟩
  | notified all =>
    cases all with
    | true =>
      cases ht
      exact ⟨rfl, hh, .neutral rfl rfl le_rfl rfl rfl⟩
    | false =>
      obtain ⟨hqueue, hcount⟩ := notify_same ht
      exact ⟨rfl, hh, .neutral rfl rfl le_rfl hqueue hcount⟩
  | _ => cases ht

lemma locking_le_one (a : Thread α) : a.locking ≤ 1 := Bool.toNat_le _

lemma Exclusive.counting (h : s.Exclusive) (hh : Shifts s t a b) (ho : Counting s t a b) :
    t.Exclusive := by
  have hl := hh _ locking_ignoresWake
  have ha := owes_le_locking a
  have hb := locking_le_one b
  unfold Exclusive at *
  cases ho with
  | neutral _ _ hlock | push _ _ hlock | add _ _ hlock | subtract _ _ hlock => omega
  | pop _ _ hfree | change _ _ hfree =>
    have hz := locking_eq_zero hfree
    omega
  | store ht =>
    simp only [owes, ht, reduceCtorEq, if_false, if_true, Option.some.injEq] at ha
    omega

lemma Shifts.owing (h : Shifts s t a b) (d : Debt) :
    t.owing d + (if a.debt = some d then 1 else 0) = s.owing d + if b.debt = some d then 1 else 0 :=
  h _ (fun _ => rfl)

lemma agrees_counting (he : s.Exclusive) (h : s.Agrees) (hh : Shifts s t a b)
    (ho : Counting s t a b) : t.Agrees ↔ (a.debt = some .store → s.owing .add = 0) := by
  have hd := hh.owing .add
  have hu := hh.owing .subtract
  have ht := hh.owing .store
  have hl := s.owing_le_locking
  unfold Agrees Exclusive at *
  cases ho with
  | neutral ha hb _ hqueue hcount =>
    simp only [ha, hb, reduceCtorEq, if_false] at hd hu ht
    simp only [ha, hqueue, hcount, reduceCtorEq, false_imp_iff, iff_true]
    omega
  | push ha hb _ hfree hqueue hcount =>
    simp only [ha, hb, reduceCtorEq, if_false, if_true, Option.some.injEq] at hd hu ht
    simp only [ha, hqueue, hcount, reduceCtorEq, false_imp_iff, iff_true]
    omega
  | pop ha hb hfree hqueue hcount | change ha hb hfree hcount =>
    simp only [ha, hb, reduceCtorEq, if_false, if_true, Option.some.injEq] at hd hu ht
    simp only [ha, hcount, reduceCtorEq, false_imp_iff, iff_true]
    omega
  | add ha hb _ hqueue hcount | subtract ha hb _ hqueue hcount =>
    simp only [ha, hb, reduceCtorEq, if_false, if_true, Option.some.injEq] at hd hu ht
    simp only [ha, hqueue, hcount, reduceCtorEq, Option.some.injEq, false_imp_iff, iff_true]
    omega
  | store ha hb hqueue hcount =>
    -- the caller that stores has the lock, so nobody else takes an item off
    simp only [ha, hb, reduceCtorEq, if_false, if_true, Option.some.injEq] at hd hu ht
    simp only [ha, hqueue, hcount, forall_const]
    omega

lemma nonneg_counting (he : s.Exclusive) (h : s.Agrees) (hn : 0 ≤ s.count)
    (hh : Shifts s t a b) (ho : Counting s t a b) :
    0 ≤ t.count ↔ (a.debt = some .subtract → s.owing .add ≤ s.queue.length) := by
  have hu := hh.owing .subtract
  have hl := s.owing_le_locking
  unfold Agrees Exclusive at *
  cases ho with
  | neutral ha _ _ _ hcount | push ha _ _ _ _ hcount | pop ha _ _ _ hcount | change ha _ _ hcount =>
    simpa [ha, hcount] using hn
  | add ha _ _ _ hcount =>
    simp only [ha, hcount, reduceCtorEq, Option.some.injEq, false_imp_iff, iff_true]
    omega
  | subtract ha hb _ _ hcount =>
    simp only [ha, hb, reduceCtorEq, if_false, if_true] at hu
    simp only [ha, hcount, forall_const]
    omega
  | store ha _ _ hcount =>
    simp only [ha, hcount, reduceCtorEq, Option.some.injEq, false_imp_iff, iff_true]
    omega

lemma owing_of_atRest (h : s.AtRest) (d : Debt) : s.owing d = 0 :=
  total_eq_zero.2 fun a ha => (by simp [owes, (debt_of_ended (h a ha))])

lemma Agrees.counted (h : s.Agrees) (hn : 0 ≤ s.count) : s.Counted := by
  have hl (hr : s.AtRest) : s.count = s.queue.length := by
    have hcount := h (owing_of_atRest hr .store)
    rw [owing_of_atRest hr, owing_of_atRest hr] at hcount
    omega
  refine ⟨hn, hl, fun hr d u => ?_⟩
  rw [statsRaw, hl hr, if_pos ⟨by omega, by omega⟩]
  simp only [Int.toNat_natCast, Option.some.injEq, Prod.mk.injEq, and_true]
  omega

lemma owing_call (c : Call α) (d : Debt) :
    ({ s with threads := s.threads ++ [c.entry] } : State α).owing d = s.owing d := by
  have hentry : c.entry.owes d = 0 := by cases c <;> rfl
  simp [owing, hentry]

lemma exclusive_step (h : s.Exclusive) (ht : s.step e = some t) : t.Exclusive := by
  cases e with
  | call c =>
    cases ht
    have hentry : c.entry.locking = 0 := by cases c <;> rfl
    simpa [Exclusive, hentry] using h
  | step i target =>
    obtain ⟨a, hi, hd⟩ := Option.bind_eq_some_iff.1 ht
    obtain ⟨b, hh, ho⟩ := advance_counting hi hd
    exact h.counting hh ho
  | cancel i target =>
    obtain ⟨a, hi, hn⟩ := Option.bind_eq_some_iff.1 ht
    obtain ⟨-, hh, ho⟩ := cancel_counting hi hn
    exact h.counting hh ho
  | setMaxRequests n =>
    cases ht
    exact h

lemma counted_step (he : s.Exclusive) (h : s.Counted ∧ s.Agrees) (ht : s.step e = some t) :
    t.Counted ∧ t.Agrees ↔ s.InTime e := by
  obtain ⟨ho, hg⟩ := h
  have hu {a b : Thread α} (hh : Shifts s t a b) (h : Counting s t a b) :
      t.Counted ∧ t.Agrees ↔ (a.debt = some .store → s.owing .add = 0) ∧
        (a.debt = some .subtract → s.owing .add ≤ s.queue.length) := by
    rw [← agrees_counting he hg hh h, ← nonneg_counting he hg ho.nonneg hh h]
    exact ⟨fun h => ⟨h.2, h.1.nonneg⟩, fun h => ⟨h.1.counted h.2, h.1⟩⟩
  cases e with
  | call c =>
    cases ht
    have hr : ({ s with threads := s.threads ++ [c.entry] } : State α).Agrees := by
      unfold Agrees
      simp only [owing_call]
      exact hg
    exact iff_of_true ⟨hr.counted ho.nonneg, hr⟩ trivial
  | step i target =>
    obtain ⟨a, hi, hd⟩ := Option.bind_eq_some_iff.1 ht
    obtain ⟨b, hh, h⟩ := advance_counting hi hd
    rw [hu hh h, InTime, hi]
    simp
  | cancel i target =>
    obtain ⟨a, hi, hn⟩ := Option.bind_eq_some_iff.1 ht
    obtain ⟨ha, hh, h⟩ := cancel_counting hi hn
    rw [hu hh h, ha]
    simp [InTime]
  | setMaxRequests n =>
    cases ht
    exact iff_of_true ⟨⟨ho.nonneg, ho.length, ho.stats⟩, hg⟩ trivial

/-- The counter is right all along a run, up to the calls under way, exactly if they count in time. -/
theorem always_counted_iff (maxRequests : ℕ) (es : List (Event α)) :
    Always step (fun s => s.Counted ∧ s.Agrees) (start maxRequests) es ↔
      Along step InTime (start maxRequests : State α) es := by
  have ht : (start maxRequests : State α).Agrees := fun _ => rfl
  exact always_iff_along (fun _ _ _ => exclusive_step) (fun _ _ _ => counted_step) (Nat.zero_le 1)
    ⟨ht.counted le_rfl, ht⟩

/-- One item is sent. Before it is counted, the length is stored by `retain`, so it is counted twice; or
it is received, so the counter falls below zero. -/
theorem not_always_counted_send :
    (∃ t : State ℕ, run step (start 50) (([.call (.send 7), .step 0 none,
        .call (.retain fun _ => true)] : List (Event ℕ)) ++ alone 1 3 ++ alone 0 2) = some t ∧
        t.AtRest ∧ t.queue = [7] ∧ t.count = 2 ∧ t.statsRaw 1 0 = none) ∧
      ∃ t : State ℕ, run step (start 50) (([.call (.send 7), .step 0 none, .call .recv] :
        List (Event ℕ)) ++ alone 1 4) = some t ∧ t.queue = [] ∧ t.count = -1 := by
  exact ⟨⟨_, rfl, by decide, rfl, rfl, rfl⟩, ⟨_, rfl, rfl, rfl⟩⟩

end State

end QJazz.Pool.Queue
