import QJazz.Pool.Queue.Counter
import QJazz.Transition.History

/-! # Where the items of the queue are -/
namespace QJazz.Pool.Queue
open Transition List

variable {α : Type*}

namespace Thread

/-- The items a sender has not put on the queue yet. -/
@[simp] def sends : Thread α → List α
  | .push item => [item]
  | .pushAll items => items
  | _ => []

/-- The item a receiver has taken off the queue. -/
@[simp] def holds : Thread α → List α
  | .uncount item | .done (.ok item) => [item]
  | _ => []

/-- What the next action takes off the queue for a receiver. -/
@[simp] def takes (queue : List α) : Thread α → List α
  | .pop _ => queue.take 1
  | _ => []

/-- What the next action gives back to the caller that drains the queue. -/
@[simp] def discards (queue : List α) : Thread α → List α
  | .drain n => queue.take n
  | .retain keep => queue.filter fun x => !keep x
  | _ => []

def hand (a : Thread α) : List α := a.sends ++ a.holds

end Thread

namespace State
open Thread

variable {s t : State α} {i : ℕ} {target : Option ℕ} {a b : Thread α} {e : Event α}
  {es : List (Event α)}

/-- The event as an action of one thread on the queue. -/
def acts (f : List α → Thread α → List α) (s : State α) : Event α → List α
  | .step i _ => s.threads[i]?.elim [] (f s.queue)
  | _ => []

def brings (_ : State α) : Event α → List α
  | .call c => c.entry.hand
  | _ => []

def custody (s : State α) : List α := s.queue ++ s.threads.flatMap hand

/-- The action moves the items between the queue and the hands of its thread. -/
structure Carries (s t : State α) (a b : Thread α) : Prop where
  shifts : Shifts s t a b
  sends : b.sends = []
  holds : b.holds = a.holds ++ a.takes s.queue
  items : (a.takes s.queue ++ a.discards s.queue ++ t.queue) ~ (s.queue ++ a.sends)
  order : (a.takes s.queue ++ t.queue) <+ (s.queue ++ a.sends)

lemma Carries.neutral (h : Shifts s t a b) (hb : b.hand = []) (ha : a.hand = [])
    (ht : a.takes s.queue = []) (hd : a.discards s.queue = []) (hq : t.queue = s.queue) :
    Carries s t a b := by
  obtain ⟨hs, hb⟩ := append_eq_nil_iff.1 hb
  obtain ⟨ha, hh⟩ := append_eq_nil_iff.1 ha
  exact ⟨h, hs, by rw [hb, hh, ht, append_nil], by rw [ht, hd, hq, ha, append_nil, append_nil, nil_append],
    by rw [ht, hq, ha, append_nil, nil_append]⟩

lemma advance_carries (hi : s.threads[i]? = some a) (he : s.advance i target a = some t) :
    ∃ b, Carries s t a b := by
  cases a with
  | arrive | check wk =>
    cases he
    refine ⟨_, .neutral (.of_goto hi rfl) ?_ rfl rfl rfl rfl⟩
    split_ifs <;> rfl
  | pop wk =>
    have ht := underLock_eq_some he
    split at ht
    next m q hq =>
      subst t
      exact ⟨.uncount m, .of_goto hi rfl, rfl, by simp [hq], by simp [goto, hq],
        by simp [goto, hq]⟩
    next hq =>
      subst t
      exact ⟨.enlist wk, .neutral (.of_goto hi rfl) rfl rfl (by simp [hq]) rfl rfl⟩
  | uncount m =>
    cases he
    exact ⟨_, .of_goto hi rfl, rfl, rfl, by simp [goto], by simp [goto]⟩
  | poll e =>
    cases he
    split_ifs
    · exact ⟨.resumed, .neutral (.of_goto hi rfl) rfl rfl rfl rfl rfl⟩
    · exact ⟨.resumed, .neutral (.of_goto hi rfl) rfl rfl rfl rfl rfl⟩
    · exact ⟨.waiting, .neutral (.of_goto hi rfl) rfl rfl rfl rfl rfl⟩
  | push m =>
    cases underLock_eq_some he
    exact ⟨.recount, .of_goto hi rfl, rfl, rfl, .refl _, .refl _⟩
  | pushAll items =>
    cases underLock_eq_some he
    exact ⟨.storeCount items.length, .of_goto hi rfl, rfl, rfl, .refl _, .refl _⟩
  | drain n =>
    cases underLock_eq_some he
    exact ⟨.storeCount 0, .of_goto hi rfl, rfl, rfl, by simp [goto], by simp [goto, drop_sublist]⟩
  | retain k =>
    cases underLock_eq_some he
    refine ⟨.storeCount 0, .of_goto hi rfl, rfl, rfl, ?_, by simp [goto]⟩
    have hp := perm_append_comm.trans (filter_append_perm k s.queue)
    simpa [goto] using hp
  | notifyOne => exact ⟨.finished, .neutral (.of_notify hi he) rfl rfl rfl rfl (notify_same he).1⟩
  | notifyAll sent =>
    cases sent with
    | zero =>
      cases he
      exact ⟨_, .neutral (.of_goto hi rfl) rfl rfl rfl rfl rfl⟩
    | succ sent =>
      exact ⟨.notifyAll sent, .neutral (.of_notify hi he) rfl rfl rfl rfl (notify_same he).1⟩
  | notifyWaiters =>
    cases he
    refine ⟨.finished, .neutral (fun f hf => ?_) rfl rfl rfl rfl rfl⟩
    have hw : (s.threads.map wake)[i]? = some .notifyWaiters := by simp [hi, wake]
    have ho := total_set (f := f) (b := .finished) hw
    rwa [wake_total hf] at ho
  | recount | storeCount sent | enlist wk | create | notified all | resumed | closing =>
    cases he
    exact ⟨_, .neutral (.of_goto hi rfl) rfl rfl rfl rfl rfl⟩
  | waiting | done result | dropped | finished => cases he

lemma cancel_carries (hi : s.threads[i]? = some a) (ht : s.cancel i target a = some t) :
    Carries s t a .dropped ∧ t.queue = s.queue ∧ a.discards s.queue = [] := by
  have hh := (cancel_counting hi ht).2.1
  cases a with
  | waiting =>
    cases ht
    exact ⟨.neutral hh rfl rfl rfl rfl rfl, rfl, rfl⟩
  | notified all =>
    cases all with
    | true =>
      cases ht
      exact ⟨.neutral hh rfl rfl rfl rfl rfl, rfl, rfl⟩
    | false =>
      obtain ⟨hq, -⟩ := notify_same ht
      exact ⟨.neutral hh rfl rfl rfl rfl hq, hq, rfl⟩
  | _ => cases ht

lemma step_order (ht : s.step e = some t) :
    (s.acts takes e ++ t.queue) <+ (s.queue ++ s.acts (fun _ => Thread.sends) e) := by
  cases e with
  | call c | setMaxRequests n =>
    cases ht
    simp [acts]
  | step i target =>
    obtain ⟨a, hi, ha⟩ := Option.bind_eq_some_iff.1 ht
    obtain ⟨b, hb⟩ := advance_carries hi ha
    simpa [acts, hi] using hb.order
  | cancel i target =>
    obtain ⟨a, hi, ha⟩ := Option.bind_eq_some_iff.1 ht
    simp [acts, (cancel_carries hi ha).2.1]

lemma hand_ignoresWake [DecidableEq α] (x : α) : IgnoresWake fun a : Thread α => a.hand.count x :=
  fun _ => rfl

lemma count_custody [DecidableEq α] (x : α) (s : State α) :
    s.custody.count x = s.queue.count x + total (fun a => a.hand.count x) s.threads := by
  have h (l : List (Thread α)) : (l.flatMap hand).count x = total (fun a => a.hand.count x) l := by
    induction l with
    | nil => rfl
    | cons a l ih => simp [ih]
  rw [custody, count_append, h]

lemma Carries.custody [DecidableEq α] (h : Carries s t a b) (x : α) :
    (a.discards s.queue).count x + t.custody.count x = s.custody.count x := by
  have hs := h.shifts _ (hand_ignoresWake x)
  have hi := h.items.count_eq x
  simp only [hand, h.sends, h.holds, count_append, count_nil] at hs hi
  rw [count_custody, count_custody]
  unfold hand
  simp only [count_append]
  omega

lemma step_custody (ht : s.step e = some t) :
    (s.acts discards e ++ t.custody) ~ (s.custody ++ s.brings e) := by
  classical
  rw [perm_iff_count]
  intro x
  cases e with
  | call c =>
    cases ht
    simp [acts, brings, custody]
  | setMaxRequests n =>
    cases ht
    simp [acts, brings, custody]
  | step i target =>
    obtain ⟨a, hi, ha⟩ := Option.bind_eq_some_iff.1 ht
    obtain ⟨b, hb⟩ := advance_carries hi ha
    simpa [acts, brings, hi] using hb.custody x
  | cancel i target =>
    obtain ⟨a, hi, ha⟩ := Option.bind_eq_some_iff.1 ht
    obtain ⟨hb, -, hd⟩ := cancel_carries hi ha
    have hc := hb.custody x
    rw [hd] at hc
    simpa [acts, brings] using hc

/-- In every interleaving of senders, receivers, drains, cancellations and closings each item is
at one place: on the queue, in the hands of one caller, or given back by a drain. -/
theorem custody_of_run (hrun : run step s es = some t) :
    (history step (acts discards) s es ++ t.custody) ~ (s.custody ++ history step brings s es) :=
  history_balance (.refl ·) .trans (fun _ h => h.append_left _) (fun _ h => h.append_right _)
    (fun _ _ _ => step_custody) hrun

theorem custody_of_run_cancel : ∃ (es : List (Event ℕ)) (t : State ℕ),
    run step (start 2) es = some t ∧ history step (acts discards) (start 2) es = [1, 2] ∧
      t.custody = [3] ∧ (history step (acts discards) (start 2) es ++ t.custody) ~
        ((start 2 : State ℕ).custody ++ history step brings (start 2) es) :=
  ⟨[.call .recv] ++ alone 0 6 ++ [.call (.sendAll [1, 2, 3]), .step 1 none, .step 1 none,
    .step 1 (some 0), .cancel 0 none, .call (.drain 2)] ++ alone 1 3 ++ [.step 2 none],
    _, rfl, rfl, rfl, custody_of_run rfl⟩

/-- Receivers take the items in the order the senders put them on the queue. -/
theorem fifo_of_run (hrun : run step s es = some t) :
    (history step (acts takes) s es ++ t.queue) <+
      (s.queue ++ history step (acts fun _ => Thread.sends) s es) :=
  history_balance .refl .trans (fun _ h => h.append_left _) (fun _ h => h.append_right _)
    (fun _ _ _ => step_order) hrun

theorem fifo_of_run_recv : ∃ (es : List (Event ℕ)) (t : State ℕ),
    run step (start 2) es = some t ∧ history step (acts takes) (start 2) es = [2] ∧
      t.queue = [1] ∧ (history step (acts takes) (start 2) es ++ t.queue) <+
        ((start 2).queue ++ history step (acts fun _ => Thread.sends) (start 2) es) :=
  ⟨[.call (.send 1), .call (.send 2), .call .recv, .step 1 none] ++ alone 0 3 ++ alone 2 4,
    _, rfl, rfl, rfl, fifo_of_run rfl⟩

end State

end QJazz.Pool.Queue
