import QJazz.Pool.Queue.Model

/-! A receiver counts itself as pending around its wait, and callers are refused on that counter,
which does not see receivers that were woken and will wait again. -/
namespace QJazz.Pool.Queue
open Transition Option

variable {α : Type*}

namespace Thread

/-- Is inside the wait of `recv`, between the two updates of the counter. -/
def inWait : Thread α → ℕ
  | .create | .poll _ | .waiting | .notified _ | .resumed => 1
  | _ => 0

/-- Was admitted and is not yet served or turned away. -/
def engaged : Thread α → ℕ
  | .check _ | .pop _ | .enlist _ | .create | .poll _ | .waiting | .notified _ | .resumed => 1
  | _ => 0

def entering : Thread α → Bool
  | .arrive => true
  | _ => false

lemma inWait_le_engaged (a : Thread α) : a.inWait ≤ a.engaged := by
  cases a <;> simp [inWait, engaged]

/-- The weight does not tell a blocked receiver from a woken one. -/
def IgnoresWake (f : Thread α → ℕ) : Prop := ∀ all, f (.notified all) = f .waiting

lemma inWait_ignoresWake : IgnoresWake (inWait : Thread α → ℕ) := fun _ => rfl

lemma engaged_ignoresWake : IgnoresWake (engaged : Thread α → ℕ) := fun _ => rfl

end Thread

namespace State
open Thread

variable {s t : State α} {i : ℕ} {target : Option ℕ} {a b : Thread α} {f : Thread α → ℕ}

def waiters (s : State α) : ℕ := total inWait s.threads

lemma notify_total (hf : IgnoresWake f) (h : s.notify target = some t) :
    total f t.threads = total f s.threads ∧ t.pending = s.pending ∧ t.maxRequests = s.maxRequests := by
  rcases notify_cases h with ⟨j, hj, rfl⟩ | ⟨-, rfl⟩
  · have he := total_set (f := f) (b := .notified false) hj
    rw [hf false] at he
    exact ⟨Nat.add_right_cancel he, rfl, rfl⟩
  · exact ⟨rfl, rfl, rfl⟩

lemma wake_total (hf : IgnoresWake f) (threads : List (Thread α)) :
    total f (threads.map wake) = total f threads := by
  rw [total_map]
  congr 1
  funext a
  cases a <;> simp [wake, hf true]

/-- What the next action of a thread does to the weights, the counter and the limit. -/
structure Moved (s t : State α) (a b : Thread α) : Prop where
  total : ∀ f : Thread α → ℕ, IgnoresWake f →
    total f t.threads + f a = total f s.threads + f b
  pending : 0 < s.pending ∨ a.inWait = 0 → t.pending + a.inWait = s.pending + b.inWait
  maxRequests : t.maxRequests = s.maxRequests
  engaged : b.engaged ≤ a.engaged ∨ (a = .arrive ∧ s.pending ≤ s.maxRequests ∧ b.engaged = 1)

lemma Moved.of_goto (hi : s.threads[i]? = some a) (ht : t.threads = s.threads.set i b)
    (hp : 0 < s.pending ∨ a.inWait = 0 → t.pending + a.inWait = s.pending + b.inWait)
    (hm : t.maxRequests = s.maxRequests) (he : b.engaged ≤ a.engaged) : Moved s t a b :=
  ⟨fun f _ => by rw [ht]; exact total_set hi, hp, hm, .inl he⟩

lemma Moved.of_notify (hi : s.threads[i]? = some a) (hn : (s.goto i b).notify target = some t)
    (hw : a.inWait = b.inWait) (he : b.engaged ≤ a.engaged) : Moved s t a b := by
  refine ⟨fun f hf => ?_, fun _ => ?_, ?_, .inl he⟩
  · rw [(notify_total hf hn).1]
    exact total_set hi
  · rw [(notify_total inWait_ignoresWake hn).2.1, hw]
    rfl
  · exact (notify_total inWait_ignoresWake hn).2.2

lemma advance_moved (hi : s.threads[i]? = some a) (he : s.advance i target a = some t) :
    ∃ b, Moved s t a b := by
  cases a with
  | arrive =>
    cases he
    split_ifs with hv
    · exact ⟨_, .of_goto hi rfl (fun _ => rfl) rfl (by simp [engaged])⟩
    · exact ⟨.check false, fun f _ => total_set hi, fun _ => rfl, rfl, .inr ⟨rfl, by omega, rfl⟩⟩
  | check wk =>
    cases he
    refine ⟨_, .of_goto hi rfl (fun _ => ?_) rfl ?_⟩
    · split_ifs <;> rfl
    · split_ifs <;> simp [engaged]
  | pop wk =>
    have ht := underLock_eq_some he
    split at ht
    next m q hq =>
      subst t
      exact ⟨.uncount m, .of_goto hi rfl (fun _ => rfl) rfl (by simp [engaged])⟩
    next hq =>
      subst t
      exact ⟨.enlist wk, .of_goto hi rfl (fun _ => rfl) rfl (by simp [engaged])⟩
  | poll e =>
    cases he
    split_ifs with hp ho
    · exact ⟨.resumed, .of_goto hi rfl (fun _ => rfl) rfl (by simp [engaged])⟩
    · exact ⟨.resumed, .of_goto hi rfl (fun _ => rfl) rfl (by simp [engaged])⟩
    · exact ⟨.waiting, .of_goto hi rfl (fun _ => rfl) rfl (by simp [engaged])⟩
  | resumed =>
    cases he
    refine ⟨.check true, .of_goto hi rfl (fun hpo => ?_) rfl (by simp [engaged])⟩
    simp only [goto, inWait] at *
    omega
  | push m | pushAll items | drain n | retain k =>
    have ht := underLock_eq_some he
    subst t
    exact ⟨_, .of_goto hi rfl (fun _ => rfl) rfl (by simp [engaged])⟩
  | notifyOne => exact ⟨.finished, .of_notify hi he rfl (by simp [engaged])⟩
  | notifyAll sent =>
    cases sent with
    | zero =>
      cases he
      exact ⟨_, .of_goto hi rfl (fun _ => rfl) rfl (by simp [engaged])⟩
    | succ sent => exact ⟨.notifyAll sent, .of_notify hi he rfl (by simp [engaged])⟩
  | notifyWaiters =>
    cases he
    refine ⟨.finished, fun f hf => ?_, fun _ => rfl, rfl, .inl (by simp [engaged])⟩
    have hw : (s.threads.map wake)[i]? = some .notifyWaiters := by simp [hi, wake]
    have hse := total_set (f := f) (b := .finished) hw
    rwa [wake_total hf] at hse
  | uncount m | enlist wk | create | notified all | recount | storeCount sent | closing =>
    cases he
    exact ⟨_, .of_goto hi rfl (fun _ => rfl) rfl (by simp [engaged])⟩
  | waiting | done result | dropped | finished => cases he

lemma cancel_moved (hi : s.threads[i]? = some a) (ht : s.cancel i target a = some t) :
    a.inWait = 1 ∧ t.pending = s.pending ∧ t.maxRequests = s.maxRequests ∧
      ∀ f : Thread α → ℕ, IgnoresWake f → total f t.threads + f a = total f s.threads + f .dropped := by
  cases a with
  | waiting =>
    cases ht
    exact ⟨rfl, rfl, rfl, fun f _ => total_set hi⟩
  | notified all =>
    cases all with
    | true =>
      cases ht
      exact ⟨rfl, rfl, rfl, fun f _ => total_set hi⟩
    | false =>
      obtain ⟨-, hp, hm⟩ := notify_total inWait_ignoresWake ht
      refine ⟨rfl, hp, hm, fun f hf => ?_⟩
      rw [(notify_total hf ht).1]
      exact total_set hi
  | _ => cases ht

def Exact (s : State α) : Prop := s.pending = s.waiters

/-- With nobody waiting, no caller is refused for the number of requests. -/
def AdmitsWhenIdle (s : State α) : Prop :=
  s.waiters = 0 → ∀ i target t, s.threads[i]? = some .arrive → s.step (.step i target) = some t →
    t.threads[i]? = some (.check false)

def KeepsWaiting : Event α → Prop
  | .cancel _ _ => False
  | _ => True

lemma Exact.admitsWhenIdle (h : s.Exact) : s.AdmitsWhenIdle := by
  intro hd i target t hi ht
  have hz := h.trans hd
  obtain ⟨hlt, -⟩ := List.getElem?_eq_some_iff.1 hi
  simp only [step, hi, bind_some, advance, hz, Option.some.injEq] at ht
  subst t
  rw [if_neg (by omega)]
  simp [goto, hlt]

lemma step_exact_iff {e : Event α} (h : s.Exact) (ht : s.step e = some t) :
    t.Exact ↔ KeepsWaiting e := by
  unfold Exact waiters at *
  cases e with
  | call c =>
    cases ht
    have hentry : c.entry.inWait = 0 := by cases c <;> rfl
    simp [h, hentry, KeepsWaiting]
  | step i target =>
    obtain ⟨a, hi, hv⟩ := bind_eq_some_iff.1 ht
    obtain ⟨b, hm⟩ := advance_moved hi hv
    have ho := hm.total _ inWait_ignoresWake
    have hle := le_total (f := inWait) hi
    have hp := hm.pending (by omega)
    refine iff_of_true ?_ trivial
    omega
  | cancel i target =>
    obtain ⟨a, hi, hn⟩ := bind_eq_some_iff.1 ht
    obtain ⟨hw, hp, -, ho⟩ := cancel_moved hi hn
    have hd := ho _ inWait_ignoresWake
    refine iff_of_false ?_ id
    simp only [inWait] at hd hw
    omega
  | setMaxRequests n =>
    cases ht
    exact iff_of_true h trivial

/-- The waiter counter is exact all along a run, and callers are admitted when nobody waits, exactly
when no waiting receiver is dropped. -/
theorem always_exact_iff (maxRequests : ℕ) (es : List (Event α)) :
    Always step (fun s => s.Exact ∧ s.AdmitsWhenIdle) (start maxRequests) es ↔
      Along step (fun _ e => KeepsWaiting e) (start maxRequests : State α) es := by
  have hr : (start maxRequests : State α).Exact := rfl
  refine always_iff_along (fun _ _ _ (_ : True) _ => trivial) ?_ trivial
    ⟨hr, hr.admitsWhenIdle⟩
  intro s e t _ hs he
  rw [← step_exact_iff hs.1 he]
  exact ⟨And.left, fun ht => ⟨ht, ht.admitsWhenIdle⟩⟩

/-- Two callers give up waiting; the next one is refused although nobody waits. -/
theorem not_always_exact_cancel :
    let es : List (Event ℕ) := [.call .recv, .call .recv] ++ alone 0 6 ++ alone 1 6 ++
      [.cancel 0 none, .cancel 1 none]
    ¬ Always step (fun s => s.Exact ∧ s.AdmitsWhenIdle) (start 1) es ∧
      (run step (start 1) es).map (fun s => (s.pending, s.waiters)) = some (2, 0) ∧
      ∃ t, run step (start 1) (es ++ [.call .recv, .step 2 none]) = some t ∧
        t.threads[2]? = some (.done (.error .maxRequestsExceeded)) := by
  intro es
  have ho : (run step (start 1) es).map (fun s => (s.pending, s.waiters)) = some (2, 0) := by
    decide
  refine ⟨fun hl => ?_, ho, _, rfl, rfl⟩
  obtain ⟨s, hs, hv⟩ := map_eq_some_iff.1 ho
  have he := (always_iff_segments.1 hl es s List.prefix_rfl hs).1
  simp only [Prod.mk.injEq] at hv
  unfold Exact at he
  omega

/-- A caller is let in only while those admitted before it and not yet served or turned away are
fewer than the limit, and the limit is not lowered below their number. -/
def BelowLimit (s : State α) : Event α → Prop
  | .step i _ => ∀ a ∈ s.threads[i]?, a.entering = true → s.pending ≤ s.maxRequests →
    total engaged s.threads < s.maxRequests
  | .setMaxRequests n => total engaged s.threads ≤ n
  | _ => True

instance (s : State α) : (e : Event α) → Decidable (s.BelowLimit e)
  | .step i _ => inferInstanceAs (Decidable (∀ a ∈ s.threads[i]?, a.entering = true →
      s.pending ≤ s.maxRequests → total engaged s.threads < s.maxRequests))
  | .setMaxRequests n => inferInstanceAs (Decidable (total engaged s.threads ≤ n))
  | .call _ | .cancel _ _ => isTrue trivial

def WithinLimit (s : State α) : Prop := total engaged s.threads ≤ s.maxRequests

lemma WithinLimit.step {e : Event α} (h : s.WithinLimit) (he : s.BelowLimit e)
    (ht : s.step e = some t) : t.WithinLimit := by
  unfold WithinLimit at *
  cases e with
  | call c =>
    cases ht
    have hentry : c.entry.engaged = 0 := by cases c <;> rfl
    simpa [hentry] using h
  | step i target =>
    obtain ⟨a, hi, hv⟩ := bind_eq_some_iff.1 ht
    obtain ⟨b, hm⟩ := advance_moved hi hv
    have ho := hm.total _ engaged_ignoresWake
    rw [hm.maxRequests]
    rcases hm.engaged with hle | ⟨rfl, hd, hon⟩
    · omega
    · have hlt := he .arrive hi rfl hd
      omega
  | cancel i target =>
    obtain ⟨a, hi, hn⟩ := bind_eq_some_iff.1 ht
    obtain ⟨-, -, hx, ho⟩ := cancel_moved hi hn
    have hr := ho _ engaged_ignoresWake
    rw [hx]
    simp only [engaged] at hr
    omega
  | setMaxRequests n =>
    cases ht
    exact he

/-- The callers waiting for a worker never exceed the limit in a run that admits below it. -/
theorem waiters_le_of_belowLimit (maxRequests : ℕ) (es : List (Event α)) (t : State α)
    (hbelow : Along step BelowLimit (start maxRequests) es)
    (hrun : run step (start maxRequests) es = some t) : t.waiters ≤ t.maxRequests := by
  have ht : (start maxRequests : State α).WithinLimit := Nat.zero_le maxRequests
  have hle : t.WithinLimit := run_invariant (fun _ _ _ h hg he => h.step hg he)
    ht hbelow hrun
  exact (total_mono inWait_le_engaged).trans hle

theorem waiters_le_of_belowLimit_two : ∃ t : State ℕ,
    run step (start 2) ([.call .recv] ++ alone 0 6 ++ [.call .recv] ++ alone 1 6) = some t ∧
      t.waiters = 2 ∧ t.waiters ≤ t.maxRequests := by
  obtain ⟨t, hr, hw⟩ : ∃ t : State ℕ, run step (start 2)
      (([.call .recv] : List (Event ℕ)) ++ alone 0 6 ++ ([.call .recv] : List (Event ℕ)) ++ alone 1 6) =
      some t ∧ t.waiters = 2 := ⟨_, rfl, rfl⟩
  exact ⟨t, hr, hw, waiters_le_of_belowLimit 2 _ t (by decide) hr⟩

/-- One request may wait, and a second caller that enters after the first one waits as well. -/
theorem not_waiters_le_limit_one : ∃ t : State ℕ,
    run step (start 1) ([.call .recv] ++ alone 0 6 ++ [.call .recv] ++ alone 1 6) = some t ∧
      ¬ t.waiters ≤ t.maxRequests :=
  ⟨_, rfl, by decide⟩

end State

end QJazz.Pool.Queue
