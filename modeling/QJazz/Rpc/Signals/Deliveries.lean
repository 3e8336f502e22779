import QJazz.Rpc.Signals.Rescaling

/-! Each delivered signal is followed by a maintenance or by the end of the server, as long as no
maintenance fails. -/
namespace QJazz.Rpc.Signals

open Transition Execution

/-- How many steps the thread is from its last one for a signal. -/
def Handler.ahead : Handler → ℕ
  | .waiting => 3
  | .loading => 2
  | .storing => 1
  | .spawning | .leaving | .left => 0

namespace State
variable {s t : State} {e : Event} {i j k : ℕ} {a : Task} {answer : Bool}

/-- The thread has a signal to handle, since a time when `k` maintenances had begun. -/
structure Due (k : ℕ) (s : State) : Prop where
  starts : k ≤ s.starts
  pending : s.handler = .waiting → s.pending = true
  running : s.handler ≠ .left

lemma enabled_due (h : Due k s) : Enabled step Process.handler.Acts s := by
  cases hh : s.handler with
  | waiting =>
    have hp : ∃ t, s.poll false = some t := by simp [poll, hh, h.pending hh]
    obtain ⟨t, ht⟩ := hp
    exact ⟨.poll false, t, Or.inr ⟨false, rfl⟩, ht⟩
  | left => exact absurd hh h.running
  | loading | storing | spawning | leaving =>
    have hn : ∃ t, s.handle = some t := by simp [handle, hh]
    obtain ⟨t, ht⟩ := hn
    exact ⟨.handle, t, Or.inl rfl, ht⟩

lemma Due.keep (h : Due k s) (ht : s.starts ≤ t.starts) (hh : t.handler = s.handler)
    (hp : s.pending → t.pending) : Due k t ∧ t.handler.ahead = s.handler.ahead :=
  ⟨⟨h.starts.trans ht, fun hw => hp (h.pending (hh ▸ hw)), hh ▸ h.running⟩, by rw [hh]⟩

lemma due_step (hs : s.Sound) (h : Due k s) (ht : s.step e = some t) :
    (Noticed k t ∨ ∃ i, Underway i k t) ∨ Due k t ∧ (t.handler.ahead < s.handler.ahead ∨
        t.handler.ahead = s.handler.ahead ∧ ¬ Process.handler.Acts e) := by
  have hk (hh : t.handler = s.handler) (hp : s.pending = true → t.pending = true)
      (hno : ¬ Process.handler.Acts e) : Due k t ∧ (t.handler.ahead < s.handler.ahead ∨
        t.handler.ahead = s.handler.ahead ∧ ¬ Process.handler.Acts e) := by
    obtain ⟨hd, he⟩ := h.keep (starts_le_step hs ht) hh hp
    exact ⟨hd, Or.inr ⟨he, hno⟩⟩
  cases e with
  | deliver =>
    cases ht
    exact Or.inr (hk rfl (fun _ => rfl) (by simp [Process.Acts]))
  | interrupt | arrive w =>
    cases ht
    exact Or.inr (hk rfl id (by simp [Process.Acts]))
  | proceed i answer =>
    obtain ⟨a, ha, hr⟩ := Option.bind_eq_some_iff.1 ht
    obtain ⟨b, hu⟩ := turned_proceed hs ha hr
    exact Or.inr (hk hu.handler hu.pending.ge (by simp [Process.Acts]))
  | drop i =>
    obtain ⟨a, ha, hg⟩ := Option.bind_eq_some_iff.1 ht
    obtain ⟨b, hu⟩ := turned_giveUp hg
    exact Or.inr (hk hu.handler hu.pending.ge (by simp [Process.Acts]))
  | poll o =>
    simp only [step, poll] at ht
    split_ifs at ht with hw hst <;> cases ht
    · exact Or.inr ⟨⟨h.starts, by simp, by simp⟩, Or.inl (by simp [Handler.ahead, hw])⟩
    · exact Or.inr ⟨⟨h.starts, by simp, by simp⟩, Or.inl (by simp [Handler.ahead, hw])⟩
  | handle =>
    simp only [step, handle] at ht
    split at ht
    next hl =>
      cases ht
      cases hup : s.rescaling with
      | true =>
        -- the barrier is up, so the task that put it there has not released it
        obtain ⟨a, ha, hn⟩ := (hs.barrier hup).resolve_left (by simp [hl])
        obtain ⟨i, hi⟩ := List.mem_iff_getElem?.1 ha
        refine Or.inl (Or.inr ⟨i, h.starts, a, hi, ?_⟩)
        cases a <;> first | exact Nat.succ_pos _ | cases hn
      | false => exact Or.inr ⟨⟨h.starts, by simp, by simp⟩, Or.inl (by simp [Handler.ahead, hl])⟩
    next ho =>
      cases ht
      exact Or.inr ⟨⟨h.starts, by simp, by simp⟩, Or.inl (by simp [Handler.ahead, ho])⟩
    · cases ht
      exact Or.inl (Or.inr ⟨s.tasks.length, h.starts, .sleeping, by simp, Nat.succ_pos _⟩)
    · cases ht
      exact Or.inl (Or.inl (Or.inr rfl))
    · cases ht
    · cases ht

lemma failing_of_proceed (hi : i < s.tasks.length) (ht : s.proceed i answer a = some t)
    (hf : t.tasks[i]? = some .failing) : a = .maintaining ∧ answer = true := by
  have he {b : Task} (h : (s.tasks.set i b)[i]? = some .failing) : b = .failing :=
    Option.some.inj ((List.getElem?_set_self hi).symm.trans h)
  cases a with
  | sleeping | releasing | released | cancelling | serving w =>
    cases ht
    cases he hf
  | measuring | exceeding | scaling | failing | asking w =>
    obtain ⟨-, rfl⟩ := withLock_eq_some ht
    cases he hf
  | measured c =>
    cases ht
    cases c <;> cases he hf
  | maintaining =>
    cases answer with
    | true => exact ⟨rfl, rfl⟩
    | false =>
      cases ht
      cases he hf
  | finished => cases ht

lemma failing_of_step (hs : s.Sound) (hst : s.step e = some t) (hf : Task.failing ∈ t.tasks) :
    Task.failing ∈ s.tasks ∨ ∃ i, s.tasks[i]? = some .maintaining ∧ e = .proceed i true := by
  rcases step_cases hs hst with ⟨j, c, d, hc, ht, hby⟩ | ⟨-, hr⟩
  · rw [ht.tasks] at hf
    rcases List.mem_or_eq_of_mem_set hf with ho | hd
    · exact Or.inl ho
    · have hlen := (List.getElem?_eq_some_iff.1 hc).1
      have hi : t.tasks[j]? = some .failing := by
        rw [ht.tasks, List.getElem?_set_self hlen, hd]
      rcases hby with ⟨answer, he, hp⟩ | ⟨-, hg⟩
      · obtain ⟨rfl, rfl⟩ := failing_of_proceed hlen hp hi
        exact Or.inr ⟨j, hc, he⟩
      · cases c <;> cases hg <;>
          cases (List.getElem?_set_self hlen).symm.trans hi
  · obtain ⟨added, hk, had⟩ := hr.tasks
    rw [hk] at hf
    exact Or.inl ((List.mem_append.1 hf).resolve_right had)

lemma starts_proceed (ht : s.proceed i answer a = some t) (ha : a ≠ .failing) :
    t.starts = s.starts ∨ s.lock.head? = some ⟨i, false, true⟩ := by
  cases a with
  | sleeping | releasing | released | measured exceeded | cancelling | serving w =>
    cases ht
    exact Or.inl rfl
  | measuring | exceeding =>
    obtain ⟨-, rfl⟩ := withLock_eq_some ht
    exact Or.inl rfl
  | scaling =>
    obtain ⟨hg, -⟩ := withLock_eq_some ht
    exact Or.inr (head_of_granted hg rfl)
  | maintaining =>
    cases answer <;> cases ht <;> exact Or.inl rfl
  | failing => exact absurd rfl ha
  | finished => cases ht
  | asking w =>
    obtain ⟨hg, rfl⟩ := withLock_eq_some ht
    cases w with
    | true => exact Or.inr (head_of_granted hg rfl)
    | false => exact Or.inl rfl

lemma failing_step (hs : s.Sound) (hi : s.tasks[i]? = some .failing) (he : s.step e = some t) :
    t.tasks[i]? = some .failing ∧ t.starts = s.starts := by
  have hf := hs.first i .failing hi rfl
  rcases step_cases hs he with ⟨j, c, d, hc, ht, hby⟩ | ⟨-, hr⟩
  · have hji : j ≠ i := by
      rintro rfl
      obtain rfl := Option.some.inj (hi.symm.trans hc)
      rcases hby with ⟨answer, -, hp⟩ | ⟨-, hg⟩
      · exact hs.not_granted_again hi (withLock_eq_some hp).1
      · cases hg
    refine ⟨by rw [ht.tasks, List.getElem?_set_ne hji, hi], ?_⟩
    have ho : s.lock.head? ≠ some ⟨j, false, true⟩ := by
      intro hj
      rw [hf] at hj
      cases hj
      exact hji rfl
    rcases hby with ⟨answer, -, hp⟩ | ⟨-, hg⟩
    · refine (starts_proceed hp ?_).resolve_right ho
      rintro rfl
      exact hs.not_granted_again hc (withLock_eq_some hp).1
    · cases c <;> cases hg <;> rfl
  · obtain ⟨added, hk, -⟩ := hr.tasks
    refine ⟨?_, hr.starts⟩
    rw [hk, List.getElem?_append_left (List.getElem?_eq_some_iff.1 hi).1, hi]

end State

namespace FairRun
variable (x : FairRun) {i k n m : ℕ}

/-- After that moment a maintenance begins, or the server is shut down. -/
def Followed (n : ℕ) : Prop :=
  ∃ m > n, (x.state n).starts < (x.state m).starts ∨ (x.state m).cancelled = true

def Fails (n : ℕ) : Prop :=
  ∃ i, (x.state n).tasks[i]? = some .maintaining ∧ x.event n = some (.proceed i true)

lemma cancelled_from (h : (x.state n).cancelled) (hm : n ≤ m) :
    (x.state m).cancelled = true :=
  holds_from (P := fun s : State => s.cancelled = true)
    (fun k _ _ hk he => State.cancelled_step (x.sound k) (step_of_event he) hk) h hm

lemma due_leadsTo :
    x.LeadsTo (State.Due k) fun s => State.Noticed k s ∨ ∃ i, State.Underway i k s :=
  leadsTo_of_measure (fun _ => Process.handler) (fun s => s.handler.ahead) x.fair x.sound
    (fun _ _ => State.enabled_due) fun _ _ _ hs _ hu ht =>
      (State.due_step hs hu ht).imp_right fun ⟨hd, hh⟩ =>
        ⟨hd, hh.imp_right fun ⟨heq, hn⟩ => ⟨heq, rfl, hn⟩⟩

lemma followed_of_fine (hf : ∀ n, Task.failing ∉ (x.state n).tasks)
    (h : x.event n = some .deliver) : x.Followed n := by
  have he := (Option.some.inj (step_of_event h)).symm
  have ht : (x.state n).starts = (x.state (n + 1)).starts := by rw [he]
  suffices hn : ∃ m ≥ n + 1, State.Noticed (x.state n).starts (x.state m) by
    obtain ⟨m, hm, hn⟩ := hn
    exact ⟨m, by omega, hn⟩
  by_cases hl : (x.state (n + 1)).handler = .left
  · exact ⟨n + 1, le_rfl, Or.inr ((x.sound (n + 1)).ended hl)⟩
  · have hu : State.Due (x.state n).starts (x.state (n + 1)) :=
      ⟨ht.le, fun _ => by rw [he], hl⟩
    have hd : x.LeadsTo (State.Due (x.state n).starts) (State.Noticed (x.state n).starts) :=
      x.due_leadsTo.trans ((Execution.LeadsTo.of_imp fun _ => id).or
        (Execution.LeadsTo.exists_left fun _ => x.underway_leadsTo hf))
    exact hd (n + 1) hu

lemma fine_of_never_fails (h : ∀ n, ¬ x.Fails n) (n : ℕ) : Task.failing ∉ (x.state n).tasks := by
  refine holds_from (n := 0) (P := fun s : State => Task.failing ∉ s.tasks) ?_ ?_ (Nat.zero_le n)
  · intro k _ e hk he hf
    rcases State.failing_of_step (x.sound k) (step_of_event he) hf with ho | ⟨i, hi, rfl⟩
    · exact hk ho
    · exact h k ⟨i, hi, he⟩
  · rw [x.start]
    simp

lemma starts_after_failure (h : x.Fails n) (hm : n ≤ m) :
    (x.state m).starts = (x.state n).starts := by
  obtain ⟨i, hi, hv⟩ := h
  have hn := step_of_event hv
  rw [State.step, hi] at hn
  have hlen := (List.getElem?_eq_some_iff.1 hi).1
  have hf : (x.state (n + 1)).tasks[i]? = some .failing ∧
      (x.state (n + 1)).starts = (x.state n).starts := by
    rw [← Option.some.inj hn]
    exact ⟨List.getElem?_set_self hlen, rfl⟩
  rcases hm.eq_or_lt with rfl | hlt
  · rfl
  · refine (holds_from (n := n + 1)
      (P := fun s : State => s.tasks[i]? = some .failing ∧ s.starts = (x.state n).starts) ?_ hf hlt).2
    rintro k - e ⟨hk, hr⟩ he
    obtain ⟨hk', ht⟩ := State.failing_step (x.sound k) hk (step_of_event he)
    exact ⟨hk', ht.trans hr⟩

/-- Every SIGCHLD that is delivered is followed by a maintenance or by the end of the server exactly if
a maintenance fails only when the server is shut down otherwise, or when every SIGCHLD of the run was
followed by a maintenance before. -/
theorem followed_iff : (∀ n, x.event n = some .deliver → x.Followed n) ↔
      ∀ t, x.Fails t → (∃ m, (x.state m).cancelled = true) ∨
        ∀ n, x.event n = some .deliver → ∃ m, n < m ∧ m ≤ t ∧ (x.state n).starts < (x.state m).starts := by
  constructor
  · intro hl t hf
    by_cases he : ∃ m, (x.state m).cancelled = true
    · exact Or.inl he
    · refine Or.inr fun n hn => ?_
      obtain ⟨m, hm, hr | hd⟩ := hl n hn
      · have hsa {j : ℕ} (hj : t ≤ j) := x.starts_after_failure hf hj
        by_cases hmt : m ≤ t
        · exact ⟨m, hm, hmt, hr⟩
        · have hms := hsa (j := m) (by omega)
          have hnt : n < t := by
            by_contra hnt
            have hns := hsa (j := n) (by omega)
            omega
          exact ⟨t, hnt, le_rfl, hms ▸ hr⟩
      · exact absurd ⟨m, hd⟩ he
  · intro hi n hn
    by_cases hf : ∃ t, x.Fails t
    · obtain ⟨t, ht⟩ := hf
      rcases hi t ht with ⟨m, hm⟩ | ho
      · exact ⟨max m (n + 1), by omega, Or.inr (x.cancelled_from hm (le_max_left _ _))⟩
      · obtain ⟨m, hnm, -, hr⟩ := ho n hn
        exact ⟨m, hnm, Or.inl hr⟩
    · push Not at hf
      exact x.followed_of_fine (x.fine_of_never_fails hf) hn

/-- The first signal is handled and the maintenance fails; then another child dies. -/
def failure : List Event :=
  [[.deliver, .poll false, .handle, .handle, .handle], List.replicate 6 (.proceed 0 false),
    [.proceed 0 true, .deliver, .poll false, .handle, .handle, .handle],
    List.replicate 3 (.proceed 1 false)].flatten

def failed : State where
  tasks := [.failing, .measuring]
  lock := [⟨0, false, true⟩, ⟨0, true, true⟩, ⟨1, false, false⟩]
  starts := 1

lemma run_failure : run State.step {} failure = some failed := rfl

lemma not_enabled_failed (p : Process) : ¬ Enabled State.step p.Acts failed := by
  rintro ⟨e, t, hac, ht⟩
  cases p with
  | handler =>
    rcases hac with rfl | ⟨o, rfl⟩
    · cases ht
    · cases o <;> cases ht
  | task i =>
    obtain ⟨answer, rfl⟩ := hac
    rcases i with _ | _ | i
    · cases ht
    · cases ht
    · cases ht

def failedRun : FairRun where
  toExecution := Execution.ofRun run_failure
  start := rfl
  fair p := Execution.weaklyFair_ofRun run_failure (not_enabled_failed p)

theorem not_followed_failedRun : ∃ x : FairRun, ∃ n, x.event n = some .deliver ∧ ¬ x.Followed n := by
  refine ⟨failedRun, 12, rfl, ?_⟩
  have hi : failedRun.Fails 11 := ⟨0, rfl, rfl⟩
  rintro ⟨m, hm, ht | hn⟩
  · rw [failedRun.starts_after_failure hi (by omega : 11 ≤ m)] at ht
    exact absurd ht (by decide)
  · have hl := failedRun.cancelled_from hn (le_max_left m failure.length)
    have hf : failedRun.state (max m failure.length) = failed :=
      state_ofRun run_failure (le_max_right _ _)
    rw [hf] at hl
    cases hl

end FairRun
end QJazz.Rpc.Signals
