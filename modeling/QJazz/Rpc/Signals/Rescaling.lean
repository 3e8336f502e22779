import Mathlib.Data.Prod.Lex
import QJazz.Rpc.Signals.Lock

/-! A signal that finds the barrier up shares the task that will release it; else it gets a task of
its own. -/
namespace QJazz.Rpc.Signals

open Transition List Option

/-- How many phases a task has to go through until the pool is maintained or the server shut down, if
it is on its way there. -/
def Task.stage : Task → ℕ
  | .sleeping => 7
  | .releasing => 6
  | .released => 5
  | .measuring => 4
  | .measured _ => 3
  | .exceeding | .scaling => 2
  | .cancelling => 1
  | .maintaining | .failing | .finished | .asking _ | .serving _ => 0

def Task.waitsFor (i : ℕ) : Task → Option Request
  | .measuring => some ⟨i, false, false⟩
  | .exceeding | .scaling => some ⟨i, false, true⟩
  | _ => none

/-- How many steps there are before the one that releases the lock, for a task that is the first. -/
def Task.burden : Task → ℕ
  | .asking _ | .scaling => 1
  | _ => 0

namespace State
variable {s t : State} {e : Event} {i j k : ℕ} {a b : Task} {h r : Request} {answer : Bool}

def firstBurden (s : State) : ℕ :=
  ((s.lock.head?).bind fun h => s.tasks[h.task]?).elim 0 Task.burden

/-- How far the request is from the front, and the front from moving. -/
def distance (s : State) (r : Request) : ℕ ×ₗ ℕ := toLex (s.lock.idxOf r, s.firstBurden)

/-- The phases of the task that are left, and how far its request is from the front. -/
def remaining (i : ℕ) (s : State) : ℕ ×ₗ ℕ ×ₗ ℕ :=
  (s.tasks[i]?).elim (toLex (0, toLex (0, 0))) fun a =>
    toLex (a.stage, (a.waitsFor i).elim (toLex (0, 0)) s.distance)

def helper (i : ℕ) (s : State) : Process :=
  .task (((s.tasks[i]?.bind (Task.waitsFor i)).bind fun _ => s.lock.head?.map Request.task).getD i)

lemma requests_of_waitsFor (hr : a.waitsFor i = some r) : a.requests i = [r] := by
  cases a <;> cases hr <;> rfl

lemma stage_proceed (hi : i < s.tasks.length) (hstage : 0 < a.stage)
    (ht : s.proceed i answer a = some t) : s.starts < t.starts ∨ t.cancelled ∨
      ∃ b, t.tasks[i]? = some b ∧ 0 < b.stage ∧ b.stage < a.stage := by
  have he (b : Task) : (s.tasks.set i b)[i]? = some b := List.getElem?_set_self hi
  cases a with
  | sleeping | releasing | released =>
    cases ht
    exact Or.inr (Or.inr ⟨_, he _, by decide, by decide⟩)
  | measuring =>
    obtain ⟨-, rfl⟩ := withLock_eq_some ht
    exact Or.inr (Or.inr ⟨_, he _, Nat.succ_pos _, Nat.lt_succ_self _⟩)
  | measured c =>
    cases ht
    refine Or.inr (Or.inr ⟨_, he _, ?_⟩)
    cases c <;> decide
  | exceeding =>
    obtain ⟨-, rfl⟩ := withLock_eq_some ht
    exact Or.inr (Or.inr ⟨_, he _, by decide, by decide⟩)
  | scaling =>
    obtain ⟨-, rfl⟩ := withLock_eq_some ht
    exact Or.inl (Nat.lt_succ_self _)
  | cancelling =>
    cases ht
    exact Or.inr (Or.inl rfl)
  | maintaining | failing | finished | asking _ | serving _ => exact absurd hstage (lt_irrefl 0)

/-- A step of the first in the lock: it begins to maintain the pool, or releases the lock, or is one
step nearer to that. -/
lemma first_proceeds (hi : j < s.tasks.length) (hm : h ∈ a.requests j)
    (ht : s.proceed j answer a = some t) (hn : Task.failing ∉ t.tasks) (hf : a ≠ .failing) :
    s.starts < t.starts ∨ t.lock = s.lock.erase h ∨
      t.lock = s.lock ∧ ∃ b, t.tasks[j]? = some b ∧ b.burden < a.burden := by
  have he (b : Task) : (s.tasks.set j b)[j]? = some b := List.getElem?_set_self hi
  cases a with
  | measuring | exceeding =>
    obtain ⟨-, rfl⟩ := withLock_eq_some ht
    rw [mem_singleton.1 hm]
    exact Or.inr (Or.inl rfl)
  | scaling =>
    obtain ⟨-, rfl⟩ := withLock_eq_some ht
    exact Or.inl (Nat.lt_succ_self _)
  | maintaining =>
    cases answer with
    | true =>
      cases ht
      exact absurd (mem_of_getElem? (he .failing)) hn
    | false =>
      cases ht
      rw [mem_singleton.1 hm]
      exact Or.inr (Or.inl rfl)
  | failing => exact absurd rfl hf
  | asking w =>
    obtain ⟨-, rfl⟩ := withLock_eq_some ht
    exact Or.inr (Or.inr ⟨rfl, _, he _, Nat.one_pos⟩)
  | serving w =>
    cases ht
    rw [mem_singleton.1 hm]
    exact Or.inr (Or.inl rfl)
  | sleeping | releasing | released | measured _ | cancelling | finished => cases hm

lemma lock_giveUp (hm : h ∈ a.requests j) (ht : s.giveUp j a = some t) :
    t.lock = s.lock.erase h := by
  cases a with
  | asking w | serving w =>
    cases ht
    rw [mem_singleton.1 hm]
    rfl
  | _ => cases ht

lemma enabled_first (hs : s.Sound) (hh : s.lock.head? = some h) (hf : Task.failing ∉ s.tasks) :
    Enabled step (Process.task h.task).Acts s := by
  obtain ⟨a, ha, hm⟩ := (hs.mem_iff h).1 (mem_of_head? hh)
  have hg : granted Request.write s.lock h := granted_of_head hh
  suffices hp : ∃ t, s.proceed h.task false a = some t by
    obtain ⟨t, ht⟩ := hp
    exact ⟨.proceed h.task false, t, ⟨false, rfl⟩, bind_eq_some_iff.2 ⟨a, ha, ht⟩⟩
  cases a with
  | measuring | exceeding | scaling | asking w =>
    have hr := mem_singleton.1 hm
    exact ⟨_, if_pos (hr ▸ hg)⟩
  | maintaining | serving w => exact ⟨_, rfl⟩
  | failing => exact absurd (mem_of_getElem? ha) hf
  | sleeping | releasing | released | measured _ | cancelling | finished => cases hm

lemma remaining_eq (ha : s.tasks[i]? = some a) :
    s.remaining i = toLex (a.stage, (a.waitsFor i).elim (toLex (0, 0)) s.distance) := by
  rw [remaining, ha]
  rfl

lemma firstBurden_eq (hh : s.lock.head? = some h) (ha : s.tasks[h.task]? = some a) :
    s.firstBurden = a.burden := by
  rw [firstBurden, hh, bind_some, ha]
  rfl

lemma helper_of_waiting (ha : s.tasks[i]? = some a) (hr : a.waitsFor i = some r)
    (hh : s.lock.head? = some h) : s.helper i = .task h.task := by
  rw [helper, ha, bind_some, hr, hh]
  rfl

lemma helper_of_not_waiting (ha : s.tasks[i]? = some a) (hr : a.waitsFor i = none) :
    s.helper i = .task i := by
  rw [helper, ha, bind_some, hr]
  rfl

lemma remaining_lt_of_distance (ha : s.tasks[i]? = some a) (ha' : t.tasks[i]? = some a)
    (hr : a.waitsFor i = some r) (hlt : t.distance r < s.distance r) : t.remaining i < s.remaining i := by
  rw [remaining_eq ha, remaining_eq ha', hr]
  exact Prod.Lex.toLex_lt_toLex.2 (Or.inr ⟨rfl, hlt⟩)

lemma distance_lt_of_idxOf (hlt : t.lock.idxOf r < s.lock.idxOf r) : t.distance r < s.distance r :=
  Prod.Lex.toLex_lt_toLex.2 (Or.inl hlt)

/-- What is left to do for a task after a step that it did not take. -/
def Eased (i : ℕ) (s t : State) (e : Event) : Prop :=
  t.remaining i < s.remaining i ∨
    t.remaining i = s.remaining i ∧ t.helper i = s.helper i ∧ ¬ (s.helper i).Acts e

lemma eased_of_same_first (ha : s.tasks[i]? = some a) (ha' : t.tasks[i]? = some a)
    (hr : a.waitsFor i = some r) (hh : s.lock.head? = some h) (hh' : t.lock.head? = some h)
    (ht : t.tasks[h.task]? = s.tasks[h.task]?) (hi : t.lock.idxOf r ≤ s.lock.idxOf r)
    (he : ∀ answer, e ≠ .proceed h.task answer) : Eased i s t e := by
  rcases hi.lt_or_eq with hlt | heq
  · exact Or.inl (remaining_lt_of_distance ha ha' hr (distance_lt_of_idxOf hlt))
  · have hu : t.firstBurden = s.firstBurden := by
      rw [firstBurden, firstBurden, hh, hh', bind_some, bind_some, ht]
    have hd : t.distance r = s.distance r := by rw [distance, distance, heq, hu]
    refine Or.inr ⟨?_, ?_, ?_⟩
    · rw [remaining_eq ha, remaining_eq ha', hr, elim_some, elim_some, hd]
    · rw [helper_of_waiting ha hr hh, helper_of_waiting ha' hr hh']
    · rw [helper_of_waiting ha hr hh]
      rintro ⟨answer, hn⟩
      exact he answer hn

lemma eased_of_not_waiting (ha : s.tasks[i]? = some a) (ha' : t.tasks[i]? = some a)
    (hr : a.waitsFor i = none) (he : ∀ answer, e ≠ .proceed i answer) : Eased i s t e := by
  refine Or.inr ⟨?_, ?_, ?_⟩
  · rw [remaining_eq ha, remaining_eq ha', hr]
    rfl
  · rw [helper_of_not_waiting ha hr, helper_of_not_waiting ha' hr]
  · rw [helper_of_not_waiting ha hr]
    rintro ⟨answer, hn⟩
    exact he answer hn

lemma Turns.first {l o : List Request} (ht : Turns j a b l o)
    (hh : l.head? = some h) (hne : h.task ≠ j) (hr : r ∈ l) (hrj : r.task ≠ j) :
    o.head? = some h ∧ o.idxOf r ≤ l.idxOf r := by
  refine ⟨ht.head? hh fun heq => absurd heq hne, ?_⟩
  cases ht with
  | keeps hsame => exact le_rfl
  | requests hb hnew => rw [idxOf_append_of_mem hr]
  | @releases q hqa hb =>
    have hq : q.task = j := Task.task_of_mem_requests (hqa ▸ mem_cons_self)
    exact idxOf_erase_le fun heq => hrj (heq ▸ hq)

lemma Sound.exists_first (hs : s.Sound) (ha : s.tasks[i]? = some a) (hr : a.waitsFor i = some r) :
    r ∈ s.lock ∧ r.task = i ∧ ∃ h, s.lock.head? = some h := by
  have he := requests_of_waitsFor hr
  have hri : r.task = i := Task.task_of_mem_requests (he ▸ mem_cons_self)
  have hm : r ∈ s.lock := (hs.mem_iff r).2 ⟨a, hri ▸ ha, by rw [hri, he]; exact mem_cons_self⟩
  refine ⟨hm, hri, ?_⟩
  cases hlock : s.lock with
  | nil => simp [hlock] at hm
  | cons h rest => exact ⟨h, rfl⟩

/-- A step that is not one of the task leaves it as it is and nearer to its goal, unless the pool is
maintained. -/
lemma eased_step (hs : s.Sound) (hfi : Task.failing ∉ s.tasks) (hf : Task.failing ∉ t.tasks)
    (ha : s.tasks[i]? = some a) (hstage : 0 < a.stage) (hst : s.step e = some t)
    (he : ∀ answer, e ≠ .proceed i answer) :
    t.tasks[i]? = some a ∧ (s.starts < t.starts ∨ Eased i s t e) := by
  rcases step_cases hs hst with ⟨j, c, d, hc, ht, hby⟩ | ⟨hno, ho⟩
  · have hji : j ≠ i := by
      rintro rfl
      rcases hby with ⟨answer, rfl, -⟩ | ⟨rfl, hg⟩
      · exact he answer rfl
      · obtain rfl := Option.some.inj (ha.symm.trans hc)
        cases a <;> first | exact absurd hstage (lt_irrefl 0) | cases hg
    have ha' : t.tasks[i]? = some a := by rw [ht.tasks, List.getElem?_set_ne hji, ha]
    refine ⟨ha', ?_⟩
    cases hr : a.waitsFor i with
    | none => exact Or.inr (eased_of_not_waiting ha ha' hr he)
    | some r =>
      obtain ⟨hme, hri, h, hh⟩ := hs.exists_first ha hr
      by_cases hj : h.task = j
      · obtain ⟨c', hc', hm⟩ := (hs.mem_iff h).1 (mem_of_head? hh)
        rw [hj] at hc' hm
        obtain rfl := Option.some.inj (hc.symm.trans hc')
        have hne : h ≠ r := fun heq => hji (by rw [← hj, heq, hri])
        have her (hlock : t.lock = s.lock.erase h) : Eased i s t e :=
          Or.inl (remaining_lt_of_distance ha ha' hr
            (distance_lt_of_idxOf (hlock ▸ idxOf_erase_lt hh hne)))
        rcases hby with ⟨answer, -, hp⟩ | ⟨-, hg⟩
        · have hlen := (List.getElem?_eq_some_iff.1 hc).1
          have hi : c ≠ .failing := fun heq => hfi (heq ▸ mem_of_getElem? hc)
          rcases first_proceeds hlen hm hp hf hi with
            hstarts | hlock | ⟨hlock, d', hd, hlt⟩
          · exact Or.inl hstarts
          · exact Or.inr (her hlock)
          · refine Or.inr (Or.inl (remaining_lt_of_distance ha ha' hr ?_))
            have hn := firstBurden_eq hh (hj.symm ▸ hc)
            have hu : t.firstBurden = d'.burden :=
              firstBurden_eq (hlock.symm ▸ hh) (hj.symm ▸ hd)
            refine Prod.Lex.toLex_lt_toLex.2 (Or.inr ⟨by rw [hlock], ?_⟩)
            rwa [hn, hu]
        · exact Or.inr (her (lock_giveUp hm hg))
      · obtain ⟨hh', hx⟩ := ht.lock.first hh hj hme (hri ▸ hji.symm)
        have hts : t.tasks[h.task]? = s.tasks[h.task]? := by
          rw [ht.tasks, List.getElem?_set_ne (Ne.symm hj)]
        refine Or.inr (eased_of_same_first ha ha' hr hh hh' hts hx ?_)
        rintro answer rfl
        rcases hby with ⟨answer, heq, -⟩ | ⟨heq, -⟩
        · cases heq
          exact hj rfl
        · cases heq
  · obtain ⟨added, hta, -⟩ := ho.tasks
    obtain ⟨q, hlock⟩ := ho.lock
    have hk {n : ℕ} {c : Task} (hc : s.tasks[n]? = some c) : t.tasks[n]? = some c := by
      rw [hta, List.getElem?_append_left (List.getElem?_eq_some_iff.1 hc).1, hc]
    refine ⟨hk ha, Or.inr ?_⟩
    cases hr : a.waitsFor i with
    | none => exact eased_of_not_waiting ha (hk ha) hr he
    | some r =>
      obtain ⟨hme, hri, h, hh⟩ := hs.exists_first ha hr
      obtain ⟨c, hc, -⟩ := (hs.mem_iff h).1 (mem_of_head? hh)
      refine eased_of_same_first ha (hk ha) hr hh ?_ ((hk hc).trans hc.symm) ?_ fun _ => hno _ _
      · rw [hlock]
        exact head?_append_of_head hh
      · rw [hlock, idxOf_append_of_mem hme]

/-- The task is on its way, since a time when `k` maintenances had begun. -/
def Underway (i k : ℕ) (s : State) : Prop := k ≤ s.starts ∧ ∃ a, s.tasks[i]? = some a ∧ 0 < a.stage

def Noticed (k : ℕ) (s : State) : Prop := k < s.starts ∨ s.cancelled = true

lemma starts_le_step (hs : s.Sound) (he : s.step e = some t) : s.starts ≤ t.starts := by
  rcases step_cases hs he with ⟨j, c, d, -, ht, -⟩ | ⟨-, hg⟩
  · exact ht.starts
  · exact hg.starts.ge

lemma cancelled_step (hs : s.Sound) (he : s.step e = some t) (h : s.cancelled) :
    t.cancelled = true := by
  rcases step_cases hs he with ⟨j, c, d, -, ht, -⟩ | ⟨-, hg⟩
  · exact ht.cancelled h
  · exact hg.cancelled h

lemma enabled_helper (hs : s.Sound) (hf : Task.failing ∉ s.tasks) (h : Underway i k s) :
    Enabled step (s.helper i).Acts s := by
  obtain ⟨-, a, ha, hstage⟩ := h
  cases hr : a.waitsFor i with
  | some r =>
    obtain ⟨-, -, h, hh⟩ := hs.exists_first ha hr
    rw [helper_of_waiting ha hr hh]
    exact enabled_first hs hh hf
  | none =>
    rw [helper_of_not_waiting ha hr]
    suffices hp : ∃ t, s.proceed i false a = some t by
      obtain ⟨t, ht⟩ := hp
      exact ⟨.proceed i false, t, ⟨false, rfl⟩, bind_eq_some_iff.2 ⟨a, ha, ht⟩⟩
    cases a with
    | sleeping | releasing | released | measured _ | cancelling => exact ⟨_, rfl⟩
    | measuring | exceeding | scaling => cases hr
    | maintaining | failing | finished | asking _ | serving _ => exact absurd hstage (lt_irrefl 0)

lemma underway_step (hs : s.Sound) (hi : Task.failing ∉ s.tasks) (hf : Task.failing ∉ t.tasks)
    (h : Underway i k s) (ht : s.step e = some t) :
    Noticed k t ∨ Underway i k t ∧ Eased i s t e := by
  obtain ⟨hk, a, ha, hstage⟩ := h
  have hr := starts_le_step hs ht
  by_cases he : ∃ answer, e = .proceed i answer
  · obtain ⟨answer, rfl⟩ := he
    obtain ⟨a', ha', hp⟩ := bind_eq_some_iff.1 ht
    obtain rfl := Option.some.inj (ha.symm.trans ha')
    have hlen := (List.getElem?_eq_some_iff.1 ha).1
    rcases stage_proceed hlen hstage hp with hnew | hn | ⟨b, hb, ho, hlt⟩
    · exact Or.inl (Or.inl (by omega))
    · exact Or.inl (Or.inr hn)
    · refine Or.inr ⟨⟨by omega, b, hb, ho⟩, Or.inl ?_⟩
      rw [remaining_eq ha, remaining_eq hb]
      exact Prod.Lex.toLex_lt_toLex.2 (Or.inl hlt)
  · push Not at he
    obtain ⟨ha', hnew | hd⟩ := eased_step hs hi hf ha hstage ht he
    · exact Or.inl (Or.inl (by omega))
    · exact Or.inr ⟨⟨by omega, a, ha', hstage⟩, hd⟩

end State

namespace FairRun
variable (x : FairRun) {i k n m : ℕ}

lemma sound (n : ℕ) : (x.state n).Sound :=
  x.invariant (fun _ _ _ => State.sound_step) (x.start ▸ State.sound_start) n

/-- A task that sleeps leads to a maintenance that begins after it, or to the end of the server, if no
task has failed. -/
lemma underway_leadsTo (hf : ∀ n, Task.failing ∉ (x.state n).tasks) :
    x.LeadsTo (State.Underway i k) (State.Noticed k) :=
  Execution.leadsTo_of_measure (State.helper i) (State.remaining i) x.fair
    (I := fun s => s.Sound ∧ Task.failing ∉ s.tasks) (fun n => ⟨x.sound n, hf n⟩)
    (fun _ hI => State.enabled_helper hI.1 hI.2)
    (fun _ _ _ hI hI' => State.underway_step hI.1 hI.2 hI'.2)

end FairRun
end QJazz.Rpc.Signals
