import Mathlib.Data.Prod.Lex
import QJazz.Rpc.DumpCache.Model

/-! Between two points where it awaits a dump takes finitely many steps. So it ends, or awaits again
and again until its deadline. -/
namespace QJazz.Rpc.DumpCache

open Transition State

variable {α : Type*}

inductive Call.Asks (n : ℕ) : Call α → Prop
  | reading : Asks n .reading
  | draining : Asks n (.draining n)
  | gathering (held : List α) (stage : Stage) : Asks n (.gathering n held stage)

/-- It has failed, or has as many workers as it asks for. -/
inductive Call.Settled (n : ℕ) : Call α → Prop
  | failed (why : Failure) : Settled n (.failed why)
  | serving (held : List α) (h : n ≤ held.length) : Settled n (.serving held)

def Call.awaits : Call α → Bool
  | .reading | .gathering _ _ .waiting => true
  | _ => false

/-- How many steps it is to the next point where the loop awaits, at most. -/
def Stage.ahead : Stage → ℕ
  | .counting => 5
  | .arriving | .resumed => 4
  | .checking => 3
  | .popping => 2
  | .enlisting => 1
  | .waiting => 0

/-- The workers that are missing, and the steps in this round of the loop. -/
def Call.ahead (n : ℕ) : Call α → ℕ ×ₗ ℕ
  | .gathering _ held stage => toLex (n - held.length, stage.ahead)
  | _ => toLex (n + 1, 0)

namespace State
variable {s t : State α} {e : Event α} {i n : ℕ} {c d : Call α} {workers held : List α}
  {stage : Stage} {ok : Bool}

lemma getElem?_become (hi : i < s.calls.length) : (s.become i c).calls[i]? = some c :=
  List.getElem?_set_self hi

lemma ahead_lt_of_stage {a : Stage} (h : a.ahead < stage.ahead) :
    (Call.gathering n held a).ahead n < (Call.gathering n held stage).ahead n :=
  Prod.Lex.toLex_lt_toLex.2 (Or.inr ⟨rfl, h⟩)

lemma settled_or_ahead_gather (hi : i < s.calls.length) (h : s.gather i n held stage = some t)
    (hle : ∀ d, t.calls[i]? = some d → d.held.length ≤ n) : ∃ d, t.calls[i]? = some d ∧
      (d.Settled n ∨ d.Asks n ∧ d.ahead n < (Call.gathering n held stage).ahead n) := by
  cases stage with
  | counting =>
    cases h
    refine ⟨_, getElem?_become hi, ?_⟩
    split
    · exact Or.inr ⟨.gathering _ _, ahead_lt_of_stage (by decide)⟩
    next hlen => exact Or.inl (.serving held (by omega))
  | arriving | checking =>
    cases h
    split
    · exact ⟨_, getElem?_become hi, Or.inl (.failed _)⟩
    · exact ⟨_, getElem?_become hi, Or.inr ⟨.gathering _ _, ahead_lt_of_stage (by decide)⟩⟩
  | popping =>
    cases hd : s.idle with
    | cons w l =>
      simp only [gather, hd] at h
      cases h
      have hlen := hle _ (getElem?_become hi)
      refine ⟨_, getElem?_become hi, Or.inr ⟨.gathering _ _, Prod.Lex.toLex_lt_toLex.2 (Or.inl ?_)⟩⟩
      simp only [Call.held, List.length_append, List.length_singleton] at hlen ⊢
      omega
    | nil =>
      simp only [gather, hd] at h
      cases h
      exact ⟨_, getElem?_become hi, Or.inr ⟨.gathering _ _, ahead_lt_of_stage (by decide)⟩⟩
  | enlisting | resumed =>
    cases h
    exact ⟨_, getElem?_become hi, Or.inr ⟨.gathering _ _, ahead_lt_of_stage (by decide)⟩⟩
  | waiting => cases h

lemma settled_or_ahead_proceed (hi : i < s.calls.length) (hc : c.Asks n)
    (h : s.proceed i ok c = some t) (hle : ∀ d, t.calls[i]? = some d → d.held.length ≤ n) :
    ∃ d, t.calls[i]? = some d ∧ (d.Settled n ∨ d.Asks n ∧ d.ahead n < c.ahead n) := by
  cases hc with
  | reading => cases h
  | draining =>
    cases h
    refine ⟨_, getElem?_become hi, Or.inr ⟨.gathering _ _, Prod.Lex.toLex_lt_toLex.2 (Or.inl ?_)⟩⟩
    exact Nat.lt_succ_of_le (Nat.sub_le _ _)
  | gathering held stage => exact settled_or_ahead_gather hi h hle

lemma asks_wake (hi : i < s.calls.length) (hc : c.Asks s.numProcesses) (h : s.wake i c = some t) :
    c.awaits ∧ ∃ d, t.calls[i]? = some d ∧ d.Asks s.numProcesses := by
  cases hc with
  | reading =>
    cases h
    exact ⟨rfl, _, getElem?_become hi, .draining⟩
  | draining => cases h
  | gathering held stage =>
    cases stage with
    | waiting =>
      cases h
      exact ⟨rfl, _, getElem?_become hi, .gathering _ _⟩
    | _ => cases h

lemma failed_expire (hi : i < s.calls.length) (h : s.expire i c = some t) :
    t.calls[i]? = some (.failed .timeout) := by
  unfold expire at h
  split at h <;> cases h
  · exact getElem?_become hi
  · exact getElem?_become hi

variable [DecidableEq α]

lemma enabled_proceed (hc : s.calls[i]? = some c) (hk : c.Asks n) (hw : c.awaits = false) :
    Enabled step (fun e => ∃ ok, e = .proceed i ok) s := by
  suffices hp : ∃ t, s.proceed i true c = some t by
    obtain ⟨t, ht⟩ := hp
    exact ⟨.proceed i true, t, ⟨true, rfl⟩, Option.bind_eq_some_iff.2 ⟨c, hc, ht⟩⟩
  cases hk with
  | reading => cases hw
  | draining => exact ⟨_, rfl⟩
  | gathering held stage =>
    cases stage with
    | waiting => cases hw
    | _ => exact ⟨_, rfl⟩

lemma enabled_expire (hc : s.calls[i]? = some c) (hw : c.awaits) :
    Enabled step (fun e => e = .expire i) s := by
  suffices he : ∃ t, s.expire i c = some t by
    obtain ⟨t, ht⟩ := he
    exact ⟨.expire i, t, rfl, Option.bind_eq_some_iff.2 ⟨c, hc, ht⟩⟩
  unfold Call.awaits at hw
  split at hw
  · exact ⟨_, rfl⟩
  · exact ⟨_, rfl⟩
  · cases hw

lemma getElem?_step (hc : s.calls[i]? = some c) (h : s.step e = some t)
    (hp : ∀ ok, e ≠ .proceed i ok) (hw : e ≠ .wake i) (hx : e ≠ .expire i) :
    t.calls[i]? = some c := by
  rcases step_cases h with ⟨j, c', d, -, ht, hby⟩ | ⟨u, c', -, -, rfl⟩ | ⟨w, -, -, rfl⟩ |
    ⟨-, rfl⟩ | ⟨-, rfl⟩ | ⟨n, -, rfl⟩
  · have hji : j ≠ i := by
      rintro rfl
      rcases hby with ⟨ok, he, -⟩ | ⟨he, -⟩ | ⟨he, -⟩
      · exact hp ok he
      · exact hw he
      · exact hx he
    rw [ht.calls, List.getElem?_set_ne hji, hc]
  · exact (List.getElem?_append_left (List.getElem?_eq_some_iff.1 hc).1).trans hc
  all_goals exact hc

/-- The call has all the workers of the pool; or it has failed and has none, and the workers are idle,
recycled or with other calls. -/
def Ended (workers : List α) (i : ℕ) (s : State α) : Prop :=
  (∃ held, s.calls[i]? = some (.serving held) ∧ held.Perm workers) ∨
    (∃ why, s.calls[i]? = some (.failed why)) ∧
      (s.idle ++ s.recycling ++ s.calls.flatMap Call.held).Perm workers

lemma ended_of_settled (hs : Sound workers s) (hc : s.calls[i]? = some c)
    (h : c.Settled workers.length) : Ended workers i s := by
  cases h with
  | failed why => exact Or.inr ⟨⟨why, hc⟩, hs.perm⟩
  | serving held hle => exact Or.inl ⟨held, hc, (hs.held_subperm hc).perm_of_length_le hle⟩

/-- A step ends the dump, or it is one of another, or it wakes the dump, or it brings it nearer to the
next point where it awaits. -/
lemma asks_step (hs : Sound workers s) (ht : Sound workers t) (hc : s.calls[i]? = some c)
    (hak : c.Asks workers.length) (h : s.step e = some t) :
    Ended workers i t ∨ e ≠ .expire i ∧ ∃ d, t.calls[i]? = some d ∧ d.Asks workers.length ∧
      (c.awaits ∨ d.ahead workers.length < c.ahead workers.length ∨
        d = c ∧ ∀ ok, e ≠ .proceed i ok) := by
  have hi := (List.getElem?_eq_some_iff.1 hc).1
  have ho {f : Call α → Option (State α)} (h : s.calls[i]?.bind f = some t) : f c = some t := by
    rwa [hc] at h
  by_cases he : e = .expire i
  · subst he
    exact Or.inl (ended_of_settled ht (failed_expire hi (ho h)) (.failed _))
  by_cases hw : e = .wake i
  · subst hw
    obtain ⟨haw, d, hd, hk⟩ := asks_wake hi (hs.numProcesses ▸ hak) (ho h)
    exact Or.inr ⟨he, d, hd, hs.numProcesses ▸ hk, Or.inl haw⟩
  by_cases hp : ∃ ok, e = .proceed i ok
  · obtain ⟨ok, rfl⟩ := hp
    obtain ⟨d, hd, hl | ⟨hk, hlt⟩⟩ :=
      settled_or_ahead_proceed hi hak (ho h) fun d hd => (ht.held_subperm hd).length_le
    · exact Or.inl (ended_of_settled ht hd hl)
    · exact Or.inr ⟨he, d, hd, hk, Or.inr (Or.inl hlt)⟩
  · push Not at hp
    exact Or.inr ⟨he, c, getElem?_step hc h hp hw he, hak, Or.inr (Or.inr ⟨rfl, hp⟩)⟩

end State

def crossing : List (Event ℕ) :=
  [[.call false], List.replicate 4 (.proceed 0 true), [.call true, .wake 1],
    List.replicate 6 (.proceed 1 true), [.call true, .wake 2], List.replicate 6 (.proceed 2 true),
    List.replicate 2 (.proceed 0 true), [.recycle 0, .wake 2],
    List.replicate 8 (.proceed 2 true)].flatten

def crossed : State ℕ where
  numProcesses := 2
  maxRequests := 50
  idle := []
  pending := 2
  calls := [.finished, .gathering 2 [1] .waiting, .gathering 2 [0] .waiting]

namespace FairRun
variable [DecidableEq α] (x : FairRun α) {i n : ℕ}

lemma sound (n : ℕ) : (x.state n).Sound x.workers :=
  x.invariant (fun _ _ _ => sound_step) (x.start ▸ sound_start) n

lemma awaits_leadsTo :
    x.LeadsTo (fun s => ∃ c, s.calls[i]? = some c ∧ c.Asks x.workers.length ∧ c.awaits = false)
      fun s => (∃ c, s.calls[i]? = some c ∧ c.Asks x.workers.length ∧ c.awaits) ∨
        s.Ended x.workers i := by
  refine Execution.leadsTo_of_measure (fun _ => i)
    (fun s => (s.calls[i]?).elim (toLex (0, 0)) (Call.ahead x.workers.length)) x.calls x.sound ?_ ?_
  · rintro s - ⟨c, hc, hk, hw⟩
    exact enabled_proceed hc hk hw
  · rintro s e t hs ht ⟨c, hc, hk, hw⟩ hp
    rcases asks_step hs ht hc hk hp with he | ⟨-, d, hd, hak, hh⟩
    · exact Or.inl (Or.inr he)
    · cases hi : d.awaits with
      | true => exact Or.inl (Or.inl ⟨d, hd, hak, hi⟩)
      | false =>
        refine Or.inr ⟨⟨d, hd, hak, hi⟩, ?_⟩
        rw [hc, hd]
        rcases hh with ho | hlt | ⟨rfl, hr⟩
        · rw [ho] at hw
          cases hw
        · exact Or.inl hlt
        · exact Or.inr ⟨rfl, rfl, fun ⟨ok, heq⟩ => hr ok heq⟩

lemma ended_leadsTo : x.LeadsTo (fun s => ∃ c, s.calls[i]? = some c ∧ c.Asks x.workers.length)
      (State.Ended x.workers i) := by
  refine Execution.leadsTo_of_stronglyFair (x.deadlines i) x.sound ?_ ?_
  · rintro n ⟨c, hc, hk⟩
    cases hw : c.awaits with
    | true => exact ⟨n, le_rfl, Or.inl (enabled_expire hc hw)⟩
    | false =>
      obtain ⟨m, hm, ⟨d, hd, -, hi⟩ | hn⟩ := x.awaits_leadsTo n ⟨c, hc, hk, hw⟩
      · exact ⟨m, hm, Or.inl (enabled_expire hd hi)⟩
      · exact ⟨m, hm, Or.inr hn⟩
  · rintro s e t hs ht ⟨c, hc, hk⟩ hp
    refine (asks_step hs ht hc hk hp).imp_right ?_
    rintro ⟨he, d, hd, hak, -⟩
    exact ⟨⟨d, hd, hak⟩, he⟩

/-- Every dump that is called ends with all the workers of the pool, or with an error and without any. -/
theorem dump_ends (h : x.event n = some (.call true)) :
    ∃ m > n, (x.state m).Ended x.workers (x.state n).calls.length := by
  have hn : (x.state (n + 1)).calls = (x.state n).calls ++ [Call.reading] := by
    rw [← Option.some.inj (Execution.step_of_event h)]
    rfl
  have hl : (x.state (n + 1)).calls[(x.state n).calls.length]? = some .reading := by
    rw [hn]
    simp
  obtain ⟨m, hm, he⟩ := x.ended_leadsTo (n + 1) ⟨.reading, hl, .reading⟩
  exact ⟨m, by omega, he⟩

end FairRun

def crossingEnd : List (Event ℕ) :=
  [crossing, [.expire 1, .expire 2, .recycle 1, .recycle 0]].flatten

def crossedEnd : State ℕ :=
  { crossed with idle := [1, 0], calls := [.finished, .failed .timeout, .failed .timeout] }

lemma run_crossingEnd : run State.step (.start [0, 1] 50) crossingEnd = some crossedEnd := by decide

def crossedRun : FairRun ℕ where
  toExecution := Execution.ofRun run_crossingEnd
  workers := [0, 1]
  maxRequests := 50
  start := rfl
  calls i := by
    refine Execution.weaklyFair_ofRun run_crossingEnd ?_
    rintro ⟨e, t, ⟨ok, rfl⟩, hstep⟩
    rcases i with _ | _ | _ | i <;> cases hstep
  recyclings w := by
    refine Execution.weaklyFair_ofRun run_crossingEnd ?_
    rintro ⟨e, t, rfl, hstep⟩
    cases hstep
  deadlines i := by
    refine Execution.stronglyFair_ofRun run_crossingEnd ?_
    rintro ⟨e, t, rfl, hstep⟩
    rcases i with _ | _ | _ | i <;> cases hstep

theorem dump_ends_crossed : crossedRun.event 5 = some (.call true) ∧
    ∃ m > 5, (crossedRun.state m).Ended [0, 1] 1 :=
  ⟨rfl, crossedRun.dump_ends rfl⟩

end QJazz.Rpc.DumpCache
