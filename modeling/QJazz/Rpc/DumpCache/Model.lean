import Mathlib.Data.List.Perm.Subperm
import QJazz.Pool.Model
import QJazz.Transition.Fair
import QJazz.Transition.Threads

/-! A dump takes all the idle workers and then receives one after the other, and keeps those it has
while it waits. -/
namespace QJazz.Rpc.DumpCache

open Transition List

inductive Stage where
  -- before `workers.len() < num_workers`
  | counting
  -- before `num_waiters() > max_requests()`
  | arriving
  -- before `is_closed`
  | checking
  -- before `pop_front`
  | popping
  -- before `pending.fetch_add`
  | enlisting
  -- in `notified().await`
  | waiting
  -- before `pending.fetch_sub`
  | resumed
deriving DecidableEq

inductive Failure where
  | pool (err : Pool.Error)
  | timeout
deriving DecidableEq

inductive Call (α : Type*) where
  -- a dump that waits for `pool.read`
  | reading
  -- a dump before `drain`
  | draining (wanted : ℕ)
  | gathering (wanted : ℕ) (held : List α) (stage : Stage)
  -- has the workers it asked for, and uses one after the other
  | serving (held : List α)
  | finished
  | failed (why : Failure)
deriving DecidableEq

structure State (α : Type*) where
  numProcesses : ℕ
  maxRequests : ℕ
  idle : List α
  recycling : List α := []
  pending : ℕ := 0
  closed : Bool := false
  calls : List (Call α) := []
deriving DecidableEq

/-- A dump or another request comes; a call goes on, with the outcome of what it does with a worker,
is woken or is past its deadline; a worker is recycled; an update drains the queue; the queue is
closed; the limit of the waiting requests is configured. -/
inductive Event (α : Type*) where
  | call (dump : Bool)
  | proceed (i : ℕ) (ok : Bool)
  | wake (i : ℕ)
  | expire (i : ℕ)
  | recycle (w : α)
  | update
  | close
  | setMaxRequests (n : ℕ)
deriving DecidableEq

variable {α : Type*}

def Call.held : Call α → List α
  | .gathering _ held _ | .serving held => held
  | .reading | .draining _ | .finished | .failed _ => []

namespace State

def start (workers : List α) (maxRequests : ℕ) : State α :=
  { numProcesses := workers.length, maxRequests, idle := workers }

def become (s : State α) (i : ℕ) (c : Call α) : State α := { s with calls := s.calls.set i c }

/-- Dropping a scoped worker starts its recycling. -/
def release (s : State α) (workers : List α) : State α :=
  { s with recycling := s.recycling ++ workers }

def fail (s : State α) (i : ℕ) (held : List α) (why : Failure) : State α :=
  (s.release held).become i (.failed why)

def gather (s : State α) (i wanted : ℕ) (held : List α) : Stage → Option (State α)
  | .counting =>
    some (s.become i (if held.length < wanted then .gathering wanted held .arriving else .serving held))
  | .arriving =>
    some (if s.pending > s.maxRequests then s.fail i held (.pool .maxRequestsExceeded)
      else s.become i (.gathering wanted held .checking))
  | .checking =>
    some (if s.closed then s.fail i held (.pool .queueIsClosed)
      else s.become i (.gathering wanted held .popping))
  | .popping =>
    some (match s.idle with
      | w :: idle => { s with idle }.become i (.gathering wanted (held ++ [w]) .counting)
      | [] => s.become i (.gathering wanted held .enlisting))
  | .enlisting =>
    some ({ s with pending := s.pending + 1 }.become i (.gathering wanted held .waiting))
  | .waiting => none
  | .resumed =>
    some ({ s with pending := s.pending - 1 }.become i (.gathering wanted held .checking))

def proceed (s : State α) (i : ℕ) (ok : Bool) : Call α → Option (State α)
  | .draining wanted => some ({ s with idle := [] }.become i (.gathering wanted s.idle .counting))
  | .gathering wanted held stage => s.gather i wanted held stage
  | .serving (w :: held) =>
    -- an error ends the loop, and the others are dropped as well
    some (if ok then (s.release [w]).become i (.serving held)
      else (s.release (w :: held)).become i .finished)
  | .serving [] => some (s.become i .finished)
  | .reading | .finished | .failed _ => none

def wake (s : State α) (i : ℕ) : Call α → Option (State α)
  | .reading => some (s.become i (.draining s.numProcesses))
  | .gathering wanted held .waiting => some (s.become i (.gathering wanted held .resumed))
  | _ => none

/-- The handler is dropped where it awaits. A waiter that is dropped stays counted in `pending`. -/
def expire (s : State α) (i : ℕ) : Call α → Option (State α)
  | .reading => some (s.fail i [] .timeout)
  | .gathering _ held .waiting => some (s.fail i held .timeout)
  | _ => none

variable [DecidableEq α]

def step (s : State α) : Event α → Option (State α)
  | .call dump =>
    some { s with calls := s.calls ++ [if dump then .reading else .gathering 1 [] .arriving] }
  | .proceed i ok => s.calls[i]?.bind (s.proceed i ok)
  | .wake i => s.calls[i]?.bind (s.wake i)
  | .expire i => s.calls[i]?.bind (s.expire i)
  | .recycle w =>
    if w ∈ s.recycling then
      some { s with recycling := s.recycling.erase w, idle := s.idle ++ [w] }
    else none
  | .update => some { s.release s.idle with idle := [] }
  | .close => some { s with closed := true }
  | .setMaxRequests n => some { s with maxRequests := n }

end State

/-- A call that can go on by itself does, a recycling comes to its end, and a call that awaits again
and again is ended by its deadline. Nothing is said about when calls are woken. -/
structure FairRun (α : Type*) [DecidableEq α] extends Execution (State.step (α := α)) where
  workers : List α
  maxRequests : ℕ
  start : state 0 = State.start workers maxRequests
  calls : ∀ i, toExecution.WeaklyFair fun e => ∃ ok, e = .proceed i ok
  recyclings : ∀ w, toExecution.WeaklyFair fun e => e = .recycle w
  deadlines : ∀ i, toExecution.StronglyFair fun e => e = .expire i

namespace State
variable {s t : State α} {e : Event α} {i : ℕ} {c d : Call α} {workers : List α}

structure Turned [DecidableEq α] (s : State α) (i : ℕ) (c d : Call α) (t : State α) : Prop where
  calls : t.calls = s.calls.set i d
  numProcesses : t.numProcesses = s.numProcesses
  recycling : s.recycling ⊆ t.recycling
  count : ∀ w, t.idle.count w + t.recycling.count w + d.held.count w =
    s.idle.count w + s.recycling.count w + c.held.count w

variable [DecidableEq α]

lemma turned_become (h : d.held = c.held) : Turned s i c d (s.become i d) :=
  ⟨rfl, rfl, List.Subset.refl _, fun w => by rw [h]; rfl⟩

lemma turned_fail {held : List α} {why : Failure} (h : c.held = held) :
    Turned s i c (.failed why) (s.fail i held why) := by
  refine ⟨rfl, rfl, subset_append_left _ _, fun w => ?_⟩
  show s.idle.count w + (s.recycling ++ held).count w + 0 = _
  rw [count_append, h]
  omega

lemma turned_gather {a : ℕ} {held : List α} {g : Stage} (h : s.gather i a held g = some t) :
    ∃ d, Turned s i (.gathering a held g) d t := by
  cases g with
  | counting =>
    cases h
    refine ⟨_, turned_become ?_⟩
    split <;> rfl
  | arriving | checking =>
    cases h
    split
    · exact ⟨_, turned_fail rfl⟩
    · exact ⟨_, turned_become rfl⟩
  | popping =>
    cases h
    split
    next w l hi =>
      refine ⟨.gathering a (held ++ [w]) .counting, rfl, rfl, List.Subset.refl _, fun v => ?_⟩
      show l.count v + s.recycling.count v + (held ++ [w]).count v =
        s.idle.count v + s.recycling.count v + held.count v
      rw [hi, count_append, count_cons, count_cons, count_nil]
      omega
    · exact ⟨_, turned_become rfl⟩
  | enlisting | resumed =>
    cases h
    exact ⟨_, rfl, rfl, List.Subset.refl _, fun _ => rfl⟩
  | waiting => cases h

lemma turned_proceed {ok : Bool} (h : s.proceed i ok c = some t) : ∃ d, Turned s i c d t := by
  cases c with
  | reading | finished | failed why => cases h
  | draining a =>
    cases h
    refine ⟨.gathering a s.idle .counting, rfl, rfl, List.Subset.refl _, fun v => ?_⟩
    show 0 + s.recycling.count v + s.idle.count v = s.idle.count v + s.recycling.count v + 0
    omega
  | gathering a held g => exact turned_gather h
  | serving held =>
    cases held with
    | nil =>
      cases h
      exact ⟨_, turned_become rfl⟩
    | cons w held =>
      cases h
      cases ok with
      | true =>
        refine ⟨.serving held, rfl, rfl, subset_append_left _ _, fun v => ?_⟩
        show s.idle.count v + (s.recycling ++ [w]).count v + held.count v =
          s.idle.count v + s.recycling.count v + (w :: held).count v
        rw [count_append, count_cons, count_cons, count_nil]
        omega
      | false =>
        refine ⟨.finished, rfl, rfl, subset_append_left _ _, fun v => ?_⟩
        show s.idle.count v + (s.recycling ++ w :: held).count v + 0 =
          s.idle.count v + s.recycling.count v + (w :: held).count v
        rw [count_append]
        omega

lemma turned_wake (h : s.wake i c = some t) : ∃ d, Turned s i c d t := by
  unfold wake at h
  split at h <;> cases h
  · exact ⟨_, turned_become rfl⟩
  · exact ⟨_, turned_become rfl⟩

lemma turned_expire (h : s.expire i c = some t) : ∃ d, Turned s i c d t := by
  unfold expire at h
  split at h <;> cases h
  · exact ⟨_, turned_fail rfl⟩
  · exact ⟨_, turned_fail rfl⟩

lemma step_cases (h : s.step e = some t) : (∃ i c d, s.calls[i]? = some c ∧ Turned s i c d t ∧
      ((∃ ok, e = .proceed i ok ∧ s.proceed i ok c = some t) ∨
        e = .wake i ∧ s.wake i c = some t ∨ e = .expire i ∧ s.expire i c = some t)) ∨
      (∃ u c, e = .call u ∧ c.held = [] ∧ t = { s with calls := s.calls ++ [c] }) ∨
      (∃ w ∈ s.recycling, e = .recycle w ∧
        t = { s with recycling := s.recycling.erase w, idle := s.idle ++ [w] }) ∨
      (e = .update ∧ t = { s.release s.idle with idle := [] }) ∨
      (e = .close ∧ t = { s with closed := true }) ∨
      ∃ n, e = .setMaxRequests n ∧ t = { s with maxRequests := n } := by
  cases e with
  | call u =>
    cases h
    refine Or.inr (Or.inl ⟨u, _, rfl, ?_, rfl⟩)
    split <;> rfl
  | proceed i ok =>
    obtain ⟨c, hc, hp⟩ := Option.bind_eq_some_iff.1 h
    obtain ⟨d, ht⟩ := turned_proceed hp
    exact Or.inl ⟨i, c, d, hc, ht, Or.inl ⟨ok, rfl, hp⟩⟩
  | wake i =>
    obtain ⟨c, hc, hk⟩ := Option.bind_eq_some_iff.1 h
    obtain ⟨d, ht⟩ := turned_wake hk
    exact Or.inl ⟨i, c, d, hc, ht, Or.inr (Or.inl ⟨rfl, hk⟩)⟩
  | expire i =>
    obtain ⟨c, hc, he⟩ := Option.bind_eq_some_iff.1 h
    obtain ⟨d, ht⟩ := turned_expire he
    exact Or.inl ⟨i, c, d, hc, ht, Or.inr (Or.inr ⟨rfl, he⟩)⟩
  | recycle w =>
    simp only [step] at h
    split at h
    next hw =>
      cases h
      exact Or.inr (Or.inr (Or.inl ⟨w, hw, rfl, rfl⟩))
    · cases h
  | update =>
    cases h
    exact Or.inr (Or.inr (Or.inr (Or.inl ⟨rfl, rfl⟩)))
  | close =>
    cases h
    exact Or.inr (Or.inr (Or.inr (Or.inr (Or.inl ⟨rfl, rfl⟩))))
  | setMaxRequests n =>
    cases h
    exact Or.inr (Or.inr (Or.inr (Or.inr (Or.inr ⟨n, rfl, rfl⟩))))

def owned (s : State α) (w : α) : ℕ :=
  s.idle.count w + s.recycling.count w + total (fun c => c.held.count w) s.calls

/-- The workers of the pool are idle, recycled or held by a call. -/
structure Sound (workers : List α) (s : State α) : Prop where
  numProcesses : s.numProcesses = workers.length
  owned : ∀ w, s.owned w = workers.count w

lemma sound_start {m : ℕ} : Sound workers (start workers m) :=
  ⟨rfl, fun _ => rfl⟩

lemma sound_turned (hs : Sound workers s) (hc : s.calls[i]? = some c) (h : Turned s i c d t) :
    Sound workers t := by
  refine ⟨h.numProcesses.trans hs.numProcesses, fun w => ?_⟩
  have ht : total (fun c => c.held.count w) t.calls + c.held.count w =
      total (fun c => c.held.count w) s.calls + d.held.count w := by
    rw [h.calls]
    exact total_set hc
  have hcount := h.count w
  have ho := hs.owned w
  unfold State.owned at ho ⊢
  omega

lemma sound_step (hs : Sound workers s) (h : s.step e = some t) : Sound workers t := by
  rcases step_cases h with ⟨i, c, d, hc, ht, -⟩ | ⟨u, c, -, hnew, rfl⟩ | ⟨v, hv, -, rfl⟩ |
    ⟨-, rfl⟩ | ⟨-, rfl⟩ | ⟨n, -, rfl⟩
  · exact sound_turned hs hc ht
  · refine ⟨hs.numProcesses, fun w => ?_⟩
    have ho := hs.owned w
    unfold State.owned at ho ⊢
    rw [total_append, total_cons, total_nil, hnew]
    exact ho
  · refine ⟨hs.numProcesses, fun w => ?_⟩
    have hp := (perm_cons_erase hv).count_eq w
    have ho := hs.owned w
    unfold State.owned at ho ⊢
    show (s.idle ++ [v]).count w + (s.recycling.erase v).count w +
      total (fun c => c.held.count w) s.calls = _
    rw [count_append, count_cons, count_nil]
    rw [count_cons] at hp
    omega
  · refine ⟨hs.numProcesses, fun w => ?_⟩
    have ho := hs.owned w
    unfold State.owned at ho ⊢
    show 0 + (s.recycling ++ s.idle).count w + total (fun c => c.held.count w) s.calls = _
    rw [count_append]
    omega
  · exact ⟨hs.numProcesses, hs.owned⟩
  · exact ⟨hs.numProcesses, hs.owned⟩

lemma Sound.held_subperm (hs : Sound workers s) (hc : s.calls[i]? = some c) :
    c.held.Subperm workers := by
  refine subperm_ext_iff.2 fun w _ => ?_
  have hle : c.held.count w ≤ total (fun c => c.held.count w) s.calls :=
    le_total (f := fun c => c.held.count w) hc
  have ho := hs.owned w
  unfold State.owned at ho
  omega

lemma Sound.perm (hs : Sound workers s) :
    (s.idle ++ s.recycling ++ s.calls.flatMap Call.held).Perm workers := by
  have hf (w : α) (calls : List (Call α)) :
      (calls.flatMap Call.held).count w = total (fun c => c.held.count w) calls := by
    induction calls with
    | nil => rfl
    | cons c calls ih => rw [flatMap_cons, count_append, ih, total_cons]
  refine perm_iff_count.2 fun w => ?_
  rw [count_append, count_append, hf]
  exact hs.owned w

end State
end QJazz.Rpc.DumpCache
