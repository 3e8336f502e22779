import QJazz.Pool.Model
import QJazz.Transition.Run
import QJazz.Transition.Threads

/-! A thread state is the next atomic action of a caller: an access to an atomic counter, an action
under the lock, or a call of the notifier. -/
namespace QJazz.Pool.Queue
open Transition

/-- The next action of a caller. `woken` tells whether a receiver comes back from a wait. -/
inductive Thread (α : Type*) where
  | arrive
  | check (woken : Bool)
  | pop (woken : Bool)
  | uncount (item : α)
  | enlist (woken : Bool)
  | create
  | poll (epoch : ℕ)
  | waiting
  | notified (all : Bool)
  | resumed
  | done (result : Except Error α)
  | dropped
  | push (item : α)
  | recount
  | notifyOne
  | pushAll (items : List α)
  | drain (n : ℕ)
  | retain (keep : α → Bool)
  | storeCount (sent : ℕ)
  | notifyAll (sent : ℕ)
  | closing
  | notifyWaiters
  | finished

/-- `count` is an unsigned atomic that wraps around: a receiver may take an item off it before the
sender has put it on. -/
structure State (α : Type*) where
  queue : List α := []
  closed : Bool := false
  count : ℤ := 0
  pending : ℕ := 0
  permit : Bool := false
  epoch : ℕ := 0
  maxRequests : ℕ
  threads : List (Thread α) := []

inductive Call (α : Type*) where
  | recv
  | send (item : α)
  | sendAll (items : List α)
  | drain (n : ℕ)
  | drainMap
  | retain (keep : α → Bool)
  | close

inductive Event (α : Type*) where
  | call (c : Call α)
  | step (i : ℕ) (target : Option ℕ)
  | cancel (i : ℕ) (target : Option ℕ)
  | setMaxRequests (n : ℕ)

variable {α : Type*}

/-- The first action of a call. `drain_map` keeps nothing and stores the length that is left. -/
def Call.entry : Call α → Thread α
  | .recv => .arrive
  | .send item => .push item
  | .sendAll items => .pushAll items
  | .drain n => .drain n
  | .drainMap => .retain fun _ => false
  | .retain keep => .retain keep
  | .close => .closing

/-- The thread has the lock since its last action. A receiver that got an item keeps it until the item
is taken off the counter. -/
def Thread.holdsLock : Thread α → Bool
  | .uncount _ | .storeCount _ | .notifyAll _ => true
  | _ => false

def Thread.isWaiting : Thread α → Bool
  | .waiting => true
  | _ => false

def Thread.wake : Thread α → Thread α
  | .waiting => .notified true
  | a => a

namespace State

def start (maxRequests : ℕ) : State α := { maxRequests }

def goto (s : State α) (i : ℕ) (a : Thread α) : State α := { s with threads := s.threads.set i a }

def locked (s : State α) : Bool := s.threads.any (·.holdsLock)

/-- Wake the target, which must be registered, or store the permit when nobody is. -/
def notify (s : State α) : Option ℕ → Option (State α)
  | some j =>
    match s.threads[j]? with
    | some .waiting => some (s.goto j (.notified false))
    | _ => none
  | none => if s.threads.any (·.isWaiting) then none else some { s with permit := true }

def underLock (s t : State α) : Option (State α) := if s.locked then none else some t

def advance (s : State α) (i : ℕ) (target : Option ℕ) : Thread α → Option (State α)
  | .arrive => some (s.goto i
      (if s.pending > s.maxRequests then .done (.error .maxRequestsExceeded) else .check false))
  | .check woken => some (s.goto i (if s.closed then .done (.error .queueIsClosed) else .pop woken))
  | .pop woken => s.underLock <|
    match s.queue with
    | item :: queue => { s with queue }.goto i (.uncount item)
    | [] => s.goto i (.enlist woken)
  | .uncount item => some ({ s with count := s.count - 1 }.goto i (.done (.ok item)))
  | .enlist _ => some ({ s with pending := s.pending + 1 }.goto i .create)
  | .create => some (s.goto i (.poll s.epoch))
  | .poll epoch =>
    some (if s.permit then { s with permit := false }.goto i .resumed
      else s.goto i (if epoch ≠ s.epoch then .resumed else .waiting))
  | .notified _ => some (s.goto i .resumed)
  | .resumed => some ({ s with pending := s.pending - 1 }.goto i (.check true))
  | .push item => s.underLock ({ s with queue := s.queue ++ [item] }.goto i .recount)
  | .recount => some ({ s with count := s.count + 1 }.goto i .notifyOne)
  | .notifyOne => (s.goto i .finished).notify target
  | .pushAll items =>
    s.underLock ({ s with queue := s.queue ++ items }.goto i (.storeCount items.length))
  | .drain n => s.underLock ({ s with queue := s.queue.drop n }.goto i (.storeCount 0))
  | .retain keep => s.underLock ({ s with queue := s.queue.filter keep }.goto i (.storeCount 0))
  | .storeCount sent => some ({ s with count := s.queue.length }.goto i (.notifyAll sent))
  | .notifyAll 0 => some (s.goto i .finished)
  | .notifyAll (sent + 1) => (s.goto i (.notifyAll sent)).notify target
  | .closing => some ({ s with closed := true }.goto i .notifyWaiters)
  | .notifyWaiters =>
    some ({ s with epoch := s.epoch + 1, threads := s.threads.map Thread.wake }.goto i .finished)
  | .waiting | .done _ | .dropped | .finished => none

/-- Drop the future of a receiver at its only suspension point. A notification for one waiter that
it has not consumed is passed on. -/
def cancel (s : State α) (i : ℕ) (target : Option ℕ) : Thread α → Option (State α)
  | .waiting | .notified true => some (s.goto i .dropped)
  | .notified false => (s.goto i .dropped).notify target
  | _ => none

def step (s : State α) : Event α → Option (State α)
  | .call c => some { s with threads := s.threads ++ [c.entry] }
  | .step i target => s.threads[i]?.bind (s.advance i target)
  | .cancel i target => s.threads[i]?.bind (s.cancel i target)
  | .setMaxRequests n => some { s with maxRequests := n }

def alone (i n : ℕ) : List (Event α) := List.replicate n (.step i none)

variable {s t : State α} {i : ℕ} {target : Option ℕ} {a b : Thread α}

lemma isWaiting_iff : a.isWaiting ↔ a = .waiting := by
  cases a <;> simp [Thread.isWaiting]

lemma notify_cases (h : s.notify target = some t) :
    (∃ j, s.threads[j]? = some .waiting ∧ t = s.goto j (.notified false)) ∨
      ((∀ a ∈ s.threads, a ≠ .waiting) ∧ t = { s with permit := true }) := by
  unfold notify at h
  split at h
  next j =>
    split at h
    next hj =>
      cases h
      exact .inl ⟨j, hj, rfl⟩
    · cases h
  · split at h
    · cases h
    next hn =>
      cases h
      refine .inr ⟨fun a ha hw => hn ?_, rfl⟩
      exact List.any_eq_true.2 ⟨a, ha, isWaiting_iff.2 hw⟩

lemma underLock_eq_some {u : State α} (h : s.underLock t = some u) : u = t := by
  unfold underLock at h
  split at h
  · cases h
  · cases h
    rfl

end State

end QJazz.Pool.Queue
