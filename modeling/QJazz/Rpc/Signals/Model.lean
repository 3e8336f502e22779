import QJazz.Transition.Fair
import QJazz.Transition.Threads

/-! The signal thread starts a task for a SIGCHLD, unless one is waiting already. -/
namespace QJazz.Rpc.Signals

open Transition

inductive Handler where
  -- waiting for the next signal
  | waiting
  -- before `rescaling.load`
  | loading
  -- before `rescaling.store(true)`
  | storing
  -- before `tokio::spawn`
  | spawning
  -- out of the loop, before `token.cancel`
  | leaving
  | left
deriving DecidableEq

inductive Task where
  -- `time::sleep`
  | sleeping
  -- before `state.store(false)`
  | releasing
  -- before `pool.read`
  | released
  -- waiting to read the failure pressure
  | measuring
  -- before `pool.write`, and whether the pressure is too high
  | measured (exceeded : Bool)
  -- waiting to set the error
  | exceeding
  -- waiting to maintain the pool
  | scaling
  -- in `maintain_pool`
  | maintaining
  -- waiting to set the error after `maintain_pool` failed
  | failing
  -- before `token.cancel`
  | cancelling
  | finished
  -- a service that waits for the pool
  | asking (write : Bool)
  -- a service that has the pool
  | serving (write : Bool)
deriving DecidableEq

/-- A request for the pool: of which task, whether it is the second one of that task, and whether it is
for `write`. -/
structure Request where
  task : ℕ
  again : Bool
  write : Bool
deriving DecidableEq

/-- `pending` and `stop` are signals that were delivered and not taken yet. `starts` is the number
of times that `maintain_pool` was begun. -/
structure State where
  pending : Bool := false
  stop : Bool := false
  handler : Handler := .waiting
  rescaling : Bool := false
  tasks : List Task := []
  lock : List Request := []
  error : Bool := false
  cancelled : Bool := false
  starts : ℕ := 0
deriving DecidableEq

/-- SIGCHLD and SIGINT or SIGTERM are delivered; the thread takes a signal or goes on; a task goes
on, with the answer of the pool; a service comes or is given up. -/
inductive Event where
  | deliver
  | interrupt
  | poll (stop : Bool)
  | handle
  | proceed (i : ℕ) (answer : Bool)
  | arrive (write : Bool)
  | drop (i : ℕ)
deriving DecidableEq

inductive Process where
  | handler
  | task (i : ℕ)

def Process.Acts : Process → Event → Prop
  | .handler, e => e = .handle ∨ ∃ stop, e = .poll stop
  | .task i, e => ∃ answer, e = .proceed i answer

namespace State

def become (s : State) (i : ℕ) (t : Task) : State := { s with tasks := s.tasks.set i t }

def request (s : State) (r : Request) : State := { s with lock := s.lock ++ [r] }

def release (s : State) (r : Request) : State := { s with lock := s.lock.erase r }

def withLock (s : State) (r : Request) (t : State) : Option State :=
  if granted Request.write s.lock r then some t else none

def proceed (s : State) (i : ℕ) (answer : Bool) : Task → Option State
  | .sleeping => some (s.become i .releasing)
  | .releasing => some ({ s with rescaling := false }.become i .released)
  | .released => some ((s.request ⟨i, false, false⟩).become i .measuring)
  | .measuring =>
    s.withLock ⟨i, false, false⟩ ((s.release ⟨i, false, false⟩).become i (.measured answer))
  | .measured exceeded =>
    some ((s.request ⟨i, false, true⟩).become i (if exceeded then .exceeding else .scaling))
  | .exceeding =>
    s.withLock ⟨i, false, true⟩
      ({ s.release ⟨i, false, true⟩ with error := true }.become i .cancelling)
  | .scaling =>
    s.withLock ⟨i, false, true⟩ ({ s with starts := s.starts + 1 }.become i .maintaining)
  | .maintaining =>
    -- the guard of the scrutinee lives as long as the block that handles the error
    if answer then some ((s.request ⟨i, true, true⟩).become i .failing)
    else some ((s.release ⟨i, false, true⟩).become i .finished)
  | .failing =>
    s.withLock ⟨i, true, true⟩
      ({ (s.release ⟨i, true, true⟩).release ⟨i, false, true⟩ with error := true }.become i .cancelling)
  | .cancelling => some ({ s with cancelled := true }.become i .finished)
  | .finished => none
  | .asking write =>
    -- a service that writes patches the configuration, and maintains the pool if the patch is read
    s.withLock ⟨i, false, write⟩
      ({ s with starts := if write && answer then s.starts + 1 else s.starts }.become i (.serving write))
  | .serving write => some ((s.release ⟨i, false, write⟩).become i .finished)

def handle (s : State) : Option State :=
  match s.handler with
  | .loading => some { s with handler := if s.rescaling then .waiting else .storing }
  | .storing => some { s with rescaling := true, handler := .spawning }
  | .spawning => some { s with tasks := s.tasks ++ [Task.sleeping], handler := .waiting }
  | .leaving => some { s with cancelled := true, handler := .left }
  | .waiting | .left => none

def poll (s : State) (stop : Bool) : Option State :=
  if s.handler = .waiting then
    if stop then if s.stop then some { s with stop := false, handler := .leaving } else none
    else if s.pending then some { s with pending := false, handler := .loading } else none
  else none

/-- A service is given up, at its deadline or by its client. -/
def giveUp (s : State) (i : ℕ) : Task → Option State
  | .asking write | .serving write => some ((s.release ⟨i, false, write⟩).become i .finished)
  | _ => none

def step (s : State) : Event → Option State
  | .deliver => some { s with pending := true }
  | .interrupt => some { s with stop := true }
  | .poll stop => s.poll stop
  | .handle => s.handle
  | .proceed i answer => s.tasks[i]?.bind (s.proceed i answer)
  | .arrive write =>
    some { s.request ⟨s.tasks.length, false, write⟩ with tasks := s.tasks ++ [Task.asking write] }
  | .drop i => s.tasks[i]?.bind (s.giveUp i)

end State

/-- Fair to the thread and to every task: a sleep ends, and what has the lock gives it back, be it a
task in `maintain_pool` or a service. -/
structure FairRun extends Execution State.step where
  start : state 0 = {}
  fair : ∀ p : Process, toExecution.WeaklyFair p.Acts

end QJazz.Rpc.Signals
