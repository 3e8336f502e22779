import QJazz.Pool.Model
import QJazz.Transition.Run
import QJazz.Transition.Threads

/-! A task is cut at each point where it awaits or leaves a lock. -/
namespace QJazz.Pool
open Config Transition

inductive Stage where
  | awaiting
  | restoring
  | restored
deriving DecidableEq, Repr

inductive Update where
  | cache (state : Restore.State)
  | config (patch : Document)

def Update.apply (r : Restore) : Update → Restore
  | .cache state => r.updateCache state
  | .config patch => r.updateConfig patch

inductive Task (χ : Type*) where
  | client (w : Worker χ)
  | recycling (w : Worker χ)
  | cancelling (w : Worker χ)
  | updating (w : Worker χ)
  | restoring (w : Worker χ)
  | requeueing (w : Worker χ)
  | growing (members : List (Stage × Worker χ))
  | reloading
  | locking (u : Update)
  | draining (u : Update)
  | applying (u : Update)
  | ended

variable {χ : Type*}

namespace Task

/-- The workers a task will queue without another look at the generation. -/
def transit : Task χ → List (Worker χ)
  | .cancelling w | .updating w | .restoring w | .requeueing w => [w]
  | .growing members => members.map Prod.snd
  | _ => []

def ready : Task χ → List (Worker χ)
  | .requeueing w => [w]
  | .growing members => (members.filter (·.1 = .restored)).map Prod.snd
  | _ => []

def reading : Task χ → ℕ
  | .restoring _ => 1
  | .growing members => total (fun m => if m.1 = .restoring then 1 else 0) members
  | _ => 0

def writing : Task χ → ℕ
  | .draining _ | .applying _ => 1
  | _ => 0

end Task

structure Recycling (χ : Type*) where
  queue : WorkerQueue χ
  tasks : List (Task χ) := []

/-- `act i k ok` is the next action of task `i`, for its `k`-th worker if it grows the pool; `ok` is
the outcome of a graceful cancel. -/
inductive Recycling.Event (χ : Type*) where
  | recv
  | grow (children : List χ)
  | reload
  | update (u : Update)
  | act (i k : ℕ) (ok : Bool)

namespace Recycling

def start (maxRequests : ℕ) (projects : List String) : Recycling χ :=
  { queue := { maxRequests, restore := .withProjects projects } }

def readers (s : Recycling χ) : ℕ := total Task.reading s.tasks

def writers (s : Recycling χ) : ℕ := total Task.writing s.tasks

def become (s : Recycling χ) (i : ℕ) (task : Task χ) : Recycling χ :=
  { s with tasks := s.tasks.set i task }

def withQueue (s : Recycling χ) (queue : WorkerQueue χ) : Recycling χ := { s with queue }

def drain (s : Recycling χ) : Recycling χ :=
  { queue := s.queue.drain.2, tasks := s.tasks ++ s.queue.drain.1.map .recycling }

/-- The next action of a growth for one of its workers, or the end of it. -/
def resync (exec : WorkerCall → χ → Option χ) (s : Recycling χ) (i k : ℕ)
    (members : List (Stage × Worker χ)) : Option (Recycling χ) :=
  match members[k]? with
  | some (.awaiting, w) =>
    if s.writers = 0 then some (s.become i (.growing (members.set k (.restoring, w)))) else none
  | some (.restoring, w) =>
    match s.queue.restore.restore exec w with
    | some w => some (s.become i (.growing (members.set k (.restored, w))))
    | none => some (s.become i .ended)
  | some (.restored, _) => none
  | none =>
    if members.all (·.1 = .restored) then
      some ((s.withQueue (s.queue.sendAll (members.map Prod.snd))).become i .ended)
    else none

def act (exec : WorkerCall → χ → Option χ) (s : Recycling χ) (i k : ℕ) (ok : Bool) :
    Task χ → Option (Recycling χ)
  | .client w => some (s.become i (.recycling w))
  | .recycling w =>
    if s.queue.outdated w then some ((s.withQueue s.queue.terminate).become i .ended)
    else some (s.become i (.cancelling w))
  | .cancelling w =>
    if ok then some (s.become i (.updating w))
    else some ((s.withQueue s.queue.terminateFailure).become i .ended)
  | .updating w => if s.writers = 0 then some (s.become i (.restoring w)) else none
  | .restoring w =>
    match s.queue.restore.restore exec w with
    | some w => some (s.become i (.requeueing w))
    | none => some ((s.withQueue s.queue.terminateFailure).become i .ended)
  | .requeueing w => some ((s.withQueue (s.queue.send w)).become i .ended)
  | .growing members => s.resync exec i k members
  | .reloading => some (s.become i .ended).drain
  | .locking u =>
    if s.writers = 0 ∧ s.readers = 0 then some (s.become i (.draining u)) else none
  | .draining u => some (s.become i (.applying u)).drain
  | .applying u =>
    some ((s.withQueue { s.queue with restore := u.apply s.queue.restore }).become i .ended)
  | .ended => none

def step (exec : WorkerCall → χ → Option χ) (s : Recycling χ) : Event χ → Option (Recycling χ)
  | .recv =>
    match s.queue.closed, s.queue.q with
    | false, w :: q => some { queue := { s.queue with q }, tasks := s.tasks ++ [.client w] }
    | _, _ => none
  | .grow children =>
    if s.queue.closed then none
    else
      let members := children.map fun child =>
        (Stage.awaiting, { child, generation := s.queue.generation })
      some { s with tasks := s.tasks ++ [.growing members] }
  | .reload => some { queue := s.queue.nextGeneration, tasks := s.tasks ++ [.reloading] }
  | .update u => some { s with tasks := s.tasks ++ [.locking u] }
  | .act i k ok => s.tasks[i]?.bind (s.act exec i k ok)

end Recycling

end QJazz.Pool
