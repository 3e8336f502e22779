import QJazz.Pool.Restore.Model

/-! `WorkerQueue` is shared by the pool, the receivers and the recycling tasks; `Pool` adds what
only the pool itself changes. What the outside decides is an argument. -/
set_option linter.dupNamespace false
namespace QJazz.Pool
open Config

inductive Error where
  | queueIsClosed
  | maxRequestsExceeded
  | workerProcessFailure
  | workerFailure
deriving DecidableEq, Repr

structure WorkerQueue (χ : Type*) where
  q : List (Worker χ) := []
  closed : Bool := false
  deadWorkers : ℕ := 0
  maxRequests : ℕ
  generation : ℕ := 1
  failures : ℕ := 0
  restore : Restore

namespace WorkerQueue
variable {χ : Type*}

def nextGeneration (s : WorkerQueue χ) : WorkerQueue χ := { s with generation := s.generation + 1 }

def send (s : WorkerQueue χ) (w : Worker χ) : WorkerQueue χ := { s with q := s.q ++ [w] }

def sendAll (s : WorkerQueue χ) (ws : List (Worker χ)) : WorkerQueue χ := { s with q := s.q ++ ws }

def drain (s : WorkerQueue χ) : List (Worker χ) × WorkerQueue χ := (s.q, { s with q := [] })

def terminate (s : WorkerQueue χ) : WorkerQueue χ := { s with deadWorkers := s.deadWorkers + 1 }

def terminateFailure (s : WorkerQueue χ) : WorkerQueue χ :=
  terminate { s with failures := s.failures + 1 }

def outdated (s : WorkerQueue χ) (w : Worker χ) : Bool := w.generation < s.generation

/-- Recycling of a worker that was handed out. `cancelled` tells whether the graceful cancel of its
pending job succeeded. -/
def recycleOwned (exec : WorkerCall → χ → Option χ) (s : WorkerQueue χ) (w : Worker χ)
    (cancelled : Bool) : WorkerQueue χ :=
  if s.outdated w then s.terminate
  else if cancelled then
    match s.restore.restore exec w with
    | some w => s.send w
    | none => s.terminateFailure
  else s.terminateFailure

end WorkerQueue

structure Pool (χ : Type*) where
  queue : WorkerQueue χ
  nominal : ℕ
  numProcesses : ℕ := 0

namespace Pool
variable {χ : Type*}

def new (nominal maxRequests : ℕ) (projects : List String) : Pool χ :=
  { queue := { maxRequests, restore := .withProjects projects }, nominal }

def cleanupDeadWorkers (p : Pool χ) : Pool χ :=
  let alive := p.queue.q.filter (·.alive)
  { p with queue := { p.queue with
      q := alive, deadWorkers := p.queue.deadWorkers + (p.queue.q.length - alive.length) } }

/-- Add workers to the pool. The spawn of `n` processes yields the children `launch 0 .. launch (n-1)`
or fails as a whole, and so does their first restore. -/
def grow (exec : WorkerCall → χ → Option χ) (launch : Option (ℕ → χ)) (n : ℕ) (p : Pool χ) :
    Except Error (Pool χ) :=
  if p.queue.closed then .error .queueIsClosed
  else match launch with
    | none => .error .workerProcessFailure
    | some child =>
      let spawned : List (Worker χ) := (List.range n).map fun i =>
        { child := child i, generation := p.queue.generation }
      match spawned.mapM (p.queue.restore.restore exec) with
      | none => .error .workerFailure
      | some workers =>
        .ok { p with queue := p.queue.sendAll workers, numProcesses := p.numProcesses + n }

def shrink (n : ℕ) (p : Pool χ) : Except Error (Pool χ) :=
  if p.queue.closed then .error .queueIsClosed
  else
    let removed := p.queue.q.take n
    .ok { p with queue := { p.queue with q := p.queue.q.drop n }
                 numProcesses := p.numProcesses - removed.length }

/-- Take back the counts that were read when the maintenance began. -/
def settle (dead failures : ℕ) (p : Pool χ) : Pool χ :=
  { p with queue := { p.queue with
      failures := p.queue.failures - failures, deadWorkers := p.queue.deadWorkers - dead } }

def maintainPool (exec : WorkerCall → χ → Option χ) (launch : Option (ℕ → χ)) (p : Pool χ) :
    Except Error Unit × Pool χ :=
  let p := p.cleanupDeadWorkers
  let dead := p.queue.deadWorkers
  let failures := p.queue.failures
  let current := p.numProcesses - dead
  if p.nominal > current then
    match p.grow exec launch (p.nominal - current) with
    | .ok p' => (.ok (), settle dead failures { p' with numProcesses := p.nominal })
    | .error e => (.error e, p)
  else if p.nominal < current then
    match p.shrink (current - p.nominal) with
    | .ok p' => (.ok (), settle dead failures p')
    | .error e => (.error e, p)
  else (.ok (), p)

def patchConfig (exec : WorkerCall → χ → Option χ) (launch : Option (ℕ → χ))
    (nominal maxRequests : ℕ) (p : Pool χ) : Except Error Unit × Pool χ :=
  maintainPool exec launch { p with nominal, queue := { p.queue with maxRequests } }

def close (p : Pool χ) : Pool χ :=
  let removed := p.queue.q.take p.numProcesses
  { p with queue := { p.queue with closed := true, q := p.queue.q.drop p.numProcesses }
           numProcesses := p.numProcesses - removed.length }

end Pool

end QJazz.Pool
