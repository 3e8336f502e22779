import QJazz.Transition.Run

/-! The child announces that it is ready, receives a message, announces that it is busy and answers.
-/
namespace QJazz.Pool.Session

inductive Byte where
  | ready
  | busy
deriving DecidableEq, Repr

/-- A message is tagged with the request that sent it; some have a single frame as reply. -/
structure Message where
  req : ℕ
  single : Bool
deriving DecidableEq, Repr

structure Frame where
  req : ℕ
  last : Bool
deriving DecidableEq, Repr

inductive Loop where
  | announce
  | entering
  | receiving
  | received (m : Message)
  | answering (m : Message)
deriving DecidableEq, Repr

/-- What the handle waits for readiness for: the end of the start, or the end of a job. -/
inductive Purpose where
  | start
  | recycle (done : Bool)
deriving DecidableEq, Repr

inductive Handle where
  | waitLoad (p : Purpose)
  | waitCreate (p : Purpose)
  | waiting (p : Purpose) (woken : Bool)
  | idle
  | holding (done : Bool)
  | reading (req : ℕ)
  | recycling (done : Bool)
  | hup
  | draining
  | checking
  | restoring
  | restoreReading (req : ℕ)
  | terminated
deriving DecidableEq, Repr

/-- After the child is ready: leftover data is drained unless the response was complete. -/
def Purpose.ready : Purpose → Handle
  | .start | .recycle true => .restoring
  | .recycle false => .draining

/-- After the time to be ready: a job is cancelled. -/
def Purpose.late : Purpose → Handle
  | .start => .terminated
  | .recycle _ => .hup

/-- The listener wakes the waiter that was created before. -/
def Handle.wake : Handle → Handle
  | .waiting p _ => .waiting p true
  | h => h

structure State where
  child : Loop := .announce
  stdin : List Message := []
  stdout : List Frame := []
  rdv : List Byte := []
  flag : Byte := .busy
  cancelled : Bool := false
  hups : ℕ := 0
  handle : Handle := .waitLoad .start
  next : ℕ := 0
  served : List (ℕ × ℕ) := []
deriving DecidableEq

/-- `child` and `proceed` are the next fixed actions of the child and of the owner of the handle;
the others are choices of the child, the system, the listener, the clock and the client. -/
inductive Event where
  | child
  | write (last : Bool)
  | finish
  | signal
  | deliver
  | proceed
  | timeout
  | fail
  | acquire
  | request (single : Bool)
  | read
  | done
  | drop
  | outdated
  | requeue
deriving DecidableEq, Repr

namespace State

def childStep (s : State) : Option State :=
  match s.child with
  | .announce => some { s with child := .entering, rdv := s.rdv ++ [.ready] }
  | .entering => some { s with child := .receiving, cancelled := false }
  | .receiving =>
    match s.stdin with
    | m :: stdin => some { s with child := .received m, stdin }
    | [] => none
  | .received m => some { s with child := .answering m, rdv := s.rdv ++ [.busy] }
  | .answering _ => none

def write (s : State) (last : Bool) : Option State :=
  match s.child with
  | .answering m =>
    if m.single && !last then none
    else some { s with
      child := if last then .announce else .answering m
      stdout := if s.cancelled then s.stdout else s.stdout ++ [⟨m.req, last⟩] }
  | _ => none

def proceed (s : State) : Option State :=
  match s.handle with
  | .waitLoad p => some { s with handle := if s.flag = .ready then p.ready else .waitCreate p }
  | .waitCreate p => some { s with handle := .waiting p false }
  | .waiting p true => some { s with handle := p.ready }
  | .recycling done => some { s with handle := .waitLoad (.recycle done) }
  | .hup => some { s with handle := .draining, hups := s.hups + 1 }
  | .draining => some { s with handle := .checking, stdout := [] }
  | .checking => some { s with handle := if s.flag = .ready then .restoring else .draining }
  | _ => none

def read (s : State) : Option State :=
  match s.handle, s.stdout with
  | .reading req, f :: stdout => some { s with
      stdout, served := s.served ++ [(req, f.req)]
      handle := if f.last then .holding false else .reading req }
  | .restoreReading req, f :: stdout => some { s with
      stdout, served := s.served ++ [(req, f.req)], handle := .restoring }
  | _, _ => none

def request (s : State) (single : Bool) : Option State :=
  match s.handle with
  | .holding false => some { s with
      handle := .reading s.next, stdin := s.stdin ++ [⟨s.next, single⟩], next := s.next + 1 }
  | .restoring => some { s with
      handle := .restoreReading s.next, stdin := s.stdin ++ [⟨s.next, true⟩], next := s.next + 1 }
  | _ => none

def timeout (s : State) : Option State :=
  match s.handle with
  | .waitLoad p | .waitCreate p | .waiting p _ => some { s with handle := p.late }
  | _ => none

/-- The rendez-vous is gone, the process is dead, the drain times out or a restore fails. -/
def fail (s : State) : Option State :=
  match s.handle with
  | .idle | .holding _ | .reading _ | .terminated => none
  | _ => some { s with handle := .terminated }

def step (s : State) : Event → Option State
  | .child => s.childStep
  | .write last => s.write last
  | .finish =>
    match s.child with
    | .answering _ => some { s with child := .announce }
    | _ => none
  | .signal => if 0 < s.hups then some { s with hups := s.hups - 1, cancelled := true } else none
  | .deliver =>
    match s.rdv with
    | b :: rdv => some { s with
        rdv, flag := b, handle := if b = .ready then s.handle.wake else s.handle }
    | [] => none
  | .proceed => s.proceed
  | .timeout => s.timeout
  | .fail => s.fail
  | .acquire =>
    match s.handle with
    | .idle => some { s with handle := .holding false }
    | _ => none
  | .request single => s.request single
  | .read => s.read
  | .done =>
    match s.handle with
    | .holding _ => some { s with handle := .holding true }
    | _ => none
  | .drop =>
    match s.handle with
    | .holding done => some { s with handle := .recycling done }
    | .reading _ => some { s with handle := .recycling false }
    | _ => none
  | .outdated =>
    match s.handle with
    | .recycling _ => some { s with handle := .terminated }
    | _ => none
  | .requeue =>
    match s.handle with
    | .restoring => some { s with handle := .idle }
    | _ => none

end State

end QJazz.Pool.Session
