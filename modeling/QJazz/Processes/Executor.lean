import QJazz.Processes.Registry

/-! The executor's view of a job: its record in the registry, the state that Celery's result backend
keeps, and the answers of the workers. -/
namespace QJazz.Processes

open Lexical

/-- What the executor sends along with a task and the worker adds the start time to. -/
structure JobMeta where
  created : ℕ
  realm : Option Text
  service : Text
  processId : Text
  expires : ℕ
  tag : Option Text
  started : Option ℕ
  deriving DecidableEq

/-- What a failed task leaves as its result. -/
inductive TaskFailure where
  | inputValueError (message : Text)
  | dismissedTaskError
  | runProcessException
  | processesException (message : Text)
  | otherException
  | text (message : Text)
  deriving DecidableEq

inductive TaskMeta where
  | pending
  | started (job : JobMeta)
  | updated (job : JobMeta) (progress : Option ℕ) (message : Option Text) (updated : Option ℕ)
  | failure (job : JobMeta) (dateDone : ℕ) (result : TaskFailure)
  | success (job : JobMeta) (dateDone : ℕ)
  | revoked (job : JobMeta) (dateDone : ℕ)
  | unknown (state : Text)
  deriving DecidableEq

inductive QueryState where
  | active
  | scheduled
  | reserved
  | revoked
  | other (state : Text)
  deriving DecidableEq

/-- What a worker says about a task. A request without contents is `none`. -/
inductive QueryEntry where
  | infos (state : QueryState) (request : Option JobMeta)
  | invalid
  deriving DecidableEq

/-- The replies of the workers to `query_task` in the order of the dictionary, each with what the
worker says by task. -/
abbrev Replies := List (Text × List (Text × QueryEntry))

inductive StatusCode where
  | pending
  | accepted
  | running
  | successful
  | failed
  | dismissed
  deriving DecidableEq

def StatusCode.text : StatusCode → Text
  | pending => "pending".toList
  | accepted => "accepted".toList
  | running => "running".toList
  | successful => "successful".toList
  | failed => "failed".toList
  | dismissed => "dismissed".toList

structure JobStatus where
  jobId : Text
  status : StatusCode
  processId : Text
  created : ℕ
  message : Option Text := none
  started : Option ℕ := none
  finished : Option ℕ := none
  updated : Option ℕ := none
  progress : Option ℕ := none
  expiresAt : Option ℕ := none
  tag : Option Text := none
  deriving DecidableEq

inductive ExecutorError where
  | dismissedTask (jobId : Text)
  | serviceNotAvailable (service : Text)
  | unhandledState (state : Text)
  | invalidQuery
  | invalidKey
  | lockNotAcquired
  | revokeFailed
  deriving DecidableEq

/-- What surrounds the executor while it answers one request. -/
structure Context where
  /-- The workers of a service, none if the service is unknown. -/
  destinations : Text → List Text
  taskMeta : Text → TaskMeta
  queryReplies : Text → List Text → Replies
  now : ℕ
  lockAcquired : Bool
  revokeFails : Bool

/-- Reads what the first worker that replied says about the task. -/
def queryTask (replies : Replies) (jobId : Text) :
    Except ExecutorError (Option QueryState × Option JobMeta) :=
  match replies with
  | [] => .ok (none, none)
  | (_, entries) :: _ =>
    match entries.lookup jobId with
    | none => .ok (none, none)
    | some (.infos state request) => .ok (some state, request)
    | some .invalid => .error .invalidQuery

/-- The status and the message of a task that a worker knows and the backend does not. -/
def queriedStatus : Option QueryState → StatusCode × Text
  | some .active => (.running, "Task running".toList)
  | some .scheduled | some .reserved => (.accepted, "Task accepted".toList)
  | some .revoked => (.dismissed, "Task dismissed".toList)
  | some (.other _) | none => (.pending, "Task pending".toList)

def failedStatus : TaskFailure → StatusCode × Text
  | .inputValueError message => (.failed, message)
  | .dismissedTaskError => (.dismissed, "Dismissed task".toList)
  | .runProcessException => (.failed, "Internal processing error".toList)
  | .processesException message => (.failed, message)
  | .otherException => (.failed, "Internal worker error".toList)
  | .text message => (.failed, message)

/-- The status that the backend's answer is reported as, with what the task was sent with. -/
def JobMeta.report (job : JobMeta) (jobId : Text) (withDetails : Bool) (status : StatusCode × Text)
    (finished : Option ℕ) : JobStatus where
  jobId := jobId
  status := status.1
  processId := job.processId
  created := job.created
  message := some status.2
  started := job.started
  finished := finished
  expiresAt := if withDetails then finished.map (1000 * job.expires + ·) else none
  tag := job.tag

namespace Context

variable (w : Context)

/-- The status of a job whose task nobody knows, as long as its message may still be on the queue. -/
def jobStatusPending (info : TaskInfo) : Option JobStatus :=
  if info.dismissed = false ∧ w.now < 1000 * (info.created + info.pendingTimeout) then
    some
      { jobId := info.jobId, status := .pending, processId := info.processId,
        created := 1000 * info.created, message := some "Task pending".toList, tag := some info.tag }
  else none

def jobStatus (jobId : Text) (destinations : List Text) (withDetails : Bool) :
    Except ExecutorError (Option JobStatus) :=
  match w.taskMeta jobId with
  | .pending =>
    match queryTask (w.queryReplies jobId destinations) jobId with
    | .error err => .error err
    | .ok (_, none) => .ok none
    | .ok (state, some job) =>
      .ok (some (job.report jobId withDetails (queriedStatus state) none))
  | .started job => .ok (some (job.report jobId withDetails (.running, "Task started".toList) none))
  | .updated job progress message updated =>
    .ok (some { job.report jobId withDetails (.running, []) none with progress, message, updated })
  | .failure job done result =>
    .ok (some { job.report jobId withDetails (failedStatus result) (some done) with progress := some 100 })
  | .success job done =>
    .ok (some { job.report jobId withDetails (.successful, "Task finished".toList) (some done) with
      progress := some 100 })
  | .revoked job done =>
    .ok (some (job.report jobId withDetails (.dismissed, "Task dismissed".toList) (some done)))
  | .unknown state => .error (.unhandledState state)

end Context

/-- How far a job has come when it is dismissed. -/
inductive Progress where
  | pending
  | active
  | done
  deriving DecidableEq

inductive Action where
  | mark
  | revoke (destinations : List Text)
  | delete
  | reset
  deriving DecidableEq

structure Dismissal where
  registry : Registry
  actions : List Action
  result : Except ExecutorError (Option JobStatus)

namespace Context

variable (w : Context)

/-- The state of a job to dismiss. Only a job that a worker has received can be revoked. -/
def progress (jobId : Text) (info : TaskInfo) : Except ExecutorError Progress :=
  match w.taskMeta jobId with
  | .pending =>
    match queryTask (w.queryReplies jobId (w.destinations info.service)) jobId with
    | .error err => .error err
    | .ok (_, none) =>
      .ok (if w.now < 1000 * (info.created + info.pendingTimeout) then .pending else .done)
    | .ok (some .active, some _) | .ok (some .scheduled, some _) | .ok (some .reserved, some _) =>
      .ok .active
    | .ok (some .revoked, some _) => .ok .done
    | .ok (some (.other _), some _) | .ok (none, some _) => .ok .pending
  | .updated .. | .started _ => .ok .active
  | .failure .. | .success .. | .revoked .. => .ok .done
  | .unknown state => .error (.unhandledState state)

/-- Removes the job from the registry, after revoking it if a worker has received it. A failure to
revoke takes the mark back. -/
def finishDismissal (r : Registry) (jobId : Text) (info : TaskInfo) (progress : Progress) : Dismissal :=
  let status : JobStatus :=
    { jobId := info.jobId, status := .dismissed, processId := info.processId,
      created := 1000 * info.created }
  match progress with
  | .active =>
    let revoke := .revoke (w.destinations info.service)
    if w.revokeFails then
      { registry := (r.dismiss jobId true).2, actions := [revoke, .reset],
        result := .error .revokeFailed }
    else
      { registry := (r.delete jobId).2, actions := [revoke, .delete], result := .ok (some status) }
  | .done | .pending =>
    { registry := (r.delete jobId).2, actions := [.delete], result := .ok (some status) }

def dismissJob (r : Registry) (jobId : Text) (realm : Option Text) : Dismissal :=
  if w.lockAcquired then
    match r.findJob jobId realm with
    | none => { registry := r, actions := [], result := .ok none }
    | some info =>
      if info.dismissed then
        { registry := r, actions := [], result := .error (.dismissedTask info.jobId) }
      else if w.destinations info.service = [] then
        { registry := r, actions := [], result := .error (.serviceNotAvailable info.service) }
      else
        let marked := (r.dismiss jobId false).2
        match w.progress jobId info with
        | .error err => { registry := marked, actions := [.mark], result := .error err }
        | .ok progress =>
          let finished := w.finishDismissal marked jobId info progress
          { finished with actions := .mark :: finished.actions }
  else { registry := r, actions := [], result := .error .lockNotAcquired }

variable {w} {r : Registry} {j : Text} {realm : Option Text}

lemma registry_dismissJob : (w.dismissJob r j realm).registry = r ∨
    (w.dismissJob r j realm).registry = (r.dismiss j false).2 ∨
    (w.dismissJob r j realm).registry = ((r.dismiss j false).2.delete j).2 ∨
    (w.dismissJob r j realm).registry = ((r.dismiss j false).2.dismiss j true).2 := by
  rw [dismissJob]
  split
  · split
    · exact Or.inl rfl
    · split
      · exact Or.inl rfl
      · split
        · exact Or.inl rfl
        · split
          · exact Or.inr (Or.inl rfl)
          · next p _ =>
            cases p with
            | active =>
              simp only [finishDismissal]
              split
              · exact Or.inr (Or.inr (Or.inr rfl))
              · exact Or.inr (Or.inr (Or.inl rfl))
            | pending | done => exact Or.inr (Or.inr (Or.inl rfl))
  · exact Or.inl rfl

end Context

end QJazz.Processes
