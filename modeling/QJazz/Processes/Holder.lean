import QJazz.Processes.Executor

/-! All workers of a service reply, and only the one that holds the task knows it. The executor
reads the first reply. -/
namespace QJazz.Processes

open Lexical

/-- How a worker may hold a task that it has received. -/
inductive Holding where
  | active
  | reserved
  | scheduled
  deriving DecidableEq

def Holding.queryState : Holding → QueryState
  | active => .active
  | reserved => .reserved
  | scheduled => .scheduled

/-- The status that a held job should be reported with. -/
def Holding.statusCode : Holding → StatusCode
  | active => .running
  | reserved | scheduled => .accepted

def heldReplies (jobId holder : Text) (holding : Holding) (job : JobMeta) (order : List Text) : Replies :=
  order.map fun worker =>
    (worker, if worker = holder then [(jobId, .infos holding.queryState (some job))] else [])

/-- A worker of the service holds the task, the others do not know it, all of them reply, and the backend
has no state for it yet. -/
structure Held (w : Context) (jobId service holder : Text) (holding : Holding) (job : JobMeta)
    (order : List Text) : Prop where
  pending : w.taskMeta jobId = .pending
  holder_mem : holder ∈ w.destinations service
  nodup : order.Nodup
  mem_order : ∀ worker, worker ∈ order ↔ worker ∈ w.destinations service
  replies : w.queryReplies jobId (w.destinations service) = heldReplies jobId holder holding job order

def RevokesFirst (holder : Text) (actions : List Action) : Prop :=
  ∃ before destinations after, actions = before ++ .revoke destinations :: after ∧
    holder ∈ destinations ∧ .delete ∉ before

structure Seen (w : Context) (jobId service holder : Text) (holding : Holding) : Prop where
  status : ∀ withDetails, ∃ status,
    w.jobStatus jobId (w.destinations service) withDetails = .ok (some status) ∧
      status.jobId = jobId ∧ status.status = holding.statusCode
  dismissal : ∀ r realm info, w.lockAcquired = true → Registry.findJob r jobId realm = some info →
    info.service = service → info.dismissed = false →
      RevokesFirst holder (w.dismissJob r jobId realm).actions

variable {w : Context} {jobId service holder : Text} {holding : Holding} {job : JobMeta} {order : List Text}

lemma queryTask_heldReplies : queryTask (heldReplies jobId holder holding job order) jobId =
    if order.head? = some holder then .ok (some holding.queryState, some job) else .ok (none, none) := by
  cases order with
  | nil => rfl
  | cons o order =>
    rw [heldReplies, List.map_cons, queryTask]
    by_cases h : o = holder
    · simp [h]
    · simp [h]

namespace Held

variable (h : Held w jobId service holder holding job order)
include h

lemma jobStatus_of_first (hf : order.head? = some holder) (i : Bool) :
    w.jobStatus jobId (w.destinations service) i =
      .ok (some (job.report jobId i (queriedStatus (some holding.queryState)) none)) := by
  rw [Context.jobStatus, h.pending, h.replies, queryTask_heldReplies, if_pos hf]

lemma jobStatus_of_not_first (hf : order.head? ≠ some holder) (i : Bool) :
    w.jobStatus jobId (w.destinations service) i = .ok none := by
  rw [Context.jobStatus, h.pending, h.replies, queryTask_heldReplies, if_neg hf]

lemma progress_of_first (hf : order.head? = some holder) {i : TaskInfo}
    (he : i.service = service) : w.progress jobId i = .ok .active := by
  rw [Context.progress, h.pending, he, h.replies, queryTask_heldReplies, if_pos hf]
  cases holding <;> rfl

lemma revokesFirst_of_first (hf : order.head? = some holder) {r : Registry}
    {e : Option Text} {i : TaskInfo} (hlock : w.lockAcquired)
    (hi : r.findJob jobId e = some i) (he : i.service = service) (hd : i.dismissed = false) :
    RevokesFirst holder (w.dismissJob r jobId e).actions := by
  have hne : w.destinations i.service ≠ [] := he ▸ List.ne_nil_of_mem h.holder_mem
  have hp := h.progress_of_first hf he
  rw [Context.dismissJob, if_pos hlock, hi]
  simp only [hd, hne, hp, Context.finishDismissal, Bool.false_eq_true, if_false]
  have hm : holder ∈ w.destinations i.service := he ▸ h.holder_mem
  split
  · exact ⟨[.mark], w.destinations i.service, [.reset], rfl, hm, by decide⟩
  · exact ⟨[.mark], w.destinations i.service, [.delete], rfl, hm, by decide⟩

end Held

/-- A held job is seen exactly when the first reply is that of the worker that holds it. -/
theorem seen_iff_first (h : Held w jobId service holder holding job order) :
    Seen w jobId service holder holding ↔ order.head? = some holder := by
  constructor
  · intro hn
    by_contra hf
    obtain ⟨s, ht, -⟩ := hn.status false
    rw [h.jobStatus_of_not_first hf] at ht
    injection ht with ho
    exact Option.some_ne_none _ ho.symm
  · intro hf
    refine ⟨fun i => ?_, fun r e n hlock hi he hd => ?_⟩
    · exact ⟨_, h.jobStatus_of_first hf i, rfl, (by cases holding <;> rfl)⟩
    · exact h.revokesFirst_of_first hf hlock hi he hd

def bufferMeta : JobMeta where
  created := 0
  realm := none
  service := "qgis".toList
  processId := "buffer".toList
  expires := 86400
  tag := none
  started := none

def twoWorkers (order : List Text) : Context where
  destinations _ := ["qgis@a".toList, "qgis@b".toList]
  taskMeta _ := .pending
  queryReplies jobId _ := heldReplies jobId "qgis@b".toList .active bufferMeta order
  now := 1000
  lockAcquired := true
  revokeFails := false

theorem seen_holder_first :
    Seen (twoWorkers ["qgis@b".toList, "qgis@a".toList]) "3f2a".toList "qgis".toList "qgis@b".toList
      .active :=
  (seen_iff_first
    { pending := rfl
      holder_mem := by decide
      nodup := by decide
      mem_order := fun o => (List.Perm.swap _ _ []).mem_iff
      replies := rfl }).2 rfl

theorem not_seen_other_first :
    ¬ Seen (twoWorkers ["qgis@a".toList, "qgis@b".toList]) "3f2a".toList "qgis".toList "qgis@b".toList
        .active := by
  intro h
  obtain ⟨s, ht, -⟩ := h.status false
  have hn : (twoWorkers ["qgis@a".toList, "qgis@b".toList]).jobStatus "3f2a".toList
      ["qgis@a".toList, "qgis@b".toList] false = .ok none := by rfl
  cases hn.symm.trans ht

end QJazz.Processes
