import QJazz.Processes.Executor

/-! Each step of a dismissal talks to Redis or to the workers and may raise. Only those from the
revocation on are in the block that takes the mark of the record back. -/
namespace QJazz.Processes

open Lexical List

/-- A command that raises may have been carried out before. -/
inductive Timing where
  | before
  | after
deriving DecidableEq

/-- The steps that raise, after the record is marked. -/
structure Faults where
  /-- The lock is not released. -/
  unlock : Bool := false
  /-- The first `get_task_meta`. -/
  lookup : Bool := false
  query : Bool := false
  revoke : Bool := false
  /-- The `get_task_meta` after the revocation. -/
  recheck : Bool := false
  delete : Option Timing := none
  reset : Option Timing := none
deriving DecidableEq

inductive DismissFailure where
  | executor (e : ExecutorError)
  | unlock
  | lookup
  | query
  | recheck
  | delete
  | reset
deriving DecidableEq

structure Attempt where
  registry : Registry
  result : Except DismissFailure (Option JobStatus)

def Registry.command (r : Registry) (effect : Registry → Registry) (error : DismissFailure) :
    Option Timing → Except DismissFailure Unit × Registry
  | none => (.ok (), effect r)
  | some .before => (.error error, r)
  | some .after => (.error error, effect r)

def TaskInfo.dismissedStatus (info : TaskInfo) : JobStatus :=
  { jobId := info.jobId, status := .dismissed, processId := info.processId,
    created := 1000 * info.created }

namespace Faults

variable (f : Faults)

def revocation : Progress → Except DismissFailure Unit
  | .active =>
    if f.revoke then .error (.executor .revokeFailed)
    else if f.recheck then .error .recheck
    else .ok ()
  | .done | .pending => .ok ()

def body (marked : Registry) (jobId : Text) (progress : Progress) :
    Except DismissFailure Unit × Registry :=
  match f.revocation progress with
  | .error e => (.error e, marked)
  | .ok () => marked.command (fun r => (r.delete jobId).2) .delete f.delete

/-- The recovery block. An exception while the mark is taken back replaces the first one. -/
def finish (marked : Registry) (jobId : Text) (info : TaskInfo) (progress : Progress) : Attempt :=
  match f.body marked jobId progress with
  | (.ok (), r) => ⟨r, .ok (some info.dismissedStatus)⟩
  | (.error e, r) =>
    match r.command (fun r => (r.dismiss jobId true).2) .reset f.reset with
    | (.ok (), r) => ⟨r, .error e⟩
    | (.error e', r) => ⟨r, .error e'⟩

end Faults

namespace Context

variable (w : Context)

def progressWith (f : Faults) (jobId : Text) (info : TaskInfo) : Except DismissFailure Progress :=
  if f.unlock then .error .unlock
  else if f.lookup then .error .lookup
  else if f.query = true ∧ w.taskMeta jobId = .pending then .error .query
  else (w.progress jobId info).mapError .executor

/-- The method `_dismiss`, with the faults that may happen after the record is marked. -/
def dismissWith (f : Faults) (r : Registry) (jobId : Text) (realm : Option Text) : Attempt :=
  if w.lockAcquired then
    match r.findJob jobId realm with
    | none => ⟨r, .ok none⟩
    | some info =>
      if info.dismissed then ⟨r, .error (.executor (.dismissedTask info.jobId))⟩
      else if w.destinations info.service = [] then
        ⟨r, .error (.executor (.serviceNotAvailable info.service))⟩
      else
        let marked := (r.dismiss jobId false).2
        match w.progressWith f jobId info with
        | .error e => ⟨marked, .error e⟩
        | .ok progress => f.finish marked jobId info progress
  else ⟨r, .error (.executor .lockNotAcquired)⟩

variable {w} {r : Registry} {jobId : Text} {realm : Option Text}

lemma finish_eq_finishDismissal {i : TaskInfo} (o : Progress) :
    Faults.finish { revoke := w.revokeFails } r jobId i o =
      ⟨(w.finishDismissal r jobId i o).registry,
        (w.finishDismissal r jobId i o).result.mapError .executor⟩ := by
  cases o with
  | active => cases hr : w.revokeFails <;> simp [finishDismissal, hr] <;> rfl
  | pending | done => rfl

/-- With the revocation as the only step that may raise, this is the dismissal of the executor. -/
lemma dismissWith_eq_dismissJob : w.dismissWith { revoke := w.revokeFails } r jobId realm =
      ⟨(w.dismissJob r jobId realm).registry,
        (w.dismissJob r jobId realm).result.mapError .executor⟩ := by
  by_cases hlock : w.lockAcquired = true
  · cases hf : r.findJob jobId realm with
    | none => simp [dismissWith, dismissJob, hlock, hf, Except.mapError]
    | some i =>
      by_cases hi : i.dismissed = true
      · simp [dismissWith, dismissJob, hlock, hf, hi, Except.mapError]
      · by_cases hd : w.destinations i.service = []
        · simp [dismissWith, dismissJob, hlock, hf, hi, hd, Except.mapError]
        · have hp : w.progressWith { revoke := w.revokeFails } jobId i =
              (w.progress jobId i).mapError .executor := by simp [progressWith]
          cases hw : w.progress jobId i with
          | error e =>
            simp [dismissWith, dismissJob, hlock, hf, hi, hd, hp, hw, Except.mapError]
          | ok o =>
            rw [hw, Except.mapError] at hp
            simp [dismissWith, dismissJob, hlock, hf, hi, hd, hp, hw, finish_eq_finishDismissal]
  · simp [dismissWith, dismissJob, hlock, Except.mapError]

end Context

namespace Registry

variable {r : Registry} {e : Record} {jobId : Text} {reset : Bool}

def Gone (r : Registry) (jobId : Text) : Prop := ∀ e ∈ r.records, e.jobId ≠ jobId

lemma Gone.dismiss (h : r.Gone jobId) : (r.dismiss jobId reset).2.Gone jobId := by
  intro e he
  have hm : (r.dismiss jobId reset).2.records.map Record.unmarked = r.records.map Record.unmarked :=
    map_unmarked_dismiss
  have hme : e.unmarked ∈ r.records.map Record.unmarked := hm ▸ mem_map_of_mem he
  obtain ⟨g, hg, hge⟩ := mem_map.1 hme
  have hj := congrArg Record.jobId hge
  exact fun heq => h g hg (hj.trans heq)

lemma mem_hsetDismissed_self (m : Bool) (he : e ∈ r.records) :
    { e with dismissed := m } ∈ (r.hsetDismissed e.key m).records :=
  mem_map.2 ⟨e, he, if_pos rfl⟩

namespace Generated

variable (h : r.Generated)
include h

lemma dismiss_eq (reset : Bool) (he : e ∈ r.records) :
    (r.dismiss e.jobId reset).2 = r.hsetDismissed e.key !reset := by
  have hid := h.plain e he
  have hme : e ∈ r.keys (jobPattern e.jobId) :=
    mem_keys.2 ⟨he, (globMatch_jobPattern hid hid.notMem).2 rfl⟩
  cases hk : r.keys (jobPattern e.jobId) with
  | nil => simp [hk] at hme
  | cons f fs =>
    obtain ⟨hf, hm⟩ := mem_keys.1 (hk ▸ mem_cons_self : f ∈ r.keys (jobPattern e.jobId))
    have hfe : f = e :=
      h.eq_of_jobId hf he ((globMatch_jobPattern hid (h.plain f hf).notMem).1 hm)
    simp [Registry.dismiss, hk, hfe]

lemma hsetDismissed (key : Text) (m : Bool) : (r.hsetDismissed key m).Generated := by
  have hu : (r.hsetDismissed key m).records.map Record.unmarked =
      r.records.map Record.unmarked := map_unmarked_hsetDismissed
  have hi : (r.hsetDismissed key m).records.map Record.jobId = r.records.map Record.jobId := by
    have hj := congrArg (List.map Record.jobId) hu
    rwa [map_map, map_map] at hj
  constructor
  · intro f hf
    have hm : f.jobId ∈ r.records.map Record.jobId := hi ▸ mem_map_of_mem hf
    obtain ⟨g, hg, hgf⟩ := mem_map.1 hm
    exact hgf ▸ h.plain g hg
  · exact hi ▸ h.nodup

lemma gone_delete (hid : PlainId jobId) : (r.delete jobId).2.Gone jobId := by
  intro f hf
  obtain ⟨he, hm⟩ := mem_delete.1 hf
  exact fun hj => hm ((globMatch_jobPattern hid (h.plain f he).notMem).2 hj)

lemma unmarked_mem_reset (he : e ∈ r.records) :
    e.unmarked ∈ (((r.hsetDismissed e.key true).dismiss e.jobId true).2).records := by
  have hm := mem_hsetDismissed_self true he
  have hr := (h.hsetDismissed e.key true).dismiss_eq true hm
  rw [show e.jobId = ({ e with dismissed := true } : Record).jobId from rfl, hr]
  exact mem_hsetDismissed_self false hm

end Generated

lemma unmarked_not_mem_marked (he : e ∈ r.records) :
    e.unmarked ∉ (r.hsetDismissed e.key true).records := by
  intro hm
  have heq := eq_of_key_eq hm (mem_hsetDismissed_self true he) rfl
  exact Bool.false_ne_true (congrArg Record.dismissed heq)

end Registry

/-- A dismissal that raises leaves the record without a mark, and one that returns leaves no record. -/
def Retryable (e : Record) (a : Attempt) : Prop :=
  match a.result with
  | .error _ => e.unmarked ∈ a.registry.records
  | .ok _ => a.registry.Gone e.jobId

namespace Faults

variable {f : Faults} {p : Progress}

def Interrupted (f : Faults) (p : Progress) : Prop := f.revocation p ≠ .ok () ∨ f.delete ≠ none

/-- The record is deleted, and then an exception is raised. -/
def Lost (f : Faults) (p : Progress) : Prop := f.revocation p = .ok () ∧ f.delete = some .after

lemma retryable_finish_iff {r : Registry} {e : Record} {i : TaskInfo} (h : r.Generated)
    (he : e ∈ r.records) : Retryable e (f.finish (r.hsetDismissed e.key true) e.jobId i p) ↔
      ¬ f.Lost p ∧ (f.Interrupted p → f.reset ≠ some .before) := by
  have hm := Registry.unmarked_not_mem_marked he
  have ht := h.unmarked_mem_reset he
  have hgone := (h.hsetDismissed e.key true).gone_delete (h.plain e he)
  have ho : ∀ reset, e.unmarked ∉ ((((r.hsetDismissed e.key true).delete e.jobId).2).dismiss
      e.jobId reset).2.records := fun _ hme => hgone.dismiss _ hme rfl
  have hl : e.unmarked ∉ ((r.hsetDismissed e.key true).delete e.jobId).2.records :=
    fun hme => hgone _ hme rfl
  cases hv : f.revocation p with
  | error err =>
    rcases hr : f.reset with _ | (_ | _) <;>
      simp [Retryable, finish, body, Registry.command, Lost, Interrupted, hv, hr, hm, ht]
  | ok _ =>
    rcases hd : f.delete with _ | (_ | _) <;> rcases hr : f.reset with _ | (_ | _) <;>
      simp [Retryable, finish, body, Registry.command, Lost, Interrupted, hv, hd, hr,
        hm, ht, hgone, ho, hl]

end Faults

/-- A dismissal of a registered job that can be retried after any failure is one whose failures are all
in the recovery block, except for the deletion that is carried out and raises, and for a mark that is
not taken back. -/
theorem retryable_iff_recovered (w : Context) (f : Faults) (r : Registry) (e : Record)
    (realm : Option Text) (hr : r.Generated) (he : e ∈ r.records) (hmark : e.dismissed = false)
    (hlock : w.lockAcquired = true) (hfind : r.findJob e.jobId realm = some e.decode)
    (hdestinations : w.destinations e.service ≠ []) :
    Retryable e (w.dismissWith f r e.jobId realm) ↔ ∃ p, w.progressWith f e.jobId e.decode = .ok p ∧
        ¬ f.Lost p ∧ (f.Interrupted p → f.reset ≠ some .before) := by
  have ht : w.dismissWith f r e.jobId realm =
      match w.progressWith f e.jobId e.decode with
      | .error err => ⟨r.hsetDismissed e.key true, .error err⟩
      | .ok p => f.finish (r.hsetDismissed e.key true) e.jobId e.decode p := by
    simp [Context.dismissWith, hlock, hfind, Record.decode, hmark, hdestinations, hr.dismiss_eq false he]
  rw [ht]
  cases hp : w.progressWith f e.jobId e.decode with
  | error err => simp [Retryable, Registry.unmarked_not_mem_marked he]
  | ok p => simp [Faults.retryable_finish_iff hr he]

def soleJob : Registry where
  records :=
    [{ jobId := "3f2a".toList, service := "qgis".toList, realm := none, processId := "buffer".toList
       created := 0, expires := 86400, pendingTimeout := 600, tag := none, dismissed := false }]
  nodup := List.nodup_singleton _

def known (state : TaskMeta) : Context where
  destinations _ := ["qgis@host".toList]
  taskMeta _ := state
  queryReplies _ _ := []
  now := 1000
  lockAcquired := true
  revokeFails := false

lemma generated_soleJob : soleJob.Generated where
  plain := by
    rintro e (_ | ⟨_, ⟨⟩⟩)
    decide
  nodup := nodup_singleton _

theorem retryable_failed_revocation : ∃ e ∈ soleJob.records, e.jobId = "3f2a".toList ∧
      Retryable e ((known (.updated ⟨0, none, [], [], 0, none, none⟩ none none none)).dismissWith
        { revoke := true } soleJob e.jobId none) :=
  ⟨_, List.mem_cons_self, rfl, (retryable_iff_recovered _ _ _ _ _ generated_soleJob
    List.mem_cons_self rfl rfl (generated_soleJob.findJob_jobId List.mem_cons_self)
    (List.cons_ne_nil _ _)).2 ⟨.active, rfl, by simp [Faults.Lost], by simp⟩⟩

/-- The backend cannot be read, the dismissal raises, and the record stays marked: a second attempt is
refused. An unknown state of the task does the same. -/
theorem not_retryable_failed_lookup :
    let first := (known .pending).dismissWith { lookup := true } soleJob "3f2a".toList none
    let second := (known (.unknown "LOST".toList)).dismissWith {} soleJob "3f2a".toList none
    (first.result = .error .lookup ∧ (∀ e ∈ first.registry.records, e.dismissed = true) ∧
      ((known .pending).dismissWith {} first.registry "3f2a".toList none).result =
        .error (.executor (.dismissedTask "3f2a".toList))) ∧
    second.result = .error (.executor (.unhandledState "LOST".toList)) ∧
      ∀ e ∈ second.registry.records, e.dismissed = true := by
  refine ⟨⟨rfl, ?_, rfl⟩, rfl, ?_⟩ <;> decide

end QJazz.Processes
