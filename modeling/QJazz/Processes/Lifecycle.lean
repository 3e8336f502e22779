import QJazz.Processes.Executor
import QJazz.Transition.Run

/-! The executors, the workers, the clean-up tasks and the clock as one transition system. -/
namespace QJazz.Processes

open Lexical Glob Transition List Option Registry

structure Settings where
  resultExpires : Text → ℕ
  pendingExpirationTimeout : ℕ

structure Submission where
  service : Text
  ident : Text
  realm : Option Text
  pendingTimeout : Option ℕ
  countdown : Option ℕ
  tag : Option Text

def bufferRequest : Submission where
  service := "qgis".toList
  ident := "buffer".toList
  realm := none
  pendingTimeout := none
  countdown := none
  tag := none

namespace Settings

variable (c : Settings) (now : ℕ) (sub : Submission)

/-- A missing or zero timeout is the configured one, and a countdown comes on top. -/
def pendingTimeout : ℕ :=
  (match sub.pendingTimeout with
    | none | some 0 => c.pendingExpirationTimeout
    | some (t + 1) => t + 1) + sub.countdown.getD 0

def jobMeta : JobMeta where
  created := now
  realm := sub.realm
  service := sub.service
  processId := sub.ident
  expires := c.resultExpires sub.service
  tag := sub.tag
  started := none

/-- The record that is written for the job, whose creation time is cut to seconds. -/
def record (jobId : Text) : Record where
  jobId := jobId
  service := sub.service
  realm := sub.realm
  processId := sub.ident
  created := now / 1000
  expires := c.resultExpires sub.service
  pendingTimeout := c.pendingTimeout sub
  tag := sub.tag
  dismissed := false

end Settings

def Registry.beforeStart (r : Registry) (taskId : Text) : Except ExecutorError Unit :=
  match r.findJob taskId none with
  | none => .error (.dismissedTask taskId)
  | some info => if info.dismissed then .error (.dismissedTask taskId) else .ok ()

structure System where
  now : ℕ
  registry : Registry
  /-- All jobs that were sent. -/
  submitted : List Record
  /-- The jobs that were sent and not registered yet. -/
  unregistered : List Record
  /-- The jobs whose message waits on the broker. -/
  queue : List Record
  running : List Text
  /-- The jobs that ended, with the time. -/
  finished : List (Text × ℕ)
  /-- The jobs that a worker failed with `DismissedTaskError`. -/
  refused : List Text
  /-- The directories and stored files, by job and service. -/
  files : List (Text × Text)
  /-- The identifiers that a dismissal was requested for. -/
  requests : List Text
  /-- The identifiers that a dismissal came to its end for. -/
  dismissals : List Text
  /-- The jobs whose record a dismissal deleted. -/
  deleted : List Text

inductive Event where
  | submit (jobId : Text) (sub : Submission)
  | register (jobId : Text)
  | start (jobId : Text)
  /-- The message of the job expires on the broker. -/
  | discard (jobId : Text)
  | finish (jobId : Text)
  /-- The process that runs the job is killed. -/
  | kill (jobId : Text)
  | request (jobId : Text)
  | mark (jobId : Text)
  | reset (jobId : Text)
  | delete (jobId : Text)
  | cleanup (service : Text)
  | tick (now : ℕ)

namespace System

variable (c : Settings)

def cleanupExpiredJobs (s : System) (service : Text) : System :=
  { s with files := s.files.filter fun f => decide (f.2 ≠ service) || s.registry.existsJob f.1 none }

def startJob (s : System) (e : Record) : System :=
  let queue := s.queue.filter fun f => decide (f.jobId ≠ e.jobId)
  match s.registry.beforeStart e.jobId with
  | .error _ => { s with queue, refused := e.jobId :: s.refused }
  | .ok () =>
    { s with queue, running := e.jobId :: s.running, files := (e.jobId, e.service) :: s.files }

/-- One event. The broker gives every job a new identifier, and a dismissal touches the registry only
after it was requested. -/
def step (s : System) : Event → Option System
  | .submit jobId sub =>
    if PlainId jobId ∧ jobId ∉ s.submitted.map Record.jobId then
      let e := c.record s.now sub jobId
      some { s with
        submitted := e :: s.submitted, unregistered := e :: s.unregistered, queue := e :: s.queue }
    else none
  | .register jobId =>
    (s.unregistered.find? fun e => decide (e.jobId = jobId)).map fun e =>
      { s with
        unregistered := s.unregistered.filter fun f => decide (f.jobId ≠ jobId)
        registry := (s.registry.register e).liveAt s.now }
  | .start jobId => (s.queue.find? fun e => decide (e.jobId = jobId)).map s.startJob
  | .discard jobId => some { s with queue := s.queue.filter fun f => decide (f.jobId ≠ jobId) }
  | .finish jobId =>
    if jobId ∈ s.running then
      some { s with
        running := s.running.filter fun j => decide (j ≠ jobId), finished := (jobId, s.now) :: s.finished }
    else none
  | .kill jobId => some { s with running := s.running.filter fun j => decide (j ≠ jobId) }
  | .request jobId => some { s with requests := jobId :: s.requests }
  | .mark jobId =>
    if jobId ∈ s.requests then some { s with registry := (s.registry.dismiss jobId false).2 } else none
  | .reset jobId =>
    if jobId ∈ s.requests then some { s with registry := (s.registry.dismiss jobId true).2 } else none
  | .delete jobId =>
    if jobId ∈ s.requests then
      some { s with
        registry := (s.registry.delete jobId).2
        dismissals := jobId :: s.dismissals
        deleted := (s.registry.keys (jobPattern jobId)).map Record.jobId ++ s.deleted }
    else none
  | .cleanup service => some (s.cleanupExpiredJobs service)
  | .tick now =>
    if s.now ≤ now then some { s with now, registry := s.registry.liveAt now } else none

def initial : System where
  now := 0
  registry := ⟨[], List.nodup_nil⟩
  submitted := []
  unregistered := []
  queue := []
  running := []
  finished := []
  refused := []
  files := []
  requests := []
  dismissals := []
  deleted := []

lemma exists_run_dismissJob (w : Context) (s : System) (jobId : Text) (r : Option Text) :
    ∃ es t, run (step c) s es = some t ∧ t.registry = (w.dismissJob s.registry jobId r).registry ∧
      es.Sublist [.request jobId, .mark jobId, .delete jobId, .reset jobId] := by
  let marked : System :=
    { s with requests := jobId :: s.requests, registry := (s.registry.dismiss jobId false).2 }
  have hm : run (step c) s [.request jobId, .mark jobId] = some marked := by
    simp [run_cons, step, marked]
  obtain h | h | h | h := @Context.registry_dismissJob w s.registry jobId r
  · exact ⟨[], s, rfl, h.symm, nil_sublist _⟩
  · exact ⟨[.request jobId, .mark jobId], marked, hm, h.symm, by simp⟩
  · refine ⟨([.request jobId, .mark jobId] : List Event) ++ ([.delete jobId] : List Event),
      { marked with
        registry := (marked.registry.delete jobId).2
        dismissals := jobId :: marked.dismissals
        deleted := (marked.registry.keys (jobPattern jobId)).map Record.jobId ++ marked.deleted },
      ?_, h.symm, by simp⟩
    rw [run_append, hm]
    simp [run_cons, step, marked]
  · refine ⟨([.request jobId, .mark jobId] : List Event) ++ ([.reset jobId] : List Event),
      { marked with registry := (marked.registry.dismiss jobId true).2 }, ?_, h.symm, by simp⟩
    rw [run_append, hm]
    simp [run_cons, step, marked]

def Present (s : System) (jobId : Text) : Prop := ∃ e ∈ s.registry.records, e.jobId = jobId

/-- Identifiers are plain and used once, the registry has records of sent jobs only, and a job that
was registered has a record until a dismissal deletes it or it expires. -/
structure Coherent (s : System) : Prop where
  nodup : (s.submitted.map Record.jobId).Nodup
  plain : ∀ e ∈ s.submitted, PlainId e.jobId
  fresh : ∀ e ∈ s.submitted, e.unmarked = e
  registered : ∀ e ∈ s.registry.records, e.unmarked ∈ s.submitted
  unregistered : ∀ e ∈ s.unregistered, e ∈ s.submitted ∧ ¬ s.Present e.jobId ∧ e.jobId ∉ s.deleted
  written : ∀ e ∈ s.submitted, e ∉ s.unregistered →
    (s.Present e.jobId ↔ e.jobId ∉ s.deleted ∧ s.now ≤ 1000 * e.expireAt)
  deleted : ∀ j ∈ s.deleted, ∃ e ∈ s.submitted, e.jobId = j
  queue : ∀ e ∈ s.queue, e ∈ s.submitted
  started : ∀ j, j ∈ s.running ∨ (∃ done, (j, done) ∈ s.finished) →
    ∃ e ∈ s.submitted, e.jobId = j ∧ e ∉ s.unregistered

lemma coherent_initial : Coherent initial where
  nodup := nodup_nil
  plain := nofun
  fresh := nofun
  registered := nofun
  unregistered := nofun
  written := nofun
  deleted := nofun
  queue := nofun
  started := by simp [initial]

variable {c} {s t : System} {e f : Record} {jobId : Text}

namespace Coherent

section Lookup

variable (h : Coherent s)
include h

lemma eq_of_jobId (he : e ∈ s.submitted) (hf : f ∈ s.submitted) (hid : e.jobId = f.jobId) : e = f :=
  inj_on_of_nodup_map h.nodup he hf hid

lemma unmarked_eq (he : e ∈ s.submitted) (hf : f ∈ s.registry.records) (hid : f.jobId = e.jobId) :
    f.unmarked = e :=
  h.eq_of_jobId (h.registered f hf) he hid

lemma expireAt_eq (he : e ∈ s.submitted) (hf : f ∈ s.registry.records) (hid : f.jobId = e.jobId) :
    f.expireAt = e.expireAt := by
  rw [← h.unmarked_eq he hf hid]
  rfl

lemma colon_notMem (he : e ∈ s.registry.records) : ':' ∉ e.jobId :=
  (h.plain _ (h.registered e he)).notMem

lemma generated : s.registry.Generated where
  plain e he := h.plain e.unmarked (h.registered e he)
  nodup := by
    refine (List.Nodup.of_map _ s.registry.nodup).map_on fun e he f hf hid => ?_
    have hk : e.unmarked.key = f.unmarked.key := by
      rw [h.eq_of_jobId (h.registered e he) (h.registered f hf) hid]
    exact eq_of_key_eq he hf hk

lemma existsJob_iff (he : e ∈ s.submitted) :
    s.registry.existsJob e.jobId none ↔ s.Present e.jobId :=
  existsJob_plainId (h.plain e he) fun _ hf => h.colon_notMem hf

lemma beforeStart_ok (he : e ∈ s.submitted) : s.registry.beforeStart e.jobId = .ok () ↔
    s.Present e.jobId ∧ ∀ f ∈ s.registry.records, f.jobId = e.jobId → f.dismissed = false := by
  by_cases hr : s.Present e.jobId
  · obtain ⟨f, hf, hid⟩ := hr
    have hl : (∀ g ∈ s.registry.records, g.jobId = e.jobId → g.dismissed = false) ↔
        f.dismissed = false := by
      refine ⟨fun h => h f hf hid, fun hd g hg hi => ?_⟩
      rw [h.generated.eq_of_jobId hg hf (hi.trans hid.symm)]
      exact hd
    rw [and_iff_right ⟨f, hf, hid⟩, hl, Registry.beforeStart, ← hid, h.generated.findJob_jobId hf]
    cases hd : f.dismissed <;> simp [Record.decode, hd]
  · have hn : s.registry.findJob e.jobId none = none := by
      rw [findJob_plainId (h.plain e he) fun _ hf => h.colon_notMem hf, map_eq_none_iff,
        List.find?_eq_none]
      exact fun f hf hid => hr ⟨f, hf, of_decide_eq_true hid⟩
    rw [Registry.beforeStart, hn]
    exact iff_of_false nofun fun hp => hr hp.1

end Lookup

lemma submit (h : Coherent s) (sub : Submission) (hp : PlainId jobId)
    (hnew : jobId ∉ s.submitted.map Record.jobId) : Coherent { s with
      submitted := c.record s.now sub jobId :: s.submitted
      unregistered := c.record s.now sub jobId :: s.unregistered
      queue := c.record s.now sub jobId :: s.queue } := by
  have hne : ∀ e ∈ s.submitted, e.jobId ≠ jobId := fun e he hid => hnew (hid ▸ List.mem_map_of_mem he)
  refine
    { nodup := nodup_cons.2 ⟨hnew, h.nodup⟩
      plain := forall_mem_cons.2 ⟨hp, h.plain⟩
      fresh := forall_mem_cons.2 ⟨rfl, h.fresh⟩
      registered := fun e he => mem_cons_of_mem _ (h.registered e he)
      unregistered := forall_mem_cons.2 ⟨⟨mem_cons_self, ?_, ?_⟩, fun e he => ?_⟩
      written := fun e he hun => ?_
      deleted := fun j hj => ?_
      queue := forall_mem_cons.2 ⟨mem_cons_self, fun e he => ?_⟩
      started := fun j hj => ?_ }
  · rintro ⟨f, hf, hid⟩
    exact hne _ (h.registered f hf) hid
  · intro hd
    obtain ⟨f, hf, hid⟩ := h.deleted _ hd
    exact hne f hf hid
  · obtain ⟨hu, hr⟩ := h.unregistered e he
    exact ⟨mem_cons_of_mem _ hu, hr⟩
  · rw [mem_cons, not_or] at hun
    exact h.written e ((mem_cons.1 he).resolve_left hun.1) hun.2
  · obtain ⟨f, hf, hid⟩ := h.deleted j hj
    exact ⟨f, mem_cons_of_mem _ hf, hid⟩
  · exact mem_cons_of_mem _ (h.queue e he)
  · obtain ⟨f, hf, hid, hun⟩ := h.started j hj
    refine ⟨f, mem_cons_of_mem _ hf, hid, fun hm => ?_⟩
    cases hm with
    | head => exact hne _ hf rfl
    | tail _ hm => exact hun hm

lemma of_registry (h : Coherent s) {registry : Registry} {unregistered : List Record} {now : ℕ}
    {dismissals deleted : List Text} (hun : ∀ e ∈ unregistered, e ∈ s.unregistered)
    (hm : ∀ f ∈ registry.records, f.unmarked ∈ s.submitted)
    (hd : ∀ j ∈ deleted, ∃ e ∈ s.submitted, e.jobId = j)
    (hw : ∀ e ∈ unregistered, ¬ (∃ f ∈ registry.records, f.jobId = e.jobId) ∧ e.jobId ∉ deleted)
    (hr : ∀ e ∈ s.submitted, e ∉ unregistered →
      ((∃ f ∈ registry.records, f.jobId = e.jobId) ↔ e.jobId ∉ deleted ∧ now ≤ 1000 * e.expireAt)) :
    Coherent { s with registry, unregistered, now, dismissals, deleted } where
  nodup := h.nodup
  plain := h.plain
  fresh := h.fresh
  registered := hm
  unregistered e he := ⟨(h.unregistered e (hun e he)).1, hw e he⟩
  written := hr
  deleted := hd
  queue := h.queue
  started j hj := by
    obtain ⟨e, he, hid, hn⟩ := h.started j hj
    exact ⟨e, he, hid, fun hm => hn (hun e hm)⟩

lemma register (h : Coherent s) (he : e ∈ s.unregistered) : Coherent { s with
      unregistered := s.unregistered.filter fun f => decide (f.jobId ≠ e.jobId)
      registry := (s.registry.register e).liveAt s.now } := by
  obtain ⟨hsu, ht, hde⟩ := h.unregistered e he
  have hm : ∀ f, f ∈ ((s.registry.register e).liveAt s.now).records ↔
      (f = e ∨ f ∈ s.registry.records ∧ f.key ≠ e.key) ∧ s.now ≤ 1000 * f.expireAt := fun f => by
    rw [mem_liveAt, mem_register]
  -- the registry has the same records as before of all other jobs
  have ho : ∀ g ∈ s.submitted, g.jobId ≠ e.jobId →
      ((∃ f ∈ ((s.registry.register e).liveAt s.now).records, f.jobId = g.jobId) →
        s.Present g.jobId) := by
    rintro g hg hne ⟨f, hf, hid⟩
    obtain ⟨rfl | ⟨hol, -⟩, -⟩ := (hm f).1 hf
    · exact absurd hid.symm hne
    · exact ⟨f, hol, hid⟩
  refine h.of_registry (fun f hf => mem_of_mem_filter hf) ?_ h.deleted ?_ ?_
  · intro f hf
    obtain ⟨rfl | ⟨hol, -⟩, -⟩ := (hm f).1 hf
    · rwa [h.fresh f hsu]
    · exact h.registered f hol
  · intro g hg
    obtain ⟨hgu, hne⟩ := List.mem_filter.1 hg
    obtain ⟨hu, hn, hd⟩ := h.unregistered g hgu
    exact ⟨fun hex => hn (ho g hu (of_decide_eq_true hne) hex), hd⟩
  · intro g hg hun
    by_cases hid : g.jobId = e.jobId
    · rw [h.eq_of_jobId hg hsu hid]
      constructor
      · rintro ⟨f, hf, hi⟩
        obtain ⟨rfl | ⟨hol, -⟩, hl⟩ := (hm f).1 hf
        · exact ⟨hde, hl⟩
        · exact absurd ⟨f, hol, hi⟩ ht
      · rintro ⟨-, hl⟩
        exact ⟨e, (hm e).2 ⟨Or.inl rfl, hl⟩, rfl⟩
    · have hgu : g ∉ s.unregistered := fun hgu => hun (List.mem_filter.2 ⟨hgu, decide_eq_true hid⟩)
      rw [← h.written g hg hgu]
      refine ⟨ho g hg hid, ?_⟩
      rintro ⟨f, hf, hi⟩
      have hl := ((h.written g hg hgu).1 ⟨f, hf, hi⟩).2
      rw [← h.expireAt_eq hg hf hi] at hl
      refine ⟨f, (hm f).2 ⟨Or.inr ⟨hf, fun hk => hid ?_⟩, hl⟩, hi⟩
      rw [← hi]
      exact jobId_eq_of_key_eq (h.colon_notMem hf) (h.plain e hsu).notMem hk

lemma dismiss (h : Coherent s) (reset : Bool) :
    Coherent { s with registry := (s.registry.dismiss jobId reset).2 } := by
  have hu := @Registry.map_unmarked_dismiss s.registry jobId reset
  have hk : ∀ f ∈ (s.registry.dismiss jobId reset).2.records,
      ∃ g ∈ s.registry.records, g.unmarked = f.unmarked := fun f hf =>
    List.mem_map.1 (hu ▸ List.mem_map_of_mem hf)
  have ho : ∀ g ∈ s.registry.records,
      ∃ f ∈ (s.registry.dismiss jobId reset).2.records, f.unmarked = g.unmarked := fun g hg =>
    List.mem_map.1 (hu.symm ▸ List.mem_map_of_mem hg)
  have hp : ∀ j, (∃ f ∈ (s.registry.dismiss jobId reset).2.records, f.jobId = j) ↔
      s.Present j := by
    intro j
    constructor
    · rintro ⟨f, hf, hid⟩
      obtain ⟨g, hg, heq⟩ := hk f hf
      exact ⟨g, hg, (congrArg Record.jobId heq).trans hid⟩
    · rintro ⟨g, hg, hid⟩
      obtain ⟨f, hf, heq⟩ := ho g hg
      exact ⟨f, hf, (congrArg Record.jobId heq).trans hid⟩
  refine h.of_registry (fun f hf => hf) ?_ h.deleted ?_ ?_
  · intro f hf
    obtain ⟨g, hg, heq⟩ := hk f hf
    exact heq ▸ h.registered g hg
  · intro g hg
    rw [hp]
    exact (h.unregistered g hg).2
  · intro g hg hun
    rw [hp]
    exact h.written g hg hun

lemma delete (h : Coherent s) (dismissals : List Text) :
    Coherent { s with
      registry := (s.registry.delete jobId).2
      dismissals
      deleted := (s.registry.keys (jobPattern jobId)).map Record.jobId ++ s.deleted } := by
  have hr : ∀ j, (∃ f ∈ (s.registry.delete jobId).2.records, f.jobId = j) ↔
      s.Present j ∧ j ∉ (s.registry.keys (jobPattern jobId)).map Record.jobId := by
    intro j
    simp only [mem_delete, List.mem_map, Registry.mem_keys]
    constructor
    · rintro ⟨f, ⟨hf, hno⟩, hid⟩
      refine ⟨⟨f, hf, hid⟩, ?_⟩
      rintro ⟨g, ⟨hg, hm⟩, hi⟩
      exact hno (h.generated.eq_of_jobId hg hf (hi.trans hid.symm) ▸ hm)
    · rintro ⟨⟨f, hf, hid⟩, hno⟩
      exact ⟨f, ⟨hf, fun hm => hno ⟨f, ⟨hf, hm⟩, hid⟩⟩, hid⟩
  refine h.of_registry (fun f hf => hf) ?_ ?_ ?_ ?_
  · intro f hf
    exact h.registered f (mem_delete.1 hf).1
  · intro j hj
    obtain hj | hj := mem_append.1 hj
    · obtain ⟨f, hf, hid⟩ := List.mem_map.1 hj
      exact ⟨f.unmarked, h.registered f (Registry.mem_keys.1 hf).1, hid⟩
    · exact h.deleted j hj
  · intro g hg
    obtain ⟨-, he, hd⟩ := h.unregistered g hg
    rw [hr, mem_append, not_or]
    refine ⟨fun hp => he hp.1, fun hme => ?_, hd⟩
    obtain ⟨f, hf, hid⟩ := List.mem_map.1 hme
    exact he ⟨f, (Registry.mem_keys.1 hf).1, hid⟩
  · intro g hg hun
    rw [hr, h.written g hg hun, mem_append, not_or]
    tauto

lemma tick (h : Coherent s) {now : ℕ} (hle : s.now ≤ now) :
    Coherent { s with now, registry := s.registry.liveAt now } := by
  have hr : ∀ g ∈ s.submitted, (∃ f ∈ (s.registry.liveAt now).records, f.jobId = g.jobId) ↔
      s.Present g.jobId ∧ now ≤ 1000 * g.expireAt := by
    intro g hg
    simp only [mem_liveAt]
    constructor
    · rintro ⟨f, ⟨hf, hl⟩, hid⟩
      exact ⟨⟨f, hf, hid⟩, h.expireAt_eq hg hf hid ▸ hl⟩
    · rintro ⟨⟨f, hf, hid⟩, hl⟩
      exact ⟨f, ⟨hf, (h.expireAt_eq hg hf hid).symm ▸ hl⟩, hid⟩
  refine h.of_registry (fun f hf => hf) ?_ h.deleted ?_ ?_
  · intro f hf
    exact h.registered f (mem_liveAt.1 hf).1
  · intro g hg
    obtain ⟨hu, he, hd⟩ := h.unregistered g hg
    exact ⟨fun hp => he ((hr g hu).1 hp).1, hd⟩
  · intro g hg hun
    rw [hr g hg, h.written g hg hun]
    constructor
    · rintro ⟨⟨hd, -⟩, hl⟩
      exact ⟨hd, hl⟩
    · rintro ⟨hd, hl⟩
      exact ⟨⟨hd, hle.trans hl⟩, hl⟩

lemma startJob (h : Coherent s) (he : e ∈ s.queue) : Coherent (s.startJob e) := by
  have hu := h.queue e he
  rw [System.startJob]
  cases ht : s.registry.beforeStart e.jobId with
  | error err => exact { h with queue := fun f hf => h.queue f (mem_of_mem_filter hf) }
  | ok _ =>
    obtain ⟨hp, -⟩ := (h.beforeStart_ok hu).1 ht
    refine { h with queue := fun f hf => h.queue f (mem_of_mem_filter hf), started := ?_ }
    rintro j (hj | hj)
    · cases hj with
      | head => exact ⟨e, hu, rfl, fun hun => (h.unregistered e hun).2.1 hp⟩
      | tail _ hj => exact h.started j (Or.inl hj)
    · exact h.started j (Or.inr hj)

lemma finish (h : Coherent s) (hr : jobId ∈ s.running) : Coherent { s with
      running := s.running.filter fun j => decide (j ≠ jobId)
      finished := (jobId, s.now) :: s.finished } := by
  refine { h with started := ?_ }
  rintro j (hj | ⟨d, hj⟩)
  · exact h.started j (Or.inl (mem_of_mem_filter hj))
  · cases hj with
    | head => exact h.started jobId (Or.inl hr)
    | tail _ hj => exact h.started j (Or.inr ⟨d, hj⟩)

lemma kill (h : Coherent s) :
    Coherent { s with running := s.running.filter fun j => decide (j ≠ jobId) } := by
  refine { h with started := ?_ }
  rintro j (hj | hj)
  · exact h.started j (Or.inl (mem_of_mem_filter hj))
  · exact h.started j (Or.inr hj)

end Coherent

lemma coherent_step {ev : Event} (h : Coherent s) (ht : step c s ev = some t) : Coherent t := by
  cases ev with
  | submit jobId sub =>
    simp only [step, ite_none_right_eq_some, Option.some.injEq] at ht
    obtain ⟨⟨hp, hnew⟩, rfl⟩ := ht
    exact h.submit sub hp hnew
  | register jobId =>
    obtain ⟨e, hi, rfl⟩ := map_eq_some_iff.1 ht
    obtain rfl : e.jobId = jobId := by simpa using List.find?_some hi
    exact h.register (List.mem_of_find?_eq_some hi)
  | start jobId =>
    obtain ⟨e, hi, rfl⟩ := map_eq_some_iff.1 ht
    exact h.startJob (List.mem_of_find?_eq_some hi)
  | discard jobId =>
    cases ht
    exact { h with queue := fun f hf => h.queue f (mem_of_mem_filter hf) }
  | finish jobId =>
    simp only [step, ite_none_right_eq_some, Option.some.injEq] at ht
    obtain ⟨hr, rfl⟩ := ht
    exact h.finish hr
  | kill jobId =>
    cases ht
    exact h.kill
  | request jobId =>
    cases ht
    exact { h with }
  | mark jobId =>
    simp only [step, ite_none_right_eq_some, Option.some.injEq] at ht
    obtain ⟨-, rfl⟩ := ht
    exact h.dismiss false
  | reset jobId =>
    simp only [step, ite_none_right_eq_some, Option.some.injEq] at ht
    obtain ⟨-, rfl⟩ := ht
    exact h.dismiss true
  | delete jobId =>
    simp only [step, ite_none_right_eq_some, Option.some.injEq] at ht
    obtain ⟨-, rfl⟩ := ht
    exact h.delete _
  | cleanup service =>
    cases ht
    exact { h with }
  | tick now =>
    simp only [step, ite_none_right_eq_some, Option.some.injEq] at ht
    obtain ⟨hle, rfl⟩ := ht
    exact h.tick hle

/-- What one event can do to the clock, to the lists of jobs that only grow, and to the running jobs. -/
structure Advances (s t : System) : Prop where
  now : s.now ≤ t.now
  deleted : s.deleted ⊆ t.deleted
  submitted : s.submitted ⊆ t.submitted
  unregistered : ∀ e ∈ t.unregistered, e ∈ s.unregistered ∨ e.jobId ∉ s.submitted.map Record.jobId
  running : ∀ j ∈ t.running, j ∈ s.running ∨
    ∃ e ∈ s.queue, e.jobId = j ∧ s.registry.beforeStart e.jobId = .ok ()

lemma step_advances {ev : Event} (ht : step c s ev = some t) : Advances s t := by
  cases ev with
  | submit jobId sub =>
    simp only [step, ite_none_right_eq_some, Option.some.injEq] at ht
    obtain ⟨⟨-, hnew⟩, rfl⟩ := ht
    refine ⟨le_rfl, .refl _, subset_cons_self _ _, fun e he => ?_, fun j hj => .inl hj⟩
    obtain rfl | he := mem_cons.1 he
    · exact .inr hnew
    · exact .inl he
  | start jobId =>
    obtain ⟨e, hi, rfl⟩ := map_eq_some_iff.1 ht
    unfold startJob
    cases hb : s.registry.beforeStart e.jobId with
    | error err => exact ⟨le_rfl, .refl _, .refl _, fun e he => .inl he, fun j hj => .inl hj⟩
    | ok _ =>
      refine ⟨le_rfl, .refl _, .refl _, fun e he => .inl he, fun j hj => ?_⟩
      obtain rfl | hj := mem_cons.1 hj
      · exact .inr ⟨e, List.mem_of_find?_eq_some hi, rfl, hb⟩
      · exact .inl hj
  | register jobId =>
    obtain ⟨e, hi, rfl⟩ := map_eq_some_iff.1 ht
    exact ⟨le_rfl, .refl _, .refl _, fun e he => .inl (mem_of_mem_filter he), fun j hj => .inl hj⟩
  | finish jobId =>
    simp only [step, ite_none_right_eq_some, Option.some.injEq] at ht
    obtain ⟨-, rfl⟩ := ht
    exact ⟨le_rfl, .refl _, .refl _, fun e he => .inl he, fun j hj => .inl (mem_of_mem_filter hj)⟩
  | kill jobId =>
    cases ht
    exact ⟨le_rfl, .refl _, .refl _, fun e he => .inl he, fun j hj => .inl (mem_of_mem_filter hj)⟩
  | discard jobId | request jobId | cleanup service =>
    cases ht
    exact ⟨le_rfl, .refl _, .refl _, fun e he => .inl he, fun j hj => .inl hj⟩
  | mark jobId | reset jobId | delete jobId | tick now =>
    simp only [step, ite_none_right_eq_some, Option.some.injEq] at ht
    obtain ⟨hn, rfl⟩ := ht
    refine ⟨?_, ?_, .refl _, fun e he => .inl he, fun j hj => .inl hj⟩
    all_goals first | exact le_rfl | exact .refl _ | exact subset_append_right _ _ | exact hn

/-- The job was registered and its record is gone. -/
def Gone (s : System) (e : Record) : Prop :=
  e ∈ s.submitted ∧ e ∉ s.unregistered ∧ ¬ s.Present e.jobId

lemma gone_step {ev : Event} (h : Coherent s) (hg : s.Gone e) (ht : step c s ev = some t) :
    t.Gone e ∧ (e.jobId ∈ t.running → e.jobId ∈ s.running) := by
  obtain ⟨hs, hu, hp⟩ := hg
  have ha := step_advances ht
  have hu' : e ∉ t.unregistered := fun he =>
    (ha.unregistered e he).elim hu fun hn => hn (List.mem_map_of_mem hs)
  refine ⟨⟨ha.submitted hs, hu', fun hp' => hp ?_⟩, fun hr => ?_⟩
  · obtain ⟨hd, hn⟩ := ((coherent_step h ht).written e (ha.submitted hs) hu').1 hp'
    exact (h.written e hs hu).2 ⟨fun hm => hd (ha.deleted hm), ha.now.trans hn⟩
  · obtain hr | ⟨f, hf, hid, hb⟩ := ha.running _ hr
    · exact hr
    · exact absurd (hid ▸ ((h.beforeStart_ok (h.queue f hf)).1 hb).1) hp

def dismissed : List Event :=
  [.submit ['a'] bufferRequest, .register ['a'], .request ['a'], .mark ['a'], .delete ['a']]

end System

end QJazz.Processes
