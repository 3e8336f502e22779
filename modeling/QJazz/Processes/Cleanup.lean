import QJazz.Processes.Lifecycle

/-! The record's lifetime is fixed when the job is submitted, while a finished job advertises its
results for some time after its end. -/
namespace QJazz.Processes

open Lexical Glob Transition List Option

/-- The time up to which the results of the job are advertised, if it ended at the given time. -/
def Record.expiresAt (e : Record) (done : ℕ) : ℕ := 1000 * e.expires + done

lemma expiresAt_jobStatus (c : Settings) (w : Context) (sub : Submission) (jobId : Text)
    (d : List Text) {u o : ℕ} {a : JobStatus}
    (hm : w.taskMeta jobId = .success (c.jobMeta u sub) o ∨
      ∃ r, w.taskMeta jobId = .failure (c.jobMeta u sub) o r)
    (ht : w.jobStatus jobId d true = .ok (some a)) :
    a.expiresAt = some ((c.record u sub jobId).expiresAt o) := by
  obtain hm | ⟨r, hm⟩ := hm
  all_goals
    rw [Context.jobStatus, hm] at ht
    cases ht
    rfl

namespace System

variable {c : Settings} {s t : System} {e : Record} {ev : Event} {jobId service : Text}

/-- The job runs, or its results are advertised and nobody dismissed it. -/
def Wanted (s : System) (e : Record) : Prop :=
  e.jobId ∈ s.running ∨
    ∃ done, (e.jobId, done) ∈ s.finished ∧ e.jobId ∉ s.dismissals ∧ s.now < e.expiresAt done

def Preserved (s : System) : Prop := ∀ e ∈ s.submitted, s.Wanted e → (e.jobId, e.service) ∈ s.files

/-- A clean-up comes while the records of the jobs that need their files are alive: no dismissal has
deleted them and their expiration has not passed. -/
def Timely (s : System) : Event → Prop
  | .cleanup service => ∀ e ∈ s.submitted, e.service = service → s.Wanted e →
      e.jobId ∉ s.deleted ∧ s.now ≤ 1000 * e.expireAt
  | _ => True

lemma Preserved.of_wanted (h : Preserved s)
    (hn : ∀ e ∈ t.submitted, t.Wanted e → e ∈ s.submitted ∧ s.Wanted e)
    (hf : ∀ f ∈ s.files, f ∈ t.files) : Preserved t := by
  intro e he hw
  obtain ⟨hu, ho⟩ := hn e he hw
  exact hf _ (h e hu ho)

lemma Wanted.started (h : s.Wanted e) : e.jobId ∈ s.running ∨ ∃ d, (e.jobId, d) ∈ s.finished := by
  obtain hr | ⟨d, hd, -⟩ := h
  · exact Or.inl hr
  · exact Or.inr ⟨d, hd⟩

lemma Coherent.present_of_wanted (h : Coherent s) (he : e ∈ s.submitted) (hw : s.Wanted e) :
    s.Present e.jobId ↔ e.jobId ∉ s.deleted ∧ s.now ≤ 1000 * e.expireAt := by
  obtain ⟨f, hf, hid, hun⟩ := h.started _ hw.started
  rw [h.eq_of_jobId hf he hid] at hun
  exact h.written e he hun

lemma preserved_cleanup_iff (h : Coherent s) (hpr : Preserved s) :
    Preserved (s.cleanupExpiredJobs service) ↔ Timely s (.cleanup service) := by
  have hk : ∀ e ∈ s.submitted, s.Wanted e →
      ((e.jobId, e.service) ∈ (s.cleanupExpiredJobs service).files ↔
        (e.service = service → e.jobId ∉ s.deleted ∧ s.now ≤ 1000 * e.expireAt)) := by
    intro e he hw
    rw [cleanupExpiredJobs, List.mem_filter, and_iff_right (hpr e he hw), Bool.or_eq_true,
      decide_eq_true_eq, h.existsJob_iff he, h.present_of_wanted he hw, ← imp_iff_not_or]
  constructor
  · intro hp e he hr hw
    exact (hk e he hw).1 (hp e he hw) hr
  · intro ht e he hw
    exact (hk e he hw).2 fun hr => ht e he hr hw

lemma Coherent.not_wanted (h : Coherent s) (hnew : e.jobId ∉ s.submitted.map Record.jobId) :
    ¬ s.Wanted e := by
  intro hw
  obtain ⟨f, hf, hid, -⟩ := h.started _ hw.started
  exact hnew (hid ▸ List.mem_map_of_mem hf)

lemma preserved_startJob (h : Coherent s) (hp : Preserved s) (he : e ∈ s.queue) :
    Preserved (s.startJob e) := by
  rw [startJob]
  cases s.registry.beforeStart e.jobId with
  | error err => exact hp
  | ok _ =>
    intro g hg hw
    by_cases hid : g.jobId = e.jobId
    · rw [h.eq_of_jobId hg (h.queue e he) hid]
      exact mem_cons_self
    · refine mem_cons_of_mem _ (hp g hg ?_)
      obtain hr | hd := hw
      · exact Or.inl ((mem_cons.1 hr).resolve_left hid)
      · exact Or.inr hd

lemma preserved_finish (hp : Preserved s) (hu : jobId ∈ s.running) : Preserved { s with
      running := s.running.filter fun j => decide (j ≠ jobId)
      finished := (jobId, s.now) :: s.finished } := by
  refine hp.of_wanted (fun g hg hw => ⟨hg, ?_⟩) fun _ hf => hf
  obtain hr | ⟨d, hd, he⟩ := hw
  · exact Or.inl (mem_of_mem_filter hr)
  · obtain heq | hd := mem_cons.1 hd
    · exact Or.inl ((Prod.mk.inj heq).1 ▸ hu)
    · exact Or.inr ⟨d, hd, he⟩

lemma preserved_step_iff (h : Coherent s) (hp : Preserved s) (ht : step c s ev = some t) :
    Preserved t ↔ Timely s ev := by
  cases ev with
  | cleanup service =>
    cases ht
    exact preserved_cleanup_iff h hp
  | submit jobId sub =>
    simp only [step, ite_none_right_eq_some, Option.some.injEq] at ht
    obtain ⟨⟨-, hnew⟩, rfl⟩ := ht
    refine iff_of_true (hp.of_wanted (fun g hg hw => ⟨?_, hw⟩) fun _ hf => hf) trivial
    refine (mem_cons.1 hg).resolve_left fun heq => ?_
    exact h.not_wanted (heq ▸ hnew) hw
  | start jobId =>
    obtain ⟨e, hi, rfl⟩ := map_eq_some_iff.1 ht
    exact iff_of_true (preserved_startJob h hp (List.mem_of_find?_eq_some hi)) trivial
  | finish jobId =>
    simp only [step, ite_none_right_eq_some, Option.some.injEq] at ht
    obtain ⟨hr, rfl⟩ := ht
    exact iff_of_true (preserved_finish hp hr) trivial
  | kill jobId =>
    cases ht
    refine iff_of_true (hp.of_wanted (fun g hg hw => ⟨hg, ?_⟩) fun _ hf => hf) trivial
    exact hw.imp_left fun hr => mem_of_mem_filter hr
  | delete jobId =>
    simp only [step, ite_none_right_eq_some, Option.some.injEq] at ht
    obtain ⟨-, rfl⟩ := ht
    refine iff_of_true (hp.of_wanted (fun g hg hw => ⟨hg, ?_⟩) fun _ hf => hf) trivial
    refine hw.imp_right ?_
    rintro ⟨d, ho, hd, hlt⟩
    exact ⟨d, ho, not_mem_of_not_mem_cons hd, hlt⟩
  | tick now =>
    simp only [step, ite_none_right_eq_some, Option.some.injEq] at ht
    obtain ⟨hle, rfl⟩ := ht
    refine iff_of_true (hp.of_wanted (fun g hg hw => ⟨hg, ?_⟩) fun _ hf => hf) trivial
    refine hw.imp_right ?_
    rintro ⟨d, ho, hd, hlt⟩
    exact ⟨d, ho, hd, hle.trans_lt hlt⟩
  | register jobId =>
    obtain ⟨e, -, rfl⟩ := map_eq_some_iff.1 ht
    exact iff_of_true hp trivial
  | discard | request =>
    cases ht
    exact iff_of_true hp trivial
  | mark | reset =>
    simp only [step, ite_none_right_eq_some, Option.some.injEq] at ht
    obtain ⟨-, rfl⟩ := ht
    exact iff_of_true hp trivial

/-- The files of the jobs that need them are there throughout a run exactly if every clean-up of the run
comes in time. -/
theorem always_preserved_iff_timely (c : Settings) (es : List Event) :
    Always (step c) Preserved initial es ↔ Along (step c) Timely initial es :=
  always_iff_along (fun _ _ _ h ht => coherent_step h ht)
    (fun _ _ _ h hp ht => preserved_step_iff h hp ht) coherent_initial nofun

def minuteSettings : Settings where
  resultExpires _ := 60
  pendingExpirationTimeout := 60

/-- A job runs for longer than its record lives, and a clean-up removes its directory. -/
theorem not_always_preserved_long_job : ¬ Always (step minuteSettings) Preserved initial
    [.submit "3f2a".toList bufferRequest, .register "3f2a".toList, .start "3f2a".toList,
      .tick 120001, .cleanup "qgis".toList] := by
  intro h
  have hp : Preserved _ := ((((h.2 _ rfl).2 _ rfl).2 _ rfl).2 _ rfl).2 _ rfl
  have hf := hp (minuteSettings.record 0 bufferRequest "3f2a".toList) (by decide +kernel)
    (Or.inl (by decide +kernel))
  revert hf
  decide +kernel

end System

end QJazz.Processes
