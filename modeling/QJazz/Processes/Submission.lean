import QJazz.Processes.Lifecycle

/-! A worker takes a missing record as a dismissal, and the executor writes the record after it has
sent the message. -/
namespace QJazz.Processes.System

open Lexical Glob Transition

variable {c : Settings} {s t : System} {ev : Event}

def Expired (s : System) (jobId : Text) : Prop :=
  ∃ e ∈ s.submitted, e.jobId = jobId ∧ 1000 * e.expireAt < s.now

/-- Only jobs whose dismissal was requested, or whose record has expired, are refused as dismissed. -/
def Fair (s : System) : Prop := ∀ j ∈ s.refused, j ∈ s.requests ∨ s.Expired j

instance (s : System) (jobId : Text) : Decidable (s.Expired jobId) := by
  unfold Expired
  infer_instance

instance : DecidablePred Fair := fun s => by
  unfold Fair
  infer_instance

def Untouched (s : System) (jobId : Text) : Prop :=
  jobId ∉ s.deleted ∧ ∀ f ∈ s.registry.records, f.jobId = jobId → f.dismissed = false

/-- When a worker takes the message of a job that nobody dismissed and that has not expired, the job
is registered, and no dismissal under another identifier has touched its record. -/
def RegisteredAtStart (s : System) : Event → Prop
  | .start jobId => jobId ∈ s.requests ∨ s.Expired jobId ∨
      (∀ e ∈ s.unregistered, e.jobId ≠ jobId) ∧ s.Untouched jobId
  | _ => True

/-- Nothing is refused, and no job, request or time that passed is taken back. -/
structure Grows (s t : System) : Prop where
  refused : t.refused = s.refused
  requests : ∀ j ∈ s.requests, j ∈ t.requests
  submitted : ∀ e ∈ s.submitted, e ∈ t.submitted
  now : s.now ≤ t.now

lemma grows_step (hr : ∀ jobId, ev ≠ .start jobId) (ht : step c s ev = some t) : Grows s t := by
  cases ev with
  | start jobId => exact absurd rfl (hr jobId)
  | submit jobId sub =>
    simp only [step, Option.ite_none_right_eq_some, Option.some.injEq] at ht
    obtain ⟨-, rfl⟩ := ht
    exact ⟨rfl, fun _ hj => hj, fun _ he => List.mem_cons_of_mem _ he, le_rfl⟩
  | register jobId =>
    obtain ⟨e, -, rfl⟩ := Option.map_eq_some_iff.1 ht
    exact ⟨rfl, fun _ hj => hj, fun _ he => he, le_rfl⟩
  | request jobId =>
    cases ht
    exact ⟨rfl, fun _ hj => List.mem_cons_of_mem _ hj, fun _ he => he, le_rfl⟩
  | tick now =>
    simp only [step, Option.ite_none_right_eq_some, Option.some.injEq] at ht
    obtain ⟨hle, rfl⟩ := ht
    exact ⟨rfl, fun _ hj => hj, fun _ he => he, hle⟩
  | discard | kill | cleanup =>
    cases ht
    exact ⟨rfl, fun _ hj => hj, fun _ he => he, le_rfl⟩
  | finish | mark | reset | delete =>
    simp only [step, Option.ite_none_right_eq_some, Option.some.injEq] at ht
    obtain ⟨-, rfl⟩ := ht
    exact ⟨rfl, fun _ hj => hj, fun _ he => he, le_rfl⟩

lemma Fair.of_grows (h : Fair s) (hg : Grows s t) : Fair t := by
  intro j hj
  rw [hg.refused] at hj
  obtain hr | ⟨e, he, hid, hlt⟩ := h j hj
  · exact Or.inl (hg.requests j hr)
  · exact Or.inr ⟨e, hg.submitted e he, hid, hlt.trans_le hg.now⟩

lemma Coherent.expired_of_refused {e : Record} {err : ExecutorError} (h : Coherent s)
    (he : e ∈ s.submitted) (ht : s.registry.beforeStart e.jobId = .error err)
    (hw : ∀ f ∈ s.unregistered, f.jobId ≠ e.jobId) (hu : s.Untouched e.jobId) :
    s.Expired e.jobId := by
  have hn : ¬ s.Present e.jobId := by
    intro hp
    rw [(h.beforeStart_ok he).2 ⟨hp, hu.2⟩] at ht
    cases ht
  rw [h.written e he fun hun => hw e hun rfl] at hn
  exact ⟨e, he, rfl, not_le.1 fun hl => hn ⟨hu.1, hl⟩⟩

lemma Coherent.registered_of_started {e : Record} (h : Coherent s) (he : e ∈ s.submitted)
    (ht : s.registry.beforeStart e.jobId = .ok ()) :
    (∀ f ∈ s.unregistered, f.jobId ≠ e.jobId) ∧ s.Untouched e.jobId := by
  obtain ⟨hp, hm⟩ := (h.beforeStart_ok he).1 ht
  have hw : ∀ f ∈ s.unregistered, f.jobId ≠ e.jobId := by
    intro f hf hid
    exact (h.unregistered f hf).2.1 (hid ▸ hp)
  have hun : e ∉ s.unregistered := fun hun => hw e hun rfl
  exact ⟨hw, ((h.written e he hun).1 hp).1, hm⟩

lemma fair_startJob_iff {e : Record} (h : Coherent s) (hf : Fair s) (he : e ∈ s.queue) :
    Fair (s.startJob e) ↔ RegisteredAtStart s (.start e.jobId) := by
  have hsu := h.queue e he
  rw [startJob]
  cases ht : s.registry.beforeStart e.jobId with
  | error err =>
    constructor
    · intro hi
      obtain hr | hx := hi e.jobId List.mem_cons_self
      · exact Or.inl hr
      · exact Or.inr (Or.inl hx)
    · intro hg j hj
      cases hj with
      | tail _ hj => exact hf j hj
      | head =>
        obtain hr | hx | ⟨hw, hu⟩ := hg
        · exact Or.inl hr
        · exact Or.inr hx
        · exact Or.inr (h.expired_of_refused hsu ht hw hu)
  | ok _ =>
    exact iff_of_true hf (Or.inr (Or.inr (h.registered_of_started hsu ht)))

lemma fair_step_iff (h : Coherent s) (hf : Fair s) (ht : step c s ev = some t) :
    Fair t ↔ RegisteredAtStart s ev := by
  cases ev with
  | start jobId =>
    obtain ⟨e, hi, rfl⟩ := Option.map_eq_some_iff.1 ht
    obtain rfl : e.jobId = jobId := by simpa using List.find?_some hi
    exact fair_startJob_iff h hf (List.mem_of_find?_eq_some hi)
  | submit | register | discard | finish | kill | request | mark | reset | delete | cleanup | tick =>
    refine iff_of_true (hf.of_grows (grows_step ?_ ht)) trivial
    exact fun _ => nofun

/-- No job is refused without a dismissal exactly in the runs in which every job is registered before a
worker takes its message. -/
theorem always_fair_iff_registered (c : Settings) (es : List Event) :
    Always (step c) Fair initial es ↔ Along (step c) RegisteredAtStart initial es :=
  always_iff_along (fun _ _ _ h ht => coherent_step h ht)
    (fun _ _ _ h hf ht => fair_step_iff h hf ht) coherent_initial nofun

def settings : Settings where
  resultExpires _ := 86400
  pendingExpirationTimeout := 600

/-- A worker takes the message before the executor has registered the job. -/
theorem not_always_fair_early_start : ¬ Always (step settings) Fair initial
    [.submit "3f2a".toList bufferRequest, .start "3f2a".toList] := by
  intro h
  have hf : Fair _ := (h.2 _ rfl).2 _ rfl
  revert hf
  decide +kernel

end QJazz.Processes.System
