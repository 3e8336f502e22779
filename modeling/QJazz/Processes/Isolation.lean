import QJazz.Processes.Executor

/-! The identifier of a job comes from the path of a request and is put into glob patterns as it is.
-/
namespace QJazz.Processes

open Lexical Glob Registry

variable {r : Registry} {jobId : Text} {realm service : Option Text}

/-- The operations on a job answer about records registered under exactly its identifier and leave the
records of all other jobs as they are. -/
structure Isolated (r : Registry) (jobId : Text) (realm service : Option Text) : Prop where
  findJob : ∀ info, r.findJob jobId realm = some info → info.jobId = jobId
  existsJob : r.existsJob jobId service = true → ∃ e ∈ r.records, e.jobId = jobId
  dismiss : ∀ reset, ∀ e ∈ r.records, e.jobId ≠ jobId → e ∈ (r.dismiss jobId reset).2.records
  delete : ∀ e ∈ r.records, e.jobId ≠ jobId → e ∈ (r.delete jobId).2.records
  dismissJob : ∀ w : Context, ∀ e ∈ r.records, e.jobId ≠ jobId →
    e ∈ (w.dismissJob r jobId realm).registry.records

/-- The patterns made of the identifier match no key of another job. A check whether the job exists may
meet another job's key if the job has a record too. -/
structure Separate (r : Registry) (jobId : Text) (realm service : Option Text) : Prop where
  findPattern : ∀ e ∈ r.records, globMatch (findPattern jobId realm) e.key = true → e.jobId = jobId
  jobPattern : ∀ e ∈ r.records, globMatch (jobPattern jobId) e.key = true → e.jobId = jobId
  existsPattern : ∀ e ∈ r.records, globMatch (existsPattern jobId service) e.key = true →
    ∃ f ∈ r.records, f.jobId = jobId

lemma Separate.of_perm {r' : Registry} (h : Separate r jobId realm service)
    (hp : r'.records.Perm r.records) : Separate r' jobId realm service where
  findPattern e he := h.findPattern e (hp.mem_iff.1 he)
  jobPattern e he := h.jobPattern e (hp.mem_iff.1 he)
  existsPattern e he hm := by
    obtain ⟨f, hf, hj⟩ := h.existsPattern e (hp.mem_iff.1 he) hm
    exact ⟨f, hp.mem_iff.2 hf, hj⟩

lemma Separate.isolated (h : Separate r jobId realm service) : Isolated r jobId realm service := by
  have hk : ∀ e ∈ r.records, e.jobId ≠ jobId → globMatch (Processes.jobPattern jobId) e.key ≠ true :=
    fun e he hne hm => hne (h.jobPattern e he hm)
  refine ⟨?_, ?_, ?_, ?_, ?_⟩
  · intro i hi
    obtain ⟨e, he, hm, rfl⟩ := exists_of_findJob hi
    exact h.findPattern e he hm
  · intro hx
    obtain ⟨e, he, hm⟩ := existsJob_iff.1 hx
    exact h.existsPattern e he hm
  · intro s e he hne
    exact (mem_dismiss (hk e he hne)).2 he
  · intro e he hne
    exact mem_delete.2 ⟨he, hk e he hne⟩
  · intro w e he hne
    have hno := hk e he hne
    obtain heq | heq | heq | heq := @Context.registry_dismissJob w r jobId realm
    all_goals rw [heq]
    · exact he
    · exact (mem_dismiss hno).2 he
    · exact mem_delete.2 ⟨(mem_dismiss hno).2 he, hno⟩
    · exact (mem_dismiss hno).2 ((mem_dismiss hno).2 he)

/-- The registry whose keys Redis reports with those of a given record first. -/
def Registry.moveToFront (r : Registry) (e : Record) (he : e ∈ r.records) : Registry where
  records := e :: r.records.erase e
  nodup := ((List.perm_cons_erase he).map Record.key).nodup_iff.1 r.nodup

/-- The operations on a job concern that job only, in whatever order Redis reports the keys, exactly when
the patterns of its identifier match no key of another job. -/
theorem isolated_iff_separate (r : Registry) (jobId : Text) (realm service : Option Text) :
    (∀ r' : Registry, r'.records.Perm r.records → Isolated r' jobId realm service) ↔
      Separate r jobId realm service := by
  constructor
  · intro h
    have hl := h r (List.Perm.refl _)
    refine ⟨?_, ?_, ?_⟩
    · intro e he hm
      have hf := h (r.moveToFront e he) (List.perm_cons_erase he).symm
      exact hf.findJob e.decode (by simp [findJob, keys, moveToFront, hm])
    · intro e he hm
      by_contra hne
      exact (mem_delete.1 (hl.delete e he hne)).2 hm
    · intro e he hm
      exact hl.existsJob (existsJob_iff.2 ⟨e, he, hm⟩)
  · intro h r' hp
    exact (h.of_perm hp).isolated

lemma separate_of_plainId (hid : PlainId jobId) (ho : ∀ e ∈ r.records, ':' ∉ e.jobId) :
    Separate r jobId realm service where
  findPattern e he hmatch := ((globMatch_plainId hid (ho e he)).1 hmatch).1
  jobPattern e he hmatch := ((globMatch_plainId hid (ho e he)).1 hmatch).1
  existsPattern e he hmatch := ⟨e, he, ((globMatch_plainId hid (ho e he)).1 hmatch).1⟩

def buffer : Record where
  jobId := "3f2a".toList
  service := "qgis".toList
  realm := none
  processId := "buffer".toList
  created := 0
  expires := 86400
  pendingTimeout := 600
  tag := none
  dismissed := false

def oneJob : Registry where
  records := [buffer]
  nodup := List.nodup_singleton _

def quiet : Context where
  destinations _ := ["qgis@host".toList]
  taskMeta _ := .pending
  queryReplies _ _ := []
  now := 1000
  lockAcquired := true
  revokeFails := false

theorem not_isolated_star : ¬ Isolated oneJob "*".toList none none := by
  intro h
  have hk := h.dismissJob quiet buffer (List.mem_singleton.2 rfl) (by decide)
  revert hk
  decide +kernel

end QJazz.Processes
