import QJazz.Pool.Model
import QJazz.Transition.Run

/-! The pool counts the processes it created and those it takes for dead. The difference is the
number of live workers, except after a shrink that settles dead workers in one counter only. -/
set_option linter.dupNamespace false
namespace QJazz.Pool
open Config Transition List

variable {χ : Type*} {exec : WorkerCall → χ → Option χ} {launch : Option (ℕ → χ)}

namespace Pool
variable {p p' : Pool χ} {n busy : ℕ}

/-- The counters agree with the idle workers and the given number of workers handed out. -/
def Counts (p : Pool χ) (busy : ℕ) : Prop :=
  p.numProcesses = p.queue.deadWorkers + p.queue.q.length + busy

/-- A maintenance would take the shrink branch with dead workers to settle. -/
def ShrinksWithDead (p : Pool χ) : Prop :=
  p.queue.closed = false ∧ 0 < p.cleanupDeadWorkers.queue.deadWorkers ∧
    p.nominal < p.numProcesses - p.cleanupDeadWorkers.queue.deadWorkers

instance : Decidable p.ShrinksWithDead := inferInstanceAs (Decidable (_ ∧ _ ∧ _))

lemma cleanupDeadWorkers_counts (h : p.Counts busy) : p.cleanupDeadWorkers.Counts busy := by
  have hle := length_filter_le (·.alive) p.queue.q
  unfold Counts cleanupDeadWorkers at *
  simp only
  omega

lemma cleanupDeadWorkers_alive (p : Pool χ) : ∀ w ∈ p.cleanupDeadWorkers.queue.q, w.alive = true :=
  fun _ hw => (List.mem_filter.1 hw).2

lemma grow_spec (h : p.grow exec launch n = .ok p') : ∃ ws : List (Worker χ),
    ws.length = n ∧ (∀ w ∈ ws, w.alive) ∧
      p' = { p with queue := p.queue.sendAll ws, numProcesses := p.numProcesses + n } := by
  simp only [grow] at h
  split at h
  · cases h
  · split at h
    · cases h
    · split at h
      · cases h
      next o hws =>
        cases h
        have hl := Restore.restore_of_mapM hws
        refine ⟨o, by simpa using hl.length_eq.symm, fun w hw => ?_, rfl⟩
        obtain ⟨k, hk, rfl⟩ := getElem_of_mem hw
        have hr := hl.get (by simpa [hl.length_eq] using hk) hk
        simpa using (Restore.restore_fields hr).1

def current (p : Pool χ) : ℕ := p.numProcesses - p.queue.deadWorkers

/-- The outcomes of a maintenance, from the pool whose dead workers were removed. -/
inductive Maintained (c : Pool χ) : Except Error Unit → Pool χ → Prop
  | failed (e : Error) (h : c.queue.closed = true ∨ c.current < c.nominal) : Maintained c (.error e) c
  | kept (h : c.nominal = c.current) : Maintained c (.ok ()) c
  | grown (h : c.current < c.nominal) (ws : List (Worker χ)) (hlen : ws.length = c.nominal - c.current)
      (halive : ∀ w ∈ ws, w.alive = true) :
      Maintained c (.ok ()) { c with
        queue := { c.queue with q := c.queue.q ++ ws, failures := 0, deadWorkers := 0 }
        numProcesses := c.nominal }
  | shrunk (h : c.nominal < c.current) (hopen : c.queue.closed = false) :
      Maintained c (.ok ()) { c with
        queue := { c.queue with
          q := c.queue.q.drop (c.current - c.nominal), failures := 0, deadWorkers := 0 }
        numProcesses := c.numProcesses - (c.queue.q.take (c.current - c.nominal)).length }

lemma maintained (exec : WorkerCall → χ → Option χ) (launch : Option (ℕ → χ)) (p : Pool χ) :
    Maintained p.cleanupDeadWorkers (p.maintainPool exec launch).1 (p.maintainPool exec launch).2 := by
  simp only [maintainPool]
  split
  next hlt =>
    split
    next p' hg =>
      obtain ⟨ws, hlen, halive, rfl⟩ := grow_spec hg
      simpa [settle, WorkerQueue.sendAll] using Maintained.grown hlt ws hlen halive
    next e hg => exact .failed e (.inr hlt)
  next hge =>
    split
    next hlt =>
      simp only [shrink]
      cases hl : p.cleanupDeadWorkers.queue.closed with
      | true => exact .failed _ (.inl hl)
      | false => simpa [settle, current, hl] using Maintained.shrunk hlt hl
    next hle => exact .kept (by unfold current; omega)

lemma maintainPool_counts (h : p.Counts busy) :
    (p.maintainPool exec launch).2.Counts busy ↔ ¬ p.ShrinksWithDead := by
  have hc := cleanupDeadWorkers_counts h
  have hm := maintained exec launch p
  have hh : p.ShrinksWithDead ↔ p.cleanupDeadWorkers.queue.closed = false ∧
      0 < p.cleanupDeadWorkers.queue.deadWorkers ∧
        p.cleanupDeadWorkers.nominal < p.cleanupDeadWorkers.current := Iff.rfl
  rw [hh]
  generalize p.cleanupDeadWorkers = c at *
  generalize (p.maintainPool exec launch).1 = res at *
  generalize (p.maintainPool exec launch).2 = q at *
  unfold Counts at hc
  cases hm with
  | failed e hw =>
    refine iff_of_true hc ?_
    rintro ⟨hopen, -, hlt⟩
    rcases hw with hl | hg
    · rw [hopen] at hl
      cases hl
    · omega
  | kept hnominal => exact iff_of_true hc fun ⟨_, _, hlt⟩ => by omega
  | grown hlt ws hlen halive =>
    refine iff_of_true ?_ fun ⟨_, _, hgt⟩ => by omega
    unfold current at hlt hlen
    simp only [Counts, length_append]
    omega
  | shrunk hlt hopen =>
    simp only [Counts, length_drop, length_take, hopen, true_and, hlt, and_true]
    unfold current at *
    omega

lemma maintainPool_nominal (h : p.Counts 0) (hok : (p.maintainPool exec launch).1 = .ok ()) :
    (p.maintainPool exec launch).2.queue.q.length = (p.maintainPool exec launch).2.nominal ∧
      ∀ w ∈ (p.maintainPool exec launch).2.queue.q, w.alive = true := by
  have hc := cleanupDeadWorkers_counts h
  have hm := maintained exec launch p
  have hi := cleanupDeadWorkers_alive p
  generalize p.cleanupDeadWorkers = c at *
  generalize (p.maintainPool exec launch).1 = res at *
  generalize (p.maintainPool exec launch).2 = q at *
  unfold Counts at hc
  cases hm with
  | failed e hwhy => cases hok
  | kept hnominal =>
    unfold current at hnominal
    exact ⟨by omega, hi⟩
  | grown hlt ws hlen halive =>
    unfold current at hlt hlen
    refine ⟨by simp only [length_append]; omega, fun w hw => ?_⟩
    rcases mem_append.1 hw with hw | hw
    exacts [hi w hw, halive w hw]
  | shrunk hlt hopen =>
    unfold current at *
    exact ⟨by simp only [length_drop]; omega, fun w hw => hi w (mem_of_mem_drop hw)⟩

end Pool

/-- The pool together with the workers that were handed out and not yet recycled. -/
structure Running (χ : Type*) where
  pool : Pool χ
  busy : List (Worker χ) := []

/-- Operations of the pool, its receivers, its recycling tasks and its processes. -/
inductive Operation (χ : Type*) where
  | maintainPool (launch : Option (ℕ → χ))
  | patchConfig (nominal maxRequests : ℕ) (launch : Option (ℕ → χ))
  | recv
  | recycle (i : ℕ) (cancelled : Bool)
  | die (i : ℕ)
  | dieBusy (i : ℕ)
  | reload
  | updateCache (state : Restore.State)
  | updateConfig (config : Document)
  | close

namespace Running

def start (nominal maxRequests : ℕ) (projects : List String) : Running χ :=
  { pool := .new nominal maxRequests projects }

def drain (s : Running χ) : Running χ :=
  { pool := { s.pool with queue := s.pool.queue.drain.2 }, busy := s.busy ++ s.pool.queue.drain.1 }

def withQueue (s : Running χ) (queue : WorkerQueue χ) : Running χ :=
  { s with pool := { s.pool with queue } }

def step (exec : WorkerCall → χ → Option χ) (s : Running χ) : Operation χ → Option (Running χ)
  | .maintainPool launch => some { s with pool := (s.pool.maintainPool exec launch).2 }
  | .patchConfig nominal maxRequests launch =>
    some { s with pool := (s.pool.patchConfig exec launch nominal maxRequests).2 }
  | .recv =>
    match s.pool.queue.closed, s.pool.queue.q with
    | false, w :: q => some { s.withQueue { s.pool.queue with q } with busy := s.busy ++ [w] }
    | _, _ => none
  | .recycle i cancelled => s.busy[i]?.map fun w =>
      { s.withQueue (s.pool.queue.recycleOwned exec w cancelled) with busy := s.busy.eraseIdx i }
  | .die i => s.pool.queue.q[i]?.map fun w =>
      s.withQueue { s.pool.queue with q := s.pool.queue.q.set i { w with alive := false } }
  | .dieBusy i => s.busy[i]?.map fun w => { s with busy := s.busy.set i { w with alive := false } }
  | .reload => some (s.withQueue s.pool.queue.nextGeneration).drain
  | .updateCache state =>
    let s := s.drain
    some (s.withQueue { s.pool.queue with restore := s.pool.queue.restore.updateCache state })
  | .updateConfig config =>
    let s := s.drain
    some (s.withQueue { s.pool.queue with restore := s.pool.queue.restore.updateConfig config })
  | .close => some { s with pool := s.pool.close }

/-- The created processes that are not counted as dead are the idle and the busy ones. -/
def Accounted (s : Running χ) : Prop := s.pool.Counts s.busy.length

/-- A maintenance that succeeds now, with no worker handed out, leaves the nominal number of live
workers in the queue. -/
def MaintainsNominal (exec : WorkerCall → χ → Option χ) (s : Running χ) : Prop :=
  ∀ launch, s.busy = [] → (s.pool.maintainPool exec launch).1 = .ok () →
    (s.pool.maintainPool exec launch).2.queue.q.length = (s.pool.maintainPool exec launch).2.nominal ∧
      ∀ w ∈ (s.pool.maintainPool exec launch).2.queue.q, w.alive = true

def SettlesNoDead (s : Running χ) : Operation χ → Prop
  | .maintainPool _ => ¬ s.pool.ShrinksWithDead
  | .patchConfig nominal maxRequests _ =>
    ¬ Pool.ShrinksWithDead { s.pool with nominal, queue := { s.pool.queue with maxRequests } }
  | _ => True

variable {s t : Running χ} {e : Operation χ}

lemma Accounted.maintainsNominal (h : s.Accounted) : s.MaintainsNominal exec := by
  intro launch hu hok
  exact Pool.maintainPool_nominal (by simpa [Accounted, hu] using h) hok

lemma recycleOwned_counts (exec : WorkerCall → χ → Option χ) (q : WorkerQueue χ) (w : Worker χ)
    (c : Bool) : (q.recycleOwned exec w c).deadWorkers + (q.recycleOwned exec w c).q.length =
      q.deadWorkers + q.q.length + 1 := by
  unfold WorkerQueue.recycleOwned WorkerQueue.terminateFailure WorkerQueue.terminate WorkerQueue.send
  split_ifs
  · simp only
    omega
  · split <;> simp only [length_append, length_cons, length_nil] <;> omega
  · simp only
    omega

lemma drain_accounted : s.drain.Accounted ↔ s.Accounted := by
  simp only [Accounted, Pool.Counts, drain, WorkerQueue.drain, length_append, length_nil]
  omega

lemma step_accounted (h : s.Accounted) (ht : s.step exec e = some t) :
    t.Accounted ↔ s.SettlesNoDead e := by
  cases e with
  | maintainPool launch | patchConfig o m launch =>
    cases ht
    exact Pool.maintainPool_counts h
  | recv =>
    refine iff_of_true ?_ trivial
    simp only [step] at ht
    split at ht
    next w q hl hq =>
      cases ht
      simp only [Accounted, Pool.Counts, withQueue, hq, length_append, length_cons, length_nil] at *
      omega
    · cases ht
  | recycle i c =>
    refine iff_of_true ?_ trivial
    obtain ⟨w, hw, rfl⟩ := Option.map_eq_some_iff.1 ht
    obtain ⟨hi, -⟩ := List.getElem?_eq_some_iff.1 hw
    have ho := recycleOwned_counts exec s.pool.queue w c
    simp only [Accounted, Pool.Counts, withQueue, length_eraseIdx_of_lt hi] at *
    omega
  | die i =>
    obtain ⟨w, -, rfl⟩ := Option.map_eq_some_iff.1 ht
    simpa [Accounted, Pool.Counts, withQueue, SettlesNoDead] using h
  | dieBusy i =>
    obtain ⟨w, -, rfl⟩ := Option.map_eq_some_iff.1 ht
    simpa [Accounted, Pool.Counts, SettlesNoDead] using h
  | reload | updateCache state | updateConfig f =>
    cases ht
    exact iff_of_true (drain_accounted.2 h) trivial
  | close =>
    cases ht
    refine iff_of_true ?_ trivial
    simp only [Accounted, Pool.Counts, Pool.close, length_drop, length_take] at *
    omega

/-- Over every run of pool operations, the live workers are accounted for after each operation, and
every successful maintenance with nobody served is nominal, exactly when no operation shrinks the
pool while there are dead workers to settle. -/
theorem always_accounted_iff (exec : WorkerCall → χ → Option χ) (nominal maxRequests : ℕ)
    (projects : List String) (es : List (Operation χ)) :
    Always (step exec) (fun s => s.Accounted ∧ s.MaintainsNominal exec)
        (start nominal maxRequests projects) es ↔
      Along (step exec) SettlesNoDead (start nominal maxRequests projects) es := by
  have hr : (start nominal maxRequests projects : Running χ).Accounted := rfl
  refine always_iff_along (fun _ _ _ (_ : True) _ => trivial) ?_ trivial
    ⟨hr, hr.maintainsNominal⟩
  intro s e t _ hs he
  rw [← step_accounted hs.1 he]
  exact ⟨And.left, fun ht => ⟨ht, ht.maintainsNominal⟩⟩

/-- Three workers, one dies idle, and the pool is resized to one worker: the counters then report two
live workers. The next maintenance removes the last one, and the pool takes its empty queue for the
nominal size. -/
theorem not_always_accounted_resize :
    let exec : WorkerCall → Unit → Option Unit := fun _ c => some c
    let launch : Option (ℕ → Unit) := some fun _ => ()
    let es : List (Operation Unit) := [.maintainPool launch, .die 0, .patchConfig 1 50 launch]
    ¬ Always (step exec) (fun s => s.Accounted ∧ s.MaintainsNominal exec) (start 3 50 []) es ∧
      (run (step exec) (start 3 50 []) es).map
          (fun s => (s.pool.numProcesses, s.pool.queue.deadWorkers, s.pool.queue.q.length, s.busy.length)) =
        some (2, 0, 1, 0) ∧
      (run (step exec) (start 3 50 []) (es ++ [.maintainPool launch, .maintainPool launch])).map
          (fun s => (s.pool.nominal, s.pool.numProcesses, s.pool.queue.q.length)) = some (1, 1, 0) := by
  intro exec launch es
  have ho : (run (step exec) (start 3 50 []) es).map
      (fun s => (s.pool.numProcesses, s.pool.queue.deadWorkers, s.pool.queue.q.length, s.busy.length)) =
        some (2, 0, 1, 0) := by
    decide +kernel
  refine ⟨fun hl => ?_, ho, ?_⟩
  · obtain ⟨s, hs, hv⟩ := Option.map_eq_some_iff.1 ho
    have hac := (always_iff_segments.1 hl es s prefix_rfl hs).1
    simp only [Prod.mk.injEq] at hv
    unfold Accounted Pool.Counts at hac
    omega
  · decide +kernel

end Running

end QJazz.Pool
