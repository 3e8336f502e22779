import QJazz.Pool.Accounting
import QJazz.Pool.Builder

/-! A patch sets the log level, then the worker options, then the limit of waiting requests, and
last the number of workers. -/
set_option linter.dupNamespace false
namespace QJazz.Pool
open Config Json

inductive PatchError where
  /-- The merged options cannot be read back. -/
  | options
  | pool (e : Error)
deriving DecidableEq

namespace Builder

def withLevel (b : Builder) (patch : Document) : Builder :=
  match logLevelFromJson patch.value with
  | some level => { b with logLevel := level }
  | none => b

def patchInPlace (b : Builder) (patch : Document) : Except PatchError Unit × Builder :=
  let b := b.withLevel patch
  match workerPatch patch with
  | some worker =>
    match WorkerOptions.fromValue (merged b.opts worker) with
    | some opts => (.ok (), { b with opts })
    | none => (.error .options, b)
  | none => (.ok (), b)

variable {b b' : Builder} {patch : Document}

lemma opts_withLevel : (b.withLevel patch).opts = b.opts := by
  rw [withLevel]
  split <;> rfl

lemma logLevel_withLevel :
    (b.withLevel patch).logLevel = (logLevelFromJson patch.value).getD b.logLevel := by
  rw [withLevel]
  cases logLevelFromJson patch.value <;> rfl

lemma patchInPlace_eq (b : Builder) (patch : Document) : b.patchInPlace patch =
      match b.patch patch with
      | some b' => (.ok (), b')
      | none => (.error .options, b.withLevel patch) := by
  rw [patchInPlace, Builder.patch]
  simp only [opts_withLevel, ← logLevel_withLevel (b := b)]
  cases workerPatch patch with
  | none =>
    have ho : (b.withLevel patch).opts = b.opts := opts_withLevel
    exact congrArg (Prod.mk _) (by rw [← ho])
  | some w =>
    cases ho : WorkerOptions.fromValue (merged b.opts w) with
    | none => simp only [ho, Option.map_none]
    | some o => simp only [ho, Option.map_some]

lemma opts_of_error {e : PatchError} (h : b.patchInPlace patch = (.error e, b')) :
    b'.opts = b.opts := by
  rw [patchInPlace_eq] at h
  split at h
  · cases h
  · cases h
    exact opts_withLevel

end Builder

namespace Pool
variable {χ : Type*} {exec : WorkerCall → χ → Option χ} {launch : Option (ℕ → χ)} {p p' : Pool χ}

def live (p : Pool χ) : ℕ := p.cleanupDeadWorkers.current

/-- A process cannot be launched, or one of the new workers cannot be restored. -/
def Unstartable (exec : WorkerCall → χ → Option χ) (launch : Option (ℕ → χ)) (n : ℕ) (p : Pool χ) :
    Prop :=
  ∀ child, launch = some child → ∃ i < n,
    p.queue.restore.restore exec { child := child i, generation := p.queue.generation } = none

/-- The pool has to change its size and cannot: it is closed, or workers are missing and do not
start. -/
def Unmaintainable (exec : WorkerCall → χ → Option χ) (launch : Option (ℕ → χ)) (p : Pool χ) : Prop :=
  (p.nominal ≠ p.live ∧ p.queue.closed = true) ∨
    (p.live < p.nominal ∧ p.Unstartable exec launch (p.nominal - p.live))

lemma mapM_eq_none_iff {α β : Type*} {f : α → Option β} {l : List α} :
    l.mapM f = none ↔ ∃ a ∈ l, f a = none := by
  induction l with
  | nil => simp
  | cons a l ih =>
    rw [List.mapM_cons]
    cases ha : f a with
    | none => simp [ha]
    | some b =>
      cases hl : l.mapM f with
      | none => simpa [ha, hl] using ih.1 hl
      | some bs =>
        have hal : ¬ ∃ a ∈ l, f a = none := fun h => by simp [ih.2 h] at hl
        simpa [ha, hl] using hal

lemma grow_error_iff {n : ℕ} :
    (∃ e, p.grow exec launch n = .error e) ↔ p.queue.closed ∨ p.Unstartable exec launch n := by
  unfold grow Unstartable
  cases p.queue.closed with
  | true => simp
  | false =>
    cases launch with
    | none => simp
    | some child =>
      simp only [Bool.false_eq_true, if_false, false_or, Option.some.injEq, forall_eq']
      constructor
      · rintro ⟨e, h⟩
        split at h
        next hn =>
          obtain ⟨w, hw, hr⟩ := mapM_eq_none_iff.1 hn
          obtain ⟨i, hi, rfl⟩ := List.mem_map.1 hw
          exact ⟨i, List.mem_range.1 hi, hr⟩
        · cases h
      · rintro ⟨i, hi, hr⟩
        have hn : ((List.range n).map fun i => ({ child := child i, generation := p.queue.generation } :
            Worker χ)).mapM (p.queue.restore.restore exec) = none :=
          mapM_eq_none_iff.2 ⟨_, List.mem_map.2 ⟨i, List.mem_range.2 hi, rfl⟩, hr⟩
        rw [hn]
        exact ⟨_, rfl⟩

lemma shrink_error_iff {n : ℕ} : (∃ e, p.shrink n = .error e) ↔ p.queue.closed = true := by
  rw [shrink]
  cases p.queue.closed <;> simp

lemma maintainPool_fst : (p.maintainPool exec launch).1 = if p.live < p.nominal then
        (p.cleanupDeadWorkers.grow exec launch (p.nominal - p.live)).map fun _ => ()
      else if p.nominal < p.live then
        (p.cleanupDeadWorkers.shrink (p.live - p.nominal)).map fun _ => () else .ok () := by
  have hu : p.cleanupDeadWorkers.numProcesses - p.cleanupDeadWorkers.queue.deadWorkers = p.live :=
    rfl
  have hn : p.cleanupDeadWorkers.nominal = p.nominal := rfl
  simp only [maintainPool, hu, hn, gt_iff_lt]
  split
  · cases p.cleanupDeadWorkers.grow exec launch (p.nominal - p.live) <;> rfl
  · split
    · cases p.cleanupDeadWorkers.shrink (p.live - p.nominal) <;> rfl
    · rfl

lemma map_unit_error_iff {α ε : Type*} {r : Except ε α} :
    (∃ e, (r.map fun _ => ()) = .error e) ↔ ∃ e, r = .error e := by
  cases r <;> simp [Except.map]

lemma maintainPool_error_iff :
    (∃ e, (p.maintainPool exec launch).1 = .error e) ↔ p.Unmaintainable exec launch := by
  rw [maintainPool_fst, Unmaintainable]
  rcases lt_trichotomy p.live p.nominal with hlt | heq | hgt
  · rw [if_pos hlt, map_unit_error_iff, grow_error_iff]
    exact or_congr (by simp [hlt.ne', cleanupDeadWorkers]) (by simp [hlt, Unstartable, cleanupDeadWorkers])
  · simp [heq]
  · rw [if_neg hgt.not_gt, if_pos hgt, map_unit_error_iff, shrink_error_iff]
    simp [hgt.ne, hgt.not_gt, cleanupDeadWorkers]

lemma maxRequests_maintainPool :
    (p.maintainPool exec launch).2.queue.maxRequests = p.queue.maxRequests := by
  have hm := maintained exec launch p
  generalize (p.maintainPool exec launch).1 = res at hm
  generalize (p.maintainPool exec launch).2 = q at hm ⊢
  cases hm <;> rfl

end Pool

structure Configured (χ : Type*) where
  builder : Builder
  queue : WorkerQueue χ
  numProcesses : ℕ
  limit : queue.maxRequests = builder.opts.maxWaitingRequests.1

namespace Configured
variable {χ : Type*}

def new (b : Builder) : Configured χ where
  builder := { b with opts := { b.opts with restoreProjects := [] } }
  queue := { maxRequests := b.opts.maxWaitingRequests.1, restore := .withProjects b.opts.restoreProjects }
  numProcesses := 0
  limit := rfl

def sized (c : Configured χ) (b : Builder) : Pool χ where
  queue := { c.queue with maxRequests := b.opts.maxWaitingRequests.1 }
  nominal := b.opts.numProcesses.1
  numProcesses := c.numProcesses

lemma limit_maintained (exec : WorkerCall → χ → Option χ) (launch : Option (ℕ → χ))
    (c : Configured χ) (b : Builder) :
    ((c.sized b).maintainPool exec launch).2.queue.maxRequests = b.opts.maxWaitingRequests.1 :=
  Pool.maxRequests_maintainPool

def maintain (exec : WorkerCall → χ → Option χ) (launch : Builder → Option (ℕ → χ))
    (c : Configured χ) (b : Builder) : Except Error Unit × Configured χ :=
  let r := (c.sized b).maintainPool exec (launch b)
  (r.1, { builder := b, queue := r.2.queue, numProcesses := r.2.numProcesses,
          limit := limit_maintained exec (launch b) c b })

def patchConfig (exec : WorkerCall → χ → Option χ) (launch : Builder → Option (ℕ → χ))
    (c : Configured χ) (patch : Document) : Except PatchError Unit × Configured χ :=
  match h : c.builder.patchInPlace patch with
  | (.error e, b) =>
    (.error e, { c with builder := b, limit := by rw [Builder.opts_of_error h, c.limit] })
  | (.ok (), b) =>
    ((c.maintain exec launch b).1.mapError .pool, (c.maintain exec launch b).2)

/-- After a patch that failed the builder and the limit are those from before. -/
def AllOrNothing (exec : WorkerCall → χ → Option χ) (launch : Builder → Option (ℕ → χ))
    (c : Configured χ) (patch : Document) : Prop :=
  ∀ e, (c.patchConfig exec launch patch).1 = .error e →
    (c.patchConfig exec launch patch).2.builder.opts = c.builder.opts ∧
      (c.patchConfig exec launch patch).2.builder.logLevel = c.builder.logLevel ∧
      (c.patchConfig exec launch patch).2.queue.maxRequests = c.queue.maxRequests

variable {exec : WorkerCall → χ → Option χ} {launch : Builder → Option (ℕ → χ)} {c : Configured χ}
  {b : Builder} {patch : Document}

lemma patchConfig_of_unreadable (h : c.builder.patch patch = none) :
    (c.patchConfig exec launch patch).1 = .error .options ∧
      (c.patchConfig exec launch patch).2.builder = c.builder.withLevel patch ∧
      (c.patchConfig exec launch patch).2.queue = c.queue := by
  have hp : c.builder.patchInPlace patch = (.error .options, c.builder.withLevel patch) := by
    rw [Builder.patchInPlace_eq, h]
  unfold patchConfig
  split
  next e b he =>
    rw [hp] at he
    cases he
    exact ⟨rfl, rfl, rfl⟩
  next b hok =>
    rw [hp] at hok
    cases hok

lemma patchConfig_of_readable (h : c.builder.patch patch = some b) :
    c.patchConfig exec launch patch =
      ((c.maintain exec launch b).1.mapError .pool, (c.maintain exec launch b).2) := by
  have hp : c.builder.patchInPlace patch = (.ok (), b) := by
    rw [Builder.patchInPlace_eq, h]
  unfold patchConfig
  split
  next e b' he =>
    rw [hp] at he
    cases he
  next b' hok =>
    rw [hp] at hok
    cases hok
    rfl

lemma allOrNothing_of_unreadable (h : c.builder.patch patch = none) :
    c.AllOrNothing exec launch patch ↔ (c.builder.withLevel patch).logLevel = c.builder.logLevel := by
  rw [AllOrNothing, (patchConfig_of_unreadable h).1, (patchConfig_of_unreadable h).2.1,
    (patchConfig_of_unreadable h).2.2, Builder.opts_withLevel]
  exact ⟨fun hal => (hal _ rfl).2.1, fun hl _ _ => ⟨rfl, hl, rfl⟩⟩

lemma mapError_eq_error_iff {α ε ε' : Type*} {f : ε → ε'} {r : Except ε α} :
    (∃ e, r.mapError f = .error e) ↔ ∃ e, r = .error e := by
  cases r <;> simp [Except.mapError]

lemma allOrNothing_of_readable (h : c.builder.patch patch = some b) :
    c.AllOrNothing exec launch patch ↔
      ((c.sized b).Unmaintainable exec (launch b) → b = c.builder) := by
  rw [AllOrNothing, patchConfig_of_readable h, ← Pool.maintainPool_error_iff]
  constructor
  · intro hal hf
    obtain ⟨e, he⟩ := mapError_eq_error_iff (f := PatchError.pool).2 hf
    obtain ⟨ho, hl, -⟩ := hal e he
    cases b
    cases hb : c.builder
    rw [hb] at ho hl
    exact congrArg₂ Builder.mk ho hl
  · intro hm e he
    obtain rfl := hm (mapError_eq_error_iff.1 ⟨e, he⟩)
    exact ⟨rfl, rfl, (limit_maintained exec (launch _) c _).trans c.limit.symm⟩

end Configured

def verbosePatch : Document where
  value := .obj [("logging", .obj [("level", .str "debug")]), ("worker", .obj [("num_processes", .num 0)])]
  distinct := by decide

def widerPatch : Document where
  value := .obj [("worker", .obj [("num_processes", .num 2), ("max_waiting_requests", .num 7)])]
  distinct := by decide

def freshPool : Configured Unit := .new .byDefault

def noLaunch (_ : Builder) : Option (ℕ → Unit) := none

end QJazz.Pool
