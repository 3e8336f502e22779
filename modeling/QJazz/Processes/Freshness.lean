import QJazz.Processes.ProcessList
import QJazz.Transition.Run

/-! The worker takes the time at which it goes online once. The server keeps the list of processes
it has received, and asks again when that is older. -/
namespace QJazz.Processes.Freshness

open Lexical Transition ProcessList

variable {δ : Type*}

structure Worker (δ : Type*) where
  onlineSince : ℕ
  /-- The processes, once the worker is ready. Before, it does not answer. -/
  processes : Option (List (ProcessSummary δ)) := none
deriving DecidableEq

structure World (δ : Type*) where
  clock : ℕ := 0
  worker : Option (Worker δ) := none
  /-- The time that the presence of the service shows, if the service is known. -/
  presence : Option ℕ := none
  cache : Option (ProcessCache δ) := none
  /-- The lists that the worker has sent and the server has not stored yet. -/
  replies : List (List (ProcessSummary δ)) := []
deriving DecidableEq

inductive Event (δ : Type*) where
  | tick
  | init
  /-- `on_worker_ready` -/
  | ready (tds : List (ProcessSummary δ))
  /-- `reload_processes` or `reload_processes_cache` -/
  | reload (tds : List (ProcessSummary δ))
  | stop
  /-- `update_services` -/
  | refresh
  /-- A request of the server to a worker that has gone online after the time stamp of its list. -/
  | fetch
  /-- A reply is stored, under the time at which it is stored. -/
  | store (k : ℕ)

namespace World

def listed (s : World δ) : Option (List (ProcessSummary δ)) := s.worker.bind Worker.processes

/-- Presences come from workers that answer. -/
def updateServices (s : World δ) : World δ :=
  { s with presence := s.worker.bind fun w => w.processes.map fun _ => w.onlineSince }

def step (s : World δ) : Event δ → Option (World δ)
  | .tick => some { s with clock := s.clock + 1 }
  | .init =>
    match s.worker with
    | none => some { s with worker := some { onlineSince := s.clock } }
    | some _ => none
  | .ready tds =>
    match s.worker with
    | some ⟨since, none⟩ => some { s with worker := some ⟨since, some tds⟩ }
    | _ => none
  | .reload tds =>
    match s.worker with
    | some ⟨since, some _⟩ => some { s with worker := some ⟨since, some tds⟩ }
    | _ => none
  | .stop =>
    match s.worker with
    | none => none
    | some _ => some { s with worker := none }
  | .refresh => some s.updateServices
  | .fetch =>
    match s.presence, s.listed with
    | some since, some tds =>
      if (current s.cache since).isSome then none
      else some { s with replies := s.replies ++ [tds] }
    | _, _ => none
  | .store k =>
    match s.replies[k]? with
    | none => none
    | some tds => some { s with cache := some ⟨s.clock, tds⟩, replies := s.replies.eraseIdx k }

/-- `Executor.processes`: the list that a request uses. A worker that is asked replies with its present
list. -/
def processes (s : World δ) : Option (List (ProcessSummary δ)) :=
  s.presence.bind fun since =>
    match current s.cache since with
    | some cached => some cached.processes
    | none => s.listed

def getProcessSummary (s : World δ) (ident : Text) : Option (ProcessSummary δ) :=
  s.processes.bind fun tds => tds.find? fun td => td.id == ident

/-- Once the presences are refreshed, requests use the present list of the worker. -/
def CatchesUp (s : World δ) : Prop :=
  ∀ tds, s.listed = some tds → s.updateServices.processes = some tds ∧
    ∀ ident, s.updateServices.getProcessSummary ident = tds.find? fun td => td.id == ident

/-- The server has a list that the present worker does not outdate. -/
def kept (s : World δ) : Option (ProcessCache δ) :=
  s.worker.bind fun w => current s.cache w.onlineSince

/-- The worker changes its list only while the server has none that it keeps, and the server stores no
list but the present one. -/
def Harmless (s : World δ) : Event δ → Prop
  | .ready tds | .reload tds => ∀ cached, s.kept = some cached → cached.processes = tds
  | .store k => ∀ tds, s.listed = some tds → s.replies[k]? = some tds
  | _ => True

def Synchronised (s : World δ) : Prop := ∀ w, s.worker = some w → w.onlineSince ≤ s.clock

inductive Step : World δ → Event δ → World δ → Prop
  | tick {s} : Step s .tick { s with clock := s.clock + 1 }
  | init {s} (h : s.worker = none) :
      Step s .init { s with worker := some { onlineSince := s.clock } }
  | ready {s since tds} (h : s.worker = some ⟨since, none⟩) :
      Step s (.ready tds) { s with worker := some ⟨since, some tds⟩ }
  | reload {s since before tds} (h : s.worker = some ⟨since, some before⟩) :
      Step s (.reload tds) { s with worker := some ⟨since, some tds⟩ }
  | stop {s w} (h : s.worker = some w) : Step s .stop { s with worker := none }
  | refresh {s} : Step s .refresh s.updateServices
  | fetch {s tds} (h : s.listed = some tds) :
      Step s .fetch { s with replies := s.replies ++ [tds] }
  | store {s k tds} (h : s.replies[k]? = some tds) :
      Step s (.store k) { s with cache := some ⟨s.clock, tds⟩, replies := s.replies.eraseIdx k }

variable {s t : World δ} {e : Event δ} {tds : List (ProcessSummary δ)}

lemma step_cases (h : s.step e = some t) : Step s e t := by
  unfold step at h
  cases e with
  | tick =>
    cases h
    exact .tick
  | init =>
    cases hw : s.worker with
    | none =>
      simp only [hw, Option.some.injEq] at h
      exact h ▸ .init hw
    | some w => simp [hw] at h
  | ready tds =>
    rcases hw : s.worker with _ | ⟨i, _ | b⟩
    · simp [hw] at h
    · simp only [hw, Option.some.injEq] at h
      exact h ▸ .ready hw
    · simp [hw] at h
  | reload tds =>
    rcases hw : s.worker with _ | ⟨i, _ | b⟩
    · simp [hw] at h
    · simp [hw] at h
    · simp only [hw, Option.some.injEq] at h
      exact h ▸ .reload hw
  | stop =>
    cases hw : s.worker with
    | none => simp [hw] at h
    | some w =>
      simp only [hw, Option.some.injEq] at h
      exact h ▸ .stop hw
  | refresh =>
    cases h
    exact .refresh
  | fetch =>
    cases hl : s.listed with
    | none => cases hp : s.presence <;> simp [hl, hp] at h
    | some tds =>
      cases hp : s.presence with
      | none => simp [hp] at h
      | some i =>
        simp only [hl, hp, Option.ite_none_left_eq_some, Option.some.injEq] at h
        obtain ⟨-, rfl⟩ := h
        rw [← hp]
        exact .fetch hl
  | store k =>
    cases hr : s.replies[k]? with
    | none => simp [hr] at h
    | some tds =>
      simp only [hr, Option.some.injEq] at h
      exact h ▸ .store hr

lemma listed_eq_some_iff : s.listed = some tds ↔ ∃ i, s.worker = some ⟨i, some tds⟩ := by
  unfold listed
  rw [Option.bind_eq_some_iff]
  constructor
  · rintro ⟨⟨i, _⟩, hw, rfl⟩
    exact ⟨i, hw⟩
  · rintro ⟨i, hw⟩
    exact ⟨_, hw, rfl⟩

lemma processes_updateServices (h : s.listed = some tds) :
    s.updateServices.processes = some ((s.kept.map ProcessCache.processes).getD tds) := by
  obtain ⟨since, hw⟩ := listed_eq_some_iff.1 h
  have hk : s.kept = current s.cache since := by simp [kept, hw]
  have hu : s.updateServices.processes = match current s.cache since with
      | some c => some c.processes
      | none => s.listed := by
    simp [processes, updateServices, hw, listed]
  rw [hu, hk]
  cases current s.cache since with
  | none => exact h
  | some c => rfl

lemma catchesUp_iff : s.CatchesUp ↔
    ∀ tds, s.listed = some tds → ∀ c, s.kept = some c → c.processes = tds := by
  constructor
  · intro h tds hl c hk
    have hp := (h tds hl).1
    rw [processes_updateServices hl, hk] at hp
    exact Option.some.inj hp
  · intro h tds hl
    have hp : s.updateServices.processes = some tds := by
      rw [processes_updateServices hl]
      cases hk : s.kept with
      | none => rfl
      | some c => exact congrArg some (h tds hl c hk)
    exact ⟨hp, fun i => by rw [getProcessSummary, hp]; rfl⟩

lemma catchesUp_congr (hw : t.worker = s.worker) (hh : t.cache = s.cache) :
    t.CatchesUp ↔ s.CatchesUp := by
  simp only [catchesUp_iff, listed, kept, hw, hh]

lemma catchesUp_of_not_listed (h : s.listed = none) : s.CatchesUp := by
  intro tds ht
  rw [h] at ht
  cases ht

lemma catchesUp_set_worker {i : ℕ} {b : Option (List (ProcessSummary δ))}
    (h : s.worker = some ⟨i, b⟩) : ({ s with worker := some ⟨i, some tds⟩ } : World δ).CatchesUp ↔
      ∀ c, s.kept = some c → c.processes = tds := by
  rw [catchesUp_iff]
  simp [listed, kept, h]

lemma catchesUp_store {k : ℕ} (hy : s.Synchronised) (hr : s.replies[k]? = some tds) :
    ({ s with cache := some ⟨s.clock, tds⟩, replies := s.replies.eraseIdx k } : World δ).CatchesUp ↔
      ∀ tds', s.listed = some tds' → s.replies[k]? = some tds' := by
  rw [catchesUp_iff, hr]
  refine forall₂_congr fun tds' hl => ?_
  obtain ⟨i, hw⟩ : ∃ i, s.worker = some ⟨i, some tds'⟩ :=
    listed_eq_some_iff.1 hl
  simp [kept, hw, current, (hy _ hw)]

lemma synchronised_step (h : s.Synchronised) (ht : s.step e = some t) : t.Synchronised := by
  intro w hw
  cases step_cases ht with
  | tick => exact (h w hw).trans (Nat.le_succ _)
  | init =>
    cases hw
    exact Nat.le_refl _
  | ready ho | reload ho =>
    have hle := h _ ho
    cases hw
    exact hle
  | stop => cases hw
  | refresh | fetch | store => exact h w hw

lemma catchesUp_step_iff (hy : s.Synchronised) (h : s.CatchesUp) (ht : s.step e = some t) :
    t.CatchesUp ↔ s.Harmless e := by
  cases step_cases ht with
  | tick | refresh | fetch => exact iff_of_true ((catchesUp_congr rfl rfl).2 h) trivial
  | init | stop => exact iff_of_true (catchesUp_of_not_listed rfl) trivial
  | ready hw | reload hw => exact catchesUp_set_worker hw
  | store hreply => exact catchesUp_store hy hreply

/-- The server is caught up throughout a history, whenever it has refreshed the presences, exactly if
every change of the worker's list meets a server without a list to keep or with that same list, and no
reply is stored after a change. -/
theorem catchesUp_iff_harmless (es : List (Event δ)) :
    Always step CatchesUp ({} : World δ) es ↔ Along step Harmless ({} : World δ) es :=
  always_iff_along (fun _ _ _ => synchronised_step) (fun _ _ _ => catchesUp_step_iff) nofun
    (catchesUp_of_not_listed rfl)

/-- A process that a reload adds is in the list of the worker, and the server neither lists nor finds
it after it has refreshed the presences. -/
theorem reload_not_seen :
    ∃ s, run step ({} : World Unit) [.init, .ready [⟨['a'], (), []⟩], .refresh, .tick, .fetch,
        .store 0, .reload [⟨['a'], (), []⟩, ⟨['b'], (), []⟩], .tick, .refresh] = some s ∧
      s.listed = some [⟨['a'], (), []⟩, ⟨['b'], (), []⟩] ∧ s.processes = some [⟨['a'], (), []⟩] ∧
      s.getProcessSummary ['b'] = none ∧ ¬ s.CatchesUp := by
  refine ⟨_, rfl, rfl, rfl, rfl, fun h => ?_⟩
  have hp : some [(⟨['a'], (), []⟩ : ProcessSummary Unit)] =
    some [⟨['a'], (), []⟩, ⟨['b'], (), []⟩] := (h _ rfl).1
  simp at hp

end World

end QJazz.Processes.Freshness
