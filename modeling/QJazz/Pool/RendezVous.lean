import QJazz.Transition.Run
import QJazz.Transition.Threads

/-! A wake reaches the notifications that were created before it, and leaves nothing behind for
later ones. -/
namespace QJazz.Pool.RendezVous
open Transition List

inductive Input where
  | eof
  | byte (b : UInt8)
  | wouldBlock
  | ioError
deriving DecidableEq

/-- The next action of the listener. Between a READY that was stored and its wake it does not wait. -/
inductive Listener where
  | reading (eof : ℕ)
  | notifying
  | stopped
deriving DecidableEq

/-- The next action of a call of `wait_ready`. A notification remembers how many wakes there were when
it was created. -/
inductive Waiter where
  | check
  | load
  | create
  | waiting (since : ℕ)
  | returned
  | disconnected
  | dropped
deriving DecidableEq

def Waiter.pending : Waiter → Bool
  | .check | .load | .create | .waiting _ => true
  | .returned | .disconnected | .dropped => false

structure State where
  busy : Bool := true
  wakes : ℕ := 0
  listener : Listener := .reading 0
  waiters : List Waiter := []
deriving DecidableEq

/-- A call of `wait_ready` of the rendez-vous, or of the worker, which tests first whether the
listener is running; the next step or the end of a call; the next read, the wake and the abort of
the listener. -/
inductive Event where
  | call
  | callWorker
  | proceed (i : ℕ)
  | drop (i : ℕ)
  | listen (input : Input)
  | notify
  | abort
deriving DecidableEq

def maxEofReturn : ℕ := 10

namespace State

def listen (s : State) (eof : ℕ) : Input → State
  | .eof =>
    if maxEofReturn < eof + 1 then { s with busy := true, listener := .stopped }
    else { s with listener := .reading (eof + 1) }
  | .byte b =>
    if b = 0 then { s with busy := false, listener := .notifying }
    else if b = 1 then { s with busy := true, listener := .reading 0 }
    else s
  | .wouldBlock => { s with listener := .reading 0 }
  | .ioError => { s with listener := .stopped }

def proceed (s : State) : Waiter → Option Waiter
  | .check => some (if s.listener = .stopped then .disconnected else .load)
  | .load => some (if s.busy then .create else .returned)
  | .create => some (.waiting s.wakes)
  | .waiting since => if since = s.wakes then none else some .returned
  | .returned | .disconnected | .dropped => none

def step (s : State) : Event → Option State
  | .call => some { s with waiters := s.waiters ++ [Waiter.load] }
  | .callWorker => some { s with waiters := s.waiters ++ [Waiter.check] }
  | .proceed i => (s.waiters[i]?.bind s.proceed).map fun w => { s with waiters := s.waiters.set i w }
  | .drop i => (s.waiters[i]?.filter Waiter.pending).map fun _ =>
      { s with waiters := s.waiters.set i .dropped }
  | .listen input =>
    match s.listener with
    | .reading eof => some (s.listen eof input)
    | .notifying | .stopped => none
  | .notify =>
    match s.listener with
    | .notifying => some { s with wakes := s.wakes + 1, listener := .reading 0 }
    | .reading _ | .stopped => none
  | .abort =>
    match s.listener with
    | .reading _ => some { s with listener := .stopped }
    | .notifying | .stopped => none

end State

/-- The steps that need nothing from outside: no new byte, and no new call. -/
def Event.own : Event → Prop
  | .proceed _ | .notify => True
  | .call | .callWorker | .drop _ | .listen _ | .abort => False

def Over (i : ℕ) (s : State) : Prop := ∀ w, s.waiters[i]? = some w → w.pending = false

/-- While the flag is READY, every call returns without another byte. -/
def Prompt (s : State) : Prop :=
  s.busy = false → ∀ i, Inevitable State.step Event.own (Over i) s

/-- READY is not stored while a call is between its test of the flag and its notification. -/
def Seen (s : State) (e : Event) : Prop := e = .listen (.byte 0) → .create ∉ s.waiters

instance (s : State) (e : Event) : Decidable (Seen s e) :=
  inferInstanceAs (Decidable (_ → _))

variable {s t : State} {e : Event} {i : ℕ} {w : Waiter}

/-- A notification was not created in the future, and a wake is about READY. -/
structure Sound (s : State) : Prop where
  since : ∀ k, .waiting k ∈ s.waiters → k ≤ s.wakes
  ready : s.listener = .notifying → s.busy = false

/-- A call that returns while the flag is READY: it has not tested the flag, or its notification was
woken, or is about to be. -/
def Reached (s : State) : Waiter → Prop
  | .create => False
  | .waiting k => k ≠ s.wakes ∨ s.listener = .notifying
  | .check | .load | .returned | .disconnected | .dropped => True

def AllReached (s : State) : Prop := s.busy = false → ∀ w ∈ s.waiters, Reached s w

lemma step_proceed (h : s.step (.proceed i) = some t) :
    ∃ w w', s.waiters[i]? = some w ∧ s.proceed w = some w' ∧
      t = { s with waiters := s.waiters.set i w' } := by
  obtain ⟨w', hw', rfl⟩ := Option.map_eq_some_iff.1 h
  obtain ⟨w, hw, hp⟩ := Option.bind_eq_some_iff.1 hw'
  exact ⟨w, w', hw, hp, rfl⟩

lemma step_of_proceed {w' : Waiter} (hw : s.waiters[i]? = some w) (h : s.proceed w = some w') :
    s.step (.proceed i) = some { s with waiters := s.waiters.set i w' } := by
  simp [State.step, hw, h]

lemma step_drop (h : s.step (.drop i) = some t) :
    t = { s with waiters := s.waiters.set i .dropped } := by
  obtain ⟨w, -, rfl⟩ := Option.map_eq_some_iff.1 h
  rfl

lemma step_listen {n : Input} (h : s.step (.listen n) = some t) :
    (n = .byte 0 ∧ t = { s with busy := false, listener := .notifying }) ∨
      ∃ l, l ≠ .notifying ∧ s.listener ≠ .notifying ∧ n ≠ .byte 0 ∧
        (t = { s with busy := true, listener := l } ∨ t = { s with listener := l }) := by
  simp only [State.step] at h
  split at h
  next eof hr =>
    obtain rfl := (Option.some.inj h).symm
    have hs : s.listener ≠ .notifying := by simp [hr]
    cases n with
    | eof =>
      right
      rw [State.listen]
      split
      · exact ⟨.stopped, nofun, hs, nofun, .inl rfl⟩
      · exact ⟨.reading (eof + 1), nofun, hs, nofun, .inr rfl⟩
    | byte b =>
      rw [State.listen]
      split
      next hb => exact .inl ⟨by rw [hb], rfl⟩
      next hb =>
        right
        have hi : Input.byte b ≠ .byte 0 := by simpa using hb
        split
        · exact ⟨.reading 0, nofun, hs, hi, .inl rfl⟩
        · exact ⟨s.listener, hs, hs, hi, .inr rfl⟩
    | wouldBlock => exact .inr ⟨.reading 0, nofun, hs, nofun, .inr rfl⟩
    | ioError => exact .inr ⟨.stopped, nofun, hs, nofun, .inr rfl⟩
  · cases h
  · cases h

lemma step_notify (h : s.step .notify = some t) :
    s.listener = .notifying ∧ t = { s with wakes := s.wakes + 1, listener := .reading 0 } := by
  simp only [State.step] at h
  split at h
  next hn => exact ⟨hn, (Option.some.inj h).symm⟩
  · cases h
  · cases h

lemma step_abort (h : s.step .abort = some t) :
    (∃ eof, s.listener = .reading eof) ∧ t = { s with listener := .stopped } := by
  simp only [State.step] at h
  split at h
  next eof hr => exact ⟨⟨eof, hr⟩, (Option.some.inj h).symm⟩
  · cases h
  · cases h

lemma waiting_of_proceed {w' : Waiter} {k : ℕ} (h : s.proceed w = some w') (hw' : w' = .waiting k) :
    k = s.wakes := by
  subst hw'
  cases w <;> simp_all [State.proceed]
  all_goals (split at h <;> cases h)

lemma sound_step (h : Sound s) (ht : s.step e = some t) : Sound t := by
  cases e with
  | call | callWorker =>
    cases ht
    exact ⟨fun k hk => h.since k (by simpa using hk), h.ready⟩
  | proceed i =>
    obtain ⟨w, w', hw, hp, rfl⟩ := step_proceed ht
    refine ⟨fun k hk => ?_, h.ready⟩
    rcases mem_or_eq_of_mem_set hk with hm | heq
    · exact h.since k hm
    · exact (waiting_of_proceed hp heq.symm).le
  | drop i =>
    obtain rfl := step_drop ht
    refine ⟨fun k hk => ?_, h.ready⟩
    rcases mem_or_eq_of_mem_set hk with hm | heq
    · exact h.since k hm
    · cases heq
  | listen n =>
    rcases step_listen ht with ⟨-, rfl⟩ | ⟨l, hl, -, -, rfl | rfl⟩
    · exact ⟨h.since, fun _ => rfl⟩
    · exact ⟨h.since, fun hn => absurd hn hl⟩
    · exact ⟨h.since, fun hn => absurd hn hl⟩
  | notify =>
    obtain ⟨-, rfl⟩ := step_notify ht
    exact ⟨fun k hk => (h.since k hk).trans (Nat.le_succ _), nofun⟩
  | abort =>
    obtain ⟨-, rfl⟩ := step_abort ht
    exact ⟨h.since, nofun⟩

def Waiter.rest : Waiter → ℕ
  | .check => 2
  | .load | .waiting _ => 1
  | .create | .returned | .disconnected | .dropped => 0

def rest (s : State) : ℕ :=
  total Waiter.rest s.waiters + if s.listener = .notifying then 1 else 0

lemma reached_proceed {w' : Waiter} (hr : s.busy = false) (h : s.proceed w = some w')
    (hw : Reached s w) : Reached s w' ∧ w'.rest < w.rest := by
  cases w with
  | check =>
    cases h
    split <;> exact ⟨trivial, by decide⟩
  | load =>
    cases h
    rw [hr]
    exact ⟨trivial, by decide⟩
  | create => exact hw.elim
  | waiting k =>
    rw [State.proceed] at h
    split at h
    · cases h
    · cases h
      exact ⟨trivial, Nat.one_pos⟩
  | returned | disconnected | dropped => cases h

lemma reached_notify (ho : Sound s) (hm : w ∈ s.waiters) (h : Reached s w) :
    Reached { s with wakes := s.wakes + 1, listener := .reading 0 } w := by
  cases w with
  | waiting k =>
    have hle := ho.since k hm
    exact .inl (by simp only; omega)
  | create => exact h
  | check | load | returned | disconnected | dropped => trivial

lemma allReached_own (ho : Sound s) (hr : s.busy = false) (h : ∀ w ∈ s.waiters, Reached s w)
    (how : e.own) (ht : s.step e = some t) :
    t.busy = false ∧ (∀ w ∈ t.waiters, Reached t w) ∧ rest t < rest s := by
  cases e with
  | proceed i =>
    obtain ⟨w, w', hw, hp, rfl⟩ := step_proceed ht
    obtain ⟨hw', hlt⟩ := reached_proceed hr hp (h w (mem_of_getElem? hw))
    refine ⟨hr, fun v hv => ?_, ?_⟩
    · rcases mem_or_eq_of_mem_set hv with hm | rfl
      · exact h v hm
      · exact hw'
    · have hl := total_set (f := Waiter.rest) (b := w') hw
      simp only [rest]
      omega
  | notify =>
    obtain ⟨hn, rfl⟩ := step_notify ht
    refine ⟨hr, fun w hw => reached_notify ho hw (h w hw), ?_⟩
    simp [rest, hn]
  | call | callWorker | drop _ | listen _ | abort => exact how.elim

lemma enabled_of_reached (hw : s.waiters[i]? = some w) (he : w.pending)
    (h : Reached s w) : ∃ e t, Event.own e ∧ s.step e = some t := by
  have hp {w' : Waiter} (h : s.proceed w = some w') : ∃ e t, Event.own e ∧ s.step e = some t :=
    ⟨.proceed i, _, trivial, step_of_proceed hw h⟩
  cases w with
  | check | load => exact hp rfl
  | create => exact h.elim
  | waiting k =>
    rcases h with ho | hn
    · exact hp (if_neg ho)
    · exact ⟨.notify, _, trivial, by simp only [State.step, hn]; rfl⟩
  | returned | disconnected | dropped => cases he

lemma inevitable_of_allReached (ho : Sound s) (hr : s.busy = false)
    (h : ∀ w ∈ s.waiters, Reached s w) : Inevitable State.step Event.own (Over i) s := by
  refine inevitable_of_measure (I := fun s => Sound s ∧ s.busy = false ∧ ∀ w ∈ s.waiters, Reached s w)
    rest ?_ ?_ ⟨ho, hr, h⟩
  · rintro s ⟨-, -, h⟩ hv
    simp only [Over, not_forall, Bool.not_eq_false] at hv
    obtain ⟨w, hw, hp⟩ := hv
    exact enabled_of_reached hw hp (h w (mem_of_getElem? hw))
  · rintro s e t ⟨ho, hr, h⟩ hn ht
    obtain ⟨he, h', hlt⟩ := allReached_own ho hr h hn ht
    exact ⟨⟨sound_step ho ht, he, h'⟩, hlt⟩

/-- A call that creates its notification after the last wake is not woken, if no other comes. -/
def Missed (i : ℕ) (s : State) : Prop :=
  s.waiters[i]? = some .create ∨ s.waiters[i]? = some (.waiting s.wakes) ∧ s.listener ≠ .notifying

lemma missed_stays (h : Missed i s) (ho : e.own) (ht : s.step e = some t) :
    ∃ e' t', Event.own e' ∧ s.step e' = some t' ∧ Missed i t' := by
  rcases h with hw | ⟨hw, hl⟩
  · by_cases hn : s.listener = .notifying
    · exact ⟨.notify, { s with wakes := s.wakes + 1, listener := .reading 0 }, trivial,
        by simp only [State.step, hn], .inl hw⟩
    · have hlen := (List.getElem?_eq_some_iff.1 hw).1
      refine ⟨.proceed i, _, trivial, step_of_proceed hw rfl, .inr ⟨?_, hn⟩⟩
      simp [hlen]
  · cases e with
    | proceed j =>
      refine ⟨_, t, ho, ht, ?_⟩
      obtain ⟨w, w', hw', hp, rfl⟩ := step_proceed ht
      have hne : j ≠ i := by
        rintro rfl
        cases hw.symm.trans hw'
        simp [State.proceed] at hp
      unfold Missed
      simp only [List.getElem?_set_ne hne]
      exact (.inr ⟨hw, hl⟩)
    | notify => exact absurd (step_notify ht).1 hl
    | call | callWorker | drop _ | listen _ | abort => exact ho.elim

lemma not_inevitable_of_missed (h : Missed i s) : ¬ Inevitable State.step Event.own (Over i) s := by
  refine not_inevitable_of_trap (T := Missed i) ?_ (fun _ _ _ h => missed_stays h) h
  rintro s (hw | ⟨hw, -⟩) ho
  · cases ho _ hw
  · cases ho _ hw

lemma prompt_iff (hu : Sound s) : Prompt s ↔ AllReached s := by
  constructor
  · intro h hr w he
    obtain ⟨i, hi⟩ := mem_iff_getElem?.1 he
    have hn (hm : Missed i s) : False := not_inevitable_of_missed hm (h hr i)
    cases w with
    | create => exact hn (.inl hi)
    | waiting k =>
      by_contra ho
      rw [Reached, not_or, not_not] at ho
      obtain ⟨rfl, hl⟩ := ho
      exact hn (.inr ⟨hi, hl⟩)
    | check | load | returned | disconnected | dropped => trivial
  · exact fun h hr i => inevitable_of_allReached hu hr (h hr)

lemma allReached_append {l : List Waiter} (h : AllReached s) (hl : ∀ w ∈ l, Reached s w) :
    AllReached { s with waiters := s.waiters ++ l } := by
  intro hr w hm
  rcases mem_append.1 hm with hm | hm
  · exact h hr w hm
  · exact hl w hm

lemma allReached_listener {l : Listener} (h : AllReached s) (hs : s.listener ≠ .notifying) :
    AllReached { s with listener := l } := by
  intro hr w hm
  have hw := h hr w hm
  cases w with
  | waiting k => exact .inl (hw.resolve_right hs)
  | create => exact hw
  | check | load | returned | disconnected | dropped => trivial

lemma allReached_ready :
    AllReached { s with busy := false, listener := .notifying } ↔ .create ∉ s.waiters := by
  constructor
  · exact fun h hm => h rfl .create hm
  · intro h _ w hm
    cases w with
    | waiting k => exact .inr rfl
    | create => exact h hm
    | check | load | returned | disconnected | dropped => trivial

lemma allReached_step (ho : Sound s) (h : AllReached s) (ht : s.step e = some t) :
    AllReached t ↔ Seen s e := by
  cases e with
  | call | callWorker =>
    cases ht
    exact iff_of_true (allReached_append h (by simp [Reached])) nofun
  | proceed i =>
    refine iff_of_true (fun he => ?_) nofun
    have hr : s.busy = false := by
      obtain ⟨w, w', -, -, rfl⟩ := step_proceed ht
      exact he
    exact (allReached_own ho hr (h hr) (e := .proceed i) trivial ht).2.1
  | drop i =>
    obtain rfl := step_drop ht
    refine iff_of_true (fun he w hm => ?_) nofun
    rcases mem_or_eq_of_mem_set hm with hm | rfl
    · exact h he w hm
    · trivial
  | listen n =>
    rcases step_listen ht with ⟨rfl, rfl⟩ | ⟨l, hl, hs, hi, rfl | rfl⟩
    · rw [allReached_ready]
      exact ⟨fun h _ => h, fun h => h rfl⟩
    · exact iff_of_true nofun fun heq => absurd (Event.listen.inj heq) hi
    · exact iff_of_true (allReached_listener h hs) fun heq => absurd (Event.listen.inj heq) hi
  | notify =>
    refine iff_of_true (fun he => ?_) nofun
    have hr := ho.ready (step_notify ht).1
    exact (allReached_own ho hr (h hr) (e := .notify) trivial ht).2.1
  | abort =>
    obtain ⟨⟨eof, hd⟩, rfl⟩ := step_abort ht
    exact iff_of_true (allReached_listener h (by simp [hd])) nofun

/-- Along a run no call misses READY exactly if READY is never stored between a call's test of the flag
and its notification. -/
theorem always_prompt_iff (es : List Event) :
    Always State.step Prompt {} es ↔ Along State.step Seen {} es := by
  refine always_iff_along (fun s e t (ho : Sound s) => sound_step ho) ?_ ⟨?_, nofun⟩ nofun
  · intro s e t ho hp ht
    rw [prompt_iff (sound_step ho ht)]
    exact allReached_step ho ((prompt_iff ho).1 hp) ht
  · intro k hk
    cases hk

/-- The call finds BUSY, the listener stores READY and wakes nobody, and the call waits for ever. -/
theorem not_prompt_late :
    let es : List Event := [.call, .proceed 0, .listen (.byte 0), .notify, .proceed 0]
    ∃ s, run State.step {} es = some s ∧ s.busy = false ∧ s.waiters = [.waiting 1] ∧ s.wakes = 1 ∧
      ¬ Prompt s := by
  refine ⟨⟨false, 1, .reading 0, [.waiting 1]⟩, by decide, rfl, rfl, rfl, fun h => ?_⟩
  exact not_inevitable_of_missed (i := 0) (.inr ⟨rfl, by decide⟩) (h rfl 0)

end QJazz.Pool.RendezVous
