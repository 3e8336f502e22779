import QJazz.Pool.Session.CrossTalk

/-! A cancelled connection drops the frames it is asked to send, until the next `recv` clears the
mark. -/
namespace QJazz.Pool.Session
open Transition

/-- How many signals were sent, how many delivered, how many had been sent when the child received
its message, and the messages that lost a frame although no signal sent since had been delivered. -/
structure Record where
  state : State := {}
  sent : ℕ := 0
  delivered : ℕ := 0
  before : ℕ := 0
  swallowed : List Message := []
deriving DecidableEq

namespace Record

/-- The message that loses a frame to a signal sent before it was received. -/
def swallows (r : Record) : List Message :=
  match r.state.child with
  | .answering m => if r.state.cancelled ∧ r.delivered ≤ r.before then [m] else []
  | _ => []

def observe (r : Record) (e : Event) (t : State) : Record :=
  match e with
  | .proceed =>
    { r with state := t, sent := if r.state.handle = .hup then r.sent + 1 else r.sent }
  | .signal => { r with state := t, delivered := r.delivered + 1 }
  | .child =>
    { r with state := t, before := if r.state.child = .receiving then r.sent else r.before }
  | .write _ => { r with state := t, swallowed := r.swallowed ++ r.swallows }
  | _ => { r with state := t }

def step (r : Record) (e : Event) : Option Record := (r.state.step e).map (r.observe e)

lemma observe_state (r : Record) (e : Event) (t : State) : (r.observe e t).state = t := by
  cases e <;> rfl

lemma step_map_state (r : Record) (e : Event) : (r.step e).map state = r.state.step e := by
  have ht : state ∘ r.observe e = id := by
    funext t
    exact r.observe_state e t
  rw [step, Option.map_map, ht, Option.map_id_fun, id]

end Record

def Loop.Works : Loop → Prop
  | .received _ | .answering _ => True
  | .announce | .entering | .receiving => False

/-- No signal is delivered between the reset of the mark and the next message, and none is pending
when that message is taken. -/
def State.Timely (s : State) : Event → Prop
  | .signal => s.child ≠ .receiving
  | .child => s.child = .receiving → s.hups = 0
  | _ => True

instance (s : State) : (e : Event) → Decidable (s.Timely e)
  | .signal => inferInstanceAs (Decidable (s.child ≠ .receiving))
  | .child => inferInstanceAs (Decidable (s.child = .receiving → s.hups = 0))
  | .write _ | .finish | .deliver | .proceed | .timeout | .fail | .acquire | .request _ | .read
  | .done | .drop | .outdated | .requeue => isTrue trivial

/-- What the history says when every step is timely. -/
structure Record.Heard (r : Record) : Prop where
  count : r.delivered + r.state.hups = r.sent
  waits : r.state.child = .receiving → r.state.cancelled = false
  since : r.state.child.Works → r.before ≤ r.delivered
  cancelled : r.state.child.Works → r.state.cancelled = true → r.before < r.delivered
  swallowed : r.swallowed = []

namespace Record

variable {r : Record} {t : State} {l : Bool}

lemma start_heard : ({} : Record).Heard := ⟨rfl, nofun, nofun, nofun, rfl⟩

lemma Heard.swallows_nil (h : r.Heard) : r.swallows = [] := by
  unfold swallows
  split
  next m hc =>
    apply if_neg
    rintro ⟨hn, he⟩
    have hw : r.state.child.Works := hc ▸ trivial
    exact absurd (h.cancelled hw hn) (not_lt.2 he)
  · rfl

lemma Heard.congr (h : r.Heard) (hh : t.child = r.state.child)
    (hn : t.cancelled = r.state.cancelled) (hu : t.hups = r.state.hups) :
    ({ r with state := t } : Record).Heard := by
  constructor
  · exact hu ▸ h.count
  · exact fun hc => hn.trans (h.waits (hh ▸ hc))
  · exact fun hc => h.since (hh ▸ hc)
  · exact fun hc he => h.cancelled (hh ▸ hc) (hn ▸ he)
  · exact h.swallowed

lemma Heard.answered (h : r.Heard) {m : Message} (hc : r.state.child = .answering m)
    (hh : t.child = .announce ∨ t.child = .answering m)
    (hn : t.cancelled = r.state.cancelled) (hu : t.hups = r.state.hups) :
    ({ r with state := t } : Record).Heard := by
  rcases hh with hh | hh
  · have hi : ¬ t.child.Works := hh ▸ id
    constructor
    · exact hu ▸ h.count
    · intro hr
      rw [hh] at hr
      cases hr
    · exact fun hw => absurd hw hi
    · exact fun hw => absurd hw hi
    · exact h.swallowed
  · exact h.congr (hh.trans hc.symm) hn hu

lemma Heard.child (h : r.Heard) (hg : r.state.Timely .child)
    (ht : r.state.childStep = some t) : (r.observe .child t).Heard := by
  unfold State.childStep at ht
  split at ht
  next hc =>
    cases ht
    exact ⟨h.count, nofun, nofun, nofun, h.swallowed⟩
  next hc =>
    cases ht
    exact ⟨h.count, fun _ => rfl, nofun, nofun, h.swallowed⟩
  next hc =>
    split at ht
    next m stdin hin =>
      cases ht
      have hcount := h.count
      rw [hg hc, Nat.add_zero] at hcount
      have he : (r.observe .child { r.state with child := .received m, stdin }).before =
          r.delivered := by
        simp [observe, hc, hcount]
      constructor
      · exact h.count
      · exact nofun
      · exact fun _ => he.le
      · intro _ hn
        have hl := h.waits hc
        rw [show r.state.cancelled = true from hn] at hl
        cases hl
      · exact h.swallowed
    · cases ht
  next m hc =>
    cases ht
    have hw : r.state.child.Works := hc ▸ trivial
    constructor
    · exact h.count
    · exact nofun
    · intro _
      simpa [observe, hc] using h.since hw
    · intro _ hn
      simpa [observe, hc] using h.cancelled hw hn
    · exact h.swallowed
  · cases ht

lemma Heard.write (h : r.Heard) (ht : r.state.write l = some t) :
    (r.observe (.write l) t).Heard := by
  have hk : ({ r with state := t } : Record).Heard := by
    unfold State.write at ht
    split at ht
    next m hc =>
      split at ht
      · cases ht
      · cases ht
        apply h.answered hc
        · cases l
          · exact .inr rfl
          · exact .inl rfl
        · rfl
        · rfl
    · cases ht
  exact ⟨hk.count, hk.waits, hk.since, hk.cancelled, by
    simp [observe, h.swallowed, h.swallows_nil]⟩

lemma Heard.signal (h : r.Heard) (hg : r.state.Timely .signal)
    (ht : r.state.step .signal = some t) : (r.observe .signal t).Heard := by
  simp only [State.step] at ht
  split at ht
  next hp =>
    cases ht
    have hcount := h.count
    constructor
    · show r.delivered + 1 + (r.state.hups - 1) = r.sent
      omega
    · exact fun hc => absurd hc hg
    · exact fun hw => (h.since hw).trans (Nat.le_succ _)
    · exact fun hw _ => Nat.lt_succ_of_le (h.since hw)
    · exact h.swallowed
  · cases ht

lemma Heard.proceed (h : r.Heard) (ht : r.state.proceed = some t) :
    (r.observe .proceed t).Heard := by
  by_cases hu : r.state.handle = .hup
  · simp only [State.proceed, hu] at ht
    cases ht
    have hcount := h.count
    constructor
    · simp only [observe, hu, if_true]
      omega
    · exact h.waits
    · exact h.since
    · exact h.cancelled
    · exact h.swallowed
  · have ho : r.observe .proceed t = { r with state := t } := by
      simp [observe, hu]
    rw [ho]
    unfold State.proceed at ht
    split at ht
    next => cases ht; exact h.congr rfl rfl rfl
    next => cases ht; exact h.congr rfl rfl rfl
    next => cases ht; exact h.congr rfl rfl rfl
    next => cases ht; exact h.congr rfl rfl rfl
    next hh => exact absurd hh hu
    next => cases ht; exact h.congr rfl rfl rfl
    next => cases ht; exact h.congr rfl rfl rfl
    next => cases ht

lemma step_keeps {s : State} {e : Event} (ht : s.step e = some t) (hh : e ≠ .child)
    (hw : ∀ l, e ≠ .write l) (hf : e ≠ .finish) (hi : e ≠ .signal) (hp : e ≠ .proceed) :
    t.child = s.child ∧ t.cancelled = s.cancelled ∧ t.hups = s.hups := by
  cases e with
  | child => exact absurd rfl hh
  | write l => exact absurd rfl (hw l)
  | finish => exact absurd rfl hf
  | signal => exact absurd rfl hi
  | proceed => exact absurd rfl hp
  | timeout =>
    simp only [State.step, State.timeout] at ht
    split at ht <;> cases ht <;> exact ⟨rfl, rfl, rfl⟩
  | fail =>
    simp only [State.step, State.fail] at ht
    split at ht <;> cases ht
    exact ⟨rfl, rfl, rfl⟩
  | request i =>
    simp only [State.step, State.request] at ht
    split at ht <;> cases ht <;> exact ⟨rfl, rfl, rfl⟩
  | read =>
    simp only [State.step, State.read] at ht
    split at ht <;> cases ht <;> exact ⟨rfl, rfl, rfl⟩
  | deliver | acquire | done | drop | outdated | requeue =>
    simp only [State.step] at ht
    split at ht <;> cases ht <;> exact ⟨rfl, rfl, rfl⟩

lemma Heard.step (h : r.Heard) {e : Event} {r' : Record} (hg : r.state.Timely e)
    (he : r.step e = some r') : r'.Heard := by
  obtain ⟨t, ht, rfl⟩ := Option.map_eq_some_iff.1 he
  cases e with
  | child => exact h.child hg ht
  | write l => exact h.write ht
  | signal => exact h.signal hg ht
  | proceed => exact h.proceed ht
  | finish =>
    simp only [State.step] at ht
    split at ht
    next m hc =>
      cases ht
      exact h.answered hc (.inl rfl) rfl rfl
    · cases ht
  | deliver | timeout | fail | acquire | request single | read | done | drop | outdated | requeue =>
    obtain ⟨hh, hn, hu⟩ :=
      step_keeps ht (by simp) (by simp) (by simp) (by simp) (by simp)
    exact h.congr hh hn hu

/-- No frame of a message received after a signal was sent is dropped for it, in every run where the
signals are delivered before the child clears the mark, or while it works on the message they were
sent for. -/
theorem swallowed_nil_of_timely (es : List Event) (t : State) (hgood : Along State.step State.Timely {} es)
    (hrun : run State.step {} es = some t) :
    ∃ r, run step {} es = some r ∧ r.state = t ∧ r.swallowed = [] := by
  have hm : (run step {} es).map state = some t := by
    rw [run_map step_map_state]
    exact hrun
  obtain ⟨r, hr, ht⟩ := Option.map_eq_some_iff.1 hm
  have hl : Along step (fun r e => r.state.Timely e) {} es := (along_map step_map_state).2 hgood
  have hh : r.Heard := run_invariant (fun _ _ _ h hg hs => h.step hg hs) start_heard hl hr
  exact ⟨r, hr, ht, hh.swallowed⟩

def abandoned : List Event := State.requested ++ State.taken ++ [.drop, .proceed, .proceed, .timeout]

def reused : List Event :=
  [.deliver, .proceed, .proceed, .requeue, .acquire, .request false, .child, .child, .write true]

/-- The signal reaches the child while it answers: the rest of that reply is dropped, and the next
reply is written. -/
theorem swallowed_nil_of_timely_cancelled : ∃ t,
    run State.step {} (abandoned ++ [.proceed, .signal, .write true, .child, .child] ++ reused) = some t ∧
      t.stdout = [⟨1, true⟩] ∧ ∃ r, run step {} (abandoned ++
        [.proceed, .signal, .write true, .child, .child] ++ reused) = some r ∧
        r.state = t ∧ r.swallowed = [] := by
  obtain ⟨t, hr, ho⟩ : ∃ t, run State.step {} (abandoned ++ ([.proceed, .signal, .write true,
      .child, .child] : List Event) ++ reused) = some t ∧ t.stdout = [⟨1, true⟩] := ⟨_, rfl, rfl⟩
  exact ⟨t, hr, ho, swallowed_nil_of_timely _ t (by decide) hr⟩

/-- The child ends its job, announces it and clears the mark before the signal is sent: the reply to
the next request is dropped. -/
theorem not_swallowed_nil_late_signal : ∃ r,
    run step {} (abandoned ++ [.write true, .child, .child, .proceed, .signal] ++ reused) = some r ∧
      r.swallowed = [⟨1, false⟩] ∧ r.state.handle = .reading 1 ∧ r.state.stdout = [] :=
  ⟨_, rfl, rfl, rfl, rfl⟩

end Record

end QJazz.Pool.Session
