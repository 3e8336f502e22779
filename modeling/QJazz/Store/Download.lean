import QJazz.ByteStream.Arrivals
import QJazz.Transition.Run

/-! A thread pulls the blocks of an object into a queue, while a generator takes them from it. -/
namespace QJazz.Store

open ByteStream Transition List

inductive Item where
  | block (b : Bytes)
  | exception (message : String)
deriving DecidableEq

/-- How far the pull thread is. The blocks are those that the decoder has still to yield. -/
inductive Pull where
  /-- The task is not created yet. -/
  | absent (blocks : List Bytes)
  | reading (blocks : List Bytes)
  /-- The end is in the queue, and the reader is still open. -/
  | marked
  | left
  /-- The task is done. -/
  | done
deriving DecidableEq

def Pull.begin : Pull → Pull
  | .absent blocks => .reading blocks
  | p => p

inductive StreamError where
  /-- `InvalidStateError` of `pull_task.exception()` -/
  | invalidState
  | timeout
  | failed (message : String)
deriving DecidableEq

inductive Outcome where
  | exhausted
  /-- The consumer has stopped early. -/
  | closed
  | raised (e : StreamError)
deriving DecidableEq

inductive Consumer where
  | idle
  /-- `q.get` runs in a thread of its own. -/
  | waiting
  /-- `q.get` has returned, with nothing if the time is up. -/
  | got (item : Option Item)
  /-- A chunk is yielded. -/
  | suspended
  | ended (o : Outcome)
deriving DecidableEq

/-- Everything that is to go through the queue, in order. -/
def tape (blocks : List Bytes) : List Item := blocks.map .block ++ [.block []]

def Pull.pending : Pull → List Item
  | .absent blocks | .reading blocks => tape blocks
  | _ => []

def Consumer.inHand : Consumer → List Item
  | .got (some item) => [item]
  | _ => []

structure Download where
  pull : Pull
  queue : List Item := []
  consumer : Consumer := .idle
  received : List Bytes := []

namespace Download

inductive Event where
  | put
  | mark
  | leave
  | finish
  /-- Reading or decoding raises. -/
  | fail (message : String)
  | next
  | get
  | timeout
  | resume
  | stop
deriving DecidableEq

def start (blocks : List Bytes) : Download := { pull := .absent blocks }

/-- The clean-up of the generator. The task never has an exception, since the thread catches it. -/
def cleanUp (s : Download) (o : Outcome) : Download :=
  { s with consumer := .ended (if s.pull = .done then o else .raised .invalidState) }

def accept (s : Download) : Option Item → Download
  | none => s.cleanUp (.raised .timeout)
  | some (.exception message) => s.cleanUp (.raised (.failed message))
  | some (.block []) => s.cleanUp .exhausted
  | some (.block (b :: bs)) =>
    { s with consumer := .suspended, received := s.received ++ [b :: bs] }

def step (limited : Bool) (s : Download) : Event → Option Download
  | .put =>
    match s.pull with
    | .reading (b :: blocks) =>
      some { s with pull := .reading blocks, queue := s.queue ++ [.block b] }
    | _ => none
  | .mark =>
    match s.pull with
    | .reading [] => some { s with pull := .marked, queue := s.queue ++ [.block []] }
    | _ => none
  | .leave => if s.pull = .marked then some { s with pull := .left } else none
  | .finish => if s.pull = .left then some { s with pull := .done } else none
  | .fail message =>
    match s.pull with
    | .reading _ | .marked =>
      some { s with pull := .left, queue := s.queue ++ [.exception message] }
    | _ => none
  | .next =>
    match s.consumer with
    | .idle | .suspended => some { s with pull := s.pull.begin, consumer := .waiting }
    | _ => none
  | .get =>
    match s.consumer, s.queue with
    | .waiting, item :: queue => some { s with queue, consumer := .got (some item) }
    | _, _ => none
  | .timeout =>
    if limited = true ∧ s.consumer = .waiting ∧ s.queue = [] then
      some { s with consumer := .got none }
    else none
  | .resume =>
    match s.consumer with
    | .got item => some (s.accept item)
    | _ => none
  | .stop =>
    match s.consumer with
    | .idle => some { s with consumer := .ended .closed }
    | .suspended => some (s.cleanUp .closed)
    | _ => none

variable {limited : Bool} {blocks : List Bytes} {s t : Download} {e : Event}

inductive Step (limited : Bool) : Download → Event → Download → Prop
  | put {b bs q c r} : Step limited ⟨.reading (b :: bs), q, c, r⟩ .put
      ⟨.reading bs, q ++ [.block b], c, r⟩
  | mark {q c r} : Step limited ⟨.reading [], q, c, r⟩ .mark ⟨.marked, q ++ [.block []], c, r⟩
  | leave {q c r} : Step limited ⟨.marked, q, c, r⟩ .leave ⟨.left, q, c, r⟩
  | finish {q c r} : Step limited ⟨.left, q, c, r⟩ .finish ⟨.done, q, c, r⟩
  | fail {p q c r message} (h : p = .marked ∨ ∃ bs, p = .reading bs) :
      Step limited ⟨p, q, c, r⟩ (.fail message) ⟨.left, q ++ [.exception message], c, r⟩
  | next {p q c r} (h : c = .idle ∨ c = .suspended) :
      Step limited ⟨p, q, c, r⟩ .next ⟨p.begin, q, .waiting, r⟩
  | get {p item q r} : Step limited ⟨p, item :: q, .waiting, r⟩ .get ⟨p, q, .got (some item), r⟩
  | timeout {p r} (h : limited = true) :
      Step limited ⟨p, [], .waiting, r⟩ .timeout ⟨p, [], .got none, r⟩
  | resume {p q item r} :
      Step limited ⟨p, q, .got item, r⟩ .resume (accept ⟨p, q, .got item, r⟩ item)
  | stopIdle {p q r} : Step limited ⟨p, q, .idle, r⟩ .stop ⟨p, q, .ended .closed, r⟩
  | stop {p q r} :
      Step limited ⟨p, q, .suspended, r⟩ .stop (cleanUp ⟨p, q, .suspended, r⟩ .closed)

lemma step_cases (h : step limited s e = some t) : Step limited s e t := by
  obtain ⟨p, q, c, r⟩ := s
  cases e with
  | put =>
    rcases p with _ | (_ | _) | _ | _ | _ <;> simp only [step, reduceCtorEq, Option.some.injEq] at h
    exact h ▸ .put
  | mark =>
    rcases p with _ | (_ | _) | _ | _ | _ <;> simp only [step, reduceCtorEq, Option.some.injEq] at h
    exact h ▸ .mark
  | leave =>
    simp only [step, Option.ite_none_right_eq_some, Option.some.injEq] at h
    obtain ⟨rfl, rfl⟩ := h
    exact .leave
  | finish =>
    simp only [step, Option.ite_none_right_eq_some, Option.some.injEq] at h
    obtain ⟨rfl, rfl⟩ := h
    exact .finish
  | fail message =>
    cases p <;> simp only [step, reduceCtorEq, Option.some.injEq] at h
    · exact h ▸ .fail (.inr ⟨_, rfl⟩)
    · exact h ▸ .fail (.inl rfl)
  | next =>
    cases c <;> simp only [step, reduceCtorEq, Option.some.injEq] at h
    · exact h ▸ .next (.inl rfl)
    · exact h ▸ .next (.inr rfl)
  | get =>
    cases c <;> cases q <;> simp only [step, reduceCtorEq, Option.some.injEq] at h
    exact h ▸ .get
  | timeout =>
    simp only [step, Option.ite_none_right_eq_some, Option.some.injEq] at h
    obtain ⟨⟨hl, rfl, rfl⟩, rfl⟩ := h
    exact .timeout hl
  | resume =>
    cases c <;> simp only [step, reduceCtorEq, Option.some.injEq] at h
    exact h ▸ .resume
  | stop =>
    cases c <;> simp only [step, reduceCtorEq, Option.some.injEq] at h
    · exact h ▸ .stopIdle
    · exact h ▸ .stop

/-- The events of a pull that reads and decodes without an exception. -/
def Event.Succeeds : Event → Prop
  | .fail _ => False
  | _ => True

def Ended (s : Download) : Prop := ∃ o, s.consumer = .ended o

def stream (s : Download) : List Item :=
  s.received.map .block ++ (s.consumer.inHand ++ (s.queue ++ s.pull.pending))

/-- Nothing is lost, doubled or reordered between the reader and the consumer. -/
structure Consistent (blocks : List Bytes) (s : Download) : Prop where
  flow : ¬ s.Ended → s.stream = tape blocks
  received : s.received <+: blocks
  exhausted : s.consumer = .ended .exhausted → s.received = blocks
  begun : ∀ bs, s.pull = .absent bs → s.consumer = .idle ∨ s.Ended

lemma consistent_start : Consistent blocks (start blocks) where
  flow _ := rfl
  received := nil_prefix
  exhausted := nofun
  begun _ _ := .inl rfl

lemma not_ended {p q c r} (h : ∀ o, c ≠ .ended o) : ¬ Ended ⟨p, q, c, r⟩ :=
  fun ⟨o, ho⟩ => h o ho

lemma Consistent.pull {p p' q q' c r} (h : Consistent blocks ⟨p, q, c, r⟩)
    (hm : q' ++ p'.pending = q ++ p.pending) (he : ∀ bs, p' ≠ .absent bs) :
    Consistent blocks ⟨p', q', c, r⟩ where
  flow hn := by
    have hf := h.flow hn
    simp only [stream] at hf ⊢
    rw [hm, hf]
  received := h.received
  exhausted := h.exhausted
  begun bs hbs := absurd hbs (he bs)

lemma Consistent.ended {p q c o r} (h : Consistent blocks ⟨p, q, c, r⟩)
    (ho : o = .exhausted → r = blocks) : Consistent blocks ⟨p, q, .ended o, r⟩ where
  flow hended := absurd ⟨o, rfl⟩ hended
  received := h.received
  exhausted hc := ho (Consumer.ended.inj hc)
  begun _ _ := .inr ⟨o, rfl⟩

lemma Consistent.cleanUp {o} (h : Consistent blocks s) (ho : o = .exhausted → s.received = blocks) :
    Consistent blocks (s.cleanUp o) := by
  refine Consistent.ended (c := s.consumer) h fun heq => ?_
  split at heq
  · exact ho heq
  · cases heq

lemma prefix_of_map_append_eq_tape {xs : List Bytes} {ys : List Item} (hxs : [] ∉ xs)
    (h : xs.map Item.block ++ ys = tape blocks) : xs <+: blocks := by
  have hi : Function.Injective Item.block := fun _ _ => Item.block.inj
  obtain heq | hp := prefix_concat_iff.1 (Exists.intro ys h)
  · have hm : Item.block [] ∈ xs.map Item.block := heq ▸ mem_concat_self
    exact absurd ((List.mem_map_of_injective hi).1 hm) hxs
  · exact (prefix_map_iff_of_injective hi).1 hp

lemma eq_of_map_append_marker_eq_tape {xs : List Bytes} {ys : List Item} (hl : [] ∉ blocks)
    (h : xs.map Item.block ++ .block [] :: ys = tape blocks) : xs = blocks := by
  have hi : Function.Injective Item.block := fun _ _ => Item.block.inj
  have he : Item.block [] ∉ blocks.map Item.block :=
    fun hm => hl ((List.mem_map_of_injective hi).1 hm)
  obtain ⟨heq, -⟩ := (append_cons_inj_of_notMem he not_mem_nil).1 h.symm
  exact (hi.list_map heq).symm

lemma Consistent.accept {p q item r} (hl : [] ∉ blocks)
    (h : Consistent blocks ⟨p, q, .got item, r⟩) :
    Consistent blocks (accept ⟨p, q, .got item, r⟩ item) := by
  have hf := h.flow (not_ended nofun)
  rcases item with _ | (_ | ⟨b, bs⟩) | message
  · exact h.cleanUp nofun
  · exact h.cleanUp fun _ => eq_of_map_append_marker_eq_tape hl hf
  · have hn : stream ⟨p, q, .suspended, r ++ [b :: bs]⟩ = tape blocks := by
      rw [← hf]
      simp [stream, Consumer.inHand]
    have he : [] ∉ r ++ [b :: bs] := by
      simpa using fun hm => hl (h.received.subset hm)
    exact ⟨fun _ => hn, prefix_of_map_append_eq_tape he hn, nofun,
      fun bs' hbs => absurd (h.begun bs' hbs) (by simp [Ended])⟩
  · exact h.cleanUp nofun

lemma consistent_step (hl : [] ∉ blocks) (h : Consistent blocks s) (he : e.Succeeds)
    (ht : step limited s e = some t) : Consistent blocks t := by
  cases step_cases ht with
  | put | mark => exact h.pull (by simp [Pull.pending, tape]) nofun
  | leave | finish => exact h.pull rfl nofun
  | fail => exact absurd he id
  | @next p q c r hc =>
    have hp : p.begin.pending = p.pending := by cases p <;> rfl
    have hn : ¬ Ended ⟨p, q, c, r⟩ := not_ended (by rcases hc with rfl | rfl <;> nofun)
    refine ⟨fun _ => ?_, h.received, nofun, fun bs hbs => ?_⟩
    · have hf := h.flow hn
      rcases hc with rfl | rfl <;> simpa [stream, Consumer.inHand, hp] using hf
    · cases p <;> cases hbs
  | get | timeout =>
    refine ⟨fun _ => h.flow (not_ended nofun), h.received, nofun, fun bs hbs => ?_⟩
    exact absurd (h.begun bs hbs) (by simp [Ended])
  | resume => exact h.accept hl
  | stopIdle => exact h.ended nofun
  | stop => exact h.cleanUp nofun

/-- How much is left to do. An item that goes through the queue is put, taken and handled. -/
def remaining (s : Download) : ℕ :=
  (match s.pull with
    | .absent bs | .reading bs => 4 * bs.length + 6
    | .marked => 2
    | .left => 1
    | .done => 0) +
  3 * s.queue.length +
  (match s.consumer with
    | .idle | .suspended => 3
    | .waiting => 2
    | .got none => 1
    | .got (some _) => 4
    | .ended _ => 0)

lemma remaining_cleanUp (o : Outcome) (h : ¬ s.Ended) : (s.cleanUp o).remaining < s.remaining := by
  obtain ⟨p, q, c, r⟩ := s
  cases c with
  | ended o' => exact absurd ⟨o', rfl⟩ h
  | got i => cases i <;> simp [remaining, cleanUp]
  | _ => simp [remaining, cleanUp]

lemma remaining_lt (he : e.Succeeds) (ht : step limited s e = some t) :
    t.remaining < s.remaining := by
  cases step_cases ht with
  | put | mark => simp [remaining]; omega
  | leave | finish => simp [remaining]
  | fail => exact absurd he id
  | @next p q c r hc => rcases hc with rfl | rfl <;> cases p <;> simp [remaining, Pull.begin]
  | get => simp [remaining]; omega
  | timeout => simp [remaining]
  | @resume p q i r =>
    rcases i with _ | (_ | ⟨b, bs⟩) | message
    · exact remaining_cleanUp _ (not_ended nofun)
    · exact remaining_cleanUp _ (not_ended nofun)
    · simp [remaining, accept]
    · exact remaining_cleanUp _ (not_ended nofun)
  | stopIdle => simp [remaining]
  | stop => exact remaining_cleanUp _ (not_ended nofun)

/-- A consumer that waits for an empty queue has the pull thread to wait for: the end of the blocks
is not in the queue yet. -/
lemma Consistent.exists_step (h : Consistent blocks s) (he : ¬ s.Ended) :
    ∃ e t, e.Succeeds ∧ step limited s e = some t := by
  have hf := h.flow he
  obtain ⟨p, q, c, r⟩ := s
  cases c with
  | idle | suspended => exact ⟨.stop, _, trivial, rfl⟩
  | got i => exact ⟨.resume, _, trivial, rfl⟩
  | ended o => exact absurd ⟨o, rfl⟩ he
  | waiting =>
    cases q with
    | cons i q => exact ⟨.get, _, trivial, rfl⟩
    | nil =>
      rcases p with bs | (_ | _) | _ | _ | _
      · exact absurd (h.begun bs rfl) (by simp [Ended])
      · exact ⟨.mark, _, trivial, rfl⟩
      · exact ⟨.put, _, trivial, rfl⟩
      · exact ⟨.leave, _, trivial, rfl⟩
      · exact ⟨.finish, _, trivial, rfl⟩
      · have hl := congrArg List.length hf
        have hle : r.length ≤ blocks.length := h.received.length_le
        simp only [stream, Consumer.inHand, Pull.pending, tape, append_nil, length_append,
          length_map, length_singleton] at hl
        omega

lemma Consistent.inevitable (hl : [] ∉ blocks) (h : Consistent blocks s) :
    Inevitable (step limited) Event.Succeeds Ended s :=
  inevitable_of_measure remaining (fun _ hs => hs.exists_step)
    (fun _ _ _ hs he ht => ⟨consistent_step hl hs he ht, remaining_lt he ht⟩) h

/-- The consumer receives the blocks in order, all of them unless it stops early, no exception ends the
iteration, and it does end however the two threads go on. -/
structure EndsNormally (limited : Bool) (blocks : List Bytes) (s : Download) : Prop where
  received : s.received <+: blocks
  exhausted : s.consumer = .ended .exhausted → s.received = blocks
  notRaised : ∀ e, s.consumer ≠ .ended (.raised e)
  ends : Inevitable (step limited) Event.Succeeds Ended s

lemma Consistent.endsNormally_iff (hl : [] ∉ blocks) (h : Consistent blocks s) :
    EndsNormally limited blocks s ↔ ∀ e, s.consumer ≠ .ended (.raised e) :=
  ⟨EndsNormally.notRaised, fun hr => ⟨h.received, h.exhausted, hr, h.inevitable hl⟩⟩

/-- The generator cleans up after the pull task only, and its wait for a block is not over before
there is one. -/
def Settled (s : Download) : Event → Prop
  | .resume => s.consumer ≠ .got none ∧ (s.consumer = .got (some (.block [])) → s.pull = .done)
  | .stop => s.consumer = .suspended → s.pull = .done
  | _ => True

instance decidableSettled (s : Download) : (e : Event) → Decidable (Settled s e)
  | .resume => inferInstanceAs (Decidable (_ ∧ _))
  | .stop => inferInstanceAs (Decidable (_ → _))
  | .put | .mark | .leave | .finish | .fail _ | .next | .get | .timeout => isTrue trivial

lemma notRaised_cleanUp_iff {o : Outcome} (ho : ∀ e, o ≠ .raised e) :
    (∀ e, (s.cleanUp o).consumer ≠ .ended (.raised e)) ↔ s.pull = .done := by
  constructor
  · intro h
    by_contra hd
    exact h .invalidState (by simp [cleanUp, hd])
  · intro hd e he
    simp only [cleanUp, hd, if_true, Consumer.ended.injEq] at he
    exact ho e he

lemma raised_cleanUp (e : StreamError) :
    ∃ e', (s.cleanUp (.raised e)).consumer = .ended (.raised e') := by
  by_cases h : s.pull = .done
  · exact ⟨e, by simp [cleanUp, h]⟩
  · exact ⟨.invalidState, by simp [cleanUp, h]⟩

lemma notRaised_accept_iff {p q item r} (h : Consistent blocks ⟨p, q, .got item, r⟩) :
    (∀ e, (accept ⟨p, q, .got item, r⟩ item).consumer ≠ .ended (.raised e)) ↔
      Settled ⟨p, q, .got item, r⟩ .resume := by
  rcases item with _ | (_ | ⟨b, bs⟩) | message
  · obtain ⟨e, he⟩ := raised_cleanUp (s := ⟨p, q, .got none, r⟩) .timeout
    exact ⟨fun hr => absurd he (hr e), fun ht => absurd rfl ht.1⟩
  · have hi := notRaised_cleanUp_iff (s := ⟨p, q, .got (some (.block [])), r⟩) (o := .exhausted) nofun
    simpa [Settled, accept] using hi
  · simp [accept, Settled]
  · -- no exception is on its way while reading and decoding succeed
    have hm : Item.exception message ∈ tape blocks := by
      rw [← h.flow (not_ended nofun)]
      simp [stream, Consumer.inHand]
    simp [tape] at hm

lemma notRaised_step_iff (h : Consistent blocks s) (hs : ∀ e, s.consumer ≠ .ended (.raised e))
    (he : e.Succeeds) (ht : step limited s e = some t) :
    (∀ e, t.consumer ≠ .ended (.raised e)) ↔ Settled s e := by
  cases step_cases ht with
  | fail => exact absurd he id
  | resume => exact notRaised_accept_iff h
  | stopIdle => simp [Settled]
  | stop => simpa [Settled] using notRaised_cleanUp_iff (o := .closed) nofun
  | next | get | timeout => simp [Settled]
  | _ => simpa [Settled] using hs

/-- However the pull thread and the consumer interleave, the download ends normally exactly if the
generator never cleans up before the pull task is done and never waits too long. -/
theorem endsNormally_iff_settled (limited : Bool) (blocks : List Bytes) (es : List Event)
    (hblocks : [] ∉ blocks) (hes : ∀ e ∈ es, e.Succeeds) :
    Always (step limited) (EndsNormally limited blocks) (start blocks) es ↔
      Along (step limited) Settled (start blocks) es := by
  refine always_iff_along_of_mem (fun _ _ _ h => consistent_step hblocks h) ?_ hes consistent_start
    ((consistent_start.endsNormally_iff hblocks).2 nofun)
  intro s e t h hn he ht
  rw [(consistent_step hblocks h he ht).endsNormally_iff hblocks]
  exact notRaised_step_iff h hn.notRaised he ht

theorem endsNormally_of_finished_pull :
    [] ∉ [[7]] ∧ Always (step false) (EndsNormally false [[7]]) (start [[7]])
      [.next, .put, .mark, .get, .resume, .next, .leave, .finish, .get, .resume] :=
  ⟨by decide, (endsNormally_iff_settled false [[7]] _ (by decide) (by simp [Event.Succeeds])).2
    (by decide)⟩

/-- The end of the blocks is taken while the reader is still open, and the consumer that has received
every block gets an `InvalidStateError`; so does one that stops early. -/
theorem not_endsNormally_before_pull_is_done : (∃ s, run (step false) (start [[7]])
        [.next, .put, .mark, .get, .resume, .next, .get, .resume] = some s ∧
      s.received = [[7]] ∧ s.consumer = .ended (.raised .invalidState) ∧
      ¬ EndsNormally false [[7]] s) ∧
    ∃ s, run (step false) (start [[7]]) [.next, .put, .get, .resume, .stop] = some s ∧
      s.consumer = .ended (.raised .invalidState) ∧ ¬ EndsNormally false [[7]] s :=
  ⟨⟨_, rfl, rfl, rfl, fun h => h.notRaised _ rfl⟩, ⟨_, rfl, rfl, fun h => h.notRaised _ rfl⟩⟩

end Download

end QJazz.Store
