import QJazz.Pool.Builder
import QJazz.Rpc.Frame

/-! The gateway reads the frames of an answer until a terminator or an error, reads a report if
reports are configured, and marks the worker done. -/
namespace QJazz.Rpc
open ByteStream List

/-- The envelope of a frame, without its message. -/
inductive Envelop where
  | noData
  | byteChunk
  | success (status : ℤ)
  | failure (status : ℤ)
deriving DecidableEq, Repr

def packNoData : Bytes := [0xcc, 0xcc]

def packByteChunk : Bytes := [0xcc, 0xce]

structure EnvelopDecoder where
  decode : Bytes → Option Envelop
  noData : decode packNoData = some .noData
  byteChunk : decode packByteChunk = some .byteChunk

/-- The frames of the answer that are not read yet. The first one is torn when its header was read
and its data was not. -/
structure Inbox where
  frames : List Bytes
  torn : Bool := false
deriving DecidableEq, Repr

inductive ReadError where
  | ioBufferOverflow
  | responseExpected
  | emptyChunk
  | decodeError
  | responseError (status : ℤ)
  | unexpectedResponse
  | misread
deriving DecidableEq, Repr

inductive Flow (α : Type) where
  | next (a : α)
  | stop (a : Option α)

namespace Inbox

/-- `read_bytes` frame by frame, or nothing while it waits. Inside a torn frame data is taken for a
header: the read comes back with an error or waits, as `returns` says. -/
def readBytes (capacity : ℕ) (returns : Bool) : Inbox → Option (Except ReadError (Option Bytes) × Inbox)
  | ⟨frames, true⟩ => if returns then some (.error .misread, ⟨frames, true⟩) else none
  | ⟨[], false⟩ => none
  | ⟨f :: rest, false⟩ =>
    if capacity < f.length then some (.error .ioBufferOverflow, ⟨f :: rest, true⟩)
    else some (.ok (received f), ⟨rest, false⟩)

def readChunk (d : EnvelopDecoder) (capacity : ℕ) (returns : Bool) (p : Inbox) :
    Option (Except ReadError (Flow Bytes) × Inbox) :=
  (p.readBytes capacity returns).bind fun
    | (.error e, p) => some (.error e, p)
    | (.ok none, p) => some (.error .responseExpected, p)
    | (.ok (some b), p) =>
      match d.decode b with
      | none => some (.error .decodeError, p)
      | some .byteChunk => (p.readBytes capacity returns).map fun
        | (.error e, p) => (.error e, p)
        | (.ok none, p) => (.error .emptyChunk, p)
        | (.ok (some data), p) => (.ok (.next data), p)
      | some .noData => some (.ok (.stop none), p)
      | some (.failure status) => some (.error (.responseError status), p)
      | some (.success status) => some (.error (.responseError status), p)

def readStream (d : EnvelopDecoder) (capacity : ℕ) (returns : Bool) (p : Inbox) :
    Option (Except ReadError (Flow Bytes) × Inbox) :=
  (p.readBytes capacity returns).bind fun
    | (.error e, p) => some (.error e, p)
    | (.ok none, p) => some (.error .responseExpected, p)
    | (.ok (some b), p) =>
      match d.decode b with
      | none => some (.error .decodeError, p)
      | some (.success status) => some (.ok (if status = 206 then .next b else .stop (some b)), p)
      | some (.failure status) => some (.error (.responseError status), p)
      | some .noData => some (.ok (.stop none), p)
      | some .byteChunk => some (.error .unexpectedResponse, p)

end Inbox

/-- A reader of `Flow` values, or nothing while it waits. -/
abbrev Reader := Inbox → Option (Except ReadError (Flow Bytes) × Inbox)

structure ReplyStream where
  inbox : Inbox
  done : Bool := false

def ReplyStream.advance :
    Except ReadError (Flow Bytes) × Inbox → Except ReadError (Option Bytes) × ReplyStream
  | (.ok (.next a), p) => (.ok (some a), { inbox := p })
  | (.ok (.stop a), p) => (.ok a, { inbox := p, done := true })
  | (.error e, p) => (.error e, { inbox := p, done := true })

def ReplyStream.next (read : Reader) (s : ReplyStream) :
    Option (Except ReadError (Option Bytes) × ReplyStream) :=
  if s.done then some (.ok none, s) else (read s.inbox).map ReplyStream.advance

inductive LoopEnd where
  | ended (p : Inbox)
  | waiting
  | dropped
deriving DecidableEq, Repr

/-- Forwards a stream to a client for at most the given number of turns. Items that are not kept are
skipped; `client k` says whether the client still takes the `k`-th message. -/
def forward (read : Reader) (keep : Bytes → Bool) (client : ℕ → Bool) : ℕ → ℕ → ReplyStream → LoopEnd
  | 0, _, _ => .waiting
  | n + 1, k, s =>
    match s.next read with
    | none => .waiting
    | some (.ok none, s) => .ended s.inbox
    | some (.ok (some a), s) =>
      if keep a then if client k then forward read keep client n (k + 1) s else .dropped
      else forward read keep client n k s
    | some (.error _, s) => if client k then forward read keep client n (k + 1) s else .dropped

/-- How the task that serves a stream ends: the worker is marked done, or dropped without the mark, or
the task never ends. -/
inductive Served where
  | done (left : Inbox)
  | waiting
  | dropped
deriving DecidableEq, Repr

def getReport (capacity : ℕ) (returns monitored : Bool) (p : Inbox) : Served :=
  if monitored then
    match p.readBytes capacity returns with
    | none => .waiting
    | some (_, p) => .done p
  else .done p

def streamBytes (d : EnvelopDecoder) (capacity : ℕ) (monitored : Bool) (client : ℕ → Bool)
    (returns : Bool) (p : Inbox) : Served :=
  match forward (Inbox.readChunk d capacity returns) (fun _ => true) client (p.frames.length + 2) 0
      { inbox := p } with
  | .ended p => getReport capacity returns monitored p
  | .waiting => .waiting
  | .dropped => .dropped

/-- The admin streams. The list of the cache keeps the pinned items; the others keep all. -/
def streamObjects (d : EnvelopDecoder) (capacity : ℕ) (keep : Bytes → Bool) (client : ℕ → Bool)
    (returns : Bool) (p : Inbox) : Served :=
  match forward (Inbox.readStream d capacity returns) keep client (p.frames.length + 2) 0
      { inbox := p } with
  | .ended p => .done p
  | .waiting => .waiting
  | .dropped => .dropped

/-- A worker is marked done only with nothing left to read, and the task ends. -/
def Served.Clean : Served → Prop
  | .done left => left = ⟨[], false⟩
  | .waiting => False
  | .dropped => True

/-- How the child ends an answer: the terminator, with a report if one is asked for; or a frame that
is neither a chunk nor a terminator, and what it may send after it. -/
inductive Ending where
  | completed (report : Bytes)
  | failed (frame : Bytes) (rest : List Bytes)

/-- What the child sends after its reply to a request. -/
structure Production (d : EnvelopDecoder) where
  chunks : List Bytes
  ending : Ending
  chunks_ne : ∀ c ∈ chunks, c ≠ []
  reports : ∀ frame rest, ending = .failed frame rest →
    d.decode frame ≠ some .byteChunk ∧ d.decode frame ≠ some .noData

/-- The items of a list are frames of status 206, or cannot be decoded; the list ends with the
terminator, or with an error envelope. -/
structure ListProduction (d : EnvelopDecoder) where
  items : List Bytes
  failure : Option Bytes
  items_ne : ∀ item ∈ items, item ≠ []
  decodes : ∀ item ∈ items, d.decode item = none ∨ d.decode item = some (.success 206)
  reports : ∀ frame ∈ failure, d.decode frame = none ∨ ∃ status, d.decode frame = some (.failure status)

section Child
variable {d : EnvelopDecoder}

def chunkFrames (chunks : List Bytes) : List Bytes := chunks.flatMap fun c => [packByteChunk, c]

def Ending.frames (monitored : Bool) : Ending → List Bytes
  | .completed report => packNoData :: if monitored then [report] else []
  | .failed frame rest => frame :: rest

def Production.frames (monitored : Bool) (prod : Production d) : List Bytes :=
  chunkFrames prod.chunks ++ prod.ending.frames monitored

def ListProduction.frames (list : ListProduction d) : List Bytes :=
  list.items ++ [list.failure.getD packNoData]

/-- The last frame the gateway is going to read has room, and it is the last one sent. -/
def Ending.Sound (capacity : ℕ) (monitored : Bool) : Ending → Prop
  | .completed report => monitored = true → report.length ≤ capacity
  | .failed frame rest => frame.length ≤ capacity ∧
      if monitored then ∃ r, rest = [r] ∧ r.length ≤ capacity else rest = []

def Production.Sound (capacity : ℕ) (monitored : Bool) (prod : Production d) : Prop :=
  (∀ c ∈ prod.chunks, c.length ≤ capacity) ∧ prod.ending.Sound capacity monitored

def ListProduction.Sound (capacity : ℕ) (list : ListProduction d) : Prop :=
  (∀ item ∈ list.items, item.length ≤ capacity ∧ d.decode item ≠ none) ∧
    ∀ frame ∈ list.failure, frame.length ≤ capacity

end Child

section Frames
variable {capacity : ℕ} {returns : Bool} {f : Bytes} {rest : List Bytes}

lemma readBytes_fit (h : f.length ≤ capacity) :
    Inbox.readBytes capacity returns ⟨f :: rest, false⟩ = some (.ok (received f), ⟨rest, false⟩) :=
  if_neg (not_lt.2 h)

lemma readBytes_over (h : capacity < f.length) :
    Inbox.readBytes capacity returns ⟨f :: rest, false⟩ =
      some (.error .ioBufferOverflow, ⟨f :: rest, true⟩) :=
  if_pos h

lemma received_of_ne (h : f ≠ []) : received f = some f := by
  cases f with
  | nil => exact absurd rfl h
  | cons x xs => rfl

lemma readBytes_splits {a : List Bytes} (hi : f.length < 2 ^ 31)
    (hp : Splits (frames (f :: rest)) a) :
    match Inbox.readBytes capacity returns ⟨f :: rest, false⟩ with
    | some (.ok b, p) => ∃ t, Pipe.readBytes capacity a = .ok (b, t) ∧
        Splits (frames p.frames) t
    | some (.error _, p) => Pipe.readBytes capacity a = .error .ioBufferOverflow ∧ p.torn
    | none => False := by
  rw [frames_cons] at hp
  rcases le_or_gt f.length capacity with hf | ho
  · rw [readBytes_fit hf]
    exact readBytes_frame hp hi hf
  · rw [readBytes_over ho]
    exact ⟨readBytes_overflow hp hi ho, rfl⟩

end Frames

section Forward
variable {read : Reader} {keep : Bytes → Bool} {client : ℕ → Bool} {n fuel k : ℕ} {p q : Inbox}

/-- The turns the loop takes until the stream ends, and what is left unread. -/
inductive Pumps (read : Reader) : ℕ → Inbox → Inbox → Prop where
  | stop {p q : Inbox} : read p = some (.ok (.stop none), q) → Pumps read 1 p q
  | error {p q : Inbox} {e : ReadError} : read p = some (.error e, q) → Pumps read 2 p q
  | next {n : ℕ} {p q r : Inbox} {a : Bytes} : read p = some (.ok (.next a), r) → Pumps read n r q →
      Pumps read (n + 1) p q

lemma next_eq {x : Except ReadError (Flow Bytes) × Inbox} (h : read p = some x) :
    ReplyStream.next read { inbox := p } = some (ReplyStream.advance x) := by
  rw [ReplyStream.next, if_neg Bool.false_ne_true, h, Option.map_some]

lemma forward_of_pumps (h : Pumps read n p q) (hf : n ≤ fuel) :
    forward read keep client fuel k { inbox := p } = .ended q ∨
      (∃ j, client j = false) ∧ forward read keep client fuel k { inbox := p } = .dropped := by
  induction h generalizing fuel k with
  | stop hr =>
    obtain ⟨fuel, rfl⟩ := Nat.exists_eq_add_of_le' hf
    left
    rw [forward, next_eq hr]
    rfl
  | error hr =>
    obtain ⟨fuel, rfl⟩ := Nat.exists_eq_add_of_le' hf
    rw [forward, next_eq hr]
    dsimp only [ReplyStream.advance]
    cases hk : client k with
    | true =>
      left
      simp [forward, ReplyStream.next]
    | false => exact .inr ⟨⟨k, hk⟩, rfl⟩
  | @next n p q r a hr _ ih =>
    obtain ⟨fuel, rfl⟩ := Nat.exists_eq_add_of_le' hf
    rw [← Nat.add_assoc, forward, next_eq hr]
    dsimp only [ReplyStream.advance]
    split
    · cases hk : client k with
      | true => exact ih (Nat.le_add_left _ _)
      | false => exact .inr ⟨⟨k, hk⟩, rfl⟩
    · exact ih (Nat.le_add_left _ _)

def Serves (serve : (ℕ → Bool) → Bool → Served) (left : Bool → Served) : Prop :=
  ∀ client returns, serve client returns = left returns ∨
    (∃ j, client j = false) ∧ serve client returns = .dropped

lemma Serves.clean_iff {serve : (ℕ → Bool) → Bool → Served} {left : Bool → Served}
    (h : Serves serve left) :
    (∀ client returns, (serve client returns).Clean) ↔ ∀ returns, (left returns).Clean := by
  constructor
  · intro hs returns
    rcases h (fun _ => true) returns with he | ⟨⟨j, hj⟩, -⟩
    · exact he ▸ hs _ returns
    · cases hj
  · intro hl client returns
    rcases h client returns with he | ⟨-, he⟩
    · exact he ▸ hl returns
    · rw [he]
      trivial

lemma finish_forward (finish : Inbox → Served) (h : Pumps read n p q) (hf : n ≤ fuel) :
    (match forward read keep client fuel 0 { inbox := p } with
      | .ended p => finish p
      | .waiting => .waiting
      | .dropped => .dropped) = finish q ∨
      (∃ j, client j = false) ∧ (match forward read keep client fuel 0 { inbox := p } with
        | .ended p => finish p
        | .waiting => .waiting
        | .dropped => .dropped) = .dropped := by
  rcases forward_of_pumps h hf with he | ⟨hg, he⟩
  · rw [he]
    exact .inl rfl
  · rw [he]
    exact .inr ⟨hg, rfl⟩

end Forward

section Report
variable {capacity : ℕ} {monitored : Bool} {p : Inbox}

def Leaves (capacity : ℕ) (monitored : Bool) (p : Inbox) : Prop :=
  if monitored then ∃ r, p = ⟨[r], false⟩ ∧ r.length ≤ capacity else p = ⟨[], false⟩

lemma clean_getReport :
    (∀ returns, (getReport capacity returns monitored p).Clean) ↔ Leaves capacity monitored p := by
  unfold getReport Leaves
  cases monitored with
  | false => simp [Served.Clean]
  | true =>
    simp only [if_true]
    obtain ⟨a, t⟩ := p
    cases t with
    | true =>
      refine iff_of_false (fun h => ?_) (by simp)
      exact h false
    | false =>
      cases a with
      | nil => exact iff_of_false (fun h => h false) (by simp)
      | cons r rest =>
        rcases le_or_gt r.length capacity with hf | ho
        · simp only [readBytes_fit hf, Served.Clean, Inbox.mk.injEq, and_true, forall_const,
            List.cons.injEq]
          exact ⟨fun h => ⟨r, ⟨rfl, h⟩, hf⟩, fun ⟨_, h, _⟩ => h.2⟩
        · simp only [readBytes_over ho, Served.Clean, Inbox.mk.injEq, Bool.true_eq_false, and_false,
            forall_const, false_iff, List.cons.injEq, not_exists, and_true, not_and, not_le]
          rintro _ ⟨rfl, -⟩
          exact ho

end Report

section Chunks
variable {d : EnvelopDecoder} {capacity : Pool.BoundedUsize 1024} {returns monitored : Bool}
  {c frame : Bytes} {rest chunks : List Bytes} {ending : Ending}

lemma marker_length_le : packByteChunk.length ≤ capacity.1 :=
  (by decide : packByteChunk.length ≤ 1024).trans capacity.2.1

lemma terminator_length_le : packNoData.length ≤ capacity.1 :=
  (by decide : packNoData.length ≤ 1024).trans capacity.2.1

lemma readChunk_next (hne : c ≠ []) (hf : c.length ≤ capacity.1) :
    Inbox.readChunk d capacity.1 returns ⟨packByteChunk :: c :: rest, false⟩ =
      some (.ok (.next c), ⟨rest, false⟩) := by
  simp [Inbox.readChunk, readBytes_fit marker_length_le, received_of_ne (f := packByteChunk) (by decide),
    d.byteChunk, readBytes_fit hf, received_of_ne hne]

lemma readChunk_over (ho : capacity.1 < c.length) :
    Inbox.readChunk d capacity.1 returns ⟨packByteChunk :: c :: rest, false⟩ =
      some (.error .ioBufferOverflow, ⟨c :: rest, true⟩) := by
  simp [Inbox.readChunk, readBytes_fit marker_length_le, received_of_ne (f := packByteChunk) (by decide),
    d.byteChunk, readBytes_over ho]

lemma readChunk_stop : Inbox.readChunk d capacity.1 returns ⟨packNoData :: rest, false⟩ =
      some (.ok (.stop none), ⟨rest, false⟩) := by
  simp [Inbox.readChunk, readBytes_fit terminator_length_le, received_of_ne (f := packNoData) (by decide),
    d.noData]

lemma readChunk_failed (capacity : Pool.BoundedUsize 1024) (returns : Bool) (rest : List Bytes)
    (h : d.decode frame ≠ some .byteChunk ∧ d.decode frame ≠ some .noData) :
    ∃ e, Inbox.readChunk d capacity.1 returns ⟨frame :: rest, false⟩ = some (.error e,
      if frame.length ≤ capacity.1 then ⟨rest, false⟩ else ⟨frame :: rest, true⟩) := by
  rcases le_or_gt frame.length capacity.1 with hf | ho
  · rw [if_pos hf, Inbox.readChunk, readBytes_fit hf]
    cases frame with
    | nil => exact ⟨_, rfl⟩
    | cons x xs =>
      simp only [received, Option.bind_some]
      cases hd : d.decode (x :: xs) with
      | none => exact ⟨_, rfl⟩
      | some v =>
        cases v with
        | byteChunk => exact absurd hd h.1
        | noData => exact absurd hd h.2
        | success s | failure s => exact ⟨_, rfl⟩
  · rw [if_neg (not_le.2 ho), Inbox.readChunk, readBytes_over ho]
    exact ⟨_, rfl⟩

def Ending.left (capacity : ℕ) (monitored : Bool) : Ending → Inbox
  | .completed report => ⟨if monitored then [report] else [], false⟩
  | .failed frame rest => if frame.length ≤ capacity then ⟨rest, false⟩ else ⟨frame :: rest, true⟩

/-- What an answer leaves unread: a chunk without room stops the stream. -/
def leftUnread (capacity : ℕ) (monitored : Bool) (ending : Ending) : List Bytes → Inbox
  | [] => ending.left capacity monitored
  | c :: chunks =>
    if c.length ≤ capacity then leftUnread capacity monitored ending chunks
    else ⟨c :: (chunkFrames chunks ++ ending.frames monitored), true⟩

lemma pumps_ending (capacity : Pool.BoundedUsize 1024) (returns monitored : Bool)
    (h : ∀ frame rest, ending = .failed frame rest →
      d.decode frame ≠ some .byteChunk ∧ d.decode frame ≠ some .noData) :
    ∃ n ≤ 2, Pumps (Inbox.readChunk d capacity.1 returns) n ⟨ending.frames monitored, false⟩
      (ending.left capacity.1 monitored) := by
  cases ending with
  | completed r => exact ⟨1, by decide, .stop readChunk_stop⟩
  | failed frame rest =>
    obtain ⟨e, he⟩ := readChunk_failed capacity returns rest (h frame rest rfl)
    exact ⟨2, le_rfl, .error he⟩

lemma pumps_chunks (capacity : Pool.BoundedUsize 1024) (returns monitored : Bool) (hne : ∀ c ∈ chunks, c ≠ [])
    (h : ∀ frame rest, ending = .failed frame rest →
      d.decode frame ≠ some .byteChunk ∧ d.decode frame ≠ some .noData) :
    ∃ n ≤ (chunkFrames chunks).length + 2, Pumps (Inbox.readChunk d capacity.1 returns) n
        ⟨chunkFrames chunks ++ ending.frames monitored, false⟩
        (leftUnread capacity.1 monitored ending chunks) := by
  induction chunks with
  | nil =>
    exact pumps_ending capacity returns monitored h
  | cons c chunks ih =>
    obtain ⟨n, hn, hp⟩ := ih fun x hx => hne x (mem_cons_of_mem _ hx)
    rw [leftUnread]
    rcases le_or_gt c.length capacity.1 with hf | ho
    · rw [if_pos hf]
      refine ⟨n + 1, ?_, .next (readChunk_next (hne c mem_cons_self) hf) hp⟩
      simp only [chunkFrames, flatMap_cons, length_append, length_cons, length_nil] at hn ⊢
      omega
    · rw [if_neg (not_le.2 ho)]
      exact ⟨2, Nat.le_add_left _ _, .error (readChunk_over ho)⟩

lemma serves_streamBytes (r : Production d) (capacity : Pool.BoundedUsize 1024) (monitored : Bool) :
    Serves
      (fun client returns => streamBytes d capacity.1 monitored client returns ⟨r.frames monitored, false⟩)
      fun returns => getReport capacity.1 returns monitored
        (leftUnread capacity.1 monitored r.ending r.chunks) := by
  intro client returns
  obtain ⟨n, hn, hp⟩ := pumps_chunks capacity returns monitored r.chunks_ne r.reports
  refine finish_forward _ hp (hn.trans ?_)
  rw [Production.frames, length_append]
  omega

lemma leaves_ending : Leaves capacity.1 monitored (ending.left capacity.1 monitored) ↔
      ending.Sound capacity.1 monitored := by
  cases ending with
  | completed r =>
    cases monitored with
    | false | true => simp [Leaves, Ending.left, Ending.Sound]
  | failed frame rest =>
    rcases le_or_gt frame.length capacity.1 with hf | ho
    · cases monitored with
      | false | true => simp [Leaves, Ending.left, Ending.Sound, hf]
    · cases monitored with
      | false | true => simp [Leaves, Ending.left, Ending.Sound, not_le.2 ho]

lemma not_leaves_torn {r : List Bytes} : ¬Leaves capacity.1 monitored ⟨r, true⟩ := by
  cases monitored with
  | false | true => simp [Leaves]

lemma leaves_leftUnread :
    Leaves capacity.1 monitored (leftUnread capacity.1 monitored ending chunks) ↔
      (∀ c ∈ chunks, c.length ≤ capacity.1) ∧ ending.Sound capacity.1 monitored := by
  induction chunks with
  | nil => simp [leftUnread, leaves_ending]
  | cons c chunks ih =>
    rw [leftUnread, forall_mem_cons]
    rcases le_or_gt c.length capacity.1 with hf | ho
    · rw [if_pos hf, ih]
      simp [hf]
    · rw [if_neg (not_le.2 ho)]
      exact iff_of_false not_leaves_torn fun h => absurd h.1.1 (not_le.2 ho)

/-- An answer is served cleanly to every client exactly when all its chunks have room and its last
frame is the one the gateway reads last. -/
lemma clean_streamBytes (r : Production d) :
    (∀ client returns, (streamBytes d capacity.1 monitored client returns
      ⟨r.frames monitored, false⟩).Clean) ↔ r.Sound capacity.1 monitored := by
  rw [Production.Sound, ← leaves_leftUnread, ← clean_getReport]
  exact (serves_streamBytes r capacity monitored).clean_iff

end Chunks

section Objects
variable {d : EnvelopDecoder} {capacity : Pool.BoundedUsize 1024} {returns : Bool}
  {item frame : Bytes} {rest items : List Bytes}

def Readable (d : EnvelopDecoder) (capacity : ℕ) (item : Bytes) : Prop :=
  item.length ≤ capacity ∧ d.decode item ≠ none

instance (d : EnvelopDecoder) (capacity : ℕ) (item : Bytes) : Decidable (Readable d capacity item) :=
  inferInstanceAs (Decidable (_ ∧ _))

lemma readStream_next (hne : item ≠ [])
    (hd : d.decode item = none ∨ d.decode item = some (.success 206))
    (h : Readable d capacity.1 item) : Inbox.readStream d capacity.1 returns ⟨item :: rest, false⟩ =
      some (.ok (.next item), ⟨rest, false⟩) := by
  have hu := hd.resolve_left h.2
  simp [Inbox.readStream, readBytes_fit h.1, received_of_ne hne, hu]

lemma readStream_failed (capacity : Pool.BoundedUsize 1024) (returns : Bool) (rest : List Bytes)
    (h : frame.length ≤ capacity.1 →
      d.decode frame = none ∨ ∃ s, d.decode frame = some (.failure s)) :
    ∃ e, Inbox.readStream d capacity.1 returns ⟨frame :: rest, false⟩ = some (.error e,
      if frame.length ≤ capacity.1 then ⟨rest, false⟩ else ⟨frame :: rest, true⟩) := by
  rcases le_or_gt frame.length capacity.1 with hf | ho
  · rw [if_pos hf, Inbox.readStream, readBytes_fit hf]
    cases frame with
    | nil => exact ⟨_, rfl⟩
    | cons x xs =>
      simp only [received, Option.bind_some]
      rcases h hf with hd | ⟨s, hd⟩
      · rw [hd]
        exact ⟨_, rfl⟩
      · rw [hd]
        exact ⟨_, rfl⟩
  · rw [if_neg (not_le.2 ho), Inbox.readStream, readBytes_over ho]
    exact ⟨_, rfl⟩

/-- What a list leaves unread: the first item that cannot be read stops the stream. -/
def leftItems (d : EnvelopDecoder) (capacity : ℕ) (last : Bytes) : List Bytes → Inbox
  | [] => if last.length ≤ capacity then ⟨[], false⟩ else ⟨[last], true⟩
  | item :: items =>
    if Readable d capacity item then leftItems d capacity last items
    else if item.length ≤ capacity then ⟨items ++ [last], false⟩
    else ⟨item :: (items ++ [last]), true⟩

lemma pumps_items (list : ListProduction d) (capacity : Pool.BoundedUsize 1024) (returns : Bool)
    (hu : items ⊆ list.items) :
    ∃ n ≤ items.length + 2, Pumps (Inbox.readStream d capacity.1 returns) n
      ⟨items ++ [list.failure.getD packNoData], false⟩
      (leftItems d capacity.1 (list.failure.getD packNoData) items) := by
  induction items with
  | nil =>
    cases hf : list.failure with
    | none =>
      refine ⟨1, by simp, .stop ?_⟩
      simp [leftItems, Inbox.readStream, readBytes_fit terminator_length_le,
        received_of_ne (f := packNoData) (by decide), d.noData, terminator_length_le]
    | some frame =>
      obtain ⟨e, he⟩ := readStream_failed capacity returns [] fun _ => list.reports frame hf
      exact ⟨2, by simp, .error he⟩
  | cons item items ih =>
    obtain ⟨hm, ht⟩ := cons_subset.1 hu
    obtain ⟨n, hn, hp⟩ := ih ht
    rw [leftItems]
    by_cases hr : Readable d capacity.1 item
    · rw [if_pos hr]
      refine ⟨n + 1, ?_, .next (readStream_next (list.items_ne item hm) (list.decodes item hm) hr)
        hp⟩
      rw [length_cons]
      omega
    · rw [if_neg hr]
      have ho : item.length ≤ capacity.1 →
          d.decode item = none ∨ ∃ status, d.decode item = some (.failure status) := by
        intro hi
        left
        by_contra hd
        exact hr ⟨hi, hd⟩
      obtain ⟨e, he⟩ := readStream_failed capacity returns (items ++ [list.failure.getD packNoData]) ho
      exact ⟨2, Nat.le_add_left _ _, .error he⟩

lemma serves_streamObjects (l : ListProduction d) (capacity : Pool.BoundedUsize 1024)
    (keep : Bytes → Bool) :
    Serves (fun client returns => streamObjects d capacity.1 keep client returns ⟨l.frames, false⟩)
      fun _ => .done (leftItems d capacity.1 (l.failure.getD packNoData) l.items) := by
  intro client returns
  obtain ⟨n, hn, hp⟩ := pumps_items l capacity returns (List.Subset.refl _)
  refine finish_forward _ hp (hn.trans ?_)
  rw [ListProduction.frames, length_append]
  omega

lemma leftItems_eq_nil {l : Bytes} : leftItems d capacity.1 l items = ⟨[], false⟩ ↔
      (∀ item ∈ items, Readable d capacity.1 item) ∧ l.length ≤ capacity.1 := by
  induction items with
  | nil =>
    rw [leftItems]
    split <;> simp_all
  | cons item items ih =>
    rw [leftItems, forall_mem_cons]
    by_cases hr : Readable d capacity.1 item
    · rw [if_pos hr, ih]
      simp [hr]
    · rw [if_neg hr]
      refine iff_of_false ?_ fun h => hr h.1.1
      split <;> simp

/-- A list is served cleanly to every client exactly when every item can be read and the last frame
has room. -/
lemma clean_streamObjects (l : ListProduction d) (keep : Bytes → Bool) :
    (∀ client returns, (streamObjects d capacity.1 keep client returns ⟨l.frames, false⟩).Clean) ↔
      l.Sound capacity.1 := by
  have ho : l.Sound capacity.1 ↔
      leftItems d capacity.1 (l.failure.getD packNoData) l.items = ⟨[], false⟩ := by
    rw [leftItems_eq_nil, ListProduction.Sound]
    cases l.failure with
    | none => simp [Readable, terminator_length_le]
    | some frame => simp [Readable]
  rw [ho, (serves_streamObjects l capacity keep).clean_iff]
  exact forall_const Bool

end Objects

/-- The worker is marked done only when all frames are read, and no task waits forever, for every
client, exactly when: all chunks have room and the gateway reads last what the child sends last; every
item of a list can be decoded and has room. -/
theorem streams_clean_iff_sound (d : EnvelopDecoder) (capacity : Pool.BoundedUsize 1024) :
    (∀ (monitored : Bool) (prod : Production d),
      (∀ client returns, (streamBytes d capacity.1 monitored client returns
        ⟨prod.frames monitored, false⟩).Clean) ↔ prod.Sound capacity.1 monitored) ∧
    ∀ (keep : Bytes → Bool) (list : ListProduction d),
      (∀ client returns, (streamObjects d capacity.1 keep client returns
        ⟨list.frames, false⟩).Clean) ↔ list.Sound capacity.1 :=
  ⟨fun _ prod => clean_streamBytes prod, fun keep list => clean_streamObjects list keep⟩

def pairDecoder : EnvelopDecoder where
  decode
    | [0xcc, 0xcc] => some .noData
    | [0xcc, 0xce] => some .byteChunk
    | 0x92 :: 0xcd :: 0x01 :: 0xf4 :: _ => some (.failure 500)
    | 0x92 :: 0xcc :: 0xce :: 0x01 :: _ => some (.success 206)
    | _ => none
  noData := rfl
  byteChunk := rfl

def failedAnswer : Production pairDecoder where
  chunks := [[0x01]]
  ending := .failed [0x92, 0xcd, 0x01, 0xf4, 0xa0] []
  chunks_ne := by simp
  reports := by
    rintro frame rest h
    cases h
    decide

def mixedList : ListProduction pairDecoder where
  items := [[0x92, 0xcc, 0xce, 0xc0], [0x92, 0xcc, 0xce, 0x01]]
  failure := none
  items_ne := by simp
  decodes := by decide
  reports := by simp

/-- With a reporter the gateway waits for the report of a failed request; an item that cannot be
decoded leaves the rest of the list to the next user of the worker. -/
theorem not_streams_clean_failed_report :
    ¬(∀ client returns, (streamBytes pairDecoder 1024 true client returns
        ⟨failedAnswer.frames true, false⟩).Clean) ∧
      ¬(∀ client returns, (streamObjects pairDecoder 1024 (fun _ => true) client returns
        ⟨mixedList.frames, false⟩).Clean) := by
  constructor
  · intro h
    have hw : streamBytes pairDecoder 1024 true (fun _ => true) true
        ⟨failedAnswer.frames true, false⟩ = .waiting := by decide
    have hl := h (fun _ => true) true
    rw [hw] at hl
    exact hl
  · intro h
    have hd : streamObjects pairDecoder 1024 (fun _ => true) (fun _ => true) true
        ⟨mixedList.frames, false⟩ = .done ⟨[[0x92, 0xcc, 0xce, 0x01], packNoData], false⟩ := by decide
    have hl := h (fun _ => true) true
    rw [hd] at hl
    cases hl

end QJazz.Rpc
