import Mathlib.Data.Int.Order.Basic
import QJazz.ByteStream.Arrivals
import QJazz.Json.Basic
import QJazz.Python.Generator
import QJazz.Transition.Run

/-! A flush sends the header once and the buffer in chunks; a flush of a finished response ends the
data with a terminator. -/
namespace QJazz.Rpc
open ByteStream Python Transition List

structure RequestReply where
  statusCode : ℤ
  target : Option String
  checkoutStatus : Option ℤ
  headers : List (String × String)
  cacheId : String
deriving DecidableEq, Repr

/-- What the response sends: a reply, the markers 206 and 204, and data. -/
inductive Frame where
  | reply (r : RequestReply)
  | byteChunk
  | data (b : Bytes)
  | noData
deriving DecidableEq, Repr

def sendChunk (b : Bytes) : List Frame :=
  if 0 < b.length then [.byteChunk, .data b] else [.noData]

def chunks (size : ℤ) (b : Bytes) : List Bytes :=
  if size ≤ 0 then []
  else (List.range ((b.length + size.toNat - 1) / size.toNat)).map fun k =>
    (b.drop (k * size.toNat)).take size.toNat

structure Response where
  target : Option String := none
  coStatus : Option ℤ := none
  extraHeaders : List (String × String) := []
  chunkSize : ℤ := 1024 * 1024
  cacheId : String := ""
  headerPrefix : String := ""
  buffer : Bytes := []
  finished : Bool := false
  statusCode : ℤ := 200
  headerWritten : Bool := false
  headers : List (String × String) := []
  conn : List Frame := []
deriving DecidableEq, Repr

inductive Call where
  | write (b : Bytes)
  | setHeader (key value : String)
  | removeHeader (key : String)
  | setStatusCode (code : ℤ)
  | clear
  | truncate
  | flush
  | sendError (code : ℤ) (message : Option String)
  | finish
deriving DecidableEq, Repr

namespace Response

def allHeaders (r : Response) : List (String × String) :=
  r.extraHeaders.foldl (fun hs h => setKey h.1 h.2 hs) r.headers

def reply (r : Response) : RequestReply where
  statusCode := r.statusCode
  target := r.target
  checkoutStatus := r.coStatus
  headers := r.allHeaders.map fun h => (r.headerPrefix ++ h.1, h.2)
  cacheId := r.cacheId

def sendResponse (r : Response) : Response :=
  { r with headers := r.allHeaders, headerWritten := true, conn := r.conn ++ [.reply r.reply] }

def setContentLength (r : Response) : Response :=
  if r.finished && r.buffer ≠ [] && !r.headerWritten then
    { r with headers := setKey "Content-Length" (toString r.buffer.length) r.headers }
  else r

def sendData (r : Response) : Response :=
  { r with
    conn := r.conn ++ (chunks r.chunkSize r.buffer).flatMap sendChunk ++
      (if r.finished then sendChunk [] else [])
    buffer := [] }

def sendHeader (r : Response) : Response :=
  if r.setContentLength.headerWritten then r.setContentLength else r.setContentLength.sendResponse

/-- A chunk size of zero raises before any data is sent. -/
def flush (r : Response) : Response :=
  if r.chunkSize = 0 then r.sendHeader else r.sendHeader.sendData

def finish (r : Response) : Response :=
  if r.finished then r else { r with finished := true }.flush

def errorData : Option String → Bytes
  | none => []
  | some s => s.toUTF8.toList

def sendError (r : Response) (code : ℤ) (message : Option String) : Response :=
  if r.headerWritten then r else { r with statusCode := code, buffer := errorData message }.finish

def call (r : Response) : Call → Response
  | .write b => { r with buffer := r.buffer ++ b }
  | .setHeader key value =>
    if r.headerWritten then r else { r with headers := setKey key value r.headers }
  | .removeHeader key => { r with headers := r.headers.filter fun h => h.1 ≠ key }
  | .setStatusCode code => if r.headerWritten then r else { r with statusCode := code }
  | .clear => { r with headers := [], buffer := [] }
  | .truncate => { r with buffer := [] }
  | .flush => r.flush
  | .sendError code message => r.sendError code message
  | .finish => r.finish

def callAll (r : Response) (cs : List Call) : Response := cs.foldl call r

def flushedBy (r : Response) : Call → List Bytes
  | .flush => [r.buffer]
  | .finish => if r.finished then [] else [r.buffer]
  | .sendError _ message => if r.headerWritten || r.finished then [] else [errorData message]
  | _ => []

def contents : Response → List Call → List Bytes
  | _, [] => []
  | r, c :: cs => r.flushedBy c ++ contents (r.call c) cs

def Ends (r : Response) (cs : List Call) : Prop :=
  ∃ pre c post, cs = pre ++ c :: post ∧
    (c = .finish ∨ ∃ code message, c = .sendError code message ∧ (r.callAll pre).headerWritten = false)

def Punctual (r : Response) : Call → Prop
  | .flush => r.finished = false
  | _ => True

instance (r : Response) : (c : Call) → Decidable (r.Punctual c)
  | .flush => inferInstanceAs (Decidable (r.finished = false))
  | .write _ | .setHeader _ _ | .removeHeader _ | .setStatusCode _ | .clear | .truncate
  | .sendError _ _ | .finish => isTrue trivial

end Response

def pairs (ds : List Bytes) : List Frame := ds.flatMap fun d => [.byteChunk, .data d]

/-- One reply, chunks of data of at most the chunk size, and one terminator, with the given data. -/
def Disciplined (size : ℤ) (data : Bytes) (fs : List Frame) : Prop :=
  ∃ reply ds, fs = .reply reply :: (pairs ds ++ [.noData]) ∧
    (∀ d ∈ ds, 1 ≤ d.length ∧ (d.length : ℤ) ≤ size) ∧ ds.flatten = data

section Chunks

variable {size : ℤ} {b d : Bytes}

lemma chunks_flatten (h : 0 < size) : (chunks size b).flatten = b := by
  rw [chunks, if_neg (by omega)]
  exact flatten_slices (by omega)

lemma chunks_of_nonpos (h : size ≤ 0) : chunks size b = [] := if_pos h

lemma chunks_length (hd : d ∈ chunks size b) : 1 ≤ d.length ∧ (d.length : ℤ) ≤ size := by
  by_cases hi : size ≤ 0
  · rw [chunks_of_nonpos hi] at hd
    cases hd
  · have hp : 0 < size.toNat := by omega
    rw [chunks, if_neg hi] at hd
    obtain ⟨k, hk, he⟩ := exists_of_mem_slices hp hd
    omega

lemma flatMap_sendChunk : (chunks size b).flatMap sendChunk = pairs (chunks size b) := by
  apply flatMap_congr
  intro d hd
  exact if_pos (chunks_length hd).1

end Chunks

namespace Response

variable {r : Response} {c : Call} {cs : List Call}

lemma setContentLength_spec (r : Response) : r.setContentLength.conn = r.conn ∧
    r.setContentLength.headerWritten = r.headerWritten ∧ r.setContentLength.finished = r.finished ∧
    r.setContentLength.chunkSize = r.chunkSize ∧ r.setContentLength.buffer = r.buffer := by
  unfold setContentLength
  split <;> exact ⟨rfl, rfl, rfl, rfl, rfl⟩

def headerFrames (r : Response) (reply : RequestReply) : List Frame :=
  if r.headerWritten then [] else [.reply reply]

def dataFrames (r : Response) : List Frame :=
  if r.chunkSize = 0 then []
  else pairs (chunks r.chunkSize r.buffer) ++ (if r.finished then [.noData] else [])

lemma sendHeader_spec (r : Response) : ∃ e, r.sendHeader.conn = r.conn ++ r.headerFrames e ∧
    r.sendHeader.headerWritten ∧ r.sendHeader.finished = r.finished ∧
    r.sendHeader.chunkSize = r.chunkSize ∧ r.sendHeader.buffer = r.buffer := by
  obtain ⟨ho, hw, hf, hi, hu⟩ := r.setContentLength_spec
  unfold sendHeader headerFrames
  refine ⟨r.setContentLength.reply, ?_⟩
  rw [hw]
  by_cases h : r.headerWritten = true
  · rw [if_pos h, if_pos h, append_nil]
    exact ⟨ho, hw.trans h, hf, hi, hu⟩
  · rw [if_neg h, if_neg h, ← ho]
    exact ⟨rfl, rfl, hf, hi, hu⟩

lemma flush_spec (r : Response) : ∃ e,
    r.flush.conn = r.conn ++ (r.headerFrames e ++ r.dataFrames) ∧
    r.flush.headerWritten ∧ r.flush.finished = r.finished ∧
    r.flush.chunkSize = r.chunkSize := by
  obtain ⟨e, ho, hw, hf, hi, hu⟩ := r.sendHeader_spec
  refine ⟨e, ?_⟩
  unfold flush dataFrames
  by_cases hz : r.chunkSize = 0
  · rw [if_pos hz, if_pos hz, append_nil]
    exact ⟨ho, hw, hf, hi⟩
  · rw [if_neg hz, if_neg hz]
    refine ⟨?_, hw, hf, hi⟩
    show r.sendHeader.conn ++ (chunks r.sendHeader.chunkSize r.sendHeader.buffer).flatMap sendChunk ++
      (if r.sendHeader.finished then sendChunk [] else []) = _
    rw [ho, hi, hu, hf, flatMap_sendChunk, append_assoc, append_assoc]
    rfl

inductive Effect (r r' : Response) (c : Call) : Prop
  | keep (conn : r'.conn = r.conn) (written : r'.headerWritten = r.headerWritten)
      (finished : r'.finished = r.finished) (chunkSize : r'.chunkSize = r.chunkSize)
      (flushed : r.flushedBy c = [])
  | flush (q : Response) (eq : r' = q.flush) (conn : q.conn = r.conn)
      (written : q.headerWritten = r.headerWritten) (chunkSize : q.chunkSize = r.chunkSize)
      (flushed : r.flushedBy c = [q.buffer])
      (finished : q.finished = true ∧ r.finished = false ∨ q.finished = r.finished ∧ c = .flush)

lemma finish_effect (r q : Response) (c : Call) (ho : q.conn = r.conn)
    (hw : q.headerWritten = r.headerWritten) (hz : q.chunkSize = r.chunkSize)
    (hi : q.finished = r.finished)
    (hf : r.flushedBy c = if r.finished then [] else [q.buffer]) : Effect r q.finish c := by
  unfold finish
  rw [hi]
  cases h : r.finished with
  | true =>
    rw [h, if_pos rfl] at hf
    exact .keep ho hw (by simp [hi]) hz hf
  | false =>
    rw [h, if_neg Bool.false_ne_true] at hf
    exact .flush { q with finished := true } rfl ho hw hz hf (.inl ⟨rfl, h⟩)

lemma call_effect (r : Response) (c : Call) : Effect r (r.call c) c := by
  cases c with
  | write b | removeHeader key | clear | truncate => exact .keep rfl rfl rfl rfl rfl
  | setHeader key value | setStatusCode o =>
    simp only [call]
    split <;> exact .keep rfl rfl rfl rfl rfl
  | flush => exact .flush r rfl rfl rfl rfl rfl (.inr ⟨rfl, rfl⟩)
  | finish => exact finish_effect r r .finish rfl rfl rfl rfl rfl
  | sendError o m =>
    simp only [call, sendError]
    by_cases h : r.headerWritten = true
    · rw [if_pos h]
      exact .keep rfl rfl rfl rfl (by simp [flushedBy, h])
    · rw [if_neg h]
      apply finish_effect r { r with statusCode := o, buffer := errorData m } <;> try rfl
      simp [flushedBy, h]

def Sent (r : Response) (data : Bytes) : Prop :=
  if r.headerWritten then
    ∃ reply ds, r.conn = .reply reply :: (pairs ds ++ (if r.finished then [.noData] else [])) ∧
      (∀ d ∈ ds, 1 ≤ d.length ∧ (d.length : ℤ) ≤ r.chunkSize) ∧ ds.flatten = data
  else r.conn = [] ∧ r.finished = false ∧ data = []

lemma pairs_append (ds es : List Bytes) : pairs (ds ++ es) = pairs ds ++ pairs es :=
  flatMap_append

lemma Sent.call {a : Bytes} (h : r.Sent a) (hz : r.chunkSize ≠ 0) (hg : r.Punctual c) :
    (r.call c).Sent (a ++ ((r.flushedBy c).map fun b => (chunks r.chunkSize b).flatten).flatten) := by
  cases r.call_effect c with
  | keep ho hi hf hh hflushed =>
    rw [hflushed]
    simpa [Sent, ho, hi, hf, hh] using h
  | flush q hq ho hi hh hflushed hf =>
    have hopen : r.finished = false := by
      rcases hf with ⟨-, hr⟩ | ⟨-, rfl⟩
      · exact hr
      · exact hg
    obtain ⟨e, hl, hn, hfi, hcs⟩ := q.flush_spec
    rw [hflushed, hq]
    unfold Sent
    rw [hn, if_pos rfl, hl, hfi, hcs, hh, ho]
    unfold dataFrames headerFrames
    rw [hh, if_neg hz, hi]
    unfold Sent at h
    cases hw : r.headerWritten with
    | true =>
      rw [hw, if_pos rfl, hopen] at h
      obtain ⟨f, ds, hfs, hlen, ht⟩ := h
      refine ⟨f, ds ++ chunks r.chunkSize q.buffer, ?_, ?_, ?_⟩
      · rw [hfs, pairs_append]
        simp
      · intro d hd
        rcases mem_append.1 hd with hd | hd
        exacts [hlen d hd, chunks_length hd]
      · simp [ht]
    | false =>
      rw [hw, if_neg Bool.false_ne_true] at h
      obtain ⟨hfs, -, ht⟩ := h
      refine ⟨e, chunks r.chunkSize q.buffer, ?_, fun d hd => chunks_length hd, ?_⟩
      · rw [hfs]
        simp
      · simp [ht]

lemma call_chunkSize (r : Response) (c : Call) : (r.call c).chunkSize = r.chunkSize := by
  cases r.call_effect c with
  | keep hconn hwritten hfinished hchunk hflushed => exact hchunk
  | flush q hq hconn hwritten hchunk hflushed hfinished =>
    obtain ⟨e, hf, hd, hi, hcs⟩ := q.flush_spec
    rw [hq, hcs, hchunk]

lemma callAll_chunkSize (r : Response) (cs : List Call) :
    (r.callAll cs).chunkSize = r.chunkSize := by
  induction cs generalizing r with
  | nil => rfl
  | cons c cs ih => exact (ih (r.call c)).trans (r.call_chunkSize c)

def step (r : Response) (c : Call) : Option Response := some (r.call c)

lemma Sent.callAll {a : Bytes} (h : r.Sent a) (hi : r.chunkSize ≠ 0)
    (hg : Along step Punctual r cs) : (r.callAll cs).Sent
      (a ++ ((r.contents cs).map fun b => (chunks r.chunkSize b).flatten).flatten) := by
  induction cs generalizing r a with
  | nil => simpa [contents, callAll] using h
  | cons c cs ih =>
    obtain ⟨hf, hr⟩ := (along_cons rfl).1 hg
    have hn := ih (h.call hi hf) (by rwa [call_chunkSize]) hr
    rw [call_chunkSize] at hn
    simpa [contents, callAll, append_assoc] using hn

lemma count_noData_pairs (ds : List Bytes) : (pairs ds).count .noData = 0 := by
  induction ds with
  | nil => rfl
  | cons d ds ih => simpa [pairs] using ih

lemma call_conn (r : Response) (c : Call) : ∃ more, (r.call c).conn = r.conn ++ more := by
  cases r.call_effect c with
  | keep hconn hwritten hfinished hchunk hflushed => exact ⟨[], by simp [hconn]⟩
  | flush q hq hconn hwritten hchunk hflushed hfinished =>
    obtain ⟨e, hf, hd, hi, hcs⟩ := q.flush_spec
    exact ⟨_, by rw [hq, hf, hconn]⟩

lemma callAll_conn (r : Response) (cs : List Call) : ∃ more, (r.callAll cs).conn = r.conn ++ more := by
  induction cs generalizing r with
  | nil => exact ⟨[], by simp [callAll]⟩
  | cons c cs ih =>
    obtain ⟨fs, hfs⟩ := r.call_conn c
    obtain ⟨gs, hgs⟩ := ih (r.call c)
    exact ⟨fs ++ gs, by rw [← append_assoc, ← hfs, ← hgs]; rfl⟩

lemma count_le_callAll (r : Response) (cs : List Call) :
    r.conn.count .noData ≤ (r.callAll cs).conn.count .noData := by
  obtain ⟨m, hm⟩ := r.callAll_conn cs
  rw [hm, count_append]
  exact Nat.le_add_right _ _

lemma count_flush (hi : r.chunkSize ≠ 0) (hf : r.finished) :
    r.flush.conn.count .noData = r.conn.count .noData + 1 := by
  obtain ⟨e, hl, ho, hn, hcs⟩ := r.flush_spec
  have hh : (r.headerFrames e).count .noData = 0 := by
    unfold headerFrames
    split <;> rfl
  have hd : r.dataFrames.count .noData = 1 := by
    rw [dataFrames, if_neg hi, if_pos hf, count_append, count_noData_pairs]
    rfl
  rw [hl, count_append, count_append, hh, hd]

def Closed (r : Response) : Prop := r.finished = true → 1 ≤ r.conn.count .noData

lemma Closed.call (h : r.Closed) (hi : r.chunkSize ≠ 0) : (r.call c).Closed := by
  intro hf
  cases r.call_effect c with
  | keep hconn hwritten hfin hchunk hflushed =>
    rw [hconn]
    exact h (hfin ▸ hf)
  | flush q hq hconn hwritten hchunk hflushed hfin =>
    obtain ⟨e, hl, hd, hn, hcs⟩ := q.flush_spec
    rw [hq, hn] at hf
    rw [hq, count_flush (hchunk ▸ hi) hf]
    exact Nat.le_add_left 1 _

lemma Closed.callAll (h : r.Closed) (hi : r.chunkSize ≠ 0) : (r.callAll cs).Closed := by
  induction cs generalizing r with
  | nil => exact h
  | cons c cs ih => exact ih (h.call hi) (by rwa [call_chunkSize])

lemma exists_late_flush (h : ¬ Along step Punctual r cs) :
    ∃ pre p, cs = pre ++ .flush :: p ∧ (r.callAll pre).finished = true := by
  induction cs generalizing r with
  | nil => exact absurd trivial h
  | cons c cs ih =>
    rw [along_cons rfl, not_and_or] at h
    rcases h with hf | hr
    · cases c with
      | flush => exact ⟨[], cs, rfl, (Bool.not_eq_false _).mp hf⟩
      | write _ | setHeader _ _ | removeHeader _ | setStatusCode _ | clear | truncate
      | sendError _ _ | finish => exact absurd trivial hf
    · obtain ⟨pre, p, heq, hi⟩ := ih hr
      exact ⟨c :: pre, p, congrArg (c :: ·) heq, hi⟩

lemma callAll_append (r : Response) (cs ds : List Call) :
    r.callAll (cs ++ ds) = (r.callAll cs).callAll ds := foldl_append

lemma two_le_count (hl : r.Closed) (hi : r.chunkSize ≠ 0)
    (h : ¬ Along step Punctual r cs) : 2 ≤ (r.callAll cs).conn.count .noData := by
  obtain ⟨pre, p, rfl, hf⟩ := exists_late_flush h
  have ho := hl.callAll hi hf
  have hu := count_flush (r := r.callAll pre) (by rwa [callAll_chunkSize]) hf
  have hr := count_le_callAll (r.callAll pre).flush p
  rw [callAll_append]
  show 2 ≤ ((r.callAll pre).flush.callAll p).conn.count .noData
  omega

lemma count_of_zero (hz : r.chunkSize = 0) :
    (r.callAll cs).conn.count .noData = r.conn.count .noData := by
  induction cs generalizing r with
  | nil => rfl
  | cons c cs ih =>
    have hl : (r.call c).conn.count .noData = r.conn.count .noData := by
      cases r.call_effect c with
      | keep ho hwritten hfinished hchunk hflushed => rw [ho]
      | flush q hq ho hwritten hchunk hflushed hfinished =>
        obtain ⟨e, hf, hd, hi, hcs⟩ := q.flush_spec
        rw [hq, hf, dataFrames, if_pos (hchunk.trans hz), ho, append_nil,
          count_append, headerFrames]
        split <;> rfl
    exact (ih ((r.call_chunkSize c).trans hz)).trans hl

lemma call_finished (h : r.finished) : (r.call c).finished = true := by
  cases r.call_effect c with
  | keep hconn hwritten hf hchunk hflushed => rw [hf, h]
  | flush q hq hconn hwritten hchunk hflushed hf =>
    obtain ⟨e, hl, hd, hi, hcs⟩ := q.flush_spec
    rw [hq, hi]
    rcases hf with ⟨hq', -⟩ | ⟨hq', -⟩
    · exact hq'
    · exact hq'.trans h

lemma callAll_finished (h : r.finished) : (r.callAll cs).finished = true := by
  induction cs generalizing r with
  | nil => exact h
  | cons c cs ih => exact ih (call_finished h)

lemma finish_finished (r : Response) : r.finish.finished = true := by
  unfold finish
  split
  · assumption
  · obtain ⟨e, hf, hd, hi, hcs⟩ := ({ r with finished := true } : Response).flush_spec
    exact hi

lemma Ends.finished (h : r.Ends cs) : (r.callAll cs).finished = true := by
  obtain ⟨pre, c, p, rfl, hc⟩ := h
  rw [callAll_append]
  apply callAll_finished (r := (r.callAll pre).call c)
  rcases hc with rfl | ⟨o, m, rfl, hw⟩
  · exact finish_finished _
  · simp only [call, sendError, hw, Bool.false_eq_true, if_false]
    exact finish_finished _

end Response

lemma Disciplined.count {size : ℤ} {a : Bytes} {fs : List Frame} (h : Disciplined size a fs) :
    fs.count .noData = 1 := by
  obtain ⟨e, ds, rfl, -, -⟩ := h
  rw [count_cons, count_append, Response.count_noData_pairs]
  rfl

lemma Disciplined.data_eq_nil {size : ℤ} {a : Bytes} {fs : List Frame}
    (h : Disciplined size a fs) (hi : size ≤ 0) : a = [] := by
  obtain ⟨e, ds, -, hlen, rfl⟩ := h
  cases ds with
  | nil => rfl
  | cons d ds =>
    have hd := hlen d mem_cons_self
    omega

namespace Response

variable (target : Option String) (coStatus : Option ℤ) (extraHeaders : List (String × String))
  (chunkSize : ℤ) (cacheId headerPrefix : String)

def new : Response := { target, coStatus, extraHeaders, chunkSize, cacheId, headerPrefix }

/-- The frames of a response that ends are a reply, chunks and one terminator exactly when a finished
response is not flushed, and the chunk size is positive, or negative with nothing to send. -/
theorem disciplined_iff_punctual (cs : List Call)
    (hend : (new target coStatus extraHeaders chunkSize cacheId headerPrefix).Ends cs) :
    Disciplined chunkSize
        ((new target coStatus extraHeaders chunkSize cacheId headerPrefix).contents cs).flatten
        ((new target coStatus extraHeaders chunkSize cacheId headerPrefix).callAll cs).conn ↔
      Along step Punctual (new target coStatus extraHeaders chunkSize cacheId headerPrefix) cs ∧
        (0 < chunkSize ∨ chunkSize < 0 ∧
          ((new target coStatus extraHeaders chunkSize cacheId headerPrefix).contents cs).flatten = []) := by
  have hi : (new target coStatus extraHeaders chunkSize cacheId headerPrefix).chunkSize =
    chunkSize := rfl
  have ht : (new target coStatus extraHeaders chunkSize cacheId headerPrefix).Sent [] :=
    ⟨rfl, rfl, rfl⟩
  have hl : (new target coStatus extraHeaders chunkSize cacheId headerPrefix).Closed := nofun
  have hn : (new target coStatus extraHeaders chunkSize cacheId headerPrefix).conn = [] := rfl
  generalize new target coStatus extraHeaders chunkSize cacheId headerPrefix = r at *
  constructor
  · intro h
    have hcount := h.count
    have hz : chunkSize ≠ 0 := by
      intro hr
      rw [count_of_zero (hi.trans hr), hn] at hcount
      cases hcount
    constructor
    · by_contra hla
      have hw := two_le_count hl (hi.trans_ne hz) hla
      omega
    · rcases lt_or_gt_of_ne hz with hng | hp
      · exact .inr ⟨hng, h.data_eq_nil hng.le⟩
      · exact .inl hp
  · rintro ⟨hg, hz⟩
    have hne : r.chunkSize ≠ 0 := by
      rw [hi]
      rcases hz with hp | ⟨hng, -⟩
      exacts [hp.ne', hng.ne]
    have hd : ((r.contents cs).map fun b => (chunks r.chunkSize b).flatten).flatten =
        (r.contents cs).flatten := by
      rcases hz with hp | ⟨hng, hm⟩
      · simp [chunks_flatten (hi ▸ hp)]
      · have hh (b : Bytes) : chunks r.chunkSize b = [] := chunks_of_nonpos (hi ▸ hng.le)
        rw [hm]
        simp [hh]
    have he := ht.callAll hne hg
    rw [nil_append, hd] at he
    unfold Sent at he
    rw [hend.finished, callAll_chunkSize, hi] at he
    split at he
    · simpa [Disciplined] using he
    · cases he.2.1

theorem disciplined_iff_punctual_flushed :
    Disciplined 2 [1, 2, 3, 4, 5] ((new none none [] 2 "" "").callAll
      [.write [1, 2, 3], .flush, .write [4, 5], .finish, .finish]).conn :=
  (disciplined_iff_punctual none none [] 2 "" "" [.write [1, 2, 3], .flush, .write [4, 5], .finish, .finish]
    ⟨[.write [1, 2, 3], .flush, .write [4, 5]], .finish, [.finish], rfl, .inl rfl⟩).2
    ⟨by decide, .inl (by decide)⟩

theorem not_disciplined_late_flush :
    (new none none [] 1024 "" "").Ends [.write [1], .finish, .flush] ∧
      ¬ Disciplined 1024 ((new none none [] 1024 "" "").contents [.write [1], .finish, .flush]).flatten
        ((new none none [] 1024 "" "").callAll [.write [1], .finish, .flush]).conn := by
  refine ⟨⟨[.write [1]], .finish, [.flush], rfl, .inl rfl⟩, fun h => ?_⟩
  have hcount := h.count
  revert hcount
  decide

end Response

end QJazz.Rpc
