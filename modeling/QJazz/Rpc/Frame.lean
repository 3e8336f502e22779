import Mathlib.Algebra.Order.Ring.Int
import QJazz.ByteStream.Arrivals

/-! A payload goes through a pipe behind its length, a big-endian signed integer of four bytes. -/
namespace QJazz.Rpc
open ByteStream List Option

/-- The four bytes of an integer modulo `2 ^ 32`, most significant first. -/
def header (n : ℕ) : Bytes :=
  [.ofNat (n / 2 ^ 24), .ofNat (n / 2 ^ 16), .ofNat (n / 2 ^ 8), .ofNat n]

/-- The signed integer of four bytes; another number of bytes is an error. -/
def unpack : Bytes → Option ℤ
  | [a, b, c, d] =>
    let n : ℕ := a.toNat * 2 ^ 24 + b.toNat * 2 ^ 16 + c.toNat * 2 ^ 8 + d.toNat
    some (if n < 2 ^ 31 then (n : ℤ) else (n : ℤ) - 2 ^ 32)
  | _ => none

namespace Connection

/-- `send_bytes` of a connection that is not cancelled: packing the length fails if it does not fit,
and the loop of writes ends when all the data is written. -/
def sendBytes (data : Bytes) : Option Bytes :=
  if data.length < 2 ^ 31 then some (header data.length ++ data) else none

/-- The framing part of `recv`. The header is read once; the data is read until it is complete. An
empty read is the end of the connection. -/
def recv (cs : List Bytes) : Option (Bytes × List Bytes) :=
  match read 4 cs with
  | ([], _) => none
  | (b, rest) => (unpack b).bind fun size => if size < 0 then none else readAll size.toNat rest

end Connection

namespace Pipe

inductive Error where
  | unexpectedEof
  | ioBufferOverflow
deriving DecidableEq, Repr

/-- `put_message`: the length is cast to a signed integer of 32 bits, which wraps. -/
def putMessage (buf : Bytes) : Bytes := header buf.length ++ buf

/-- The cast of a signed integer of 32 bits to `usize`. -/
def asUsize (n : ℤ) : ℕ := (if n < 0 then n + 2 ^ 64 else n).toNat

def readBytes (capacity : ℕ) (cs : List Bytes) : Except Error (Option Bytes × List Bytes) :=
  match (fill 4 cs).bind fun p => (unpack p.1).map fun n => (asUsize n, p.2) with
  | none => .error .unexpectedEof
  | some (size, rest) =>
    if capacity < size then .error .ioBufferOverflow
    else if 0 < size then
      match readAll size rest with
      | some (b, rest) => .ok (some b, rest)
      | none => .error .unexpectedEof
    else .ok (none, rest)

end Pipe

def readMany {α : Type*} (next : List Bytes → Option (α × List Bytes)) :
    ℕ → List Bytes → Option (List α × List Bytes)
  | 0, cs => some ([], cs)
  | k + 1, cs => (next cs).bind fun p => (readMany next k p.2).map fun q => (p.1 :: q.1, q.2)

def frames (payloads : List Bytes) : Bytes := payloads.flatMap fun p => header p.length ++ p

def received : Bytes → Option Bytes
  | [] => none
  | p => some p

/-- A way the system splits a byte stream into reads that are not empty. -/
structure Splits (bytes : Bytes) (cs : List Bytes) : Prop where
  isOpen : Open cs
  flatten : cs.flatten = bytes

/-- No header is cut: no piece ends inside the first four bytes of a frame. -/
def HeadersWhole (payloads : List Bytes) (cs : List Bytes) : Prop :=
  ∀ done p rest, payloads = done ++ p :: rest →
    ∀ k, 0 < k → k < 4 → ¬ Cut cs ((frames done).length + k)

variable {n capacity : ℕ} {p t : Bytes} {payloads cs : List Bytes}

@[simp] lemma header_length : (header n).length = 4 := rfl

lemma unpack_header (h : n < 2 ^ 31) : unpack (header n) = some (n : ℤ) := by
  have hn : n / 2 ^ 24 % 2 ^ 8 * 2 ^ 24 + n / 2 ^ 16 % 2 ^ 8 * 2 ^ 16 + n / 2 ^ 8 % 2 ^ 8 * 2 ^ 8 +
      n % 2 ^ 8 = n := by omega
  simp only [unpack, header, UInt8.toNat_ofNat', hn, h, if_true]

lemma unpack_eq_none {b : Bytes} (h : b.length < 4) : unpack b = none := by
  match b, h with
  | [], _ | [_], _ | [_, _], _ | [_, _, _], _ => rfl

@[simp] lemma asUsize_natCast (n : ℕ) : Pipe.asUsize n = n := by
  unfold Pipe.asUsize
  rw [if_neg (by omega), Int.toNat_natCast]

@[simp] lemma frames_nil : frames [] = [] := rfl

lemma frames_cons (p : Bytes) (payloads : List Bytes) :
    frames (p :: payloads) = header p.length ++ (p ++ frames payloads) := by
  simp [frames]

lemma fill_header (hp : Splits (header p.length ++ (p ++ t)) cs) (hi : p.length < 2 ^ 31) :
    ∃ rest, ((fill 4 cs).bind fun q => (unpack q.1).map fun n => (Pipe.asUsize n, q.2)) =
      some (p.length, rest) ∧ Splits (p ++ t) rest := by
  have ht : cs.flatten.length = 4 + (p.length + t.length) := by
    rw [hp.flatten]
    simp
  obtain ⟨b, rest, hf, hr⟩ := fill_reads (n := 4) hp.isOpen (by omega)
  obtain ⟨rfl, he⟩ := hr.eq hp.flatten rfl
  refine ⟨rest, ?_, hr.isOpen, he⟩
  rw [hf, bind_some, unpack_header hi, map_some, asUsize_natCast]

lemma readBytes_overflow (hp : Splits (header p.length ++ (p ++ t)) cs)
    (hi : p.length < 2 ^ 31) (ho : capacity < p.length) :
    Pipe.readBytes capacity cs = .error .ioBufferOverflow := by
  obtain ⟨r, hh, -⟩ := fill_header hp hi
  unfold Pipe.readBytes
  rw [hh]
  exact if_pos ho

lemma readBytes_frame (hp : Splits (header p.length ++ (p ++ t)) cs)
    (hi : p.length < 2 ^ 31) (hf : p.length ≤ capacity) :
    ∃ rest, Pipe.readBytes capacity cs = .ok (received p, rest) ∧ Splits t rest := by
  obtain ⟨rest, hh, hr⟩ := fill_header hp hi
  unfold Pipe.readBytes
  rw [hh]
  cases p with
  | nil => exact ⟨rest, rfl, hr⟩
  | cons x xs =>
    have hlen : (x :: xs).length ≤ rest.flatten.length := by
      rw [hr.flatten, length_append]
      exact Nat.le_add_right _ _
    obtain ⟨d, r, hl, he⟩ := readAll_reads hr.isOpen hlen
    obtain ⟨rfl, ht⟩ := he.eq hr.flatten rfl
    refine ⟨r, ?_, he.isOpen, ht⟩
    dsimp only
    rw [if_neg (not_lt.2 hf), if_pos (by simp), hl]
    rfl

lemma recv_frame (hp : Splits (header p.length ++ (p ++ t)) cs) (hi : p.length < 2 ^ 31)
    (hw : ∀ k, 0 < k → k < 4 → ¬ Cut cs k) : ∃ r, Connection.recv cs = some (p, r) ∧ Splits t r ∧
      ∀ k, 0 < k → (Cut r k ↔ Cut cs (4 + p.length + k)) := by
  have ho : cs.flatten.length = 4 + (p.length + t.length) := by
    rw [hp.flatten]
    simp
  have he := read_reads (n := 4) hp.isOpen (by omega) hw
  obtain ⟨hb, ht⟩ := he.eq hp.flatten rfl
  have hlen : p.length ≤ (read 4 cs).2.flatten.length := by
    rw [ht, length_append]
    exact Nat.le_add_right _ _
  obtain ⟨d, r, hl, hr⟩ := readAll_reads he.isOpen hlen
  obtain ⟨rfl, hre⟩ := hr.eq ht rfl
  refine ⟨r, ?_, ⟨hr.isOpen, hre⟩, fun k hk => ?_⟩
  · unfold Connection.recv
    rw [show read 4 cs = (header d.length, (read 4 cs).2) from Prod.ext hb rfl]
    show (unpack (header d.length)).bind _ = _
    rw [unpack_header hi, bind_some, if_neg (by omega), Int.toNat_natCast]
    exact hl
  · rw [hr.cut k hk, he.cut _ (Nat.add_pos_left hk _)]
    have hpo : k + d.length + 4 = 4 + d.length + k := by omega
    rw [hpo]

lemma recv_eq_none {k : ℕ} (hu : Cut cs k) (hk : 0 < k) (hk4 : k < 4) : Connection.recv cs = none := by
  have hlt := read_length_lt hu hk hk4
  unfold Connection.recv
  split
  · rfl
  next b r _ heq =>
    rw [heq] at hlt
    rw [unpack_eq_none hlt, bind_none]

lemma headersWhole_nil : HeadersWhole [] cs := by
  intro d p r h
  simp at h

lemma headersWhole_cons {rest : List Bytes}
    (hu : ∀ k, 0 < k → (Cut rest k ↔ Cut cs (4 + p.length + k))) : HeadersWhole (p :: payloads) cs ↔
      (∀ k, 0 < k → k < 4 → ¬ Cut cs k) ∧ HeadersWhole payloads rest := by
  have hh (o : List Bytes) (k : ℕ) (hk : 0 < k) :
      Cut rest ((frames o).length + k) ↔ Cut cs ((frames (p :: o)).length + k) := by
    have hlen : (frames (p :: o)).length + k = 4 + p.length + ((frames o).length + k) := by
      rw [frames_cons, length_append, length_append, header_length]
      omega
    rw [hu _ (Nat.add_pos_right _ hk), hlen]
  constructor
  · intro h
    constructor
    · intro k hk hk4
      have hf := h [] p payloads rfl k hk hk4
      rwa [frames_nil, length_nil, Nat.zero_add] at hf
    · intro o q tl heq k hk hk4
      rw [hh o k hk]
      exact h (p :: o) q tl (congrArg (p :: ·) heq) k hk hk4
  · rintro ⟨hf, hr⟩ o q tl heq k hk hk4
    cases o with
    | nil =>
      rw [frames_nil, length_nil, Nat.zero_add]
      exact hf k hk hk4
    | cons d o =>
      obtain ⟨rfl, htl⟩ := List.cons.inj heq
      rw [← hh o k hk]
      exact hr o q tl htl k hk hk4

lemma readMany_readBytes (hi : ∀ p ∈ payloads, p.length < 2 ^ 31)
    (hf : ∀ p ∈ payloads, p.length ≤ capacity) (hp : Splits (frames payloads) cs) :
    readMany (fun cs => (Pipe.readBytes capacity cs).toOption) payloads.length cs =
      some (payloads.map received, []) := by
  induction payloads generalizing cs with
  | nil =>
    rw [hp.isOpen.eq_nil hp.flatten]
    rfl
  | cons p payloads ih =>
    rw [frames_cons] at hp
    obtain ⟨r, hr, he⟩ :=
      readBytes_frame hp (hi p mem_cons_self) (hf p mem_cons_self)
    have ht := ih (fun q hq => hi q (mem_cons_of_mem _ hq))
      (fun q hq => hf q (mem_cons_of_mem _ hq)) he
    rw [length_cons, readMany, hr]
    show (readMany _ payloads.length r).map _ = _
    rw [ht]
    rfl

lemma readMany_recv (hi : ∀ p ∈ payloads, p.length < 2 ^ 31) (hp : Splits (frames payloads) cs) :
    readMany Connection.recv payloads.length cs = some (payloads, []) ↔ HeadersWhole payloads cs := by
  induction payloads generalizing cs with
  | nil =>
    rw [hp.isOpen.eq_nil hp.flatten]
    exact ⟨fun _ => headersWhole_nil, fun _ => rfl⟩
  | cons p payloads ih =>
    rw [frames_cons] at hp
    by_cases hw : ∀ k, 0 < k → k < 4 → ¬ Cut cs k
    · obtain ⟨rest, hr, he, ht⟩ := recv_frame hp (hi p mem_cons_self) hw
      rw [headersWhole_cons ht, and_iff_right hw,
        ← ih (fun q hq => hi q (mem_cons_of_mem _ hq)) he, length_cons, readMany, hr, bind_some]
      cases readMany Connection.recv payloads.length rest with
      | none => simp
      | some q => simp [Prod.ext_iff]
    · have hu : ∃ k, 0 < k ∧ k < 4 ∧ Cut cs k := by
        by_contra hn
        exact hw fun k hk hk4 ht => hn ⟨k, hk, hk4, ht⟩
      obtain ⟨k, hk, hk4, ht⟩ := hu
      rw [length_cons, readMany, recv_eq_none ht hk hk4]
      constructor
      · intro h
        cases h
      · intro h
        refine absurd ?_ (h [] p payloads rfl k hk hk4)
        rwa [frames_nil, length_nil, Nat.zero_add]

def Connection.sendMany (payloads : List Bytes) : Option Bytes :=
  (payloads.mapM Connection.sendBytes).map List.flatten

lemma sendMany_eq_some (hi : ∀ p ∈ payloads, p.length < 2 ^ 31) :
    Connection.sendMany payloads = some (frames payloads) := by
  have hm : payloads.mapM Connection.sendBytes =
      some (payloads.map fun p => header p.length ++ p) := by
    induction payloads with
    | nil => rfl
    | cons p payloads ih =>
      have hp : Connection.sendBytes p = some (header p.length ++ p) :=
        if_pos (hi p mem_cons_self)
      simp [hp, ih fun q hq => hi q (mem_cons_of_mem _ hq)]
  rw [Connection.sendMany, hm, map_some, frames, flatMap_def]

lemma length_lt_of_mapM {fs : List Bytes} (h : payloads.mapM Connection.sendBytes = some fs) :
    ∀ p ∈ payloads, p.length < 2 ^ 31 := by
  induction payloads generalizing fs with
  | nil => simp
  | cons p payloads ih =>
    rw [mapM_cons] at h
    obtain ⟨f, hf, hr⟩ := bind_eq_some_iff.1 h
    obtain ⟨gs, hgs, -⟩ := bind_eq_some_iff.1 hr
    have hp : p.length < 2 ^ 31 := by
      by_contra hlong
      rw [Connection.sendBytes, if_neg hlong] at hf
      cases hf
    intro q hq
    rcases mem_cons.1 hq with rfl | hq
    · exact hp
    · exact ih hgs q hq

/-- Towards the gateway, payloads that fit the buffer are read back, however the stream is split,
exactly when their lengths fit the header. Towards the worker, payloads whose lengths fit the header
are read back exactly when no header is cut. -/
theorem frames_roundtrip (capacity : ℕ) (payloads : List Bytes) (pieces : List Bytes) :
    ((∀ p ∈ payloads, p.length ≤ capacity) →
      ((∃ bytes, Connection.sendMany payloads = some bytes ∧ ∀ cs, Splits bytes cs →
        readMany (fun cs => (Pipe.readBytes capacity cs).toOption) payloads.length cs =
          some (payloads.map received, [])) ↔ ∀ p ∈ payloads, p.length < 2 ^ 31)) ∧
    ((∀ p ∈ payloads, p.length < 2 ^ 31) → Splits (payloads.flatMap Pipe.putMessage) pieces →
      (readMany Connection.recv payloads.length pieces = some (payloads, []) ↔
        HeadersWhole payloads pieces)) := by
  constructor
  · intro hf
    constructor
    · rintro ⟨bytes, he, -⟩
      obtain ⟨fs, hfs, -⟩ := map_eq_some_iff.1 he
      exact length_lt_of_mapM hfs
    · intro hi
      exact ⟨frames payloads, sendMany_eq_some hi, fun cs hp =>
        readMany_readBytes hi hf hp⟩
  · intro hi hp
    exact readMany_recv hi hp

theorem frames_roundtrip_pair :
    (∃ bytes, Connection.sendMany [[1], []] = some bytes ∧ ∀ cs, Splits bytes cs →
      readMany (fun cs => (Pipe.readBytes 1024 cs).toOption) 2 cs = some ([some [1], none], [])) ∧
    HeadersWhole [[1], []] [[0, 0, 0, 1, 1], [0, 0, 0, 0]] :=
  ⟨((frames_roundtrip 1024 [[1], []] []).1 (by decide)).2 (by decide),
    ((frames_roundtrip 1024 [[1], []] [[0, 0, 0, 1, 1], [0, 0, 0, 0]]).2 (by decide)
      ⟨by unfold Open; decide, by decide⟩).1 (by decide)⟩

/-- A header in two pieces is not read, and a payload that fits a large buffer is not sent. -/
theorem not_frames_roundtrip_cut : (Splits (Pipe.putMessage [1]) [[0], [0, 0, 1, 1]] ∧
      readMany Connection.recv 1 [[0], [0, 0, 1, 1]] = none) ∧
    Connection.sendMany [List.replicate (2 ^ 31) 0] = none := by
  refine ⟨⟨⟨by unfold Open; decide, by decide⟩, by decide⟩, ?_⟩
  have he : Connection.sendBytes (List.replicate (2 ^ 31) 0) = none := by
    apply if_neg
    rw [length_replicate]
    exact lt_irrefl _
  rw [Connection.sendMany, mapM_cons, he]
  rfl

end QJazz.Rpc
