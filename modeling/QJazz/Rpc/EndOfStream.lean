import QJazz.Rpc.Frame

/-! Both readers notice the end of the stream when they read a header, and neither does when it
reads a payload: a read behind the end returns nothing, and the loop asks again. -/
namespace QJazz.Rpc
open ByteStream

/-- A first read of a payload and a loop for what is missing, with a bound on the reads of the loop. -/
def readPayload (calls size : ℕ) (cs : List Bytes) : Option (Bytes × List Bytes) :=
  (readUntil calls (size - (read size cs).1.length) (read size cs).2).map fun p =>
    ((read size cs).1 ++ p.1, p.2)

namespace Pipe

/-- `read_bytes` with a bound on the reads of its loop; `none` if it has not returned by then. -/
def readBytesWithin (capacity calls : ℕ) (cs : List Bytes) :
    Option (Except Error (Option Bytes × List Bytes)) :=
  match (fill 4 cs).bind fun p => (unpack p.1).map fun n => (asUsize n, p.2) with
  | none => some (.error .unexpectedEof)
  | some (size, rest) =>
    if capacity < size then some (.error .ioBufferOverflow)
    else if 0 < size then (readPayload calls size rest).map fun p => .ok (some p.1, p.2)
    else some (.ok (none, rest))

end Pipe

namespace Connection

/-- What `recv` raises before it decodes the data. -/
inductive Error where
  | systemExit
  /-- The header has less than four bytes. -/
  | structError
  /-- The length is negative. -/
  | osError
deriving DecidableEq, Repr

/-- The framing part of `recv` with a bound on the reads of its loop. -/
def recvWithin (calls : ℕ) (cs : List Bytes) : Option (Except Error (Bytes × List Bytes)) :=
  match read 4 cs with
  | ([], _) => some (.error .systemExit)
  | (b, rest) =>
    match unpack b with
    | none => some (.error .structError)
    | some size =>
      if size < 0 then some (.error .osError) else (readPayload calls size.toNat rest).map .ok

end Connection

def Returns {α : Type*} (reader : ℕ → Option α) : Prop := ∃ calls, (reader calls).isSome

variable {calls s capacity : ℕ} {cs rest : List Bytes} {bytes : Bytes} {r : Bytes × List Bytes}

lemma returns_const {α : Type*} (a : α) : Returns fun _ => some a := ⟨0, rfl⟩

lemma returns_map_iff {α β : Type*} {reader : ℕ → Option α} {f : α → β} :
    Returns (fun calls => (reader calls).map f) ↔ Returns reader := by
  simp only [Returns, Option.isSome_map]

lemma returns_readPayload_iff (hopen : Open cs) :
    Returns (fun calls => readPayload calls s cs) ↔ s ≤ cs.flatten.length := by
  have hp := congrArg List.length (read_append s cs)
  have hle := read_length_le s cs
  rw [List.length_append] at hp
  simp only [readPayload]
  rw [returns_map_iff, Returns, exists_readUntil_iff (read_open hopen)]
  omega

/-- If there is a header and the buffer has room for the payload, the payload is there. -/
def Pipe.Whole (capacity : ℕ) (bytes : Bytes) : Prop :=
  ∀ n, unpack (bytes.take 4) = some n → asUsize n ≤ capacity → asUsize n ≤ (bytes.drop 4).length

/-- If there is a header, and it arrives in one piece, the payload is there. -/
def Connection.Whole (bytes : Bytes) (cs : List Bytes) : Prop :=
  (∀ k, 0 < k → k < 4 → ¬ Cut cs k) → ∀ n, unpack (bytes.take 4) = some n →
    n.toNat ≤ (bytes.drop 4).length

lemma exists_unpack (h : bytes.length = 4) : ∃ n, unpack bytes = some n := by
  match bytes, h with
  | [_, _, _, _], _ => exact ⟨_, rfl⟩

lemma unpack_take_eq_none (h : bytes.length < 4) : unpack (bytes.take 4) = none := by
  rw [List.take_of_length_le h.le]
  exact unpack_eq_none h

lemma splits_of_reads {b : Bytes} (hr : Reads s cs b rest) (hi : Splits bytes cs) :
    b = bytes.take s ∧ Splits (bytes.drop s) rest := by
  have hp := hr.append.trans hi.flatten
  have hl := hr.length
  subst hl
  rw [← hp, List.take_left, List.drop_left]
  exact ⟨rfl, hr.isOpen, rfl⟩

lemma returns_readBytes_iff (hp : Splits bytes cs) :
    Returns (fun calls => Pipe.readBytesWithin capacity calls cs) ↔ Pipe.Whole capacity bytes := by
  have hl := congrArg List.length hp.flatten
  unfold Pipe.readBytesWithin Pipe.Whole
  rcases lt_or_ge bytes.length 4 with hh | hg
  · rw [fill_eq_none (by omega), unpack_take_eq_none hh]
    exact iff_of_true (returns_const _) nofun
  · obtain ⟨b, rest, hf, hr⟩ := fill_reads (n := 4) hp.isOpen (by omega)
    obtain ⟨n, hn⟩ := exists_unpack hr.length
    obtain ⟨rfl, he⟩ := splits_of_reads hr hp
    simp only [hf, Option.bind_some, hn, Option.map_some, Option.some.injEq, forall_eq']
    by_cases ho : capacity < Pipe.asUsize n
    · simp only [ho, if_true]
      exact iff_of_true (returns_const _) fun hi => absurd hi (not_le.2 ho)
    · by_cases hpo : 0 < Pipe.asUsize n
      · simp only [ho, hpo, if_true, if_false]
        rw [returns_map_iff, returns_readPayload_iff he.isOpen, he.flatten]
        exact ⟨fun h _ => h, fun h => h (not_lt.1 ho)⟩
      · simp only [ho, hpo, if_false]
        exact iff_of_true (returns_const _) fun _ => by omega

lemma recvWithin_of_header {n : ℤ} (hf : (read 4 cs).1.length = 4)
    (hn : unpack (read 4 cs).1 = some n) : Connection.recvWithin calls cs =
      if n < 0 then some (.error .osError)
      else (readPayload calls n.toNat (read 4 cs).2).map .ok := by
  unfold Connection.recvWithin
  split
  next hr => simp [hr] at hf
  next b rest _ hr =>
    rw [hr] at hn ⊢
    simp only [hn]

lemma recvWithin_of_short (hh : (read 4 cs).1.length < 4) :
    ∃ e, ∀ calls, Connection.recvWithin calls cs = some (.error e) := by
  unfold Connection.recvWithin
  split
  · exact ⟨_, fun _ => rfl⟩
  next b rest _ hr =>
    rw [hr] at hh
    rw [unpack_eq_none hh]
    exact ⟨_, fun _ => rfl⟩

lemma returns_recv_iff (hl : Splits bytes cs) :
    Returns (fun calls => Connection.recvWithin calls cs) ↔ Connection.Whole bytes cs := by
  have hg := congrArg List.length hl.flatten
  rcases (read_length_le 4 cs).lt_or_eq with hh | hf
  · obtain ⟨e, he⟩ := recvWithin_of_short hh
    simp only [he]
    refine iff_of_true (returns_const _) fun hw n hn => ?_
    have hls : bytes.length < 4 := by
      by_contra hlong
      exact absurd (read_reads hl.isOpen (by omega) hw).length hh.ne
    rw [unpack_take_eq_none hls] at hn
    cases hn
  · have hw (k : ℕ) (hk : 0 < k) (hk4 : k < 4) : ¬ Cut cs k := fun hu =>
      absurd (read_length_lt hu hk hk4) hf.not_lt
    have hd : Reads 4 cs (read 4 cs).1 (read 4 cs).2 :=
      ⟨read_append 4 cs, hf, read_open hl.isOpen, fun p hp => by rw [cut_read 4 cs hp, hf]⟩
    obtain ⟨hb, hr⟩ := splits_of_reads hd hl
    obtain ⟨n, hn⟩ := exists_unpack hf
    simp only [recvWithin_of_header hf hn]
    rw [Connection.Whole, forall_prop_of_true hw, ← hb, hn]
    simp only [Option.some.injEq, forall_eq']
    by_cases hne : n < 0
    · simp only [hne, if_true]
      exact iff_of_true (returns_const _) (by omega)
    · simp only [hne, if_false]
      rw [returns_map_iff, returns_readPayload_iff hr.isOpen, hr.flatten]

/-- Each reader returns exactly if the stream does not end inside a payload that it wants. -/
theorem readers_return_iff (capacity : ℕ) {bytes : Bytes} {cs : List Bytes}
    (hsplit : Splits bytes cs) :
    (Returns (fun calls => Pipe.readBytesWithin capacity calls cs) ↔ Pipe.Whole capacity bytes) ∧
      (Returns (fun calls => Connection.recvWithin calls cs) ↔ Connection.Whole bytes cs) :=
  ⟨returns_readBytes_iff hsplit, returns_recv_iff hsplit⟩

theorem readers_return_frame :
    Returns (fun calls => Pipe.readBytesWithin 16 calls [[0, 0, 0, 2], [1, 2]]) ∧
      Returns (fun calls => Connection.recvWithin calls [[0, 0, 0, 2], [1, 2]]) := by
  have hp : Splits [0, 0, 0, 2, 1, 2] [[0, 0, 0, 2], [1, 2]] := ⟨by unfold Open; decide, rfl⟩
  have hh : unpack (List.take 4 [0, 0, 0, 2, 1, 2]) = some 2 := by decide
  obtain ⟨hg, hw⟩ := readers_return_iff 16 hp
  refine ⟨hg.2 fun n hn _ => ?_, hw.2 fun _ n hn => ?_⟩
  · obtain rfl := Option.some.inj (hh.symm.trans hn)
    decide
  · obtain rfl := Option.some.inj (hh.symm.trans hn)
    decide

/-- The stream ends after the first of two bytes, and neither reader returns. -/
theorem not_readers_return_cut : Splits [0, 0, 0, 2, 1] [[0, 0, 0, 2], [1]] ∧
      (∀ calls, Pipe.readBytesWithin 16 calls [[0, 0, 0, 2], [1]] = none) ∧
      ∀ calls, Connection.recvWithin calls [[0, 0, 0, 2], [1]] = none := by
  have hl (calls : ℕ) : readUntil calls 1 [] = none := readUntil_eq_none (by decide)
  have hp (calls : ℕ) : readPayload calls 2 [[1]] = none := by
    show (readUntil calls 1 []).map _ = none
    rw [hl, Option.map_none]
  have hi : ((fill 4 [[0, 0, 0, 2], [1]]).bind fun p =>
      (unpack p.1).map fun n => (Pipe.asUsize n, p.2)) = some (2, [[1]]) := by decide
  refine ⟨⟨by unfold Open; decide, rfl⟩, fun calls => ?_, fun calls => ?_⟩
  · rw [Pipe.readBytesWithin, hi]
    simp [hp]
  · rw [recvWithin_of_header (n := 2) (by decide) (by decide), if_neg (by decide)]
    exact congrArg (Option.map Except.ok) (hp calls)

end QJazz.Rpc
