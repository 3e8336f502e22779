import Mathlib.Algebra.Order.Group.Int
import QJazz.ByteStream.Arrivals
import QJazz.Transition.Run

/-! A task puts the chunks of a stream into a queue and an empty one behind the last, while the
client reads from it in a thread. -/
namespace QJazz.Store

open ByteStream Transition List

structure Reader where
  isEof : Bool := false
  left : Bytes := []
deriving DecidableEq

namespace Reader

def accept (b : Bytes) (size : ℤ) : Bytes × Reader :=
  let isEof := decide (b.length = 0)
  if size ≤ 0 ∨ b.length ≤ size then (b, { isEof })
  else (b.take size.toNat, { isEof, left := b.drop size.toNat })

/-- `_Reader.read`, with the queue before and after it. It waits if it needs a chunk and there is
none. -/
def read (r : Reader) (size : ℤ) (queue : List Bytes) : Option (Bytes × Reader × List Bytes) :=
  if r.isEof then some ([], r, queue)
  else if r.left ≠ [] then some (r.left, { r with left := [] }, queue)
  else
    match queue with
    | [] => none
    | b :: queue => some ((accept b size).1, (accept b size).2, queue)

end Reader

/-- An upload: what the task has still to put into the queue, and the reads of the client with the
sizes they asked for. -/
structure Upload where
  pending : List Bytes
  queue : List Bytes := []
  reader : Reader := {}
  reads : List (ℤ × Bytes) := []

namespace Upload

inductive Event where
  | put
  | read (size : ℤ)

def start (chunks : List Bytes) : Upload := { pending := chunks ++ [[]] }

def step (u : Upload) : Event → Option Upload
  | .put =>
    match u.pending with
    | [] => none
    | b :: pending => some { u with pending, queue := u.queue ++ [b] }
  | .read size =>
    (u.reader.read size u.queue).map fun x =>
      { u with reader := x.2.1, queue := x.2.2, reads := u.reads ++ [(size, x.1)] }

def bytes (u : Upload) : Bytes := (u.reads.map Prod.snd).flatten

/-- The task and the client can bring the upload to this, where the reads have the first of the given
sizes. -/
def Reads (chunks : List Bytes) (sizes : ℕ → ℤ) (u : Upload) : Prop :=
  (∃ es, run step (start chunks) es = some u) ∧
    u.reads.map Prod.fst = (List.range u.reads.length).map sizes

/-- The bytes arrive: no read returns more than it asked for or is empty too early, and together they
come to return all the bytes. -/
structure Delivers (chunks : List Bytes) (sizes : ℕ → ℤ) : Prop where
  bounded : ∀ u, Reads chunks sizes u → ∀ x ∈ u.reads, (x.2.length : ℤ) ≤ x.1
  ends : ∀ u, Reads chunks sizes u → ∀ before size, before ++ [(size, [])] <+: u.reads →
    (before.map Prod.snd).flatten = chunks.flatten
  complete : ∃ n, (∃ u, Reads chunks sizes u ∧ u.reads.length = n) ∧
    ∀ u, Reads chunks sizes u → n ≤ u.reads.length → u.bytes = chunks.flatten

/-- Every chunk is at most as long as the read that takes it and the next one together, and an empty
chunk has no bytes behind it. -/
def Fits : List Bytes → (ℕ → ℤ) → Prop
  | [], _ => True
  | c :: cs, sizes =>
    if c = [] then cs.flatten = []
    else if c.length ≤ sizes 0 then Fits cs fun i => sizes (i + 1)
    else (c.length ≤ sizes 0 + sizes 1) ∧ Fits cs fun i => sizes (i + 2)

end Upload

abbrev Source := Reader × List Bytes

namespace Source

def pull (size : ℤ) (s : Source) : Bytes × Source := (s.1.read size s.2).getD ([], s)

def after (sizes : ℕ → ℤ) (s : Source) : ℕ → Source
  | 0 => s
  | n + 1 => (pull (sizes n) (after sizes s n)).2

def result (sizes : ℕ → ℤ) (s : Source) (n : ℕ) : Bytes := (pull (sizes n) (s.after sizes n)).1

def bytes (sizes : ℕ → ℤ) (s : Source) (n : ℕ) : Bytes :=
  ((List.range n).map (result sizes s)).flatten

def Marked (s : Source) : Prop := s.1.isEof = true ∨ [] ∈ s.2

variable {s : Source} {sizes : ℕ → ℤ} {size : ℤ} {n : ℕ} {c : Bytes} {cs : List Bytes}

lemma pull_eof (h : s.1.isEof) : pull size s = ([], s) := by
  simp [pull, Reader.read, h]

lemma pull_left {l : Bytes} (h : l ≠ []) :
    pull size (⟨false, l⟩, cs) = (l, (⟨false, []⟩, cs)) := by
  simp [pull, Reader.read, h]

lemma pull_chunk :
    pull size (⟨false, []⟩, c :: cs) = ((Reader.accept c size).1, ((Reader.accept c size).2, cs)) :=
  rfl

lemma read_append {r r' : Reader} {q e l : List Bytes} {b : Bytes}
    (h : r.read size q = some (b, r', e)) : r.read size (q ++ l) = some (b, r', e ++ l) := by
  rw [Reader.read.eq_def] at h ⊢
  split at h
  next he =>
    cases h
    rw [if_pos he]
  next he =>
    rw [if_neg he]
    split at h
    next hl =>
      cases h
      rw [if_pos hl]
    next hl =>
      rw [if_neg hl]
      cases q with
      | nil => cases h
      | cons b q =>
        cases h
        rfl

lemma pull_of_read {r r' : Reader} {e q l : List Bytes} {b : Bytes}
    (h : r.read size e = some (b, r', q)) : pull size (r, e ++ l) = (b, (r', q ++ l)) := by
  rw [pull, read_append h, Option.getD_some]

lemma Marked.read_eq (h : s.Marked) (size : ℤ) : s.1.read size s.2 = some (pull size s) := by
  have ho : (s.1.read size s.2).isSome := by
    rw [Reader.read.eq_def]
    split
    · rfl
    next he =>
      split
      · rfl
      · have hne := ne_nil_of_mem (h.resolve_left he)
        obtain ⟨b, q, hqueue⟩ := exists_cons_of_ne_nil hne
        rw [hqueue]
        rfl
  obtain ⟨x, hx⟩ := Option.isSome_iff_exists.1 ho
  rw [pull, hx, Option.getD_some]

lemma accept_nil (size : ℤ) : Reader.accept [] size = ([], ⟨true, []⟩) := by
  rw [Reader.accept]
  split <;> simp

lemma Marked.pull (h : s.Marked) : (pull size s).2.Marked := by
  obtain ⟨⟨i, l⟩, cs⟩ := s
  cases i with
  | true =>
    rw [pull_eof rfl]
    exact h
  | false =>
    have hm : [] ∈ cs := h.resolve_left Bool.false_ne_true
    by_cases hl : l = []
    · rw [hl]
      cases cs with
      | nil => cases hm
      | cons c cs =>
        rw [pull_chunk]
        rcases mem_cons.1 hm with hc | hcs
        · rw [← hc, accept_nil]
          exact .inl rfl
        · exact .inr hcs
    · rw [pull_left hl]
      exact h

lemma Marked.after (h : s.Marked) (sizes : ℕ → ℤ) (n : ℕ) : (s.after sizes n).Marked := by
  induction n with
  | zero => exact h
  | succ n ih => exact ih.pull

lemma after_succ (sizes : ℕ → ℤ) (s : Source) (n : ℕ) :
    s.after sizes (n + 1) = (pull (sizes 0) s).2.after (fun i => sizes (i + 1)) n := by
  induction n with
  | zero => rfl
  | succ n ih =>
    rw [after, ih]
    rfl

lemma result_succ (sizes : ℕ → ℤ) (s : Source) (n : ℕ) :
    result sizes s (n + 1) = result (fun i => sizes (i + 1)) (pull (sizes 0) s).2 n := by
  rw [result, after_succ, result]

lemma bytes_succ (sizes : ℕ → ℤ) (s : Source) (n : ℕ) : bytes sizes s (n + 1) =
      (pull (sizes 0) s).1 ++ bytes (fun i => sizes (i + 1)) (pull (sizes 0) s).2 n := by
  rw [bytes, range_succ_eq_map, map_cons, flatten_cons, List.map_map]
  congr 3
  funext i
  exact result_succ sizes s i

structure Delivers (total : Bytes) (sizes : ℕ → ℤ) (s : Source) : Prop where
  bounded : ∀ n, ((result sizes s n).length : ℤ) ≤ sizes n
  ends : ∀ n, result sizes s n = [] → bytes sizes s n = total
  complete : ∃ n, ∀ m, n ≤ m → bytes sizes s m = total

variable {t : Bytes}

lemma delivers_iff_pull : Delivers t sizes s ↔
      (((pull (sizes 0) s).1.length : ℤ) ≤ sizes 0 ∧ ((pull (sizes 0) s).1 = [] → t = [])) ∧
        ∃ o, t = (pull (sizes 0) s).1 ++ o ∧
          Delivers o (fun i => sizes (i + 1)) (pull (sizes 0) s).2 := by
  constructor
  · intro h
    obtain ⟨n, hn⟩ := h.complete
    refine ⟨⟨h.bounded 0, fun hni => (h.ends 0 hni).symm⟩,
      bytes (fun i => sizes (i + 1)) (pull (sizes 0) s).2 n, ?_, ?_, ?_, ?_⟩
    · rw [← hn (n + 1) (Nat.le_succ n), bytes_succ]
    · intro i
      rw [← result_succ]
      exact h.bounded (i + 1)
    · intro i hi
      have hl := h.ends (i + 1) (by rw [result_succ, hi])
      rw [← hn (n + 1) (Nat.le_succ n), bytes_succ, bytes_succ] at hl
      exact append_cancel_left hl
    · refine ⟨n, fun m hm => ?_⟩
      have hl := (hn (m + 1) (by omega)).trans (hn (n + 1) (Nat.le_succ n)).symm
      rw [bytes_succ, bytes_succ] at hl
      exact append_cancel_left hl
  · rintro ⟨⟨hle, hni⟩, o, rfl, ho⟩
    refine ⟨?_, ?_, ?_⟩
    · intro n
      cases n with
      | zero => exact hle
      | succ n =>
        rw [result_succ]
        exact ho.bounded n
    · intro n hn
      cases n with
      | zero => exact (hni hn).symm
      | succ n =>
        rw [result_succ] at hn
        rw [bytes_succ, ho.ends n hn]
    · obtain ⟨n, hn⟩ := ho.complete
      refine ⟨n + 1, fun m hm => ?_⟩
      obtain ⟨m, rfl⟩ := Nat.exists_eq_add_of_le' (show 1 ≤ m by omega)
      rw [bytes_succ, hn m (by omega)]

lemma after_eof (h : s.1.isEof) (n : ℕ) : s.after sizes n = s := by
  induction n with
  | zero => rfl
  | succ n ih => rw [after, ih, pull_eof h]

lemma bytes_eof (h : s.1.isEof) (n : ℕ) : bytes sizes s n = [] := by
  refine flatten_eq_nil_iff.2 fun b hb => ?_
  obtain ⟨i, -, rfl⟩ := List.mem_map.1 hb
  rw [result, after_eof h, pull_eof h]

lemma delivers_eof (hi : ∀ i, 0 < sizes i) (h : s.1.isEof) :
    Delivers t sizes s ↔ t = [] := by
  constructor
  · intro hd
    obtain ⟨n, hn⟩ := hd.complete
    rw [← hn n le_rfl, bytes_eof h]
  · rintro rfl
    refine ⟨fun n => ?_, fun n _ => bytes_eof h n, 0, fun n _ => bytes_eof h n⟩
    rw [result, after_eof h, pull_eof h]
    exact (hi n).le

def ofChunks (chunks : List Bytes) : Source := ({}, chunks ++ [[]])

lemma delivers_empty_chunk (hi : ∀ i, 0 < sizes i) :
    Delivers t sizes (⟨false, []⟩, [] :: cs) ↔ t = [] := by
  have he : Delivers [] (fun i => sizes (i + 1)) (⟨true, []⟩, cs) :=
    (delivers_eof (fun i => hi (i + 1)) rfl).2 rfl
  rw [delivers_iff_pull, pull_chunk, accept_nil]
  constructor
  · rintro ⟨⟨-, h⟩, -⟩
    exact h rfl
  · rintro rfl
    exact ⟨⟨(hi 0).le, fun _ => rfl⟩, [], rfl, he⟩

lemma delivers_short_chunk (hc : c ≠ []) (hle : c.length ≤ sizes 0) :
    Delivers (c ++ t) sizes (ofChunks (c :: cs)) ↔
      Delivers t (fun i => sizes (i + 1)) (ofChunks cs) := by
  have hp : pull (sizes 0) (ofChunks (c :: cs)) = (c, ofChunks cs) := by
    rw [ofChunks, cons_append, pull_chunk, Reader.accept, if_pos (.inr hle)]
    simp [hc, ofChunks]
  rw [delivers_iff_pull, hp]
  constructor
  · rintro ⟨-, o, ho, h⟩
    rwa [append_cancel_left ho]
  · intro h
    exact ⟨⟨hle, fun hn => absurd hn hc⟩, t, rfl, h⟩

lemma delivers_long_chunk (hi : 0 < sizes 0) (hlt : sizes 0 < c.length) :
    Delivers (c ++ t) sizes (ofChunks (c :: cs)) ↔
      c.length ≤ sizes 0 + sizes 1 ∧ Delivers t (fun i => sizes (i + 2)) (ofChunks cs) := by
  obtain ⟨k, hk⟩ := Int.eq_ofNat_of_zero_le hi.le
  have hc : c.length ≠ 0 := by omega
  have hu : pull (sizes 0) (ofChunks (c :: cs)) = (c.take k, (⟨false, c.drop k⟩, cs ++ [[]])) := by
    rw [ofChunks, cons_append, pull_chunk, Reader.accept, if_neg (by omega), hk]
    simp [hc]
  have he : c.take k ≠ [] := by
    rw [ne_eq, take_eq_nil_iff, ← length_eq_zero_iff]
    omega
  have hd : c.drop k ≠ [] := by
    rw [ne_eq, drop_eq_nil_iff]
    omega
  have hp : c ++ t = c.take k ++ (c.drop k ++ t) := by
    rw [← append_assoc, take_append_drop]
  rw [delivers_iff_pull, hu]
  simp only
  constructor
  · rintro ⟨-, others, ho, h⟩
    have heq := append_cancel_left (hp.symm.trans ho)
    rw [← heq, delivers_iff_pull, pull_left hd] at h
    obtain ⟨⟨hle, -⟩, rest, hr, h⟩ := h
    have ht := append_cancel_left hr
    rw [length_drop, Nat.zero_add] at hle
    refine ⟨by omega, ?_⟩
    rw [ht]
    exact h
  · rintro ⟨hle, h⟩
    refine ⟨⟨?_, fun hn => absurd hn he⟩, _, hp, ?_⟩
    · rw [length_take]
      omega
    · rw [delivers_iff_pull, pull_left hd]
      refine ⟨⟨?_, fun hn => absurd hn hd⟩, t, rfl, h⟩
      rw [length_drop, Nat.zero_add]
      omega

lemma delivers_ofChunks (hi : ∀ i, 0 < sizes i) :
    Delivers cs.flatten sizes (ofChunks cs) ↔ Upload.Fits cs sizes := by
  induction hl : cs.length generalizing cs sizes with
  | zero =>
    rw [length_eq_zero_iff.1 hl]
    exact iff_of_true ((delivers_empty_chunk hi).2 rfl) trivial
  | succ n ih =>
    obtain ⟨c, cs, rfl⟩ := exists_cons_of_length_eq_add_one hl
    have hl := Nat.succ.inj hl
    rw [Upload.Fits, flatten_cons]
    split
    next hc =>
      rw [hc, nil_append]
      exact delivers_empty_chunk hi
    next hc =>
      split
      next hle => rw [delivers_short_chunk hc hle, ih (fun i => hi (i + 1)) hl]
      next hlt =>
        rw [delivers_long_chunk (hi 0) (not_le.1 hlt), ih (fun i => hi (i + 2)) hl]

end Source

namespace Upload

variable {chunks : List Bytes} {sizes : ℕ → ℤ} {u v : Upload}

/-- What the reader has still to find: the chunks in the queue and those to come. -/
def source (u : Upload) : Source := (u.reader, u.queue ++ u.pending)

/-- The reads are those of the source, whatever the order in which the task and the client go on. -/
def Follows (chunks : List Bytes) (sizes : ℕ → ℤ) (u : Upload) : Prop :=
  u.reads.map Prod.fst = (List.range u.reads.length).map sizes →
    u.reads = (List.range u.reads.length).map
        (fun i => (sizes i, Source.result sizes (Source.ofChunks chunks) i)) ∧
      u.source = (Source.ofChunks chunks).after sizes u.reads.length

lemma follows_step (u : Upload) (e : Event) (v : Upload) (h : Follows chunks sizes u)
    (ht : u.step e = some v) : Follows chunks sizes v := by
  cases e with
  | put =>
    rw [step] at ht
    split at ht
    · cases ht
    next b p he =>
      cases ht
      intro hi
      obtain ⟨hr, ho⟩ := h hi
      refine ⟨hr, ?_⟩
      rw [← ho, source, source, he, append_assoc]
      rfl
  | read size =>
    obtain ⟨⟨b, r, q⟩, hd, rfl⟩ := Option.map_eq_some_iff.1 ht
    intro hi
    rw [length_append, length_singleton, range_succ, map_append, map_append]
      at hi
    obtain ⟨hi, hl⟩ := List.append_inj' hi rfl
    have hz : size = sizes u.reads.length := by simpa using hl
    obtain ⟨hr, ho⟩ := h hi
    have hp : Source.pull size u.source = (b, (r, q ++ u.pending)) :=
      Source.pull_of_read hd
    rw [ho, hz] at hp
    refine ⟨?_, ?_⟩
    · rw [length_append, length_singleton, range_succ, map_append, ← hr,
        map_singleton, Source.result, hp, ← hz]
    · rw [length_append, length_singleton, Source.after, hp]
      rfl

lemma Reads.follows (h : Reads chunks sizes u) : u.reads = (List.range u.reads.length).map
        (fun i => (sizes i, Source.result sizes (Source.ofChunks chunks) i)) ∧
      u.source = (Source.ofChunks chunks).after sizes u.reads.length := by
  obtain ⟨⟨es, hr⟩, hi⟩ := h
  have ht : Follows chunks sizes (start chunks) := fun _ => ⟨rfl, rfl⟩
  have he : ∀ u e v, Follows chunks sizes u → True → u.step e = some v → Follows chunks sizes v :=
    fun u e v hu _ => follows_step u e v hu
  exact run_invariant he ht (along_of_forall fun _ _ _ => trivial) hr hi

lemma Reads.bytes_eq (h : Reads chunks sizes u) :
    u.bytes = Source.bytes sizes (Source.ofChunks chunks) u.reads.length := by
  rw [bytes, h.follows.1, Source.bytes, List.map_map, length_map, length_range]
  rfl

lemma Reads.of_prefix (h : Reads chunks sizes u) {b : List (ℤ × Bytes)} {x : ℤ × Bytes}
    (he : b ++ [x] <+: u.reads) :
    (b.map Prod.snd).flatten = Source.bytes sizes (Source.ofChunks chunks) b.length ∧
      x.2 = Source.result sizes (Source.ofChunks chunks) b.length := by
  have heq := prefix_iff_eq_take.1 he
  have hle := he.length_le
  rw [length_append, length_singleton] at hle heq
  rw [h.follows.1, ← map_take, take_range, Nat.min_eq_left hle, range_succ, map_append] at heq
  obtain ⟨hf, hl⟩ := List.append_inj' heq rfl
  constructor
  · rw [Source.bytes]
    congr 1
    rw [hf, List.map_map, length_map, length_range]
    rfl
  · simpa using congrArg (List.map Prod.snd) hl

lemma exists_run_put (u : Upload) :
    ∃ es, run step u es = some { u with pending := [], queue := u.queue ++ u.pending } := by
  obtain ⟨pending, queue, r, e⟩ := u
  induction pending generalizing queue with
  | nil => exact ⟨[], by simp⟩
  | cons b pending ih =>
    obtain ⟨es, hes⟩ := ih (queue ++ [b])
    refine ⟨.put :: es, run_cons_some.2 ⟨_, rfl, ?_⟩⟩
    simpa using hes

lemma exists_reads (chunks : List Bytes) (sizes : ℕ → ℤ) (n : ℕ) :
    ∃ u, Reads chunks sizes u ∧ u.reads.length = n := by
  have hm : (Source.ofChunks chunks).Marked := .inr (by simp [Source.ofChunks])
  suffices h : ∃ u, (Reads chunks sizes u ∧ u.reads.length = n) ∧ u.pending = [] by
    obtain ⟨u, hu, -⟩ := h
    exact ⟨u, hu⟩
  induction n with
  | zero =>
    obtain ⟨es, hes⟩ := exists_run_put (start chunks)
    exact ⟨_, ⟨⟨⟨es, hes⟩, rfl⟩, rfl⟩, rfl⟩
  | succ n ih =>
    obtain ⟨u, ⟨hr, hl⟩, hp⟩ := ih
    have ho := hr.follows.2
    have hqueue : u.source = (u.reader, u.queue) := by rw [source, hp, append_nil]
    rw [hqueue] at ho
    have he := (hm.after sizes u.reads.length).read_eq (sizes n)
    rw [← ho] at he
    obtain ⟨⟨es, hn⟩, hi⟩ := hr
    let x := Source.pull (sizes n) (u.reader, u.queue)
    refine ⟨{ u with reader := x.2.1, queue := x.2.2, reads := u.reads ++ [(sizes n, x.1)] },
      ⟨⟨⟨es ++ [.read (sizes n)], ?_⟩, ?_⟩, ?_⟩, hp⟩
    · rw [run_append, hn, Option.bind_some, run_cons, step, he]
      rfl
    · simp [hi, range_succ, hl]
    · simp [hl]

lemma delivers_iff_source :
    Delivers chunks sizes ↔ Source.Delivers chunks.flatten sizes (Source.ofChunks chunks) := by
  constructor
  · intro h
    refine ⟨fun n => ?_, fun n hn => ?_, ?_⟩
    · obtain ⟨u, hu, hl⟩ := exists_reads chunks sizes (n + 1)
      refine h.bounded u hu (sizes n, Source.result sizes (Source.ofChunks chunks) n) ?_
      rw [hu.follows.1, hl]
      exact List.mem_map.2 ⟨n, by simp, rfl⟩
    · obtain ⟨u, hu, hl⟩ := exists_reads chunks sizes (n + 1)
      have hr := hu.follows.1
      rw [hl, range_succ, map_append, map_singleton, hn] at hr
      have hy := h.ends u hu _ (sizes n) (by rw [hr])
      rwa [List.map_map] at hy
    · obtain ⟨n, -, hn⟩ := h.complete
      refine ⟨n, fun m hm => ?_⟩
      obtain ⟨u, hu, hl⟩ := exists_reads chunks sizes m
      rw [← hn u hu (by omega), hu.bytes_eq, hl]
  · intro h
    refine ⟨fun u hu x hx => ?_, fun u hu b size he => ?_, ?_⟩
    · rw [hu.follows.1] at hx
      obtain ⟨i, -, rfl⟩ := List.mem_map.1 hx
      exact h.bounded i
    · obtain ⟨hy, hi⟩ := hu.of_prefix he
      rw [hy, h.ends _ hi.symm]
    · obtain ⟨n, hn⟩ := h.complete
      refine ⟨n, exists_reads chunks sizes n, fun u hu hle => ?_⟩
      rw [hu.bytes_eq, hn _ hle]

/-- An upload delivers the bytes of the stream exactly if each chunk fits the reads. -/
theorem delivers_iff_fits (chunks : List Bytes) (sizes : ℕ → ℤ) (hsizes : ∀ i, 0 < sizes i) :
    Delivers chunks sizes ↔ Fits chunks sizes := by
  rw [delivers_iff_source, Source.delivers_ofChunks hsizes]

def twoByTwo : ℕ → ℤ := fun _ => 2

lemma twoByTwo_pos (i : ℕ) : 0 < twoByTwo i := by simp [twoByTwo]

theorem delivers_two_by_two :
    (∀ i, 0 < twoByTwo i) ∧ Delivers [[1, 2, 3, 4], [5], []] twoByTwo := by
  refine ⟨twoByTwo_pos, (delivers_iff_fits _ _ twoByTwo_pos).2 ?_⟩
  simp [Fits, twoByTwo]

/-- A chunk of five bytes is read in two parts, of which the second is too long, and what follows an
empty chunk is lost. -/
theorem not_delivers_long_chunk :
    ¬ Delivers [[1, 2, 3, 4, 5]] twoByTwo ∧ ¬ Delivers [[1], [], [2]] twoByTwo := by
  rw [delivers_iff_source, delivers_iff_source, Source.delivers_ofChunks twoByTwo_pos,
    Source.delivers_ofChunks twoByTwo_pos]
  simp [Fits, twoByTwo]

end Upload
end QJazz.Store
