import QJazz.Pool.Restore.Newcomers
import QJazz.Rpc.Frame
import QJazz.Rpc.Response

/-! The pipe of a worker and the child start with the chunk size of the options. -/
namespace QJazz.Pool
open Config Json Transition Rpc ByteStream List Option Process

abbrev chunkSizePath : List String := ["worker", "qgis", "max_chunk_size"]

def asInt : Option Json → Option ℤ
  | some (.num q) => some q.num
  | _ => none

namespace Process

/-- `config.max_chunk_size` of the child, as the next response reads it. -/
def maxChunkSize (p : Process) : ℤ := (asInt (valueAt chunkSizePath (some (.obj p.conf)))).getD 0

/-- Every chunk the child can send is read by the gateway without an overflow. -/
def Fits (p : Process) : Prop :=
  ∀ content chunk frame, chunk ∈ chunks p.maxChunkSize content →
    Connection.sendBytes chunk = some frame →
    chunk.length ≤ p.buffer ∧ ∀ tail arrivals, Splits (frame ++ tail) arrivals →
      ∃ rest, Pipe.readBytes p.buffer arrivals = .ok (received chunk, rest) ∧ Splits tail rest

/-- A chunk size that is safe for a buffer; a payload of `2 ^ 31` bytes cannot be sent at all. -/
def Within (buffer : ℕ) (size : ℤ) : Prop := size ≤ buffer ∨ 2 ^ 31 ≤ buffer + 1

instance (buffer : ℕ) (size : ℤ) : Decidable (Within buffer size) :=
  inferInstanceAs (Decidable (_ ∨ _))

lemma sendBytes_eq_some {chunk f : Bytes} (h : Connection.sendBytes chunk = some f) :
    chunk.length < 2 ^ 31 ∧ f = header chunk.length ++ chunk := by
  obtain ⟨hlen, hf⟩ := ite_none_right_eq_some.1 h
  exact ⟨hlen, (Option.some.inj hf).symm⟩

lemma chunks_self {i : ℤ} {content : Bytes} (hp : 0 < content.length)
    (h : (content.length : ℤ) ≤ i) : content ∈ chunks i content := by
  rw [chunks, if_neg (by omega)]
  refine List.mem_map.2 ⟨0, ?_, ?_⟩
  · rw [mem_range]
    exact Nat.div_pos (by omega) (by omega)
  · rw [Nat.zero_mul, drop_zero]
    exact take_of_length_le (by omega)

lemma fits_iff {p : Process} : p.Fits ↔ Within p.buffer p.maxChunkSize := by
  constructor
  · intro h
    by_contra hn
    obtain ⟨hi, hu⟩ := not_or.1 hn
    have hlen : (List.replicate (p.buffer + 1) (0 : UInt8)).length = p.buffer + 1 :=
      length_replicate
    have he : Connection.sendBytes (List.replicate (p.buffer + 1) 0) = some
        (header (p.buffer + 1) ++ List.replicate (p.buffer + 1) 0) := by
      rw [Connection.sendBytes, hlen, if_pos (by omega)]
    have hle := (h _ _ _ (chunks_self (by omega) (by omega)) he).1
    omega
  · intro h o c f hh he
    obtain ⟨hlt, rfl⟩ := sendBytes_eq_some he
    have hle := (chunks_length hh).2
    have hf : c.length ≤ p.buffer := by
      rcases h with hi | hu <;> omega
    refine ⟨hf, fun i a hp => ?_⟩
    rw [append_assoc] at hp
    exact readBytes_frame hp hlt hf

end Process

variable {cfg : Settings} {p p' : Process} {config : Document}

def sentChunkSize (cfg : Settings) (config : Document) : Option ℤ :=
  match config.value with
  | .str text => asInt (valueAt chunkSizePath ((cfg.loads text).map Document.value))
  | v => asInt (valueAt chunkSizePath (some v))

def HasSize (p : Process) : Prop := ∃ n : ℤ, valueAt chunkSizePath (some (.obj p.conf)) = some (.num n)

lemma maxChunkSize_eq {n : ℤ} (h : valueAt chunkSizePath (some (.obj p.conf)) = some (.num n)) :
    p.maxChunkSize = n := by
  rw [Process.maxChunkSize, h]
  rfl

lemma updateConfig_chunkSize {d : Json} {c : Fields} (hw : d.wellFormed)
    (h : cfg.updateConfig p.environ p.conf d = some c) (hi : HasSize p) :
    ∃ n : ℤ, valueAt chunkSizePath (some (.obj c)) = some (.num n) ∧
      n = (asInt (valueAt chunkSizePath (some d))).getD p.maxChunkSize := by
  obtain ⟨m, hm⟩ := hi
  have he (hf : fields (some d) = []) (ho : c = p.conf) :
      ∃ n : ℤ, valueAt chunkSizePath (some (.obj c)) = some (.num n) ∧
        n = (asInt (valueAt chunkSizePath (some d))).getD p.maxChunkSize := by
    have hno : valueAt chunkSizePath (some d) = none := by
      rw [valueAt_cons, hf]
      exact valueAt_none
    rw [hno, ho, maxChunkSize_eq hm]
    exact ⟨m, hm, rfl⟩
  by_cases hj : ∃ i, d = .obj i ∧ i ≠ []
  · obtain ⟨i, rfl, hne⟩ := hj
    obtain ⟨-, hl⟩ := Settings.valueAt_updateConfig chunkSizePath hw hne h isLeaf_chunkSize
    obtain ⟨v, hv⟩ : ∃ v, (valueAt chunkSizePath (some (.obj i))).or
        (valueAt chunkSizePath (some (.obj p.conf))) = some v := by
      rw [hm]
      cases valueAt chunkSizePath (some (.obj i)) with
      | none => exact ⟨_, rfl⟩
      | some v => exact ⟨v, rfl⟩
    obtain ⟨w, hr, hat⟩ := hl v hv
    obtain ⟨rfl, n, hn⟩ := Leaf.int_read hr
    have ht : v.isObj = false := by
      by_contra ht
      rw [Bool.not_eq_false] at ht
      obtain ⟨sub, rfl⟩ := exists_obj ht
      obtain ⟨res, hre, -⟩ := laidOver_obj (valueAt chunkSizePath (some (.obj p.environ))) sub
      rw [hre] at hn
      cases hn
    rw [laidOver_of_not_isObj ht] at hn hat
    subst hn
    refine ⟨n, hat, ?_⟩
    cases hp : valueAt chunkSizePath (some (.obj i)) with
    | none =>
      rw [hp, none_or, hm] at hv
      cases hv
      rw [maxChunkSize_eq hm]
      rfl
    | some u =>
      rw [hp, some_or] at hv
      cases hv
      rfl
  · cases d with
    | obj i =>
      have hni : i = [] := by
        by_contra hne
        exact hj ⟨i, rfl, hne⟩
      subst hni
      exact he rfl (Option.some.inj h).symm
    | null | bool _ | num _ | str _ | arr _ =>
      unfold Settings.updateConfig at h
      split at h
      · cases h
      · exact he rfl (Option.some.inj h).symm

lemma exec_chunkSize (h : Process.exec cfg (.putConfig config) p = some p') (hi : HasSize p) :
    p'.buffer = p.buffer ∧ HasSize p' ∧
      p'.maxChunkSize = (sentChunkSize cfg config).getD p.maxChunkSize := by
  obtain ⟨conf, ho, rfl⟩ := map_eq_some_iff.1 h
  have hd {d : Json} (hw : d.wellFormed = true)
      (hu : cfg.updateConfig p.environ p.conf d = some conf)
      (he : sentChunkSize cfg config = asInt (valueAt chunkSizePath (some d))) :
      HasSize { p with conf := conf } ∧ ({ p with conf := conf } : Process).maxChunkSize =
        (sentChunkSize cfg config).getD p.maxChunkSize := by
    obtain ⟨n, hat, hn⟩ := updateConfig_chunkSize hw hu hi
    exact ⟨⟨n, hat⟩, by rw [maxChunkSize_eq hat, hn, he]⟩
  refine ⟨rfl, ?_⟩
  unfold Settings.putConfig at ho
  have hw := config.distinct
  cases hv : config.value with
  | str e =>
    rw [hv] at ho
    obtain ⟨d, ht, hu⟩ := bind_eq_some_iff.1 ho
    apply hd d.distinct hu
    rw [sentChunkSize, hv]
    dsimp only
    rw [ht, map_some]
  | null | obj i =>
    rw [hv] at ho hw
    apply hd hw ho
    rw [sentChunkSize, hv]
  | bool _ | num _ | arr _ =>
    rw [hv] at ho
    cases ho

lemma spawn_chunkSize {b : Builder} (h : b.spawn cfg = some p) :
    HasSize p ∧ p.maxChunkSize = p.buffer := by
  obtain ⟨ht, hj⟩ := tracks_spawn h
  obtain ⟨w, hat, ho, -⟩ := ht.leaves _ _ isLeaf_chunkSize
  rw [Builder.valueAt_qgisSection hj, if_pos rfl, valueAt_nil] at ho
  obtain ⟨rfl, -⟩ := Leaf.int_read ho
  obtain ⟨e, -, h⟩ := bind_eq_some_iff.1 h
  obtain ⟨c, -, rfl⟩ := map_eq_some_iff.1 h
  have hn : valueAt chunkSizePath (some (.obj c)) = some (.num ((b.opts.maxChunkSize.1 : ℤ) : ℚ)) := by
    exact hat
  exact ⟨⟨_, hn⟩, maxChunkSize_eq hn⟩

structure Fleet where
  builder : Builder := {}
  restore : Restore := {}
  workers : List (Worker Process) := []

namespace Fleet

inductive Event where
  | patchConfig (patch : Document)
  | updateConfig (patch : Document)
  | updateCache (state : Restore.State)
  | spawn
  | restore (i : ℕ)
  | terminate (i : ℕ)

/-- Patches reach the options of the builder and the slot of the restorer; workers are started,
restored and terminated at any time. -/
def step (cfg : Settings) (s : Fleet) : Event → Option Fleet
  | .patchConfig patch => (s.builder.patch patch).map fun builder => { s with builder := builder }
  | .updateConfig patch => some { s with restore := s.restore.updateConfig patch }
  | .updateCache state => some { s with restore := s.restore.updateCache state }
  | .spawn => (s.builder.spawn cfg).map fun p => { s with workers := s.workers ++ [{ child := p }] }
  | .restore i => (s.workers[i]?).bind fun w =>
      (s.restore.restore (Process.exec cfg) w).map fun w' => { s with workers := s.workers.set i w' }
  | .terminate i => some { s with workers := s.workers.eraseIdx i }

/-- The message a restore sends does not set a chunk size above the buffer of the worker. -/
def Bounded (cfg : Settings) (s : Fleet) : Event → Prop
  | .restore i => ∀ w ∈ s.workers[i]?, s.restore.config.1 > w.lastUpdate →
      ∀ n ∈ sentChunkSize cfg s.restore.config.2, Process.Within w.child.buffer n
  | _ => True

instance (cfg : Settings) (s : Fleet) : (e : Event) → Decidable (Bounded cfg s e)
  | .restore i => inferInstanceAs (Decidable (∀ w ∈ s.workers[i]?, _))
  | .patchConfig _ | .updateConfig _ | .updateCache _ | .spawn | .terminate _ =>
    inferInstanceAs (Decidable True)

def Sized (s : Fleet) : Prop := ∀ w ∈ s.workers, HasSize w.child

def Fits (s : Fleet) : Prop := ∀ w ∈ s.workers, w.child.Fits

variable {s t : Fleet} {w w' : Worker Process}

lemma restore_chunkSize (h : s.restore.restore (Process.exec cfg) w = some w')
    (hi : HasSize w.child) : w'.child.buffer = w.child.buffer ∧ HasSize w'.child ∧
      w'.child.maxChunkSize =
        (if s.restore.config.1 > w.lastUpdate then sentChunkSize cfg s.restore.config.2 else none).getD
          w.child.maxChunkSize := by
  obtain ⟨-, p, he, hn⟩ := Restore.restore_sends h
  unfold Restore.Sends at he hn
  by_cases hnew : s.restore.config.1 > w.lastUpdate
  · rw [if_pos hnew] at he hn ⊢
    obtain ⟨hu, hp, hx⟩ := exec_chunkSize he hi
    rcases hn with heq | hg
    · rw [heq]
      exact ⟨hu, hp, hx⟩
    · obtain ⟨hf, hp', hm⟩ := exec_chunkSize hg hp
      refine ⟨hf.trans hu, hp', ?_⟩
      rw [hm, hx]
      cases sentChunkSize cfg s.restore.config.2 <;> rfl
  · rw [if_neg hnew] at he hn ⊢
    have heq : w'.child = w.child := by
      rcases hn with heq | hg
      · exact heq.trans he
      · exact hg.trans he
    rw [heq]
    exact ⟨rfl, hi, rfl⟩

lemma Sized.step {e : Event} (hs : s.Sized) (ht : s.step cfg e = some t) : t.Sized := by
  cases e with
  | patchConfig a =>
    obtain ⟨b, -, rfl⟩ := map_eq_some_iff.1 ht
    exact hs
  | updateConfig a | updateCache state =>
    cases ht
    exact hs
  | spawn =>
    obtain ⟨p, hp, rfl⟩ := map_eq_some_iff.1 ht
    intro w hw
    rcases mem_append.1 hw with hw | hw
    · exact hs w hw
    · obtain rfl := mem_singleton.1 hw
      exact (spawn_chunkSize hp).1
  | restore i =>
    obtain ⟨w, hw, ht⟩ := bind_eq_some_iff.1 ht
    obtain ⟨w', hr, rfl⟩ := map_eq_some_iff.1 ht
    intro v hv
    rcases mem_or_eq_of_mem_set hv with hv | rfl
    · exact hs v hv
    · exact (restore_chunkSize hr (hs w (mem_of_getElem? hw))).2.1
  | terminate i =>
    cases ht
    exact fun w hw => hs w (mem_of_mem_eraseIdx hw)

lemma fits_step {e : Event} (hs : s.Sized) (hf : s.Fits) (ht : s.step cfg e = some t) :
    t.Fits ↔ Bounded cfg s e := by
  cases e with
  | patchConfig a =>
    obtain ⟨b, -, rfl⟩ := map_eq_some_iff.1 ht
    exact iff_of_true hf trivial
  | updateConfig a | updateCache state =>
    cases ht
    exact iff_of_true hf trivial
  | spawn =>
    obtain ⟨p, hp, rfl⟩ := map_eq_some_iff.1 ht
    refine iff_of_true (fun w hw => ?_) trivial
    rcases mem_append.1 hw with hw | hw
    · exact hf w hw
    · obtain rfl := mem_singleton.1 hw
      exact fits_iff.2 (.inl (spawn_chunkSize hp).2.le)
  | restore i =>
    obtain ⟨w, hw, ht⟩ := bind_eq_some_iff.1 ht
    obtain ⟨w', hr, rfl⟩ := map_eq_some_iff.1 ht
    have hm := mem_of_getElem? hw
    obtain ⟨hu, -, hx⟩ := restore_chunkSize hr (hs w hm)
    constructor
    · intro h v hv hnew n hn
      obtain rfl : w = v := Option.some.inj (hw.symm.trans hv)
      have hse := List.mem_set (List.getElem?_eq_some_iff.1 hw).1 w'
      have hi := fits_iff.1 (h w' hse)
      rw [hu, hx, if_pos hnew, mem_def.1 hn] at hi
      exact hi
    · intro ho v hv
      rcases mem_or_eq_of_mem_set hv with hv | rfl
      · exact hf v hv
      · rw [fits_iff, hu, hx]
        by_cases hnew : s.restore.config.1 > w.lastUpdate
        · rw [if_pos hnew]
          cases he : sentChunkSize cfg s.restore.config.2 with
          | none => exact fits_iff.1 (hf w hm)
          | some n => exact ho w hw hnew n he
        · rw [if_neg hnew]
          exact fits_iff.1 (hf w hm)
  | terminate i =>
    cases ht
    exact iff_of_true (fun w hw => hf w (mem_of_mem_eraseIdx hw)) trivial

def largerChunks : Document where
  value := .obj [("worker", .obj [("qgis", .obj [("max_chunk_size", .num (2 * 1024 * 1024))])])]
  distinct := rfl

end Fleet

end QJazz.Pool
