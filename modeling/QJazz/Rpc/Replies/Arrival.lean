import QJazz.Pool.Builder
import QJazz.Rpc.Replies.Handlers

/-! The gateway reads the frame into its buffer and decodes the envelope and the body, whose type
follows from the message it has sent. -/
namespace QJazz.Rpc
open Msgpack Decoder Option

def Body.dump : Body Worker.ProjectInfo → Value
  | .cacheInfo info => info.dump
  | .projectInfo info => info.dump
  | .page p => p.dump
  | .catalogItem item => item.dump
  | .unit => .nil

def Reply.frame : Reply → Value
  | .answer body => .arr [.int 200, body.dump]
  | .item body => .arr [.int 206, body.dump]
  | .failure status text => .arr [.int status, .str text]
  | .noData => .int 204

/-- The length of a frame that goes through the pipe: it has 31 bits, and the buffer has room. -/
def Fits (capacity size : ℕ) : Prop := size < 2 ^ 31 ∧ size ≤ capacity

instance (capacity size : ℕ) : Decidable (Fits capacity size) := inferInstanceAs (Decidable (_ ∧ _))

namespace Gateway

inductive Envelop where
  | success (status : ℤ) (body : Body Gateway.ProjectInfo)
  | failure (status : ℤ) (message : Value)
  | noData
  | byteChunk

def json : Decoder Value
  | .bin _ => none
  | v => some v

def envelop (body : Decoder (Body Gateway.ProjectInfo)) : Decoder Envelop
  | .int n => if n = 204 then some .noData else if n = 206 then some .byteChunk else none
  | .arr [status, message] =>
    (int64 status).bind fun status =>
      if status = 200 ∨ status = 206 then (body message).map (.success status)
      else (json message).map (.failure status)
  | _ => none

end Gateway

def Query.decode : Query → Decoder (Body Gateway.ProjectInfo)
  | .checkoutProject _ _ | .dropProject _ | .listCache _ => fun v => (CacheInfo.decode v).map .cacheInfo
  | .projectInfo _ => fun v => (Gateway.ProjectInfo.decode v).map .projectInfo
  | .catalog _ => fun v => (CatalogItem.decode v).map .catalogItem
  | .collections _ => fun v => (CollectionsPage.decode v).map .page
  | .clearCache | .updateCache => fun | .nil => some .unit | _ => none

def Body.received : Body Worker.ProjectInfo → Option (Body Gateway.ProjectInfo)
  | .cacheInfo info => some (.cacheInfo info)
  | .projectInfo info => info.received.map .projectInfo
  | .page p => some (.page p)
  | .catalogItem item => some (.catalogItem item)
  | .unit => some .unit

def Reply.received : Reply → Option Gateway.Envelop
  | .answer body => body.received.map (.success 200)
  | .item body => body.received.map (.success 206)
  | .failure status text => some (.failure status (.str text))
  | .noData => some .noData

/-- A reply arrives: it can be packed, its frame goes through the pipe, and the gateway decodes it to
the same values. -/
structure Arrives (capacity : ℕ) (body : Decoder (Body Gateway.ProjectInfo)) (r : Reply) : Prop where
  packs : r.frame.packs = true
  fits : Fits capacity r.frame.size
  decodes : ∃ envelop, r.received = some envelop ∧ Gateway.envelop body r.frame = some envelop

variable {c : ℕ} {body : Decoder (Body Gateway.ProjectInfo)}

structure Legible (body : Decoder (Body Gateway.ProjectInfo)) (b : Body Worker.ProjectInfo) : Prop where
  packs : b.dump.packs = true
  decodes : ∃ g, b.received = some g ∧ body b.dump = some g

lemma arrives_success {status : ℤ} {b : Body Worker.ProjectInfo} {r : Reply}
    (ht : status = 200 ∨ status = 206) (hm : r.frame = .arr [.int status, b.dump])
    (hr : r.received = b.received.map (.success status)) :
    Arrives c body r ↔ Legible body b ∧ Fits c (3 + b.dump.size) := by
  have hi : r.frame.size = 3 + b.dump.size := by
    rw [hm]
    rcases ht with rfl | rfl
    · show 1 + (2 + (b.dump.size + 0)) = _
      omega
    · show 1 + (2 + (b.dump.size + 0)) = _
      omega
  have hp : r.frame.packs = b.dump.packs := by
    rw [hm]
    rcases ht with rfl | rfl <;> simp [Value.packs, Value.itemsPack]
  have hd : Gateway.envelop body r.frame = (body b.dump).map (.success status) := by
    rw [hm]
    have hf : FitsInt64 status := by rcases ht with rfl | rfl <;> decide
    simp [Gateway.envelop, int64_of_fits hf, ht]
  constructor
  · rintro ⟨h, hf, e, he, ho⟩
    rw [hp] at h
    rw [hi] at hf
    rw [hr, map_eq_some_iff] at he
    obtain ⟨g, hg, rfl⟩ := he
    rw [hd, map_eq_some_iff] at ho
    obtain ⟨g', hg', heq⟩ := ho
    cases heq
    exact ⟨⟨h, g, hg, hg'⟩, hf⟩
  · rintro ⟨⟨h, g, hg, hg'⟩, hf⟩
    refine ⟨hp.trans h, hi ▸ hf, .success status g, ?_, ?_⟩
    · rw [hr, hg, map_some]
    · rw [hd, hg', map_some]

lemma arrives_answer {b : Body Worker.ProjectInfo} :
    Arrives c body (.answer b) ↔ Legible body b ∧ Fits c (3 + b.dump.size) :=
  arrives_success (Or.inl rfl) rfl rfl

lemma arrives_item {b : Body Worker.ProjectInfo} :
    Arrives c body (.item b) ↔ Legible body b ∧ Fits c (3 + b.dump.size) :=
  arrives_success (Or.inr rfl) rfl rfl

lemma arrives_failure {status : ℤ} {text : String} (hle : 2 ^ 8 ≤ status) (hlt : status < 2 ^ 16) :
    Arrives c body (.failure status text) ↔ Fits c (4 + textSize text) := by
  have hi : (Reply.failure status text).frame.size = 4 + textSize text := by
    have hn : intSize status = 3 := by
      rw [intSize, if_neg (by omega), if_neg (by omega), if_pos (by omega)]
    show 1 + (intSize status + (textSize text + 0)) = _
    omega
  have hf : FitsInt64 status := by
    unfold FitsInt64
    omega
  constructor
  · intro h
    exact hi ▸ h.fits
  · intro h
    refine ⟨?_, hi ▸ h, _, rfl, ?_⟩
    · simp [Reply.frame, Value.packs, Value.itemsPack]
      omega
    · have hne : ¬ (status = 200 ∨ status = 206) := by omega
      simp [Reply.frame, Gateway.envelop, int64_of_fits hf, hne, Gateway.json]

lemma arrives_noData (hp : 2 ≤ c) : Arrives c body .noData := by
  refine ⟨by decide, ⟨by decide, hp⟩, .noData, rfl, rfl⟩

lemma packs_text (o : Option String) : (Value.ofOption .str o).packs = true := by
  cases o <;> rfl

lemma CacheInfo.IntsFit.packs {i : CacheInfo} (h : i.IntsFit) : i.dump.packs = true := by
  have hd : Value.fieldsPack (i.debugMetadata.map fun f => (f.1, .int f.2)) := by
    have hf := h.debugMetadata
    generalize i.debugMetadata = e at hf
    induction e with
    | nil => rfl
    | cons f e ih =>
      rw [List.forall_mem_cons] at hf
      rw [List.map_cons, Value.fieldsPack, hf.1.packs, ih hf.2]
      rfl
  have hi : (Value.ofOption .int i.timestamp).packs := by
    cases ht : i.timestamp with
    | none => rfl
    | some n => exact (h.timestamp n ht).packs
  have hm : (Value.map (i.debugMetadata.map fun f => (f.1, .int f.2))).packs := hd
  show Value.fieldsPack _ = true
  simp only [Value.fieldsPack, h.status.packs, h.lastHit.packs, h.hits.packs, hi, hm, packs_text,
    Bool.and_true]
  rfl

lemma legible_cacheInfo {i : CacheInfo} :
    Legible (fun v => (CacheInfo.decode v).map .cacheInfo) (.cacheInfo i) ↔ i.IntsFit := by
  rw [← CacheInfo.decode_dump_iff]
  constructor
  · rintro ⟨-, g, hg, hd⟩
    cases hg
    obtain ⟨n, hi, heq⟩ := map_eq_some_iff.1 hd
    cases heq
    exact hi
  · intro h
    exact ⟨((CacheInfo.decode_dump_iff i).1 h).packs, .cacheInfo i, rfl, by simp [Body.dump, h]⟩

lemma legible_projectInfo {i : Worker.ProjectInfo} (ht : FitsInt64 i.status)
    (ho : i.storage.isSome) :
    Legible (fun v => (Gateway.ProjectInfo.decode v).map .projectInfo) (.projectInfo i) := by
  have hl : Value.itemsPack (i.layers.map LayerInfo.dump) := by
    rw [Value.itemsPack_map, List.all_eq_true]
    exact fun l _ => rfl
  have hr : (Value.arr (i.layers.map LayerInfo.dump)).packs := hl
  obtain ⟨s, hm⟩ := isSome_iff_exists.1 ho
  refine ⟨?_, ?_⟩
  · show Value.fieldsPack _ = true
    simp only [Value.fieldsPack, ht.packs, hr, packs_text, Bool.and_true]
    rfl
  · simp [Body.received, Body.dump, ProjectInfo.decode_dump ht, Worker.ProjectInfo.received, hm]

lemma legible_page {p : CollectionsPage} (h : ∀ i ∈ p.items, FitsInt64 i.endpoints) :
    Legible (fun v => (CollectionsPage.decode v).map .page) (.page p) := by
  have ht : Value.itemsPack (p.items.map CollectionsItem.dump) := by
    rw [Value.itemsPack_map, List.all_eq_true]
    intro i hi
    show Value.fieldsPack _ = true
    simp only [Value.fieldsPack, (h i hi).packs, Bool.and_true]
    rfl
  have hr : (Value.arr (p.items.map CollectionsItem.dump)).packs := ht
  refine ⟨?_, .page p, rfl, ?_⟩
  · show Value.fieldsPack _ = true
    simp only [Value.fieldsPack, hr, Bool.and_true]
    rfl
  · simp [Body.dump, CollectionsPage.decode_dump h]

lemma legible_catalogItem {i : CatalogItem} :
    Legible (fun v => (CatalogItem.decode v).map .catalogItem) (.catalogItem i) := by
  refine ⟨rfl, .catalogItem i, rfl, ?_⟩
  simp [Body.dump, CatalogItem.decode_inverts i]

end QJazz.Rpc
