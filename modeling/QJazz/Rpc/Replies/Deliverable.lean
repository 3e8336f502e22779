import QJazz.Rpc.Replies.Arrival

/-! A message is delivered if its handler ends without an exception, sends what the gateway waits
for, and each of its replies arrives. -/
namespace QJazz.Rpc
open Cache Ogc Msgpack Worker List

def Query.isStream : Query → Bool
  | .listCache _ | .catalog _ => true
  | _ => false

/-- What the gateway waits for: one answer or error, or a stream of items and its end. -/
inductive Complete : Bool → List Reply → Prop
  | answer (body : Body Worker.ProjectInfo) : Complete false [.answer body]
  | failure (status : ℤ) (text : String) : Complete false [.failure status text]
  | stream (bodies : List (Body Worker.ProjectInfo)) : Complete true (bodies.map .item ++ [.noData])

structure Outcome.Delivered (capacity : ℕ) (q : Query) (o : Outcome) : Prop where
  raised : o.raised = none
  complete : Complete q.isStream o.sent
  arrives : ∀ r ∈ o.sent, Arrives capacity q.decode r

variable {capacity : ℕ} {q : Query} {s : State}

/-- The frame of an error with a text goes through the pipe. -/
def TextFits (capacity : ℕ) (text : String) : Prop := Fits capacity (4 + textSize text)

namespace Outcome

lemma not_delivered_of_raised {o : Outcome} {e : CacheError} (h : o.raised = some e) :
    ¬ o.Delivered capacity q := by
  intro hd
  rw [hd.raised] at h
  cases h

lemma delivered_answer (hq : q.isStream = false) {b : Body Worker.ProjectInfo} :
    (ofReply s (.ok (.answer b))).Delivered capacity q ↔
      Legible q.decode b ∧ Fits capacity (3 + b.dump.size) := by
  rw [← arrives_answer]
  constructor
  · intro h
    exact h.arrives _ mem_cons_self
  · intro h
    exact ⟨rfl, hq ▸ .answer b, by simpa [ofReply] using h⟩

lemma delivered_failure (hq : q.isStream = false) {t : ℤ} {text : String}
    (hle : 2 ^ 8 ≤ t) (hlt : t < 2 ^ 16) :
    Delivered capacity q { state := s, sent := [.failure t text] } ↔
      TextFits capacity text := by
  rw [TextFits, ← @arrives_failure capacity q.decode _ _ hle hlt]
  constructor
  · intro h
    exact h.arrives _ mem_cons_self
  · intro h
    exact ⟨rfl, hq ▸ .failure t text, by simpa using h⟩

lemma delivered_stream (hq : q.isStream) (hp : 2 ≤ capacity)
    {t : List (Except CacheError (Body Worker.ProjectInfo))} : (stream s t).Delivered capacity q ↔
      ∀ i ∈ t, ∃ b, i = .ok b ∧ Legible q.decode b ∧ Fits capacity (3 + b.dump.size) := by
  induction t with
  | nil =>
    refine iff_of_true ⟨rfl, hq ▸ .stream [], ?_⟩ (by simp)
    simpa [stream] using arrives_noData hp
  | cons i t ih =>
    cases i with
    | error e =>
      refine iff_of_false (not_delivered_of_raised rfl) fun h => ?_
      obtain ⟨b, hb, -⟩ := h _ mem_cons_self
      cases hb
    | ok b =>
      have hco : (stream s (.ok b :: t)).Delivered capacity q ↔
          Arrives capacity q.decode (.item b) ∧ (stream s t).Delivered capacity q := by
        constructor
        · rintro ⟨he, ho, hi⟩
          refine ⟨hi _ mem_cons_self, he, ?_,
            fun r hr => hi r (mem_cons_of_mem _ hr)⟩
          rw [hq] at ho ⊢
          generalize hn : (stream s (.ok b :: t)).sent = sent at ho
          cases ho with
          | stream o =>
            cases o with
            | nil => simp [stream] at hn
            | cons b' o =>
              simp only [stream, map_cons, cons_append, List.cons.injEq] at hn
              rw [hn.2]
              exact .stream o
        · rintro ⟨ht, he, ho, hi⟩
          refine ⟨he, ?_, ?_⟩
          · rw [hq] at ho ⊢
            show Complete true (.item b :: (stream s t).sent)
            generalize (stream s t).sent = sent at ho
            cases ho with
            | stream o => exact .stream (b :: o)
          · intro r hr
            rcases mem_cons.1 hr with rfl | hr
            · exact ht
            · exact hi r hr
      rw [hco, ih, forall_mem_cons, arrives_item]
      simp

end Outcome

namespace Worker.Context

variable (w : Context) (capacity : ℕ)

/-- A time that is zero has no date; any other has to have one. -/
def HasDate (t : ℚ) : Prop := t = 0 ∨ (w.iso t).isSome

def date (t : ℚ) : Option String := if t = 0 then none else w.iso t

def entrySize (e : CacheEntry) : ℕ :=
  155 + textSize e.md.uri + textSize w.name + intSize (truncate e.timestamp) + textSize e.md.name +
    optionSize textSize e.md.storage + optionSize textSize (w.date e.md.lastModified) +
    textSize e.project.lastSaveVersion + optionSize intSize e.loadMemoryBytes +
    intSize e.loadTimeMs + intSize (truncate e.lastHit) + intSize e.hits

structure EntryFits (e : CacheEntry) : Prop where
  memory : ∃ n, e.loadMemoryBytes = some n ∧ FitsInt64 n
  date : w.HasDate e.md.lastModified
  timestamp : FitsInt64 (truncate e.timestamp)
  loadTime : FitsInt64 e.loadTimeMs
  lastHit : FitsInt64 (truncate e.lastHit)
  hits : FitsInt64 e.hits
  size : Fits capacity (w.entrySize e)

/-- The info of a project that is not in the cache and about which nothing else is known. -/
def AbsentFits (uri : String) : Prop := Fits capacity (131 + textSize uri + textSize w.name)

@[mk_iff]
structure NewFits (md : ProjectMetadata) : Prop where
  date : w.HasDate md.lastModified
  size : Fits capacity (129 + textSize md.uri + textSize w.name +
    optionSize textSize (md.storage.filter fun storage => storage ≠ "") +
    optionSize textSize (w.date md.lastModified))

@[mk_iff]
structure DroppedFits (e : CacheEntry) : Prop where
  date : w.HasDate e.md.lastModified
  size : Fits capacity (129 + textSize e.md.uri + textSize w.name +
    optionSize textSize (w.date e.md.lastModified) + textSize e.project.lastSaveVersion)

@[mk_iff]
structure ProjectFits (e : CacheEntry) : Prop where
  date : (w.iso e.md.lastModified).isSome
  size : Fits capacity (83 + textSize e.md.uri + textSize e.project.fileName +
    textSize e.project.crs + textSize ((w.iso e.md.lastModified).getD "") +
    textSize (storageName e.md.storage) + countSize e.project.mapLayers.length +
    (e.project.mapLayers.map fun l => 68 + textSize l.id + textSize l.name +
      textSize l.publicSource + textSize l.providerType + textSize l.layerType +
      textSize l.crs).sum + textSize w.name)

@[mk_iff]
structure ListedFits (md : ProjectMetadata) (publicPath : String) : Prop where
  date : (w.iso md.lastModified).isSome
  size : Fits capacity (46 + textSize md.uri + textSize md.name + textSize (storageName md.storage) +
    textSize ((w.iso md.lastModified).getD "") + textSize publicPath)

def PageFits (items : List (String × String)) : Prop :=
  Fits capacity (23 + textSize w.collectionSchema + countSize items.length +
    (items.map fun i => 22 + textSize i.1 + textSize i.2).sum)

variable {w capacity}

lemma intSize_status (t : CheckoutStatus) : intSize (CheckoutStatus.value t) = 1 := by
  cases t <;> rfl

lemma fits_status (t : CheckoutStatus) : FitsInt64 (CheckoutStatus.value t) := by
  cases t <;> decide

lemma exists_timestampToIso {t : ℚ} {P : Option String → Prop} :
    (∃ d, w.timestampToIso t = .ok d ∧ P d) ↔ w.HasDate t ∧ P (w.date t) := by
  rw [timestampToIso, HasDate, date]
  by_cases h : t = 0
  · simp [h]
  · cases hi : w.iso t <;> simp [h]

lemma exists_toIso {t : ℚ} {P : String → Prop} :
    (∃ d, w.toIso t = .ok d ∧ P d) ↔ (w.iso t).isSome ∧ P ((w.iso t).getD "") := by
  rw [toIso]
  cases w.iso t <;> simp

lemma exists_map_eq_ok {α β : Type} {x : Except CacheError α} {f : α → β} {P : β → Prop} :
    (∃ b, x.map f = .ok b ∧ P b) ↔ ∃ a, x = .ok a ∧ P (f a) := by
  cases x <;> simp [Except.map]

def InfoFits (capacity : ℕ) (info : CacheInfo) : Prop := info.IntsFit ∧ Fits capacity (3 + info.size)

lemma intSize_zero : intSize 0 = 1 := rfl

lemma countSize_zero : countSize 0 = 1 := rfl

lemma infoFits_absent {i : CacheInfo} (status : CheckoutStatus)
    (ht : i.status = CheckoutStatus.value status) (hi : i.timestamp = none)
    (hd : i.debugMetadata = []) (hl : i.lastHit = 0) (hh : i.hits = 0) : InfoFits capacity i ↔
      Fits capacity (127 + textSize i.uri + textSize i.cacheId + optionSize textSize i.name +
        optionSize textSize i.storage + optionSize textSize i.lastModified +
        optionSize textSize i.savedVersion) := by
  have hn : i.IntsFit :=
    { status := ht ▸ fits_status status
      timestamp := by simp [hi]
      debugMetadata := by simp [hd]
      lastHit := hl ▸ by decide
      hits := hh ▸ by decide }
  have hz : 3 + i.size = 127 + textSize i.uri + textSize i.cacheId +
      optionSize textSize i.name + optionSize textSize i.storage +
      optionSize textSize i.lastModified + optionSize textSize i.savedVersion := by
    simp only [CacheInfo.size, ht, intSize_status, hi, hd, hl, hh, optionSize_none,
      length_nil, map_nil, sum_nil, intSize_zero, countSize_zero]
    omega
  rw [InfoFits, hz]
  exact and_iff_right hn

lemma infoFits_absentInfo {uri : String} {t : CheckoutStatus} :
    InfoFits capacity (w.absentInfo uri t) ↔ w.AbsentFits capacity uri := by
  rw [infoFits_absent t rfl rfl rfl rfl rfl, AbsentFits]
  simp only [absentInfo, optionSize_none]
  rw [show 127 + textSize uri + textSize w.name + 1 + 1 + 1 + 1 =
    131 + textSize uri + textSize w.name by omega]

lemma newInfo_fits {md : ProjectMetadata} :
    (∃ i, w.newInfo md = .ok i ∧ InfoFits capacity i) ↔ w.NewFits capacity md := by
  rw [newInfo, exists_map_eq_ok, exists_timestampToIso, newFits_iff,
    infoFits_absent .NEW rfl rfl rfl rfl rfl]
  simp only [absentInfo, optionSize_none]
  refine and_congr_right fun _ => iff_of_eq (congrArg (Fits capacity) ?_)
  omega

lemma droppedInfo_fits {e : CacheEntry} (t : CheckoutStatus) :
    (∃ i, w.droppedInfo e t = .ok i ∧ InfoFits capacity i) ↔ w.DroppedFits capacity e := by
  rw [droppedInfo, exists_map_eq_ok, exists_timestampToIso, droppedFits_iff,
    infoFits_absent t rfl rfl rfl rfl rfl]
  simp only [absentInfo, optionSize_none, optionSize_some]
  refine and_congr_right fun _ => iff_of_eq (congrArg (Fits capacity) ?_)
  omega

lemma projectInfo_fits {e : CacheEntry} (t : CheckoutStatus) :
    (∃ i, w.projectInfo e t = .ok i ∧ Fits capacity (3 + i.size)) ↔ w.ProjectFits capacity e := by
  have hl : (fun l : LayerInfo => l.size) ∘ layerInfo = fun l : MapLayer =>
      68 + textSize l.id + textSize l.name + textSize l.publicSource + textSize l.providerType +
        textSize l.layerType + textSize l.crs := rfl
  rw [projectInfo, exists_map_eq_ok, exists_toIso, projectFits_iff]
  simp only [Worker.ProjectInfo.size, intSize_status, optionSize_some, length_map, List.map_map, hl]
  refine and_congr_right fun _ => iff_of_eq (congrArg (Fits capacity) ?_)
  omega

lemma catalogItem_fits {md : ProjectMetadata} {publicPath : String} :
    (∃ i, w.catalogItem md publicPath = .ok i ∧ Fits capacity (3 + i.size)) ↔
      w.ListedFits capacity md publicPath := by
  rw [catalogItem, exists_map_eq_ok, exists_toIso, listedFits_iff]
  simp only [CatalogItem.size]
  refine and_congr_right fun _ => iff_of_eq (congrArg (Fits capacity) ?_)
  omega

lemma infoFits_entryInfo {e : CacheEntry} {t : CheckoutStatus} {i : Bool} {m : ℤ}
    (hm : e.loadMemoryBytes = some m) :
    InfoFits capacity (w.entryInfo e t i m (w.date e.md.lastModified)) ↔
      FitsInt64 m ∧ FitsInt64 (truncate e.timestamp) ∧ FitsInt64 e.loadTimeMs ∧
        FitsInt64 (truncate e.lastHit) ∧ FitsInt64 e.hits ∧ Fits capacity (w.entrySize e) := by
  have hz : 3 + (w.entryInfo e t i m (w.date e.md.lastModified)).size =
      w.entrySize e := by
    have hcount : countSize 2 = 1 := rfl
    have hk : textSize "load_memory_bytes" + textSize "load_time_ms" = 31 := by decide
    simp only [entryInfo, CacheInfo.size, entrySize, intSize_status, hm, optionSize_some,
      length_cons, length_nil, Nat.reduceAdd, hcount, map_cons, map_nil, sum_cons, sum_nil]
    omega
  rw [InfoFits, hz]
  constructor
  · rintro ⟨hi, hf⟩
    exact ⟨hi.debugMetadata ("load_memory_bytes", m) (by simp [entryInfo]),
      hi.timestamp _ rfl, hi.debugMetadata ("load_time_ms", e.loadTimeMs) (by simp [entryInfo]),
      hi.lastHit, hi.hits, hf⟩
  · rintro ⟨he, ht, hl, hla, hh, hf⟩
    exact ⟨⟨fits_status t, by simpa [entryInfo] using ht,
      by simpa [entryInfo] using ⟨he, hl⟩, hla, hh⟩, hf⟩

lemma cacheInfoFromEntry_fits {e : CacheEntry} (t : CheckoutStatus) (i : Bool) :
    (∃ f, w.cacheInfoFromEntry e t i = .ok f ∧ InfoFits capacity f) ↔ w.EntryFits capacity e := by
  cases hm : e.loadMemoryBytes with
  | none =>
    refine iff_of_false ?_ fun h => ?_
    · rw [cacheInfoFromEntry, hm]
      cases w.timestampToIso e.md.lastModified <;> simp
    · obtain ⟨n, hn, -⟩ := h.memory
      rw [hm] at hn
      cases hn
  | some m =>
    have hi : w.cacheInfoFromEntry e t i =
        (w.timestampToIso e.md.lastModified).map (w.entryInfo e t i m) := by
      rw [cacheInfoFromEntry, hm]
      cases w.timestampToIso e.md.lastModified <;> rfl
    rw [hi, exists_map_eq_ok, exists_timestampToIso, infoFits_entryInfo hm]
    constructor
    · rintro ⟨hd, he, ht, hl, hla, hh, hf⟩
      exact ⟨⟨m, hm, he⟩, hd, ht, hl, hla, hh, hf⟩
    · rintro ⟨⟨n, hn, he⟩, hd, ht, hl, hla, hh, hf⟩
      cases hm.symm.trans hn
      exact ⟨hd, he, ht, hl, hla, hh, hf⟩

end Worker.Context
end QJazz.Rpc
