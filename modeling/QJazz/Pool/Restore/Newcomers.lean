import QJazz.Pool.Builder
import QJazz.Pool.Restore.ConfigPatches

/-! A worker that lives on receives every patch as a message. A worker started later gets the merged
options in its environment and the last patch as a message. -/
namespace QJazz.Pool
open Config Json Transition Option Schema Restore

variable {cfg : Settings} {b b' : Builder} {p p' : Process} {path : List String} {leaf : Leaf}
  {patch : Document} {k : String} {v : Json}

def IsLeaf (cfg : Settings) (path : List String) (leaf : Leaf) : Prop :=
  (Schema.model true cfg.qgis).sub path = some (.value leaf)

lemma IsLeaf.exists_cons (h : IsLeaf cfg path leaf) : ∃ k rest, path = k :: rest := by
  cases path with
  | nil => cases h
  | cons k rest => exact ⟨k, rest, rfl⟩

lemma isLeaf_chunkSize : IsLeaf cfg ["max_chunk_size"] (.int (1024 * 1024)) := by
  rw [IsLeaf, Schema.sub, cfg.chunkSize]
  rfl

structure Plain (cfg : Settings) (patch : Document) : Prop where
  notText : ∀ text, patch.value ≠ .str text
  buffer : valueAt ["worker", "max_chunk_size"] (some patch.value) = none
  chunkSize : valueAt ["worker", "qgis", "max_chunk_size"] (some patch.value) = none
  leaves : (Schema.model true cfg.qgis).plain (valueAt ["worker", "qgis"] (some patch.value)) = true

def patchAt (patch : Document) (path : List String) : Option Json :=
  valueAt ("worker" :: "qgis" :: path) (some patch.value)

lemma Plain.patchAt (h : Plain cfg patch) (hl : IsLeaf cfg path leaf)
    (hv : patchAt patch path = some v) :
    v ≠ .null ∧ v.isObj = false ∧ ∀ w, leaf.read v = some w → w.isObj = false :=
  plain_sub h.leaves hl hv

namespace Builder

lemma valueAt_qgisSection (h : b.opts.qgis.value.isObj) :
    valueAt (k :: path) b.qgisSection =
      if k = "max_chunk_size" then valueAt path (some (.num b.opts.maxChunkSize.1))
      else valueAt (k :: path) (some b.opts.qgis.value) := by
  obtain ⟨i, hi⟩ := exists_obj h
  rw [qgisSection, hi, valueAt_cons, fields_obj]
  by_cases hk : k = "max_chunk_size"
  · rw [if_pos hk, hk, lookup_setKey_self]
  · rw [if_neg hk, lookup_setKey_ne hk]
    rfl

lemma qgisSection_wellFormed (h : b.qgisSection = some v) : v.wellFormed = true := by
  unfold qgisSection at h
  split at h
  · rename_i i hi
    cases h
    exact wellFormed_setKey (hi ▸ b.opts.qgis.distinct) rfl
  · cases h

lemma workerPatch_none (h : workerPatch patch = none) :
    valueAt ["worker"] (some patch.value) = none := by
  unfold workerPatch at h
  split at h
  · cases h
  · assumption

lemma workerPatch_some {w : Document} (h : workerPatch patch = some w) :
    valueAt ["worker"] (some patch.value) = some w.value := by
  unfold workerPatch at h
  split at h
  · rename_i hv
    cases h
    exact hv
  · cases h

lemma merged_fields {o opts' : WorkerOptions} {w : Document} {i : Fields}
    (hr : WorkerOptions.fromValue (merged o w) = some opts')
    (hw : w.value = .obj i) (hf : i.lookup "max_chunk_size" = none)
    (hn : ∀ v, i.lookup "qgis" = some v → v.isObj) : opts'.maxChunkSize = o.maxChunkSize ∧
      valueAt ["qgis"] (some (merged o w).value) = some opts'.qgis.value ∧
      (o.qgis.value.isObj → opts'.qgis.value.isObj) := by
  obtain ⟨hg, hh⟩ := WorkerOptions.fromValue_fields hr
  have hd := (wellFormed_obj_iff.1 (hw ▸ w.distinct)).1
  have he : (merged o w).value =
      .obj (mergeFields (fields (some o.toValue.value)) i) := by
    change jsonMerge (some o.toValue.value) w.value = _
    rw [hw, jsonMerge_obj]
  have hl (k : String) : WorkerOptions.entry (merged o w).value k =
      (mergeFields (fields (some o.toValue.value)) i).lookup k := by
    rw [he]
    rfl
  have hol : (fields (some o.toValue.value)).lookup "qgis" = some o.qgis.value := rfl
  have hi : (fields (some o.toValue.value)).lookup "max_chunk_size" =
      some (.num o.maxChunkSize.1) := rfl
  rw [hl, lookup_mergeFields hd, hf, hi, WorkerOptions.readField, BoundedUsize.ofJson_num,
    Option.some.injEq] at hh
  obtain ⟨q, hq, hj⟩ : ∃ q, WorkerOptions.entry (merged o w).value "qgis" = some q ∧
      (o.qgis.value.isObj = true → q.isObj = true) := by
    rw [hl, lookup_mergeFields hd, hol]
    cases hk : i.lookup "qgis" with
    | none => exact ⟨_, rfl, id⟩
    | some v =>
      obtain ⟨sub, rfl⟩ := exists_obj (hn v hk)
      exact ⟨_, if_neg (by simp), fun _ => by rw [jsonMerge_obj]; rfl⟩
  have hu : opts'.qgis.value = q := by
    rw [hg, WorkerOptions.qgisOf]
    split
    · rename_i v hv
      exact Option.some.inj (hv.symm.trans hq)
    · rename_i ho
      cases ho.symm.trans hq
  refine ⟨hh.symm, ?_, hu ▸ hj⟩
  rw [hu, ← hq, he]
  rfl

lemma patch_section (h : b.patch patch = some b') (ho : b.opts.qgis.value.isObj)
    (hp : Plain cfg patch) (he : IsLeaf cfg path leaf)
    (hopen : ∀ v, valueAt ["worker"] (some patch.value) = some v → v.Unblocked ("qgis" :: path)) :
    b'.opts.qgis.value.isObj ∧
      valueAt path b'.qgisSection = (patchAt patch path).or (valueAt path b.qgisSection) := by
  unfold Builder.patch at h
  cases hw : workerPatch patch with
  | none =>
    rw [hw] at h
    cases h
    have hn : patchAt patch path = none := by
      rw [patchAt, show "worker" :: "qgis" :: path = ["worker"] ++ ("qgis" :: path) from rfl,
        valueAt_append, workerPatch_none hw, valueAt_none]
    rw [hn]
    exact ⟨ho, rfl⟩
  | some w =>
    rw [hw] at h
    obtain ⟨o, hr, rfl⟩ := map_eq_some_iff.1 h
    have hat := workerPatch_some hw
    have hu := hopen _ hat
    obtain ⟨i, hi⟩ := exists_obj hu.1
    obtain ⟨k, r, rfl⟩ := he.exists_cons
    have hl (q : List String) :
        valueAt ("worker" :: q) (some patch.value) = valueAt q (some w.value) := by
      rw [← hat, ← valueAt_append]
      rfl
    have hf : i.lookup "max_chunk_size" = none := by
      have hn := hp.buffer
      rw [hl, hi] at hn
      exact hn
    have hq : ∀ v, i.lookup "qgis" = some v → v.isObj := by
      intro v hv
      exact (hu.2 v (by rw [hi]; exact hv)).1
    obtain ⟨hz, hva, hj⟩ := merged_fields hr hi hf hq
    refine ⟨hj ho, ?_⟩
    rw [valueAt_qgisSection (hj ho), valueAt_qgisSection ho, hz]
    by_cases hk : k = "max_chunk_size"
    · have hn : patchAt patch (k :: r) = none := by
        rw [patchAt, hk, show "worker" :: "qgis" :: "max_chunk_size" :: r =
          ["worker", "qgis", "max_chunk_size"] ++ r from rfl, valueAt_append, hp.chunkSize,
          valueAt_none]
      rw [if_pos hk, if_pos hk, hn, none_or]
    · rw [if_neg hk, if_neg hk, ← hva, ← valueAt_append]
      have hm := valueAt_jsonMerge (some b.opts.toValue.value) w.distinct hu
        (fun v hv => by
          obtain ⟨hnu, ht, -⟩ := hp.patchAt he ((hl _).trans hv)
          exact ⟨hnu, ht⟩)
      rw [patchAt, hl]
      exact hm

end Builder

/-- The configuration of the process is what a worker started now would read, and laying it over the
environment of the process changes nothing. -/
structure Tracks (cfg : Settings) (b : Builder) (p : Process) : Prop where
  validated : ∃ given, cfg.root.complete given = some (.obj p.conf)
  leaves : ∀ path leaf, IsLeaf cfg path leaf →
    ∃ w, valueAt ("worker" :: "qgis" :: path) (some (.obj p.conf)) = some w ∧
      leaf.complete (valueAt path b.qgisSection) = some w ∧
      leaf.read (laidOver (valueAt ("worker" :: "qgis" :: path) (some (.obj p.environ))) w) = some w

lemma tracks_spawn (h : b.spawn cfg = some p) : Tracks cfg b p ∧ b.opts.qgis.value.isObj = true := by
  obtain ⟨e, he, h⟩ := bind_eq_some_iff.1 h
  obtain ⟨c, hn, rfl⟩ := map_eq_some_iff.1 h
  obtain ⟨q, hq, rfl⟩ := map_eq_some_iff.1 he
  have ho := Settings.complete_of_validate hn
  rw [overlay_nil] at ho
  constructor
  · refine ⟨⟨_, ho⟩, fun path leaf hl => ?_⟩
    obtain ⟨w, hw, hat⟩ := complete_sub ("worker" :: "qgis" :: path) ho hl
    rw [Schema.complete] at hw
    refine ⟨w, hat, hq ▸ hw, ?_⟩
    change leaf.read (laidOver (valueAt path (some q)) w) = some w
    change leaf.complete (valueAt path (some q)) = some w at hw
    cases hu : valueAt path (some q) with
    | none =>
      rw [hu] at hw
      cases hw
      exact leaf.read_default
    | some u =>
      rw [hu] at hw
      exact leaf.read_over u w (wellFormed_valueAt (Builder.qgisSection_wellFormed hq) hu) hw
  · unfold Builder.qgisSection at hq
    split at hq
    · rename_i i hi
      rw [hi]
      rfl
    · cases hq

lemma exec_putConfig (hp : Plain cfg patch)
    (h : Process.exec cfg (.putConfig patch) p = some p') : p'.environ = p.environ ∧
      ((p'.conf = p.conf ∧ fields (some patch.value) = []) ∨ ∃ i, patch.value = .obj i ∧ i ≠ [] ∧
          cfg.updateConfig p.environ p.conf (.obj i) = some p'.conf) := by
  obtain ⟨c, ho, rfl⟩ := map_eq_some_iff.1 h
  refine ⟨rfl, ?_⟩
  unfold Settings.putConfig at ho
  cases hv : patch.value with
  | str e => exact absurd hv (hp.notText e)
  | null =>
    rw [hv] at ho
    cases ho
    exact .inl ⟨rfl, rfl⟩
  | obj i =>
    rw [hv] at ho
    by_cases hi : i = []
    · subst hi
      cases ho
      exact .inl ⟨rfl, rfl⟩
    · exact .inr ⟨i, rfl, hi, ho⟩
  | bool _ | num _ | arr _ =>
    rw [hv] at ho
    cases ho

lemma unblocked_of_exec (hp : Plain cfg patch)
    (h : Process.exec cfg (.putConfig patch) p = some p') (hl : IsLeaf cfg path leaf)
    (hv : valueAt ["worker"] (some patch.value) = some v) : v.Unblocked ("qgis" :: path) := by
  obtain ⟨-, ⟨-, hn⟩ | ⟨i, hi, hne, hu⟩⟩ := exec_putConfig hp h
  · rw [valueAt_cons, hn] at hv
    cases hv
  · rw [hi] at hv
    exact (Settings.valueAt_updateConfig ("worker" :: "qgis" :: path) (hi ▸ patch.distinct) hne
      hu hl).1.2 v hv

lemma Tracks.putConfig (ht : Tracks cfg b p) (hi : Plain cfg patch)
    (hm : ∀ path leaf, IsLeaf cfg path leaf →
      valueAt path b'.qgisSection = (patchAt patch path).or (valueAt path b.qgisSection))
    (h : Process.exec cfg (.putConfig patch) p = some p') : Tracks cfg b' p' := by
  obtain ⟨he, ⟨hn, hni⟩ | ⟨i, hit, hne, hd⟩⟩ := exec_putConfig hi h
  · refine ⟨hn ▸ ht.validated, fun path leaf hl => ?_⟩
    obtain ⟨w, hat, ho, hr⟩ := ht.leaves path leaf hl
    have hno : patchAt patch path = none := by
      rw [patchAt, valueAt_cons, hni]
      exact valueAt_none
    rw [hm path leaf hl, hno, none_or, hn, he]
    exact ⟨w, hat, ho, hr⟩
  · refine ⟨Settings.updateConfig_validated hne hd, fun path leaf hl => ?_⟩
    obtain ⟨w, hat, ho, hr⟩ := ht.leaves path leaf hl
    obtain ⟨-, hu⟩ := Settings.valueAt_updateConfig ("worker" :: "qgis" :: path)
      (hit ▸ patch.distinct) hne hd hl
    rw [hm path leaf hl, he]
    rw [← hit] at hu
    cases hp : patchAt patch path with
    | none =>
      obtain ⟨x, hx, hax⟩ := hu w (by rw [← hat]; exact congrArg (Option.or · _) hp)
      obtain rfl : w = x := Option.some.inj (hr.symm.trans hx)
      exact ⟨w, hax, ho, hr⟩
    | some v =>
      obtain ⟨-, hv, hj⟩ := hi.patchAt hl hp
      obtain ⟨x, hx, hax⟩ := hu v (by
        rw [show valueAt ("worker" :: "qgis" :: path) (some patch.value) = some v from hp]
        rfl)
      rw [laidOver_of_not_isObj hv] at hx
      refine ⟨x, hax, hx, ?_⟩
      rw [laidOver_of_not_isObj (hj x hx)]
      exact leaf.read_self v x hx

def Process.qgis (p : Process) : Option Json := valueAt ["worker", "qgis"] (some (.obj p.conf))

lemma Tracks.qgis_eq (h : Tracks cfg b p) (h' : Tracks cfg b p') : p.qgis = p'.qgis := by
  obtain ⟨i, hi⟩ := h.validated
  obtain ⟨g, hg⟩ := h'.validated
  obtain ⟨c, hc, hat⟩ := complete_sub ["worker", "qgis"] hi rfl
  obtain ⟨c', hc', hat'⟩ := complete_sub ["worker", "qgis"] hg rfl
  rw [Process.qgis, Process.qgis, hat, hat']
  congr 1
  apply complete_ext _ cfg.distinct hc hc'
  intro path leaf hl
  rw [← valueAt_append, ← valueAt_append]
  obtain ⟨w, hw, hm, -⟩ := h.leaves path leaf hl
  obtain ⟨w', hw', ho, -⟩ := h'.leaves path leaf hl
  obtain ⟨x, hx, hax⟩ := complete_sub ("worker" :: "qgis" :: path) hi hl
  obtain ⟨x', hx', ht⟩ := complete_sub ("worker" :: "qgis" :: path) hg hl
  rw [Schema.complete] at hx hx'
  calc leaf.complete (valueAt ("worker" :: "qgis" :: path) i)
      = some w := by rw [hx, ← hax, hw]
    _ = some w' := hm.symm.trans ho
    _ = leaf.complete (valueAt ("worker" :: "qgis" :: path) g) := by rw [hx', ← ht, hw']

/-- The gateway and a worker that was started first. -/
structure Site where
  builder : Builder
  restore : Restore
  worker : Worker Process

inductive Site.Change where
  | setConfig (patch : Document)
  | updateCache (state : Restore.State)

namespace Site
variable {s t : Site}

def start (cfg : Settings) (b : Builder) (projects : List String) : Option Site :=
  (b.spawn cfg).map fun p =>
    { builder := b, restore := Restore.withProjects projects, worker := { child := p } }

def step (cfg : Settings) (s : Site) : Change → Option Site
  | .setConfig patch => (s.builder.patch patch).bind fun builder =>
      ((s.restore.updateConfig patch).restore (Process.exec cfg) s.worker).map fun worker =>
        { builder := builder, restore := s.restore.updateConfig patch, worker := worker }
  | .updateCache state =>
      ((s.restore.updateCache state).restore (Process.exec cfg) s.worker).map fun worker =>
        { s with restore := s.restore.updateCache state, worker := worker }

def newcomer (cfg : Settings) (s : Site) : Option (Worker Process) :=
  (s.builder.spawn cfg).bind fun p => s.restore.restore (Process.exec cfg) { child := p }

def Change.Plain (cfg : Settings) : Change → Prop
  | .setConfig patch => Pool.Plain cfg patch
  | .updateCache _ => True

def Included (cfg : Settings) (b : Builder) (patch : Document) : Prop :=
  ∀ path leaf, IsLeaf cfg path leaf →
    valueAt path b.qgisSection = (patchAt patch path).or (valueAt path b.qgisSection)

/-- The worker is restored and runs with what a new worker would read, the patch in the slot
included. -/
structure Settled (cfg : Settings) (s : Site) : Prop where
  isObj : s.builder.opts.qgis.value.isObj = true
  tracks : Tracks cfg s.builder s.worker.child
  revision : s.worker.lastUpdate = s.restore.update
  stamp : s.restore.config.1 ≤ s.restore.update
  slot : 0 < s.restore.config.1 →
    Pool.Plain cfg s.restore.config.2 ∧ Included cfg s.builder s.restore.config.2

lemma settled_start {r : List String} (h : start cfg b r = some s) : Settled cfg s := by
  obtain ⟨p, hp, rfl⟩ := map_eq_some_iff.1 h
  obtain ⟨ht, ho⟩ := tracks_spawn hp
  exact ⟨ho, ht, rfl, le_rfl, fun hpo => absurd hpo (lt_irrefl 0)⟩

lemma tracks_sends {r : Restore} {l : ℕ} (ht : Tracks cfg b p)
    (hl : 0 < r.config.1 → Pool.Plain cfg r.config.2 ∧ Included cfg b r.config.2)
    (h : r.Sends cfg l p p') : Tracks cfg b p' := by
  unfold Restore.Sends at h
  split at h
  · rename_i hnew
    obtain ⟨hp, hi⟩ := hl (Nat.zero_lt_of_lt hnew)
    exact ht.putConfig hp hi h
  · rw [h]
    exact ht

lemma tracks_restore {r : Restore} {w w' : Worker Process} (ht : Tracks cfg b w.child)
    (hl : 0 < r.config.1 → Pool.Plain cfg r.config.2 ∧ Included cfg b r.config.2)
    (h : r.restore (Process.exec cfg) w = some w') : Tracks cfg b w'.child := by
  obtain ⟨-, p, he, hn⟩ := restore_sends h
  have hp := tracks_sends ht hl he
  rcases hn with heq | hg
  · rw [heq]
    exact hp
  · exact tracks_sends hp hl hg

lemma patchAt_or_section (ho : b.opts.qgis.value.isObj) (ht : b.patch patch = some b')
    (hp : Pool.Plain cfg patch) (hx : Process.exec cfg (.putConfig patch) p = some p') :
    b'.opts.qgis.value.isObj ∧ ∀ path leaf, IsLeaf cfg path leaf →
      valueAt path b'.qgisSection = (patchAt patch path).or (valueAt path b.qgisSection) := by
  have he (path : List String) (leaf : Leaf) (hl : IsLeaf cfg path leaf) :=
    Builder.patch_section ht ho hp hl fun _ hv => unblocked_of_exec hp hx hl hv
  exact ⟨(he _ _ isLeaf_chunkSize).1, fun path leaf hl => (he path leaf hl).2⟩

lemma Settled.step {c : Change} (h : Settled cfg s) (hl : c.Plain cfg)
    (ht : s.step cfg c = some t) : Settled cfg t := by
  cases c with
  | setConfig patch =>
    obtain ⟨b, hh, ht⟩ := bind_eq_some_iff.1 ht
    obtain ⟨w, hr, rfl⟩ := map_eq_some_iff.1 ht
    obtain ⟨hla, p, he, hd⟩ := restore_sends hr
    have hnew : (s.restore.updateConfig patch).config.1 > s.worker.lastUpdate := by
      rw [h.revision]
      exact Nat.lt_succ_self _
    unfold Restore.Sends at he hd
    rw [if_pos hnew] at he hd
    obtain ⟨hj, ho⟩ := patchAt_or_section h.isObj hh hl he
    have hp := h.tracks.putConfig hl ho he
    have hi : Included cfg b patch := by
      intro path leaf hf
      rw [ho path leaf hf]
      cases patchAt patch path with
      | none | some v => rfl
    refine ⟨hj, ?_, hla, le_rfl, fun _ => ⟨hl, hi⟩⟩
    rcases hd with heq | hg
    · rw [heq]
      exact hp
    · exact hp.putConfig hl hi hg
  | updateCache a =>
    obtain ⟨w, hr, rfl⟩ := map_eq_some_iff.1 ht
    have hn := updateCache_config s.restore a
    have hsl : 0 < (s.restore.updateCache a).config.1 →
        Pool.Plain cfg (s.restore.updateCache a).config.2 ∧
          Included cfg s.builder (s.restore.updateCache a).config.2 := by
      rw [hn]
      exact h.slot
    refine ⟨h.isObj, tracks_restore h.tracks hsl hr, (restore_fields hr).2.2, ?_, hsl⟩
    rw [hn]
    exact h.stamp.trans (updateCache_update_le _ _)

def finish (cfg : Settings) (b : Builder) (projects : List String) (changes : List Change) :
    Option (Worker Process × Worker Process) :=
  (start cfg b projects).bind fun s => (run (step cfg) s changes).bind fun t =>
    (t.newcomer cfg).map fun w => (t.worker, w)

/-- A worker that lived through all changes and one started after the last of them run with the same
QGIS section, if all patches are plain. -/
theorem newcomer_qgis_of_plain (cfg : Settings) (b : Builder) (projects : List String)
    (changes : List Change) (v w : Worker Process)
    (hplain : ∀ patch, .setConfig patch ∈ changes → Pool.Plain cfg patch)
    (h : finish cfg b projects changes = some (v, w)) : w.child.qgis = v.child.qgis := by
  obtain ⟨s, hst, h⟩ := bind_eq_some_iff.1 h
  obtain ⟨t, hu, h⟩ := bind_eq_some_iff.1 h
  obtain ⟨u, hnew, h⟩ := map_eq_some_iff.1 h
  cases h
  have hl : Along (step cfg) (fun _ c => c.Plain cfg) s changes := by
    apply along_of_forall
    intro c hc _
    cases c with
    | setConfig patch => exact hplain patch hc
    | updateCache a => trivial
  have he := run_invariant (fun _ _ _ h hc hse => h.step hc hse) (settled_start hst) hl hu
  obtain ⟨p, hp, hr⟩ := bind_eq_some_iff.1 hnew
  have ht := tracks_restore (w := { child := p }) (tracks_spawn hp).1 he.slot hr
  exact ht.qgis_eq he.tracks

def isStr : Json → Bool
  | .str _ => true
  | _ => false

def isBool : Json → Bool
  | .bool _ => true
  | _ => false

def isStrMap : Json → Bool
  | .obj items => items.all fun item => isStr item.2
  | _ => false

def someSettings : Settings where
  logging := .model true [("level", .value (.checked (.str "INFO") isStr rfl))]
  qgis :=
    [("projects", .model true
        [("disable_getprint", .value (.checked (.bool false) isBool rfl)),
          ("search_paths", .value (.checked (.obj []) isStrMap rfl))]),
      ("max_projects", .value (.int 50)),
      ("max_chunk_size", .value (.int (1024 * 1024)))]
  loads _ := none
  distinct := by decide +kernel
  chunkSize := rfl

def searchPath (location url : String) : Document where
  value := .obj [("worker", .obj [("qgis", .obj [("projects", .obj [("search_paths",
    .obj [(location, .str url)])])])])]
  distinct := rfl

def maxProjects (n : ℕ) : Document where
  value := .obj [("worker", .obj [("num_processes", .num 2), ("qgis", .obj [("max_projects", .num n)])])]
  distinct := rfl

lemma plain_maxProjects (n : ℕ) : Pool.Plain someSettings (maxProjects n) where
  notText := nofun
  buffer := rfl
  chunkSize := rfl
  leaves := by
    have hi : (Leaf.int 50).read (.num n) = some (.num n) := by simp [Leaf.int, Leaf.checked, isInt]
    simp [someSettings, maxProjects, Schema.plain, Schema.plainFields, valueAt, List.lookup_cons, hi, isObj]

theorem newcomer_qgis_of_plain_two :
    ∃ v w, finish someSettings {} [] [.setConfig (maxProjects 25), .updateCache .update,
        .setConfig (maxProjects 10)] = some (v, w) ∧ w.child.qgis = v.child.qgis := by
  obtain ⟨⟨v, w⟩, h⟩ := isSome_iff_exists.1 (show (finish someSettings {} []
    [.setConfig (maxProjects 25), .updateCache .update, .setConfig (maxProjects 10)]).isSome = true by
      decide +kernel)
  refine ⟨v, w, h, newcomer_qgis_of_plain _ _ _ _ _ _ ?_ h⟩
  intro patch hp
  simp only [List.mem_cons, Change.setConfig.injEq, reduceCtorEq, false_or, List.not_mem_nil,
    or_false] at hp
  rcases hp with rfl | rfl
  · exact plain_maxProjects 25
  · exact plain_maxProjects 10

/-- Two patches set the search paths and a third one something else. The second replaced the paths of
the surviving worker; the options passed to a new worker hold the paths of both. -/
theorem not_newcomer_qgis_search_paths :
    ∃ v w, finish someSettings {} [] [.setConfig (searchPath "/a" "/srv/a"),
        .setConfig (searchPath "/b" "/srv/b"), .setConfig (maxProjects 25)] = some (v, w) ∧
      w.child.qgis ≠ v.child.qgis := by
  obtain ⟨⟨v, w⟩, h, hne⟩ := (Option.any_eq_true _ _).1 (show ((finish someSettings {} []
    [.setConfig (searchPath "/a" "/srv/a"), .setConfig (searchPath "/b" "/srv/b"),
      .setConfig (maxProjects 25)]).any fun p => decide (p.2.child.qgis ≠ p.1.child.qgis)) = true by
      decide +kernel)
  exact ⟨v, w, h, of_decide_eq_true hne⟩

end Site

end QJazz.Pool
