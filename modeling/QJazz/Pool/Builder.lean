import QJazz.Config.Schema
import QJazz.Pool.Restore.Model

/-! The launcher fixes the size of the pipe's buffer and passes the QGIS section in the environment
of the child. -/
namespace QJazz.Pool
open Config Json Option

abbrev BoundedUsize (min : ℕ) := {n : ℕ // min ≤ n ∧ n < 2 ^ 64}

def BoundedUsize.ofJson (min : ℕ) : Json → Option (BoundedUsize min)
  | .num q =>
    if h : q.den = 1 ∧ 0 ≤ q.num ∧ min ≤ q.num.toNat ∧ q.num.toNat < 2 ^ 64 then
      some ⟨q.num.toNat, h.2.2⟩
    else none
  | _ => none

lemma BoundedUsize.ofJson_num {min : ℕ} (n : BoundedUsize min) :
    BoundedUsize.ofJson min (.num n.1) = some n := by
  rw [ofJson, dif_pos ⟨by simp, by simp, by simpa using n.2⟩]
  simp

structure WorkerOptions where
  name : String := ""
  numProcesses : BoundedUsize 1 := ⟨1, by decide⟩
  processStartTimeout : BoundedUsize 0 := ⟨5, by decide⟩
  qgis : Document := ⟨.obj [("max_chunk_size", .num (1024 * 1024))], rfl⟩
  cancelTimeout : BoundedUsize 0 := ⟨3, by decide⟩
  maxWaitingRequests : BoundedUsize 1 := ⟨50, by decide⟩
  maxChunkSize : BoundedUsize 1024 := ⟨1024 * 1024, by decide⟩
  restoreProjects : List String := []

namespace WorkerOptions

def names : List String :=
  ["name", "num_processes", "process_start_timeout", "qgis", "cancel_timeout", "max_waiting_requests",
    "max_chunk_size", "restore_projects"]

lemma wellFormedItems_str (t : List String) : wellFormedItems (t.map .str) = true := by
  induction t with
  | nil => rfl
  | cons e t ih => rwa [List.map_cons, wellFormedItems]

def toValue (opts : WorkerOptions) : Document where
  value := .obj
    [("name", .str opts.name),
      ("num_processes", .num opts.numProcesses.1),
      ("process_start_timeout", .num opts.processStartTimeout.1),
      ("qgis", opts.qgis.value),
      ("cancel_timeout", .num opts.cancelTimeout.1),
      ("max_waiting_requests", .num opts.maxWaitingRequests.1),
      ("max_chunk_size", .num opts.maxChunkSize.1),
      ("restore_projects", .arr (opts.restoreProjects.map .str))]
  distinct := by
    rw [wellFormed_obj_iff]
    refine ⟨(by decide : names.Nodup), ?_⟩
    simp [wellFormed, opts.qgis.distinct, wellFormedItems_str]

/-- A structure is read from an object, or from an array of the first fields. -/
def entry : Json → String → Option Json
  | .obj items, k => items.lookup k
  | .arr items, k => items[names.idxOf k]?
  | _, _ => none

def isStruct : Json → Bool
  | .obj _ => true
  | .arr items => items.length ≤ names.length
  | _ => false

lemma wellFormedItems_iff {i : List Json} :
    wellFormedItems i ↔ ∀ v ∈ i, v.wellFormed = true := by
  induction i with
  | nil => simp [wellFormedItems]
  | cons v i ih => simp [wellFormedItems, ih]

lemma entry_wellFormed {doc v : Json} {k : String} (hd : doc.wellFormed)
    (h : entry doc k = some v) : v.wellFormed = true := by
  cases doc with
  | obj i => exact wellFormed_of_lookup hd h
  | arr i => exact wellFormedItems_iff.1 hd v (List.mem_of_getElem? h)
  | null | bool _ | num _ | str _ => cases h

def asStr : Json → Option String
  | .str text => some text
  | _ => none

def asStrings : Json → Option (List String)
  | .arr items => items.mapM asStr
  | _ => none

def readField {α : Type*} (read : Json → Option α) (default : α) : Option Json → Option α
  | none => some default
  | some v => read v

def qgisOf (doc : Document) : Document :=
  match h : entry doc.value "qgis" with
  | some v => ⟨v, entry_wellFormed doc.distinct h⟩
  | none => ({} : WorkerOptions).qgis

def fromValue (doc : Document) : Option WorkerOptions :=
  if isStruct doc.value then do
    let base : WorkerOptions := {}
    let name ← readField asStr base.name (entry doc.value "name")
    let numProcesses ← readField (BoundedUsize.ofJson 1) base.numProcesses (entry doc.value "num_processes")
    let processStartTimeout ←
      readField (BoundedUsize.ofJson 0) base.processStartTimeout (entry doc.value "process_start_timeout")
    let cancelTimeout ← readField (BoundedUsize.ofJson 0) base.cancelTimeout (entry doc.value "cancel_timeout")
    let maxWaitingRequests ←
      readField (BoundedUsize.ofJson 1) base.maxWaitingRequests (entry doc.value "max_waiting_requests")
    let maxChunkSize ←
      readField (BoundedUsize.ofJson 1024) base.maxChunkSize (entry doc.value "max_chunk_size")
    let restoreProjects ← readField asStrings base.restoreProjects (entry doc.value "restore_projects")
    return {
      name := name
      numProcesses := numProcesses
      processStartTimeout := processStartTimeout
      qgis := qgisOf doc
      cancelTimeout := cancelTimeout
      maxWaitingRequests := maxWaitingRequests
      maxChunkSize := maxChunkSize
      restoreProjects := restoreProjects }
  else none

lemma fromValue_fields {doc : Document} {o : WorkerOptions} (h : fromValue doc = some o) :
    o.qgis = qgisOf doc ∧ readField (BoundedUsize.ofJson 1024) ({} : WorkerOptions).maxChunkSize
      (entry doc.value "max_chunk_size") = some o.maxChunkSize := by
  unfold fromValue at h
  split at h
  · simp only [bind, bind_eq_some_iff] at h
    obtain ⟨n, -, num, -, s, -, c, -, a, -, u, hh, p, -, h⟩ := h
    cases h
    exact ⟨rfl, hh⟩
  · cases h

end WorkerOptions

inductive LogLevel where
  | critical
  | error
  | warning
  | info
  | trace
deriving DecidableEq, Repr

def LogLevel.name : LogLevel → String
  | .critical => "critical"
  | .error => "error"
  | .warning => "warning"
  | .info => "info"
  | .trace => "trace"

def logLevelFromJson (doc : Json) : Option LogLevel :=
  match valueAt ["logging", "level"] (some doc) with
  | some (.str level) =>
    match level.toLower with
    | "error" => some .error
    | "info" => some .info
    | "debug" => some .trace
    | "trace" => some .trace
    | "critical" => some .critical
    | _ => none
  | _ => none

structure Builder where
  opts : WorkerOptions := {}
  logLevel : LogLevel := .error

def Builder.byDefault : Builder := {}

/-- A child process as its configuration goes: the buffer of the parent's pipe, the environment the
child was started with, and its current configuration. -/
structure Process where
  buffer : ℕ
  environ : Fields
  conf : Fields
deriving DecidableEq

namespace Builder

def workerPatch (patch : Document) : Option Document :=
  match h : valueAt ["worker"] (some patch.value) with
  | some v => some ⟨v, wellFormed_valueAt patch.distinct h⟩
  | none => none

def merged (opts : WorkerOptions) (patch : Document) : Document :=
  ⟨jsonMerge (some opts.toValue.value) patch.value,
    wellFormed_jsonMerge _ _ patch.distinct fun _ h => Option.some.inj h ▸ opts.toValue.distinct⟩

/-- `Builder::patch`, which fails when the merged options cannot be read back. -/
def patch (b : Builder) (patch : Document) : Option Builder :=
  let logLevel := (logLevelFromJson patch.value).getD b.logLevel
  match workerPatch patch with
  | some worker => (WorkerOptions.fromValue (merged b.opts worker)).map fun opts =>
      { opts := opts, logLevel := logLevel }
  | none => some { b with logLevel := logLevel }

def qgisSection (b : Builder) : Option Json :=
  match b.opts.qgis.value with
  | .obj qgis => some (.obj (setKey "max_chunk_size" (.num b.opts.maxChunkSize.1) qgis))
  | _ => none

def environ (b : Builder) : Option Fields :=
  b.qgisSection.map fun qgis =>
    [("logging", .obj [("level", .str b.logLevel.name)]), ("worker", .obj [("qgis", qgis)])]

/-- `WorkerLauncher::spawn`, up to the child's first validation of its configuration. -/
def spawn (cfg : Settings) (b : Builder) : Option Process :=
  b.environ.bind fun environ => (cfg.validate environ []).map fun conf =>
    { buffer := b.opts.maxChunkSize.1, environ := environ, conf := conf }

end Builder

/-- The messages of a resynchronisation, as far as the configuration goes. -/
def Process.exec (cfg : Settings) : WorkerCall → Process → Option Process
  | .putConfig config, p => (cfg.putConfig p.environ p.conf config).map fun conf => { p with conf }
  | _, p => some p

namespace Restore
variable {cfg : Settings} {r : Restore} {w w' : Worker Process}

/-- The process and the revision of a worker, which cache messages do not touch. -/
def Quiet (w w' : Worker Process) : Prop := w'.child = w.child ∧ w'.lastUpdate = w.lastUpdate

lemma quiet_respects : CacheRespects (Process.exec cfg) Quiet where
  refl _ := ⟨rfl, rfl⟩
  trans h h' := ⟨h'.1.trans h.1, h'.2.trans h.2⟩
  call := by
    intro c w w' hc h
    refine ⟨?_, (Worker.call_fields h).2.2⟩
    unfold Worker.call at h
    split at h
    · obtain ⟨i, he, rfl⟩ := map_eq_some_iff.1 h
      cases c with
      | putConfig o => exact absurd rfl (hc o)
      | checkoutProject | dropProject | updateCache | clearCache =>
        cases he
        rfl
    · cases h

/-- The message of the slot reaches the process, if it is newer than the worker. -/
def Sends (cfg : Settings) (r : Restore) (lastUpdate : ℕ) (p p' : Process) : Prop :=
  if r.config.1 > lastUpdate then Process.exec cfg (.putConfig r.config.2) p = some p' else p' = p

lemma updateWorkerConfig_sends (h : r.updateWorkerConfig (Process.exec cfg) w = some w') :
    r.Sends cfg w.lastUpdate w.child w'.child ∧ w'.lastUpdate = w.lastUpdate := by
  unfold updateWorkerConfig at h
  unfold Sends
  split at h
  · rename_i hnew
    rw [if_pos hnew]
    refine ⟨?_, (Worker.call_fields h).2.2⟩
    unfold Worker.call at h
    split at h
    · obtain ⟨c, he, rfl⟩ := map_eq_some_iff.1 h
      exact he
    · cases h
  · rename_i ho
    rw [if_neg ho]
    cases h
    exact ⟨rfl, rfl⟩

lemma restore_sends (h : r.restore (Process.exec cfg) w = some w') :
    w'.lastUpdate = r.update ∧ ∃ p, r.Sends cfg w.lastUpdate w.child p ∧
      (w'.child = p ∨ r.Sends cfg w.lastUpdate p w'.child) := by
  obtain ⟨w₁, h₁, h⟩ := bind_eq_some_iff.1 h
  obtain ⟨w₂, h₂, h⟩ := bind_eq_some_iff.1 h
  cases h
  obtain ⟨he, hl⟩ := updateWorkerConfig_sends h₁
  refine ⟨rfl, w₁.child, he, ?_⟩
  simp only [updateWorkerCache] at h₂
  split_ifs at h₂
  · exact .inl (quiet_respects.checkouts h₂).1
  · obtain ⟨v, hv, h₂⟩ := bind_eq_some_iff.1 h₂
    obtain ⟨u, hu, h₂⟩ := bind_eq_some_iff.1 h₂
    obtain ⟨hg, -⟩ := updateWorkerConfig_sends hv
    have hp := quiet_respects.call (by simp) hu
    have hr := quiet_respects.replay h₂
    right
    rw [hl] at hg
    rw [hr.1, hp.1]
    exact hg
  · cases h₂
    exact .inl rfl

end Restore

end QJazz.Pool
