import QJazz.Config.Update
import Mathlib.Data.Finset.Basic

/-! What a message does in the child is a parameter, so the pool can be studied over any child;
`Child` is the part of the child that resynchronisation acts on. -/
namespace QJazz.Pool
open Config

inductive WorkerCall where
  | putConfig (config : Document)
  | checkoutProject (uri : String) (pull : Bool)
  | dropProject (uri : String)
  | updateCache
  | clearCache

structure Worker (χ : Type*) where
  child : χ
  alive : Bool := true
  generation : ℕ := 1
  lastUpdate : ℕ := 0
deriving DecidableEq

variable {χ : Type*}

/-- A message stub. It fails when the process is dead or answers with an error. -/
def Worker.call (exec : WorkerCall → χ → Option χ) (w : Worker χ) (c : WorkerCall) :
    Option (Worker χ) :=
  if w.alive then (exec c w.child).map fun child => { w with child } else none

lemma Worker.call_fields {e : WorkerCall → χ → Option χ} {w w' : Worker χ} {c : WorkerCall}
    (h : w.call e c = some w') : w'.alive = w.alive ∧ w'.generation = w.generation ∧
      w'.lastUpdate = w.lastUpdate := by
  unfold Worker.call at h
  split at h
  · obtain ⟨i, -, rfl⟩ := Option.map_eq_some_iff.1 h
    exact ⟨rfl, rfl, rfl⟩
  · cases h

lemma Worker.exec_of_call {e : WorkerCall → χ → Option χ} {w w' : Worker χ} {c : WorkerCall}
    (h : w.call e c = some w') : e c w.child = some w'.child := by
  unfold Worker.call at h
  split at h
  · obtain ⟨i, hh, rfl⟩ := Option.map_eq_some_iff.1 h
    exact hh
  · cases h

structure Child where
  pulled : Finset String
  conf : Fields
deriving DecidableEq

/-- What the configuration service of a child rests on: the model of its configuration, the schema
check, and the JSON parser. -/
structure Child.Env where
  model : Model
  valid : Fields → Bool
  loads : String → Option Document

/-- A configuration service that accepts every patch and has no sub-models. -/
def Child.Env.permissive : Env := ⟨[], fun _ => true, fun _ => none⟩

/-- The payload of a configuration message is a document, or a text to parse. -/
def Child.Env.configData (env : Env) (config : Document) : Option Document :=
  match config.value with
  | .str text => env.loads text
  | _ => some config

def Child.Env.applyPatch (env : Env) (conf : Fields) (config : Document) : Option Fields := do
  let data ← env.configData config
  updateConfig env.model env.valid conf data.value

def Child.exec (env : Env) : WorkerCall → Child → Option Child
  | .putConfig config, c => (env.applyPatch c.conf config).map fun conf => { c with conf }
  | .checkoutProject uri pull, c =>
    some (if pull then { c with pulled := insert uri c.pulled } else c)
  | .dropProject uri, c => some { c with pulled := c.pulled.erase uri }
  | .updateCache, c => some c
  | .clearCache, c => some { c with pulled := ∅ }

lemma Child.Env.applyPatch_idem {env : Env} {c : Document} {o conf' : Fields}
    (h : env.applyPatch o c = some conf') : env.applyPatch conf' c = some conf' := by
  unfold applyPatch at h ⊢
  cases hd : env.configData c with
  | none => simp [hd] at h
  | some d =>
    rw [hd] at h
    exact updateConfig_idem d.distinct h

section Live
variable {env : Child.Env} {w : Worker Child} {s t : Finset String} {uri : String}

def Worker.setPulled (w : Worker Child) (s : Finset String) : Worker Child :=
  { w with child := { w.child with pulled := s } }

@[simp] lemma Worker.setPulled_alive : (w.setPulled s).alive = w.alive := rfl

@[simp] lemma Worker.setPulled_lastUpdate : (w.setPulled s).lastUpdate = w.lastUpdate := rfl

@[simp] lemma Worker.setPulled_pulled : (w.setPulled s).child.pulled = s := rfl

@[simp] lemma Worker.setPulled_setPulled : (w.setPulled s).setPulled t = w.setPulled t := rfl

@[simp] lemma Worker.setPulled_self : w.setPulled w.child.pulled = w := rfl

lemma Worker.call_checkout (h : w.alive) :
    w.call (Child.exec env) (.checkoutProject uri true) =
      some (w.setPulled (insert uri w.child.pulled)) := by
  rw [call, if_pos h]
  rfl

lemma Worker.call_drop (h : w.alive) :
    w.call (Child.exec env) (.dropProject uri) = some (w.setPulled (w.child.pulled.erase uri)) := by
  rw [call, if_pos h]
  rfl

lemma Worker.call_clear (h : w.alive) :
    w.call (Child.exec env) .clearCache = some (w.setPulled ∅) := by
  rw [call, if_pos h]
  rfl

lemma Worker.call_update (h : w.alive) :
    w.call (Child.exec env) .updateCache = some w := by
  rw [call, if_pos h]
  rfl

end Live

end QJazz.Pool
