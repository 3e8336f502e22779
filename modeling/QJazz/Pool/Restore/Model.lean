import QJazz.Pool.Worker
import Mathlib.Data.Finset.Sort
import Mathlib.Data.String.Basic

/-! `restore` brings one worker up to date from the revision the worker was last restored at. -/
namespace QJazz.Pool
open Config Option

inductive Restore.State where
  | pull (uri : String)
  | remove (uri : String)
  | clear
  | update
deriving DecidableEq, Repr

structure Restore where
  update : ℕ := 0
  pulls : Finset String := ∅
  config : ℕ × Document := (0, ⟨.null, rfl⟩)
  states : List (ℕ × Restore.State) := []

namespace Restore

def withProjects (projects : List String) : Restore :=
  { pulls := projects.toFinset }

def updateConfig (r : Restore) (config : Document) : Restore :=
  { r with update := r.update + 1, config := (r.update + 1, config) }

/-- The common end of `update_cache`: a new revision, stamped on the logged command. -/
def record (r : Restore) (state : State) : Restore :=
  { r with update := r.update + 1, states := r.states ++ [(r.update + 1, state)] }

def updateCache (r : Restore) : State → Restore
  | .pull uri =>
    if uri ∈ r.pulls then r
    else record { r with pulls := insert uri r.pulls } (.pull uri)
  | .remove uri =>
    if uri ∉ r.pulls then r
    else record { r with pulls := r.pulls.erase uri } (.remove uri)
  | .clear => record { r with pulls := ∅, states := [] } .clear
  | .update => { r with update := r.update + 1 }

section Worker
variable {χ : Type*} (exec : WorkerCall → χ → Option χ)

def updateWorkerConfig (r : Restore) (w : Worker χ) : Option (Worker χ) :=
  if r.config.1 > w.lastUpdate then w.call exec (.putConfig r.config.2) else some w

/-- The message sent for one logged command. -/
def State.apply (w : Worker χ) : State → Option (Worker χ)
  | .pull uri => w.call exec (.checkoutProject uri true)
  | .remove uri => w.call exec (.dropProject uri)
  | .clear => w.call exec .clearCache
  | .update => some w

/-- The loop over the log, given newest first. It stops at the first command the worker has seen. -/
def replay (lastUpdate : ℕ) : List (ℕ × State) → Worker χ → Option (Worker χ)
  | [], w => some w
  | rev :: rest, w =>
    if rev.1 ≤ lastUpdate then some w
    else (rev.2.apply exec w).bind fun w => replay lastUpdate rest w

def updateWorkerCache (r : Restore) (w : Worker χ) : Option (Worker χ) :=
  let lastUpdate := w.lastUpdate
  if lastUpdate = 0 then
    (r.pulls.sort (· ≤ ·)).foldlM (fun w uri => w.call exec (.checkoutProject uri true)) w
  else if lastUpdate < r.update then do
    let w ← r.updateWorkerConfig exec w
    let w ← w.call exec .updateCache
    replay exec lastUpdate r.states.reverse w
  else some w

def restore (r : Restore) (w : Worker χ) : Option (Worker χ) := do
  let w ← r.updateWorkerConfig exec w
  let w ← r.updateWorkerCache exec w
  return { w with lastUpdate := r.update }

variable {exec} {r : Restore} {w w' : Worker χ}

/-- A relation between handles that holds across every message but a configuration patch, and so
across the messages that bring a cache up to date. -/
structure CacheRespects (exec : WorkerCall → χ → Option χ) (R : Worker χ → Worker χ → Prop) : Prop where
  refl : ∀ w, R w w
  trans : ∀ {w₁ w₂ w₃}, R w₁ w₂ → R w₂ w₃ → R w₁ w₃
  call : ∀ {c w w'}, (∀ config, c ≠ .putConfig config) → w.call exec c = some w' → R w w'

namespace CacheRespects
variable {R : Worker χ → Worker χ → Prop}

lemma apply (hR : CacheRespects exec R) {c : State} (h : c.apply exec w = some w') : R w w' := by
  cases c with
  | update =>
    cases h
    exact hR.refl _
  | pull uri | remove uri | clear => exact hR.call (by simp) h

lemma replay (hR : CacheRespects exec R) {l : ℕ} {n : List (ℕ × State)}
    (h : replay exec l n w = some w') : R w w' := by
  induction n generalizing w with
  | nil =>
    cases h
    exact hR.refl _
  | cons rev e ih =>
    rw [Restore.replay] at h
    split at h
    · cases h
      exact hR.refl _
    · obtain ⟨v, hv, hr⟩ := bind_eq_some_iff.1 h
      exact hR.trans (hR.apply hv) (ih hr)

lemma checkouts (hR : CacheRespects exec R) {u : List String}
    (h : u.foldlM (fun w uri => w.call exec (.checkoutProject uri true)) w = some w') : R w w' := by
  induction u generalizing w with
  | nil =>
    cases h
    exact hR.refl _
  | cons uri u ih =>
    rw [List.foldlM_cons] at h
    obtain ⟨v, hv, hr⟩ := bind_eq_some_iff.1 h
    exact hR.trans (hR.call (by simp) hv) (ih hr)

end CacheRespects

def SameProcess (w w' : Worker χ) : Prop := w'.alive = w.alive ∧ w'.generation = w.generation

lemma SameProcess.trans {w₁ w₂ w₃ : Worker χ} (h : SameProcess w₁ w₂) (h' : SameProcess w₂ w₃) :
    SameProcess w₁ w₃ :=
  ⟨h'.1.trans h.1, h'.2.trans h.2⟩

lemma sameProcess_call {c : WorkerCall} (h : w.call exec c = some w') : SameProcess w w' :=
  ⟨(Worker.call_fields h).1, (Worker.call_fields h).2.1⟩

lemma sameProcess_respects : CacheRespects exec (SameProcess (χ := χ)) :=
  ⟨fun _ => ⟨rfl, rfl⟩, SameProcess.trans, fun _ => sameProcess_call⟩

lemma sameProcess_updateWorkerConfig (h : r.updateWorkerConfig exec w = some w') :
    SameProcess w w' := by
  unfold updateWorkerConfig at h
  split at h
  · exact sameProcess_call h
  · cases h
    exact ⟨rfl, rfl⟩

lemma sameProcess_updateWorkerCache (h : r.updateWorkerCache exec w = some w') :
    SameProcess w w' := by
  simp only [updateWorkerCache] at h
  split_ifs at h
  · exact sameProcess_respects.checkouts h
  · obtain ⟨v, hv, h⟩ := bind_eq_some_iff.1 h
    obtain ⟨u, hu, h⟩ := bind_eq_some_iff.1 h
    have hh := (sameProcess_call hu).trans (sameProcess_respects.replay h)
    exact (sameProcess_updateWorkerConfig hv).trans hh
  · cases h
    exact ⟨rfl, rfl⟩

lemma restore_fields (h : r.restore exec w = some w') :
    w'.alive = w.alive ∧ w'.generation = w.generation ∧ w'.lastUpdate = r.update := by
  obtain ⟨v, hv, h⟩ := bind_eq_some_iff.1 h
  obtain ⟨u, hu, h⟩ := bind_eq_some_iff.1 h
  obtain ⟨halive, hg⟩ := (sameProcess_updateWorkerConfig hv).trans (sameProcess_updateWorkerCache hu)
  cases h
  exact ⟨halive, hg, rfl⟩

lemma restore_of_mapM {ws ws' : List (Worker χ)} (h : ws.mapM (r.restore exec) = some ws') :
    List.Forall₂ (fun w w' => r.restore exec w = some w') ws ws' := by
  induction ws generalizing ws' with
  | nil =>
    cases h
    exact .nil
  | cons w ws ih =>
    rw [List.mapM_cons] at h
    obtain ⟨v, hv, h⟩ := bind_eq_some_iff.1 h
    obtain ⟨vs, hvs, h⟩ := bind_eq_some_iff.1 h
    cases h
    exact .cons hv (ih hvs)

end Worker

end Restore

end QJazz.Pool
