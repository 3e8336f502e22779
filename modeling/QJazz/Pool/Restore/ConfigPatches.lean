import QJazz.Pool.Restore.Stepwise

/-! `Restore` keeps the last configuration patch only, stamped with its revision. -/
namespace QJazz.Pool
open Config Transition Option

variable {env : Child.Env} {w w' : Worker Child} {r : Restore}

def Child.Env.applyPatches (env : Child.Env) (conf : Fields) (patches : List Document) :
    Option Fields :=
  patches.foldlM env.applyPatch conf

lemma Child.Env.applyPatches_concat {c : Fields} {p : List Document} {patch : Document} :
    env.applyPatches c (p ++ [patch]) =
      (env.applyPatches c p).bind fun c => env.applyPatch c patch := by
  simp [applyPatches, List.foldlM_append]

/-- The configuration and the revision of a worker, which cache messages do not touch. -/
def Worker.Settled (w w' : Worker Child) : Prop :=
  w'.child.conf = w.child.conf ∧ w'.lastUpdate = w.lastUpdate

lemma Worker.Settled.trans {w₁ w₂ w₃ : Worker Child} (h : Settled w₁ w₂) (h' : Settled w₂ w₃) :
    Settled w₁ w₃ :=
  ⟨h'.1.trans h.1, h'.2.trans h.2⟩

lemma Worker.call_settled {c : WorkerCall} (h : w.call (Child.exec env) c = some w')
    (hc : ∀ o, c ≠ .putConfig o) : Settled w w' := by
  refine ⟨?_, (call_fields h).2.2⟩
  unfold call at h
  split at h
  · obtain ⟨i, he, rfl⟩ := map_eq_some_iff.1 h
    cases c with
    | putConfig o => exact absurd rfl (hc o)
    | checkoutProject uri p =>
      cases p <;> (cases he; rfl)
    | dropProject uri | updateCache | clearCache => cases he; rfl
  · cases h

lemma Worker.call_putConfig {c : Document}
    (h : w.call (Child.exec env) (.putConfig c) = some w') :
    env.applyPatch w.child.conf c = some w'.child.conf ∧ w'.lastUpdate = w.lastUpdate := by
  refine ⟨?_, (call_fields h).2.2⟩
  unfold call at h
  split at h
  · obtain ⟨i, he, rfl⟩ := map_eq_some_iff.1 h
    obtain ⟨o, ho, rfl⟩ := map_eq_some_iff.1 he
    exact ho
  · cases h

namespace Restore

lemma settled_respects : CacheRespects (Child.exec env) Worker.Settled :=
  ⟨fun _ => ⟨rfl, rfl⟩, Worker.Settled.trans, fun hc h => Worker.call_settled h hc⟩

/-- The configuration of a worker after it received what the slot holds for it. -/
def Delivers (env : Child.Env) (r : Restore) (w w' : Worker Child) : Prop :=
  if r.config.1 > w.lastUpdate then env.applyPatch w.child.conf r.config.2 = some w'.child.conf
  else w'.child.conf = w.child.conf

lemma updateWorkerConfig_delivers (h : r.updateWorkerConfig (Child.exec env) w = some w') :
    r.Delivers env w w' ∧ w'.lastUpdate = w.lastUpdate := by
  unfold updateWorkerConfig at h
  unfold Delivers
  split at h
  · rename_i hp
    rw [if_pos hp]
    exact Worker.call_putConfig h
  · rename_i hp
    rw [if_neg hp]
    cases h
    exact ⟨rfl, rfl⟩

lemma Delivers.again {w₁ w₂ : Worker Child} (h : r.Delivers env w w₁)
    (hl : w₁.lastUpdate = w.lastUpdate) (h' : r.Delivers env w₁ w₂) :
    w₂.child.conf = w₁.child.conf := by
  unfold Delivers at h h'
  rw [hl] at h'
  split at h'
  · rename_i hp
    rw [if_pos hp] at h
    rw [Child.Env.applyPatch_idem h, Option.some.injEq] at h'
    exact h'.symm
  · exact h'

lemma Delivers.updateWorkerCache {w₁ w₂ : Worker Child} (h : r.Delivers env w w₁)
    (hl : w₁.lastUpdate = w.lastUpdate) (hh : r.updateWorkerCache (Child.exec env) w₁ = some w₂) :
    w₂.child.conf = w₁.child.conf := by
  simp only [Restore.updateWorkerCache] at hh
  split_ifs at hh
  · exact (settled_respects.checkouts hh).1
  · obtain ⟨v, hv, hh⟩ := bind_eq_some_iff.1 hh
    obtain ⟨u, hu, hh⟩ := bind_eq_some_iff.1 hh
    have hg := h.again hl (updateWorkerConfig_delivers hv).1
    have hp := Worker.call_settled hu (by simp)
    rw [(settled_respects.replay hh).1, hp.1, hg]
  · cases hh
    rfl

lemma restore_delivers (h : r.restore (Child.exec env) w = some w') :
    r.Delivers env w w' ∧ w'.lastUpdate = r.update := by
  obtain ⟨w₁, h₁, h⟩ := bind_eq_some_iff.1 h
  obtain ⟨w₂, h₂, h⟩ := bind_eq_some_iff.1 h
  cases h
  obtain ⟨hd, hl⟩ := updateWorkerConfig_delivers h₁
  refine ⟨?_, rfl⟩
  have ho := hd.updateWorkerCache hl h₂
  unfold Delivers at hd ⊢
  rw [ho]
  exact hd

/-- The restorer, one live worker, and the patches the admin service has accepted so far. -/
structure Configured where
  restore : Restore
  worker : Worker Child
  issued : List Document := []

inductive Configured.Event where
  | setConfig (patch : Document)
  | updateCache (state : State)
  | restore

/-- Patches and cache commands arrive at any time; the worker is restored when it comes back. A
restore that fails ends the run. -/
def Configured.step (env : Child.Env) (s : Configured) : Event → Option Configured
  | .setConfig patch =>
    some { s with restore := s.restore.updateConfig patch, issued := s.issued ++ [patch] }
  | .updateCache state => some { s with restore := s.restore.updateCache state }
  | .restore => (s.restore.restore (Child.exec env) s.worker).map fun worker => { s with worker }

def Configured.start (conf : Fields) (projects : List String) : Configured :=
  { restore := withProjects projects, worker := spawned conf }

/-- A patch is issued only when the worker has received the one before it. -/
def Configured.SlotFree (s : Configured) : Event → Prop
  | .setConfig _ => s.restore.config.1 ≤ s.worker.lastUpdate
  | _ => True

/-- Every patch but the one in the slot has reached the worker, and that one too unless it is newer
than the revision of the worker. -/
structure Configured.Delivered (env : Child.Env) (conf : Fields) (s : Configured) : Prop where
  revision : s.worker.lastUpdate ≤ s.restore.update
  stamp : s.restore.config.1 ≤ s.restore.update
  patches : if s.restore.config.1 > s.worker.lastUpdate then
      ∃ earlier, s.issued = earlier ++ [s.restore.config.2] ∧
        env.applyPatches conf earlier = some s.worker.child.conf
    else env.applyPatches conf s.issued = some s.worker.child.conf

lemma Configured.Delivered.restore {c : Fields} {s : Configured} (h : s.Delivered env c)
    (hr : s.restore.restore (Child.exec env) s.worker = some w') :
    env.applyPatches c s.issued = some w'.child.conf := by
  obtain ⟨hd, -⟩ := restore_delivers hr
  have hp := h.patches
  unfold Delivers at hd
  split at hd
  · rename_i he
    rw [if_pos he] at hp
    obtain ⟨e, hi, hl⟩ := hp
    rw [hi, Child.Env.applyPatches_concat, hl]
    exact hd
  · rename_i he
    rw [if_neg he] at hp
    rw [hp, hd]

lemma Configured.Delivered.step {conf : Fields} {s t : Configured} {e : Event}
    (h : s.Delivered env conf) (hfree : s.SlotFree e) (ht : s.step env e = some t) :
    t.Delivered env conf := by
  cases e with
  | setConfig p =>
    cases ht
    have hp := h.patches
    rw [if_neg (Nat.not_lt.2 hfree)] at hp
    refine ⟨h.revision.trans (Nat.le_succ _), le_rfl, ?_⟩
    change if s.restore.update + 1 > s.worker.lastUpdate then _ else _
    rw [if_pos (Nat.lt_succ_of_le h.revision)]
    exact ⟨s.issued, rfl, hp⟩
  | updateCache a =>
    cases ht
    have hle := updateCache_update_le s.restore a
    refine ⟨h.revision.trans hle, ?_, ?_⟩
    · rw [updateCache_config]
      exact h.stamp.trans hle
    · rw [updateCache_config]
      exact h.patches
  | restore =>
    obtain ⟨w', hr, rfl⟩ := map_eq_some_iff.1 ht
    obtain ⟨-, hl⟩ := restore_delivers hr
    refine ⟨hl.le, h.stamp, ?_⟩
    change if s.restore.config.1 > w'.lastUpdate then _ else _
    rw [if_neg (Nat.not_lt.2 (hl ▸ h.stamp))]
    exact h.restore hr

lemma Configured.start_delivered (env : Child.Env) (conf : Fields) (p : List String) :
    (Configured.start conf p).Delivered env conf :=
  ⟨Nat.zero_le _, le_rfl, rfl⟩

/-- No patch is lost in a run where each patch finds the slot delivered: after its next successful
restore the worker runs with every patch accepted so far, applied in order. -/
theorem applyPatches_of_slotFree (env : Child.Env) (conf : Fields) (projects : List String)
    (es : List Configured.Event) (t : Configured)
    (hfree : Along (Configured.step env) Configured.SlotFree (Configured.start conf projects) es)
    (hrun : run (Configured.step env) (Configured.start conf projects) (es ++ [.restore]) = some t) :
    env.applyPatches conf t.issued = some t.worker.child.conf := by
  rw [run_append, bind_eq_some_iff] at hrun
  obtain ⟨s, hes, hl⟩ := hrun
  have hd : s.Delivered env conf := run_invariant (fun _ _ _ h hg ht => h.step hg ht)
    (Configured.start_delivered env conf projects) hfree hes
  obtain ⟨t', ht, he⟩ := run_cons_some.1 hl
  cases he
  obtain ⟨w', hr, rfl⟩ := map_eq_some_iff.1 ht
  exact hd.restore hr

def Configured.ready : Configured :=
  { restore := (withProjects []).updateCache .update
    worker := { spawned [] with lastUpdate := 1 } }

lemma Configured.step_ready : Configured.step .permissive { Configured.start [] [] with
      restore := (withProjects []).updateCache .update } .restore = some Configured.ready := by
  rw [Configured.step, Configured.start, restore_unrestored .permissive rfl rfl rfl]
  rfl

def logLevel : Document := ⟨.obj [("logging", .str "debug")], rfl⟩

def maxProjects : Document := ⟨.obj [("max_projects", .num 25)], rfl⟩

theorem applyPatches_of_slotFree_two_patches :
    ∃ t, run (Configured.step .permissive) (Configured.start [] [])
        ([.updateCache .update, .restore, .setConfig logLevel, .restore, .setConfig maxProjects] ++
          [.restore]) = some t ∧ t.issued = [logLevel, maxProjects] ∧
      Child.Env.permissive.applyPatches [] t.issued = some t.worker.child.conf := by
  have hfree : Along (Configured.step .permissive) Configured.SlotFree (Configured.start [] [])
      [.updateCache .update, .restore, .setConfig logLevel, .restore, .setConfig maxProjects] := by
    refine (along_cons rfl).2 ⟨trivial, (along_cons Configured.step_ready).2 ⟨trivial, ?_⟩⟩
    rw [along_cons rfl, along_cons rfl, along_cons rfl]
    exact ⟨Nat.zero_le _, trivial, le_rfl, trivial⟩
  obtain ⟨t, hr, hi⟩ : ∃ t, run (Configured.step .permissive) (Configured.start [] [])
      (([.updateCache .update, .restore, .setConfig logLevel, .restore, .setConfig maxProjects] :
        List Configured.Event) ++ [Configured.Event.restore]) = some t ∧
      t.issued = [logLevel, maxProjects] := by
    refine ⟨_, run_cons_some.2 ⟨_, rfl, run_cons_some.2 ⟨_, Configured.step_ready, rfl⟩⟩, rfl⟩
  exact ⟨t, hr, hi, applyPatches_of_slotFree _ _ _ _ _ hfree hr⟩

/-- Two patches are accepted while the worker is busy: the first one never reaches it. -/
theorem not_applyPatches_two_pending :
    ∃ t, run (Configured.step .permissive) (Configured.start [] [])
        ([.updateCache .update, .restore, .setConfig logLevel, .setConfig maxProjects] ++
          [.restore]) = some t ∧
      Child.Env.permissive.applyPatches [] t.issued ≠ some t.worker.child.conf := by
  refine ⟨_, run_cons_some.2 ⟨_, rfl, run_cons_some.2 ⟨_, Configured.step_ready, rfl⟩⟩, ?_⟩
  decide

end Restore

end QJazz.Pool
