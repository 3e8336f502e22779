import QJazz.Pool.Restore.Replay
import QJazz.Transition.Run

/-! A worker that is restored after each single command never has more than one pending. -/
namespace QJazz.Pool.Restore
open Config Transition

variable {env : Child.Env} {conf : Fields} {w : Worker Child}

def spawned (conf : Fields) : Worker Child := { child := ⟨∅, conf⟩ }

lemma foldlM_checkout (u : List String) (h : w.alive) :
    u.foldlM (fun w uri => w.call (Child.exec env) (.checkoutProject uri true)) w =
      some (w.setPulled (w.child.pulled ∪ u.toFinset)) := by
  induction u generalizing w with
  | nil => simp
  | cons uri u ih =>
    rw [List.foldlM_cons, Worker.call_checkout h]
    change u.foldlM _ (w.setPulled (insert uri w.child.pulled)) = _
    rw [ih (by simpa using h)]
    simp [Finset.insert_union, Finset.union_insert]

lemma restore_unrestored (env : Child.Env) {r : Restore} (hn : r.config.1 = 0) (h : w.alive)
    (hz : w.lastUpdate = 0) : r.restore (Child.exec env) w =
      some { w.setPulled (w.child.pulled ∪ r.pulls) with lastUpdate := r.update } := by
  have ho : r.updateWorkerConfig (Child.exec env) w = some w := if_neg (by omega)
  have hh : r.updateWorkerCache (Child.exec env) w =
      some (w.setPulled (w.child.pulled ∪ r.pulls)) := by
    rw [updateWorkerCache]
    simp only [hz, if_true]
    rw [foldlM_checkout _ h, Finset.sort_toFinset]
  simp [restore, ho, hh]

/-- The restorer and the worker that follows it command by command. -/
structure Tracked where
  restore : Restore
  worker : Worker Child

def Tracked.start (env : Child.Env) (conf : Fields) (projects : List String) : Option Tracked :=
  ((withProjects projects).restore (Child.exec env) (spawned conf)).map fun w =>
    ⟨withProjects projects, w⟩

def Tracked.step (env : Child.Env) (s : Tracked) (c : State) : Option Tracked :=
  ((s.restore.updateCache c).restore (Child.exec env) s.worker).map fun w =>
    ⟨s.restore.updateCache c, w⟩

/-- The worker holds the pulled projects, and so does a worker spawned and restored just now. -/
def Tracked.Agrees (env : Child.Env) (conf : Fields) (s : Tracked) : Prop :=
  s.worker.child.pulled = s.restore.pulls ∧
    ∃ fresh, s.restore.restore (Child.exec env) (spawned conf) = some fresh ∧
      fresh.child.pulled = s.worker.child.pulled

/-- What every restore leaves behind. -/
structure Tracked.UpToDate (s : Tracked) : Prop where
  alive : s.worker.alive = true
  revision : s.worker.lastUpdate = s.restore.update
  ordered : s.restore.LogOrdered
  config : s.restore.config.1 = 0

lemma Tracked.agrees_iff {s : Tracked} (h : s.UpToDate) :
    s.Agrees env conf ↔ s.worker.child.pulled = s.restore.pulls := by
  have hf := restore_unrestored env (w := spawned conf) h.config rfl rfl
  constructor
  · exact fun h => h.1
  · intro heq
    refine ⟨heq, _, hf, ?_⟩
    simp [heq, spawned]

/-- Whether a command takes a project of the set away. -/
def State.Shrinks (s : Finset String) : State → Prop
  | .remove uri => uri ∈ s
  | .clear => s ≠ ∅
  | _ => False

lemma State.subset_onSet_iff (c : State) (s : Finset String) : s ⊆ c.onSet s ↔ ¬c.Shrinks s := by
  cases c with
  | pull uri => simp [onSet, Shrinks]
  | remove uri =>
    simp only [onSet, Shrinks]
    constructor
    · exact fun hu huri => Finset.notMem_erase uri s (hu huri)
    · exact fun huri => (Finset.erase_eq_of_notMem huri).ge
  | clear | update => simp [onSet, Shrinks]

lemma Tracked.step_eq (env : Child.Env) {s : Tracked} (h : s.UpToDate) (c : State) :
    s.step env c = some ⟨s.restore.updateCache c,
      { s.worker.setPulled (if s.restore.update = 0 then s.worker.child.pulled ∪ c.onSet s.restore.pulls
          else if c.effective s.restore.pulls then c.onSet s.worker.child.pulled
          else s.worker.child.pulled) with lastUpdate := (s.restore.updateCache c).update }⟩ := by
  have ho : (s.restore.updateCache c).config.1 = 0 := by rw [updateCache_config, h.config]
  unfold step
  by_cases hz : s.restore.update = 0
  · rw [restore_unrestored env ho h.alive (h.revision.trans hz), updateCache_pulls, if_pos hz]
    rfl
  · rw [if_neg hz, (h.ordered.updateCache c).restore_child env h.alive (by rwa [h.revision])
      (by omega) (h.revision ▸ updateCache_update_le _ c)]
    cases he : c.effective s.restore.pulls with
    | false => simp [updateCache_noop he, h.revision, h.ordered.pending_self]
    | true =>
      rw [h.revision, pending_updateCache le_rfl he, h.ordered.pending_self]
      cases c <;> simp [State.onSet]

lemma Tracked.step_restore {s t : Tracked} {c : State} (ht : s.step env c = some t) :
    t.restore = s.restore.updateCache c := by
  obtain ⟨w, -, rfl⟩ := Option.map_eq_some_iff.1 ht
  rfl

lemma Tracked.UpToDate.step {s t : Tracked} {c : State} (h : s.UpToDate)
    (ht : s.step env c = some t) : t.UpToDate := by
  rw [step_eq env h, Option.some.injEq] at ht
  subst t
  exact ⟨h.alive, rfl, h.ordered.updateCache c, by rw [updateCache_config, h.config]⟩

/-- The worker is past revision zero, or the command takes nothing away. -/
def Tracked.Safe (s : Tracked) (c : State) : Prop :=
  s.restore.update = 0 → ¬c.Shrinks s.restore.pulls

lemma Tracked.agrees_step_iff {s t : Tracked} {c : State} (h : s.UpToDate)
    (hs : s.Agrees env conf) (ht : s.step env c = some t) : t.Agrees env conf ↔ s.Safe c := by
  rw [agrees_iff (h.step ht), Safe, ← State.subset_onSet_iff]
  rw [step_eq env h, Option.some.injEq] at ht
  subst t
  rw [updateCache_pulls, hs.1]
  by_cases hz : s.restore.update = 0
  · simp [hz]
  · cases he : c.effective s.restore.pulls with
    | true => simp [hz]
    | false =>
      have hm := updateCache_pulls s.restore c
      rw [updateCache_noop he] at hm
      simp [hz, ← hm]

/-- The first command that makes a revision takes no initial project away. -/
def KeepsInitial (projects : List String) (cs : List State) : Prop :=
  ∀ c, cs.find? (·.effective projects.toFinset) = some c → ¬c.Shrinks projects.toFinset

lemma Tracked.along_safe_of_restored {s : Tracked} (hp : s.restore.update ≠ 0) (cs : List State) :
    Along (Tracked.step env) Tracked.Safe s cs := by
  induction cs generalizing s with
  | nil => trivial
  | cons c cs ih =>
    intro t ht
    refine ⟨fun hz => absurd hz hp, ih ?_⟩
    have hle := updateCache_update_le s.restore c
    rw [step_restore ht]
    omega

lemma Tracked.along_safe_iff (env : Child.Env) {s : Tracked} (h : s.UpToDate) (hz : s.restore.update = 0)
    {p : List String} (hp : s.restore.pulls = p.toFinset) (cs : List State) :
    Along (Tracked.step env) Tracked.Safe s cs ↔ KeepsInitial p cs := by
  induction cs generalizing s with
  | nil => simp [Along, KeepsInitial]
  | cons c cs ih =>
    obtain ⟨t, ht⟩ : ∃ t, s.step env c = some t := ⟨_, step_eq env h c⟩
    rw [along_cons ht]
    cases he : c.effective s.restore.pulls with
    | false =>
      have hm : t.restore = s.restore := by rw [step_restore ht, updateCache_noop he]
      have hf : s.Safe c := fun _ => by
        rw [← State.subset_onSet_iff, ← updateCache_pulls, updateCache_noop he]
      have hi : KeepsInitial p (c :: cs) ↔ KeepsInitial p cs := by
        rw [hp] at he
        simp [KeepsInitial, he]
      rw [hi, ih (h.step ht) (hm ▸ hz) (hm ▸ hp)]
      exact and_iff_right hf
    | true =>
      have ho : t.restore.update ≠ 0 := by rw [step_restore ht, updateCache_update he]; omega
      have hi : KeepsInitial p (c :: cs) ↔ ¬c.Shrinks s.restore.pulls := by
        rw [hp] at he ⊢
        simp [KeepsInitial, he]
      rw [hi, and_iff_left (along_safe_of_restored ho cs)]
      exact ⟨fun hf => hf hz, fun hk _ => hk⟩

lemma Tracked.start_eq (env : Child.Env) (conf : Fields) (p : List String) :
    Tracked.start env conf p = some ⟨withProjects p, (spawned conf).setPulled p.toFinset⟩ := by
  rw [start, restore_unrestored env rfl rfl rfl]
  simp [spawned, withProjects, Worker.setPulled]

/-- A worker restored after the spawn and after every single command holds the pulled projects all
along, exactly when the first new revision takes no initial project away. -/
theorem always_agrees_iff_keepsInitial (env : Child.Env) (conf : Fields) (projects : List String)
    (cs : List State) : (∃ s, Tracked.start env conf projects = some s ∧
      Always (Tracked.step env) (Tracked.Agrees env conf) s cs) ↔ KeepsInitial projects cs := by
  have hup : Tracked.UpToDate ⟨withProjects projects, (spawned conf).setPulled projects.toFinset⟩ :=
    ⟨rfl, rfl, withProjects_ordered projects, rfl⟩
  have hg : Tracked.Agrees env conf
      ⟨withProjects projects, (spawned conf).setPulled projects.toFinset⟩ :=
    (Tracked.agrees_iff hup).2 rfl
  rw [Tracked.start_eq]
  simp only [Option.some.injEq, exists_eq_left']
  rw [← Tracked.along_safe_iff env hup rfl rfl cs]
  exact always_iff_along (fun _ _ _ h ht => h.step ht)
    (fun _ _ _ h hs ht => Tracked.agrees_step_iff h hs ht) hup hg

/-- The only initial project is dropped by the first command; the worker keeps it. -/
theorem not_always_agrees_remove : ¬∃ s, Tracked.start .permissive [] ["/a"] = some s ∧
      Always (Tracked.step .permissive) (Tracked.Agrees .permissive []) s [.remove "/a"] := by
  rintro ⟨s, hr, hg, hn⟩
  rw [Tracked.start_eq, Option.some.injEq] at hr
  subst s
  have hup : Tracked.UpToDate ⟨withProjects ["/a"], (spawned []).setPulled ["/a"].toFinset⟩ :=
    ⟨rfl, rfl, withProjects_ordered _, rfl⟩
  have ht := Tracked.step_eq .permissive hup (.remove "/a")
  have hf := (Tracked.agrees_step_iff hup hg ht).1 (hn _ ht)
  exact hf rfl (by simp [State.Shrinks, withProjects])

end QJazz.Pool.Restore
