import QJazz.Pool.Restore.History
import Mathlib.Algebra.Group.Nat.Even

/-! The restorer walks the log from its newest entry, so the pending commands reach a worker in the
reverse of the order they were issued in. -/
namespace QJazz.Pool.Restore
open Config List

def State.names (uri : String) : State → Bool
  | .pull u => u = uri
  | .remove u => u = uri
  | .clear => false
  | .update => false

/-- A log whose commands all changed the set they were issued on: only the first command can be a
`Clear`, because a `Clear` empties the log. -/
def Kept : Finset String → List State → Prop
  | _, [] => True
  | s, c :: cs => c.effective s = true ∧ c ≠ .update ∧ .clear ∉ cs ∧ Kept (c.onSet s) cs

lemma State.mem_onSet_of_not_names {uri : String} {c : State} {s : Finset String}
    (hn : c.names uri = false) (hc : c ≠ .clear) : uri ∈ c.onSet s ↔ uri ∈ s := by
  cases c with
  | pull u | remove u =>
    have hne : ¬uri = u := by simpa [names, eq_comm] using hn
    simp [onSet, hne]
  | clear => exact absurd rfl hc
  | update => rfl

lemma State.mem_onSet_of_names {uri : String} {c : State} {s : Finset String}
    (hn : c.names uri) (he : c.effective s) (t : Finset String) :
    uri ∈ c.onSet t ↔ uri ∉ s := by
  cases c with
  | pull u =>
    obtain rfl : u = uri := by simpa [names] using hn
    have hu : u ∉ s := by simpa [effective] using he
    simp [onSet, hu]
  | remove u =>
    obtain rfl : u = uri := by simpa [names] using hn
    have hu : u ∈ s := by simpa [effective] using he
    simp [onSet, hu]
  | clear | update => simp [names] at hn

lemma mem_eager_iff_even {uri : String} {cs : List State} {s : Finset String}
    (hk : Kept s cs) (hc : .clear ∉ cs) :
    uri ∈ eager cs s ↔ (uri ∈ s ↔ Even (cs.countP (·.names uri))) := by
  induction cs generalizing s with
  | nil => simp [eager]
  | cons c cs ih =>
    obtain ⟨he, -, -, hr⟩ := hk
    rw [mem_cons, not_or] at hc
    change uri ∈ eager cs (c.onSet s) ↔ _
    rw [ih hr hc.2]
    cases hn : c.names uri with
    | true =>
      rw [State.mem_onSet_of_names hn he, countP_cons_of_pos hn, Nat.even_add_one]
      tauto
    | false =>
      rw [State.mem_onSet_of_not_names hn (Ne.symm hc.1), countP_cons_of_neg (by simp [hn])]

lemma mem_foldr_iff_count {uri : String} {cs : List State} {s t : Finset String}
    (hk : Kept s cs) (hc : .clear ∉ cs) (ht : uri ∈ t ↔ uri ∈ s) :
    uri ∈ cs.foldr State.onSet t ↔ (uri ∈ s ↔ cs.countP (·.names uri) = 0) := by
  induction cs generalizing s with
  | nil => simp [ht]
  | cons c cs ih =>
    obtain ⟨he, -, -, hr⟩ := hk
    rw [mem_cons, not_or] at hc
    rw [foldr_cons]
    cases hn : c.names uri with
    | true =>
      rw [State.mem_onSet_of_names hn he, countP_cons_of_pos hn]
      simp
    | false =>
      have hs : uri ∈ c.onSet s ↔ uri ∈ s := State.mem_onSet_of_not_names hn (Ne.symm hc.1)
      rw [State.mem_onSet_of_not_names hn (Ne.symm hc.1), ih hr hc.2 (ht.trans hs.symm), hs,
        countP_cons_of_neg (by simp [hn])]

lemma foldr_eq_eager_iff_of_no_clear {cs : List State} {s : Finset String}
    (hk : Kept s cs) (hc : .clear ∉ cs) : cs.foldr State.onSet s = eager cs s ↔
      ∀ uri, Even (cs.countP (·.names uri)) → cs.countP (·.names uri) = 0 := by
  rw [Finset.ext_iff]
  refine forall_congr' fun uri => ?_
  rw [mem_eager_iff_even hk hc, mem_foldr_iff_count hk hc Iff.rfl]
  have hz : cs.countP (·.names uri) = 0 → Even (cs.countP (·.names uri)) := by
    intro h
    rw [h]
    exact Even.zero
  tauto

lemma foldr_of_clear {cs : List State} {s : Finset String} (hk : Kept s cs) (hc : .clear ∈ cs) :
    cs.foldr State.onSet s = ∅ := by
  cases cs with
  | nil => simp at hc
  | cons c cs =>
    rcases mem_cons.1 hc with rfl | ht
    · rfl
    · exact absurd ht hk.2.2.1

lemma Kept.concat {c : State} {cs : List State} {s : Finset String} (hk : Kept s cs)
    (he : c.effective (eager cs s)) (hu : c ≠ .update) (hc : c ≠ .clear) :
    Kept s (cs ++ [c]) := by
  induction cs generalizing s with
  | nil => exact ⟨he, hu, by simp, trivial⟩
  | cons d cs ih =>
    obtain ⟨hd, hdu, hdc, hr⟩ := hk
    refine ⟨hd, hdu, ?_, ih hr he⟩
    simp [hdc, Ne.symm hc]

/-- The unseen commands, as the log keeps them, lead from the set of the worker to the current one. -/
structure PendingFrom (s : Finset String) (lastUpdate : ℕ) (r : Restore) : Prop where
  seen : lastUpdate ≤ r.update
  kept : Kept s (r.pending lastUpdate)
  reaches : eager (r.pending lastUpdate) s = r.pulls

lemma LogOrdered.pendingFrom {r : Restore} (h : r.LogOrdered) :
    PendingFrom r.pulls r.update r := by
  refine ⟨le_rfl, ?_, ?_⟩ <;> rw [h.pending_self]
  · trivial
  · rfl

lemma PendingFrom.updateCache {s : Finset String} {l : ℕ} {r : Restore}
    (h : PendingFrom s l r) (c : State) : PendingFrom s l (r.updateCache c) := by
  cases he : c.effective r.pulls with
  | false => rwa [updateCache_noop he]
  | true =>
    have hn := h.seen.trans (updateCache_update_le r c)
    have ho := pending_updateCache h.seen he
    have hp := updateCache_pulls r c
    by_cases hl : c = .clear
    · subst c
      simp only [if_true, reduceCtorEq, if_false, nil_append] at ho
      refine ⟨hn, ?_, ?_⟩ <;> rw [ho]
      · exact ⟨rfl, by simp, by simp, trivial⟩
      · rfl
    by_cases hu : c = .update
    · subst c
      simp only [reduceCtorEq, if_false, if_true, append_nil] at ho
      exact ⟨hn, ho ▸ h.kept, by rw [ho, h.reaches]; rfl⟩
    · simp only [hl, hu, if_false] at ho
      refine ⟨hn, ?_, ?_⟩ <;> rw [ho]
      · exact h.kept.concat (h.reaches ▸ he) hu hl
      · rw [hp, eager_concat, h.reaches]

lemma PendingFrom.applyAll {s : Finset String} {l : ℕ} {r : Restore}
    (h : PendingFrom s l r) (cs : List State) : PendingFrom s l (r.applyAll cs) := by
  induction cs generalizing r with
  | nil => exact h
  | cons c cs ih => exact ih (h.updateCache c)

section Child
variable {env : Child.Env} {w : Worker Child}

lemma State.apply_child (c : State) (h : w.alive) :
    c.apply (Child.exec env) w = some (w.setPulled (c.onSet w.child.pulled)) := by
  cases c with
  | pull uri => exact Worker.call_checkout h
  | remove uri => exact Worker.call_drop h
  | clear => exact Worker.call_clear h
  | update => rfl

lemma foldlM_apply_child (cs : List State) (h : w.alive) :
    cs.foldlM (State.apply (Child.exec env)) w =
      some (w.setPulled (cs.foldl (fun s c => c.onSet s) w.child.pulled)) := by
  induction cs generalizing w with
  | nil => rfl
  | cons c cs ih =>
    rw [foldlM_cons, State.apply_child _ h]
    exact ih (by simpa using h)

lemma LogOrdered.restore_child (env : Child.Env) {r : Restore} (ho : r.LogOrdered) (h : w.alive)
    (hp : w.lastUpdate ≠ 0) (hf : r.config.1 ≤ w.lastUpdate)
    (hle : w.lastUpdate ≤ r.update) : r.restore (Child.exec env) w =
      some { w.setPulled ((r.pending w.lastUpdate).foldr State.onSet w.child.pulled) with
        lastUpdate := r.update } := by
  have hn : r.updateWorkerConfig (Child.exec env) w = some w := if_neg (by omega)
  have hh : r.updateWorkerCache (Child.exec env) w =
      some (w.setPulled ((r.pending w.lastUpdate).foldr State.onSet w.child.pulled)) := by
    rw [updateWorkerCache]
    simp only [hp, if_false]
    rcases Nat.lt_or_eq_of_le hle with hlt | heq
    · rw [if_pos hlt, hn]
      simp only [Option.bind_eq_bind, Option.bind_some, Worker.call_update h]
      rw [ho.replay_eq, foldlM_apply_child _ h, foldl_reverse]
    · rw [if_neg (by omega), heq, ho.pending_self]
      rfl
  simp [restore, hn, hh]

end Child

/-- When replaying the log backwards gives the right set: a pending `Clear` must leave nothing to
pull, and without one no project may be named by an even number of pending commands. -/
def ReplayFaithful (r : Restore) (lastUpdate : ℕ) : Prop :=
  if .clear ∈ r.pending lastUpdate then r.pulls = ∅
  else ∀ uri, Even ((r.pending lastUpdate).countP (·.names uri)) →
    (r.pending lastUpdate).countP (·.names uri) = 0

lemma PendingFrom.foldr_eq_iff {s : Finset String} {lastUpdate : ℕ} {r : Restore}
    (h : PendingFrom s lastUpdate r) :
    (r.pending lastUpdate).foldr State.onSet s = r.pulls ↔ r.ReplayFaithful lastUpdate := by
  by_cases hc : .clear ∈ r.pending lastUpdate
  · rw [ReplayFaithful, if_pos hc, foldr_of_clear h.kept hc, eq_comm]
  · rw [ReplayFaithful, if_neg hc, ← foldr_eq_eager_iff_of_no_clear h.kept hc, h.reaches]

/-- Restoring the worker at the end of the history gives it the set that the commands issued since
its last restore make one by one. -/
def ReplaysEagerly (env : Child.Env) (r : Restore) (issued : List State) (w : Worker Child) : Prop :=
  ∃ w', (r.applyAll issued).restore (Child.exec env) w = some w' ∧
    w'.child.pulled = eager issued w.child.pulled ∧
    w'.child.pulled = (r.applyAll issued).pulls

/-- Lazy replay equals eager application exactly when the log is faithful to its reversal. -/
theorem replaysEagerly_iff_faithful (env : Child.Env) (projects : List String)
    (before issued : List State) (w : Worker Child) (halive : w.alive = true)
    (hpos : 1 ≤ w.lastUpdate)
    (hlast : w.lastUpdate = ((withProjects projects).applyAll before).update)
    (hpulled : w.child.pulled = ((withProjects projects).applyAll before).pulls) :
    ReplaysEagerly env ((withProjects projects).applyAll before) issued w ↔
      (((withProjects projects).applyAll before).applyAll issued).ReplayFaithful w.lastUpdate := by
  have he : ((withProjects projects).applyAll before).config.1 = 0 := by
    rw [applyAll_config]
    rfl
  have ho := (withProjects_ordered projects).applyAll before
  generalize (withProjects projects).applyAll before = r at *
  have hp : PendingFrom w.child.pulled w.lastUpdate (r.applyAll issued) := by
    rw [hpulled, hlast]
    exact ho.pendingFrom.applyAll issued
  have hn : (r.applyAll issued).config.1 ≤ w.lastUpdate := by
    rw [applyAll_config, he]
    exact Nat.zero_le _
  have hr := (ho.applyAll issued).restore_child env halive (by omega) hn
    hp.seen
  have hu : (r.applyAll issued).pulls = eager issued w.child.pulled := by
    rw [applyAll_pulls, hpulled]
  rw [← hp.foldr_eq_iff, ReplaysEagerly, hr, ← hu]
  simp

def pulledOnce : Worker Child := { child := ⟨{"/a"}, []⟩, lastUpdate := 1 }

theorem replaysEagerly_remove_pull_remove :
    ReplaysEagerly .permissive ((withProjects []).applyAll [.pull "/a"])
      [.remove "/a", .pull "/a", .pull "/b", .remove "/a"] pulledOnce := by
  refine (replaysEagerly_iff_faithful .permissive [] [.pull "/a"]
    [.remove "/a", .pull "/a", .pull "/b", .remove "/a"] pulledOnce rfl (by decide) (by decide)
    (by decide)).2 ?_
  have hl : ((((withProjects []).applyAll [.pull "/a"]).applyAll
      [.remove "/a", .pull "/a", .pull "/b", .remove "/a"]).pending pulledOnce.lastUpdate) =
      [.remove "/a", .pull "/a", .pull "/b", .remove "/a"] := by decide
  rw [ReplayFaithful, hl, if_neg (by decide)]
  intro uri
  by_cases ha : "/a" = uri
  · subst uri
    decide
  by_cases hb : "/b" = uri
  · subst uri
    decide
  · simp [State.names, ha, hb]

/-- Two commands about one project while the worker is away: it was dropped last, and the worker
ends up with it. -/
theorem not_replaysEagerly_pull_remove : (1 ≤ pulledOnce.lastUpdate ∧
      pulledOnce.lastUpdate = ((withProjects []).applyAll [.pull "/a"]).update ∧
      pulledOnce.child.pulled = ((withProjects []).applyAll [.pull "/a"]).pulls) ∧
    ¬ReplaysEagerly .permissive ((withProjects []).applyAll [.pull "/a"])
      [.pull "/b", .remove "/b"] pulledOnce := by
  refine ⟨by decide, ?_⟩
  rintro ⟨w', hr, he, -⟩
  have hg : ((((withProjects []).applyAll [.pull "/a"]).applyAll
      [.pull "/b", .remove "/b"]).restore (Child.exec .permissive) pulledOnce).map
      (·.child.pulled) = some {"/a", "/b"} := by decide
  rw [hr, Option.map_some, he] at hg
  revert hg
  decide

end QJazz.Pool.Restore
