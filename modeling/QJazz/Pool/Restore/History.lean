import QJazz.Pool.Restore.Model

/-! The revisions of the log increase and are bounded by the current one, and the commands a worker
has not seen are the tail of the log above its revision. -/
namespace QJazz.Pool.Restore
open Config List

def applyAll (r : Restore) (states : List State) : Restore := states.foldl updateCache r

@[simp] lemma applyAll_cons (r : Restore) (c : State) (cs : List State) :
    r.applyAll (c :: cs) = (r.updateCache c).applyAll cs := rfl

/-- What a command does to a set of pulled projects. -/
def State.onSet : State → Finset String → Finset String
  | .pull uri, s => insert uri s
  | .remove uri, s => s.erase uri
  | .clear, _ => ∅
  | .update, s => s

/-- The reference for lazy replay: every command acts on the set as soon as it is issued. -/
def eager (states : List State) (s : Finset String) : Finset String :=
  states.foldl (fun s c => c.onSet s) s

lemma eager_concat (cs : List State) (c : State) (s : Finset String) :
    eager (cs ++ [c]) s = c.onSet (eager cs s) := by
  simp [eager]

lemma updateCache_pulls (r : Restore) (c : State) : (r.updateCache c).pulls = c.onSet r.pulls := by
  cases c with
  | pull uri =>
    by_cases h : uri ∈ r.pulls
    · simp [updateCache, State.onSet, h]
    · simp [updateCache, record, State.onSet, h]
  | remove uri =>
    by_cases h : uri ∈ r.pulls
    · simp [updateCache, record, State.onSet, h]
    · simp [updateCache, State.onSet, h]
  | clear | update => rfl

lemma applyAll_pulls (r : Restore) (cs : List State) :
    (r.applyAll cs).pulls = eager cs r.pulls := by
  induction cs generalizing r with
  | nil => rfl
  | cons c cs ih =>
    rw [applyAll_cons, ih, updateCache_pulls]
    rfl

def State.effective (s : Finset String) : State → Bool
  | .pull uri => uri ∉ s
  | .remove uri => uri ∈ s
  | .clear => true
  | .update => true

lemma updateCache_noop {r : Restore} {c : State} (h : c.effective r.pulls = false) :
    r.updateCache c = r := by
  cases c with
  | pull uri | remove uri => exact if_pos (by simpa [State.effective] using h)
  | clear | update => simp [State.effective] at h

lemma updateCache_update {r : Restore} {c : State} (h : c.effective r.pulls) :
    (r.updateCache c).update = r.update + 1 := by
  cases c with
  | pull uri | remove uri => simp_all [State.effective, updateCache, record]
  | clear | update => rfl

lemma updateCache_update_le (r : Restore) (c : State) : r.update ≤ (r.updateCache c).update := by
  cases h : c.effective r.pulls with
  | true => rw [updateCache_update h]; omega
  | false => rw [updateCache_noop h]

lemma updateCache_config (r : Restore) (c : State) : (r.updateCache c).config = r.config := by
  cases c with
  | pull uri | remove uri => simp only [updateCache]; split <;> rfl
  | clear | update => rfl

lemma applyAll_config (r : Restore) (cs : List State) : (r.applyAll cs).config = r.config := by
  induction cs generalizing r with
  | nil => rfl
  | cons c cs ih => rw [applyAll_cons, ih, updateCache_config]

lemma updateCache_states {r : Restore} {c : State} (h : c.effective r.pulls) :
    (r.updateCache c).states = (if c = .clear then [] else r.states) ++
        (if c = .update then [] else [(r.update + 1, c)]) := by
  cases c with
  | pull uri | remove uri => simp_all [State.effective, updateCache, record]
  | clear => simp [updateCache, record]
  | update => simp [updateCache]

/-- The revisions of the log increase strictly and do not exceed the current one. -/
structure LogOrdered (r : Restore) : Prop where
  increasing : r.states.Pairwise fun a b => a.1 < b.1
  bounded : ∀ entry ∈ r.states, entry.1 ≤ r.update

lemma withProjects_ordered (p : List String) : (withProjects p).LogOrdered :=
  ⟨List.Pairwise.nil, by simp [withProjects]⟩

lemma LogOrdered.updateCache {r : Restore} (h : r.LogOrdered) (c : State) :
    (r.updateCache c).LogOrdered := by
  cases he : c.effective r.pulls with
  | false => rwa [updateCache_noop he]
  | true =>
    have ho : (if c = .clear then [] else r.states) ⊆ r.states := by split <;> simp
    have hi : (if c = .clear then [] else r.states).Pairwise fun a b => a.1 < b.1 := by
      split
      · exact List.Pairwise.nil
      · exact h.increasing
    constructor
    · rw [updateCache_states he, pairwise_append]
      refine ⟨hi, by split <;> simp, fun a ha b hb => ?_⟩
      have hle := h.bounded a (ho ha)
      split at hb
      · simp at hb
      · rw [mem_singleton.1 hb]
        exact Nat.lt_succ_of_le hle
    · intro e hentry
      rw [updateCache_states he, mem_append] at hentry
      rw [updateCache_update he]
      rcases hentry with hentry | hentry
      · exact (h.bounded e (ho hentry)).trans (Nat.le_succ _)
      · split at hentry
        · simp at hentry
        · rw [mem_singleton.1 hentry]

lemma LogOrdered.applyAll {r : Restore} (h : r.LogOrdered) (cs : List State) :
    (r.applyAll cs).LogOrdered := by
  induction cs generalizing r with
  | nil => exact h
  | cons c cs ih => exact ih (h.updateCache c)

def pending (r : Restore) (lastUpdate : ℕ) : List State :=
  (r.states.filter fun entry => lastUpdate < entry.1).map Prod.snd

lemma LogOrdered.pending_self {r : Restore} (h : r.LogOrdered) : r.pending r.update = [] := by
  have hn : (r.states.filter fun e => r.update < e.1) = [] := by
    rw [filter_eq_nil_iff]
    intro e hentry
    simpa using h.bounded e hentry
  rw [pending, hn, map_nil]

lemma pending_updateCache {r : Restore} {c : State} {l : ℕ}
    (hl : l ≤ r.update) (he : c.effective r.pulls) : (r.updateCache c).pending l =
      (if c = .clear then [] else r.pending l) ++ (if c = .update then [] else [c]) := by
  have hlt := Nat.lt_succ_of_le hl
  rw [pending, updateCache_states he, filter_append, map_append]
  congr 1
  · split <;> simp [pending]
  · split <;> simp [hlt]

lemma takeWhile_reverse_of_increasing {s : List (ℕ × State)} {l : ℕ}
    (h : s.Pairwise fun a b => a.1 < b.1) : s.reverse.takeWhile (fun n => l < n.1) =
      (s.filter fun n => l < n.1).reverse := by
  rw [← filter_reverse]
  have hd := pairwise_reverse.2 h
  generalize s.reverse = newest at hd
  induction newest with
  | nil => rfl
  | cons n r ih =>
    rw [pairwise_cons] at hd
    by_cases hlt : l < n.1
    · simp [hlt, ih hd.2]
    · have hr : r.filter (fun e => l < e.1) = [] := by
        rw [filter_eq_nil_iff]
        intro e he
        have := hd.1 e he
        simp only [decide_eq_true_eq]
        omega
      simp [hlt, hr]

section Messages
variable {χ : Type*} (exec : WorkerCall → χ → Option χ)

lemma replay_eq_foldlM (l : ℕ) (n : List (ℕ × State)) (w : Worker χ) : replay exec l n w =
      ((n.takeWhile fun e => l < e.1).map Prod.snd).foldlM (State.apply exec) w := by
  induction n generalizing w with
  | nil => rfl
  | cons e r ih =>
    rw [replay]
    by_cases hle : e.1 ≤ l
    · rw [if_pos hle, takeWhile_cons_of_neg (by simpa using hle)]
      rfl
    · rw [if_neg hle, takeWhile_cons_of_pos (by simpa using hle), map_cons, foldlM_cons]
      exact Option.bind_congr fun w _ => ih w

lemma LogOrdered.replay_eq {r : Restore} (h : r.LogOrdered) (l : ℕ) (w : Worker χ) :
    replay exec l r.states.reverse w = (r.pending l).reverse.foldlM (State.apply exec) w := by
  rw [replay_eq_foldlM, takeWhile_reverse_of_increasing h.increasing, map_reverse, pending]

end Messages

inductive Call where
  | updateCache (state : State)
  | updateConfig (config : Document)

def Call.apply (r : Restore) : Call → Restore
  | updateCache state => r.updateCache state
  | updateConfig config => r.updateConfig config

def Call.command : Call → Option State
  | updateCache state => some state
  | updateConfig _ => none

lemma LogOrdered.call {r : Restore} (h : r.LogOrdered) (c : Call) : (c.apply r).LogOrdered := by
  cases c with
  | updateCache s => exact h.updateCache s
  | updateConfig o => exact ⟨h.increasing, fun e he => (h.bounded e he).trans (Nat.le_succ _)⟩

lemma LogOrdered.calls {r : Restore} (h : r.LogOrdered) (cs : List Call) :
    (cs.foldl Call.apply r).LogOrdered := by
  induction cs generalizing r with
  | nil => exact h
  | cons c cs ih => exact ih (h.call c)

lemma pulls_calls (r : Restore) (cs : List Call) :
    (cs.foldl Call.apply r).pulls = eager (cs.filterMap Call.command) r.pulls := by
  induction cs generalizing r with
  | nil => rfl
  | cons c cs ih =>
    rw [foldl_cons, ih]
    cases c with
    | updateCache s =>
      rw [Call.apply, updateCache_pulls]
      rfl
    | updateConfig o => rfl

/-- After any calls the log is ordered, the pulled projects are those of its commands, and a scan
visits the entries above the revision of the worker. -/
theorem log_of_calls {χ : Type*} (projects : List String) (calls : List Call)
    (exec : WorkerCall → χ → Option χ) (lastUpdate : ℕ) (w : Worker χ) :
    let r := calls.foldl Call.apply (withProjects projects)
    r.states.Pairwise (fun a b => a.1 < b.1) ∧ (∀ entry ∈ r.states, entry.1 ≤ r.update) ∧
      r.pulls = eager (calls.filterMap Call.command) projects.toFinset ∧
      replay exec lastUpdate r.states.reverse w =
        (r.pending lastUpdate).reverse.foldlM (State.apply exec) w := by
  have ho := (withProjects_ordered projects).calls calls
  exact ⟨ho.increasing, ho.bounded, pulls_calls _ _, ho.replay_eq exec lastUpdate w⟩

end QJazz.Pool.Restore
