import QJazz.Pool.Recycling.Model

/-! The generation of a worker is compared once, before the awaits of its recycling. -/
namespace QJazz.Pool.Recycling
open Config Transition List

variable {χ : Type*} {exec : WorkerCall → χ → Option χ}

def Current (s : Recycling χ) (w : Worker χ) : Prop := s.queue.generation ≤ w.generation

def isReloading : Task χ → ℕ
  | .reloading => 1
  | _ => 0

/-- No idle worker is older than the current generation, unless a reload is in progress. -/
def Retired (s : Recycling χ) : Prop :=
  total isReloading s.tasks = 0 → ∀ w ∈ s.queue.q, s.Current w

def TransitCurrent (s : Recycling χ) : Event χ → Prop
  | .act i _ _ => ∀ task ∈ s.tasks[i]?, isReloading task = 1 →
    ∀ task ∈ s.tasks, ∀ w ∈ task.transit, s.Current w
  | _ => True

instance (s : Recycling χ) (w : Worker χ) : Decidable (s.Current w) :=
  inferInstanceAs (Decidable (_ ≤ _))

instance (s : Recycling χ) : (e : Event χ) → Decidable (s.TransitCurrent e)
  | .act i _ _ => inferInstanceAs (Decidable (∀ task ∈ s.tasks[i]?, isReloading task = 1 →
      ∀ task ∈ s.tasks, ∀ w ∈ task.transit, s.Current w))
  | .recv | .grow _ | .reload | .update _ => isTrue trivial

structure UpToGeneration (s : Recycling χ) : Prop where
  idle : ∀ w ∈ s.queue.q, s.Current w
  transit : ∀ task ∈ s.tasks, ∀ w ∈ task.transit, s.Current w

variable {s t : Recycling χ} {i k : ℕ} {ok : Bool} {task : Task χ}

lemma UpToGeneration.become (h : s.UpToGeneration) (ht : ∀ w ∈ task.transit, s.Current w) :
    (s.become i task).UpToGeneration := by
  refine ⟨h.idle, fun a hm => ?_⟩
  rcases mem_or_eq_of_mem_set hm with hm | rfl
  exacts [h.transit a hm, ht]

lemma UpToGeneration.finish (h : s.UpToGeneration) {u : WorkerQueue χ}
    (hg : u.generation = s.queue.generation) (hi : ∀ w ∈ u.q, w ∈ s.queue.q ∨ s.Current w) :
    ((s.withQueue u).become i .ended).UpToGeneration := by
  have hu : ∀ w, ((s.withQueue u).become i .ended).Current w ↔ s.Current w := fun w => by
    change u.generation ≤ w.generation ↔ _
    rw [hg]
    rfl
  refine ⟨fun w hw => (hu w).2 ?_, fun task hm w hw => (hu w).2 ?_⟩
  · exact (hi w hw).elim (h.idle w) id
  · rcases mem_or_eq_of_mem_set hm with hm | rfl
    · exact h.transit task hm w hw
    · cases hw

lemma UpToGeneration.drain (h : s.UpToGeneration) : s.drain.UpToGeneration := by
  refine ⟨fun w hw => absurd hw not_mem_nil, fun task hm w hw => ?_⟩
  rcases mem_append.1 hm with hm | hm
  · exact h.transit task hm w hw
  · obtain ⟨v, -, rfl⟩ := List.mem_map.1 hm
    cases hw

lemma UpToGeneration.resync (h : s.UpToGeneration) {e : List (Stage × Worker χ)}
    (he : ∀ m ∈ e, s.Current m.2) (ht : s.resync exec i k e = some t) : t.UpToGeneration := by
  have hse : ∀ a w, s.Current w →
      ∀ v ∈ (Task.growing (e.set k (a, w))).transit, s.Current v := by
    intro a w hw v hv
    obtain ⟨m, hm, rfl⟩ := List.mem_map.1 hv
    rcases mem_or_eq_of_mem_set hm with hm | rfl
    exacts [he m hm, hw]
  unfold Recycling.resync at ht
  split at ht
  next w hk =>
    split_ifs at ht
    cases ht
    exact h.become (hse _ w (he _ (mem_of_getElem? hk)))
  next w hk =>
    split at ht
    next w' hr =>
      cases ht
      refine h.become (hse _ w' ?_)
      have hw := he _ (mem_of_getElem? hk)
      exact hw.trans_eq (Restore.restore_fields hr).2.1.symm
    · cases ht
      exact h.become (by simp [Task.transit])
  · cases ht
  · split_ifs at ht
    cases ht
    refine h.finish rfl fun w hw => ?_
    rcases mem_append.1 hw with hw | hw
    · exact .inl hw
    · obtain ⟨m, hm, rfl⟩ := List.mem_map.1 hw
      exact .inr (he m hm)

lemma UpToGeneration.act (h : s.UpToGeneration) (hi : s.tasks[i]? = some task)
    (ht : s.act exec i k ok task = some t) : t.UpToGeneration := by
  have hk := h.transit task (mem_of_getElem? hi)
  have he : ∀ w ∈ (Task.ended : Task χ).transit, s.Current w := by simp [Task.transit]
  cases task with
  | client w =>
    cases ht
    exact h.become (by simp [Task.transit])
  | recycling w =>
    simp only [Recycling.act] at ht
    split_ifs at ht with ho
    · cases ht
      exact h.finish rfl fun w hw => .inl hw
    · cases ht
      refine h.become ?_
      simpa [Task.transit, Current, WorkerQueue.outdated] using ho
  | cancelling w =>
    simp only [Recycling.act] at ht
    split_ifs at ht
    · cases ht
      exact h.become hk
    · cases ht
      exact h.finish rfl fun w hw => .inl hw
  | updating w =>
    simp only [Recycling.act] at ht
    split_ifs at ht
    cases ht
    exact h.become hk
  | restoring w =>
    simp only [Recycling.act] at ht
    split at ht
    next w' hr =>
      cases ht
      refine h.become ?_
      simp only [Task.transit, mem_singleton, forall_eq] at hk ⊢
      exact hk.trans_eq (Restore.restore_fields hr).2.1.symm
    · cases ht
      exact h.finish rfl fun w hw => .inl hw
  | requeueing w =>
    cases ht
    refine h.finish rfl fun v hv => ?_
    rcases mem_append.1 hv with hv | hv
    exacts [.inl hv, .inr (hk v hv)]
  | growing e =>
    refine h.resync (fun m hm => ?_) ht
    exact hk m.2 (List.mem_map_of_mem hm)
  | reloading =>
    cases ht
    exact (h.become he).drain
  | locking u =>
    simp only [Recycling.act] at ht
    split_ifs at ht
    cases ht
    exact h.become (by simp [Task.transit])
  | draining u =>
    cases ht
    exact UpToGeneration.drain (h.become (by simp [Task.transit]))
  | applying u =>
    cases ht
    exact h.finish rfl fun w hw => .inl hw
  | ended => cases ht

lemma act_tasks (he : s.act exec i k ok task = some t) : ∃ b, ∃ ws : List (Worker χ),
    t.tasks = s.tasks.set i b ++ ws.map .recycling ∧ isReloading b = 0 := by
  have hm : ∀ b : Task χ, isReloading b = 0 → t.tasks = s.tasks.set i b →
      ∃ b, ∃ ws : List (Worker χ), t.tasks = s.tasks.set i b ++ ws.map .recycling ∧
        isReloading b = 0 := fun b hb ht => ⟨b, [], by simpa using ht, hb⟩
  cases task with
  | client w | requeueing w | applying u =>
    cases he
    exact hm _ rfl rfl
  | recycling w | cancelling w | updating w | locking u =>
    simp only [Recycling.act] at he
    split_ifs at he
    all_goals
      cases he
      exact hm _ rfl rfl
  | restoring w =>
    simp only [Recycling.act] at he
    split at he
    all_goals
      cases he
      exact hm _ rfl rfl
  | growing members =>
    simp only [Recycling.act, Recycling.resync] at he
    split at he
    · split_ifs at he
      cases he
      exact hm _ rfl rfl
    · split at he
      all_goals
        cases he
        exact hm _ rfl rfl
    · cases he
    · split_ifs at he
      cases he
      exact hm _ rfl rfl
  | reloading | draining u =>
    cases he
    exact ⟨_, _, rfl, rfl⟩
  | ended => cases he

lemma total_recycling (ws : List (Worker χ)) :
    total isReloading (ws.map (Task.recycling (χ := χ))) = 0 := by
  rw [total_map, total_eq_zero]
  exact fun _ _ => rfl

/-- Idle workers and those in transit are current, or a reload has yet to drain the queue. -/
def Reloads (s : Recycling χ) : Prop := 0 < total isReloading s.tasks ∨ s.UpToGeneration

lemma Reloads.spawn (h : s.Reloads) {u : WorkerQueue χ}
    (hg : u.generation = s.queue.generation) (hq : ∀ w ∈ u.q, w ∈ s.queue.q)
    (ht : ∀ w ∈ task.transit, s.Current w) : (⟨u, s.tasks ++ [task]⟩ : Recycling χ).Reloads := by
  rcases h with hp | hup
  · left
    simp only [total_append]
    omega
  · have hu : ∀ w, s.Current w → u.generation ≤ w.generation := fun w hw => hg.trans_le hw
    refine .inr ⟨fun w hw => hu w (hup.idle w (hq w hw)), fun a hm w hw => hu w ?_⟩
    rcases mem_append.1 hm with hm | hm
    · exact hup.transit a hm w hw
    · cases mem_singleton.1 hm
      exact ht w hw

lemma Reloads.step (h : s.Reloads) {e : Event χ} (hg : s.TransitCurrent e)
    (ht : s.step exec e = some t) : t.Reloads := by
  cases e with
  | recv =>
    simp only [Recycling.step] at ht
    split at ht
    next w q hl hq =>
      cases ht
      exact h.spawn rfl (fun v hv => hq ▸ mem_cons_of_mem w hv) (by simp [Task.transit])
    · cases ht
  | grow children =>
    simp only [Recycling.step] at ht
    split_ifs at ht
    cases ht
    refine h.spawn rfl (fun v hv => hv) fun v hv => ?_
    simp only [Task.transit, List.map_map, List.mem_map] at hv
    obtain ⟨child, -, rfl⟩ := hv
    exact le_rfl
  | reload =>
    cases ht
    left
    simp [isReloading]
  | update u =>
    cases ht
    exact h.spawn rfl (fun v hv => hv) (by simp [Task.transit])
  | act i k ok =>
    obtain ⟨task, hi, hac⟩ := Option.bind_eq_some_iff.1 ht
    by_cases hr : isReloading task = 1
    · have hn := hg task hi hr
      cases task with
      | reloading =>
        cases hac
        refine .inr ⟨fun w hw => absurd hw not_mem_nil, fun task hm w hw => ?_⟩
        rcases mem_append.1 hm with hm | hm
        · rcases mem_or_eq_of_mem_set hm with hm | rfl
          · exact hn task hm w hw
          · cases hw
        · obtain ⟨v, -, rfl⟩ := List.mem_map.1 hm
          cases hw
      | _ => cases hr
    · rcases h with hp | hup
      · left
        obtain ⟨b, ws, hk, hb⟩ := act_tasks hac
        have he := total_set (f := isReloading) (b := b) hi
        have ho : isReloading task = 0 := by
          cases task <;> simp_all [isReloading]
        rw [hk, total_append, total_recycling]
        omega
      · exact .inr (hup.act hi hac)

lemma Reloads.retired (h : s.Reloads) : s.Retired := by
  intro hn
  rcases h with hp | hup
  · omega
  · exact hup.idle

/-- No old worker is idle after a reload in a run where every reload drains the queue with no old
worker in transit. -/
theorem retired_of_transitCurrent (exec : WorkerCall → χ → Option χ) (maxRequests : ℕ)
    (projects : List String) (es : List (Event χ)) (t : Recycling χ)
    (hgood : Along (step exec) TransitCurrent (start maxRequests projects) es)
    (hrun : run (step exec) (start maxRequests projects) es = some t) : t.Retired := by
  have ht : (start maxRequests projects : Recycling χ).Reloads :=
    .inr ⟨fun w hw => absurd hw not_mem_nil, fun task hm => absurd hm not_mem_nil⟩
  exact (run_invariant (fun _ _ _ h hg hs => h.step hg hs) ht hgood hrun).retired

def served : List (Event Unit) :=
  [.grow [()], .act 0 0 true, .act 0 0 true, .act 0 1 true, .recv, .act 1 0 true]

theorem retired_of_transitCurrent_served : ∃ t : Recycling Unit,
    run (step fun _ c => some c) (start 50 []) (served ++ [.reload, .act 2 0 true, .act 1 0 true]) =
      some t ∧ t.queue.generation = 2 ∧ t.Retired := by
  have hg : Along (step fun _ c => some c) TransitCurrent (start 50 [])
      (served ++ ([.reload, .act 2 0 true, .act 1 0 true] : List (Event Unit))) := by decide +kernel
  have he : (run (step fun _ c => some c) (start 50 []) (served ++
      ([.reload, .act 2 0 true, .act 1 0 true] : List (Event Unit)))).map (·.queue.generation) =
      some 2 := by decide +kernel
  obtain ⟨t, hr, he⟩ := Option.map_eq_some_iff.1 he
  exact ⟨t, hr, he, retired_of_transitCurrent _ _ _ _ t hg hr⟩

/-- The reload falls between the generation check of the worker and its return to the queue. -/
theorem not_retired_reload_after_check : ∃ t : Recycling Unit,
    run (step fun _ c => some c) (start 50 []) (served ++ [.act 1 0 true, .reload, .act 2 0 true,
      .act 1 0 true, .act 1 0 true, .act 1 0 true, .act 1 0 true]) = some t ∧ ¬ t.Retired := by
  have hv : (run (step fun _ c => some c) (start 50 []) (served ++ ([.act 1 0 true, .reload,
      .act 2 0 true, .act 1 0 true, .act 1 0 true, .act 1 0 true, .act 1 0 true] :
        List (Event Unit)))).map
      (fun s => (total isReloading s.tasks, s.queue.generation, s.queue.q.map (·.generation))) =
        some (0, 2, [1]) := by decide +kernel
  obtain ⟨t, hru, hv⟩ := Option.map_eq_some_iff.1 hv
  simp only [Prod.mk.injEq] at hv
  obtain ⟨hn, hg, hq⟩ := hv
  refine ⟨t, hru, fun hr => ?_⟩
  obtain ⟨w, hw, ho⟩ := List.mem_map.1 (hq ▸ mem_singleton_self 1)
  have hu := hr hn w hw
  rw [Current, hg, ho] at hu
  omega

end QJazz.Pool.Recycling
