import QJazz.Pool.Recycling.Reload

/-! A worker is restored under the read lock and queued after the lock was released. -/
namespace QJazz.Pool.Recycling
open Config Transition List

variable {χ : Type*} {exec : WorkerCall → χ → Option χ}

/-- The worker was restored at the current revision. -/
def UpToDate (s : Recycling χ) (w : Worker χ) : Prop := w.lastUpdate = s.queue.restore.update

/-- Unless an update holds the write lock, every idle worker is up to date. -/
def Fresh (s : Recycling χ) : Prop := s.writers = 0 → ∀ w ∈ s.queue.q, s.UpToDate w

def Revises (s : Recycling χ) (u : Update) : Prop :=
  (u.apply s.queue.restore).update ≠ s.queue.restore.update

def drainsFor : Task χ → Option Update
  | .draining u => some u
  | _ => none

/-- No restored worker is on its way to the queue when an update that makes a revision drains it. -/
def NoneReady (s : Recycling χ) : Event χ → Prop
  | .act i _ _ => ∀ task ∈ s.tasks[i]?, ∀ u ∈ drainsFor task, s.Revises u →
    ∀ task ∈ s.tasks, task.ready = []
  | _ => True

instance (s : Recycling χ) (u : Update) : Decidable (s.Revises u) :=
  inferInstanceAs (Decidable (_ ≠ _))

instance (s : Recycling χ) : (e : Event χ) → Decidable (s.NoneReady e)
  | .act i _ _ => inferInstanceAs (Decidable (∀ task ∈ s.tasks[i]?, ∀ u ∈ drainsFor task,
      s.Revises u → ∀ task ∈ s.tasks, task.ready = []))
  | .recv | .grow _ | .reload | .update _ => isTrue trivial

/-- The lock is exclusive, restored workers are up to date, and an update that is about to make a
revision has left no restored worker behind. -/
structure Synced (s : Recycling χ) : Prop where
  exclusive : s.writers = 0 ∨ (s.writers = 1 ∧ s.readers = 0)
  idle : ∀ w ∈ s.queue.q, s.UpToDate w
  ready : ∀ task ∈ s.tasks, ∀ w ∈ task.ready, s.UpToDate w
  drained : ∀ u, .applying u ∈ s.tasks → s.Revises u →
    s.queue.q = [] ∧ ∀ task ∈ s.tasks, task.ready = []

variable {s t : Recycling χ} {i k : ℕ} {ok : Bool} {a b : Task χ}

lemma become_writers (hi : s.tasks[i]? = some a) :
    (s.become i b).writers + a.writing = s.writers + b.writing := total_set hi

lemma become_readers (hi : s.tasks[i]? = some a) :
    (s.become i b).readers + a.reading = s.readers + b.reading := total_set hi

lemma drain_writers (s : Recycling χ) : s.drain.writers = s.writers := by
  simp only [writers, drain, total_append, Nat.add_eq_left, total_map, total_eq_zero]
  exact fun _ _ => rfl

lemma drain_readers (s : Recycling χ) : s.drain.readers = s.readers := by
  simp only [readers, drain, total_append, Nat.add_eq_left, total_map, total_eq_zero]
  exact fun _ _ => rfl

lemma not_applying_of_no_writer (h : s.writers = 0) (u : Update) : .applying u ∉ s.tasks :=
  fun hm => absurd (total_eq_zero.1 h _ hm) (by simp [Task.writing])

namespace Synced

lemma no_writer_of_reading (h : s.Synced) (hi : s.tasks[i]? = some a) (ha : 0 < a.reading) :
    s.writers = 0 := by
  have hle : a.reading ≤ s.readers := le_total hi
  rcases h.exclusive with hz | ⟨-, hn⟩
  · exact hz
  · omega

lemma not_applying_of_writing (h : s.Synced) (hi : s.tasks[i]? = some a) (ha : a.writing = 1)
    (hb : b.writing = 0) (u : Update) : .applying u ∉ (s.become i b).tasks := by
  refine not_applying_of_no_writer ?_ u
  have he := become_writers (b := b) hi
  have hle : a.writing ≤ s.writers := le_total hi
  rcases h.exclusive with hz | ⟨ho, -⟩
  · omega
  · omega

/-- A task may change as it likes while nobody writes, or must take no further guard. -/
def Guards (s : Recycling χ) (a b : Task χ) : Prop :=
  (s.writers = 0 ∧ b.writing = 0) ∨ (b.writing ≤ a.writing ∧ b.reading ≤ a.reading)

lemma exclusive_become (h : s.Synced) (hi : s.tasks[i]? = some a) (hg : Guards s a b) :
    (s.become i b).writers = 0 ∨ ((s.become i b).writers = 1 ∧ (s.become i b).readers = 0) := by
  have ht := become_writers (b := b) hi
  have he := become_readers (b := b) hi
  rcases hg with ⟨hz, hb⟩ | ⟨hw, hr⟩
  · left
    omega
  · rcases h.exclusive with hz | ⟨ho, hn⟩
    · left
      omega
    · by_cases hl : (s.become i b).writers = 0
      · exact .inl hl
      · exact .inr ⟨by omega, by omega⟩

lemma proceed (h : s.Synced) (hi : s.tasks[i]? = some a) (hg : Guards s a b)
    (hr : b.ready = []) (hp : ∀ u, b ≠ .applying u) : (s.become i b).Synced := by
  refine ⟨h.exclusive_become hi hg, h.idle, fun task hm w hw => ?_, fun u hu he => ?_⟩
  · rcases mem_or_eq_of_mem_set hm with hm | rfl
    · exact h.ready task hm w hw
    · rw [hr] at hw
      cases hw
  · rcases mem_or_eq_of_mem_set hu with hu | heq
    · obtain ⟨hq, hl⟩ := h.drained u hu he
      refine ⟨hq, fun task hm => ?_⟩
      rcases mem_or_eq_of_mem_set hm with hm | rfl
      exacts [hl task hm, hr]
    · exact absurd heq.symm (hp u)

lemma restored (h : s.Synced) (hi : s.tasks[i]? = some a) (ha : 0 < a.reading)
    (hb : b.writing = 0) (hr : ∀ w ∈ b.ready, s.UpToDate w) : (s.become i b).Synced := by
  have hz := h.no_writer_of_reading hi ha
  have hf : (s.become i b).writers = 0 := by
    have he := become_writers (b := b) hi
    omega
  refine ⟨.inl hf, h.idle, fun task hm w hw => ?_, fun u hu => ?_⟩
  · rcases mem_or_eq_of_mem_set hm with hm | rfl
    exacts [h.ready task hm w hw, hr w hw]
  · exact absurd hu (not_applying_of_no_writer hf u)

/-- A task ends; the queue and its counters may change, but not the restorer, and only workers the
task had restored are queued. -/
lemma finish (h : s.Synced) (hi : s.tasks[i]? = some a) {e : WorkerQueue χ}
    (hr : e.restore = s.queue.restore) (hq : ∀ w ∈ e.q, w ∈ s.queue.q ∨ w ∈ a.ready) :
    ((s.withQueue e).become i .ended).Synced := by
  have hm : ∀ w, ((s.withQueue e).become i .ended).UpToDate w ↔ s.UpToDate w := fun w => by
    change w.lastUpdate = e.restore.update ↔ _
    rw [hr]
    rfl
  have he : (s.become i .ended).Synced :=
    h.proceed hi (.inr ⟨Nat.zero_le _, Nat.zero_le _⟩) rfl (by simp)
  refine ⟨he.exclusive, fun w hw => (hm w).2 ?_, fun task hme w hw => (hm w).2 ?_,
    fun u hu hre => ?_⟩
  · rcases hq w hw with hw | hw
    exacts [h.idle w hw, h.ready a (mem_of_getElem? hi) w hw]
  · exact he.ready task hme w hw
  · have hv : s.Revises u := by
      change (u.apply e.restore).update ≠ e.restore.update at hre
      rwa [hr] at hre
    obtain ⟨hp, hn⟩ := he.drained u hu hv
    refine ⟨eq_nil_iff_forall_not_mem.2 fun w hw => ?_, hn⟩
    have hu' : .applying u ∈ s.tasks :=
      (mem_or_eq_of_mem_set hu).elim id fun heq => by cases heq
    rcases hq w hw with hw | hw
    · rw [(h.drained u hu' hv).1] at hw
      cases hw
    · rw [(h.drained u hu' hv).2 a (mem_of_getElem? hi)] at hw
      cases hw

lemma drain (h : s.Synced) : s.drain.Synced := by
  refine ⟨?_, fun w hw => absurd hw not_mem_nil, fun task hm w hw => ?_, fun u hu hr => ?_⟩
  · rw [drain_writers, drain_readers]
    exact h.exclusive
  · rcases mem_append.1 hm with hm | hm
    · exact h.ready task hm w hw
    · obtain ⟨v, -, rfl⟩ := List.mem_map.1 hm
      cases hw
  · rcases mem_append.1 hu with hu | hu
    · refine ⟨rfl, fun task hm => ?_⟩
      rcases mem_append.1 hm with hm | hm
      · exact (h.drained u hu hr).2 task hm
      · obtain ⟨v, -, rfl⟩ := List.mem_map.1 hm
        rfl
    · obtain ⟨v, -, heq⟩ := List.mem_map.1 hu
      cases heq

lemma drainFor (h : s.Synced) {u : Update} (hi : s.tasks[i]? = some (.draining u))
    (hn : s.Revises u → ∀ task ∈ s.tasks, task.ready = []) :
    (s.become i (.applying u)).drain.Synced := by
  have hg : Guards s (.draining u) (.applying u) := .inr ⟨le_rfl, le_rfl⟩
  have ho : ∀ v, .applying v ∉ s.tasks := by
    intro v hv
    have ht := become_writers (b := .ended) hi
    have hz : (s.become i .ended).writers = 0 := by
      have hon : s.writers = 1 := by
        have hle : (Task.draining u : Task χ).writing ≤ s.writers := le_total hi
        rcases h.exclusive with hz | ⟨hon, -⟩
        · simp only [Task.writing] at hle
          omega
        · exact hon
      simp only [Task.writing] at ht
      omega
    obtain ⟨j, hj⟩ := mem_iff_getElem?.mp hv
    have hne : i ≠ j := by
      rintro rfl
      rw [hi] at hj
      cases hj
    refine not_applying_of_no_writer hz v (mem_iff_getElem?.mpr ⟨j, ?_⟩)
    simpa [become, List.getElem?_set_ne hne] using hj
  have hr : ∀ task ∈ (s.become i (.applying u)).drain.tasks, task.ready = [] ∨ task ∈ s.tasks := by
    intro task hm
    rcases mem_append.1 hm with hm | hm
    · rcases mem_or_eq_of_mem_set hm with hm | rfl
      exacts [.inr hm, .inl rfl]
    · obtain ⟨v, -, rfl⟩ := List.mem_map.1 hm
      exact .inl rfl
  refine ⟨?_, fun w hw => absurd hw not_mem_nil, fun task hm w hw => ?_, fun v hv hre => ?_⟩
  · rw [drain_writers, drain_readers]
    exact h.exclusive_become hi hg
  · rcases hr task hm with he | hm
    · rw [he] at hw
      cases hw
    · exact h.ready task hm w hw
  · refine ⟨rfl, fun task hm => (hr task hm).elim id fun hm => ?_⟩
    rcases mem_append.1 hv with hv | hv
    · rcases mem_or_eq_of_mem_set hv with hv | heq
      · exact absurd hv (ho v)
      · cases heq
        exact hn hre task hm
    · obtain ⟨w, -, heq⟩ := List.mem_map.1 hv
      cases heq

lemma applied (h : s.Synced) {u : Update} (hi : s.tasks[i]? = some (.applying u)) :
    ((s.withQueue { s.queue with restore := u.apply s.queue.restore }).become i .ended).Synced := by
  have he : (s.become i .ended).Synced :=
    h.proceed hi (.inr ⟨Nat.zero_le _, Nat.zero_le _⟩) rfl (by simp)
  have hm := mem_of_getElem? hi
  refine ⟨he.exclusive, fun w hw => ?_, fun task ht w hw => ?_, fun v hv => ?_⟩
  · by_cases hr : s.Revises u
    · change w ∈ s.queue.q at hw
      rw [(h.drained u hm hr).1] at hw
      cases hw
    · exact (h.idle w hw).trans (not_not.1 hr).symm
  · rcases mem_or_eq_of_mem_set ht with ht | rfl
    · by_cases hr : s.Revises u
      · rw [(h.drained u hm hr).2 task ht] at hw
        cases hw
      · exact (h.ready task ht w hw).trans (not_not.1 hr).symm
    · cases hw
  · exact absurd hv (h.not_applying_of_writing hi rfl rfl v)

lemma resync (h : s.Synced) {e : List (Stage × Worker χ)}
    (hi : s.tasks[i]? = some (.growing e)) (ht : s.resync exec i k e = some t) : t.Synced := by
  have hr := h.ready _ (mem_of_getElem? hi)
  unfold Recycling.resync at ht
  split at ht
  next w hk =>
    split_ifs at ht with hfree
    cases ht
    refine ⟨h.exclusive_become hi (.inl ⟨hfree, rfl⟩), h.idle, fun task hme v hv => ?_, fun u hu => ?_⟩
    · rcases mem_or_eq_of_mem_set hme with hme | rfl
      · exact h.ready task hme v hv
      · obtain ⟨m, hm, rfl⟩ := List.mem_map.1 hv
        obtain ⟨hm, hstage⟩ := List.mem_filter.1 hm
        rcases mem_or_eq_of_mem_set hm with hm | rfl
        · exact hr m.2 (List.mem_map_of_mem (List.mem_filter.2 ⟨hm, hstage⟩))
        · cases hstage
    · rcases mem_or_eq_of_mem_set hu with hu | heq
      · exact absurd hu (not_applying_of_no_writer hfree u)
      · cases heq
  next w hk =>
    have he : 0 < (Task.growing e).reading :=
      le_total (f := fun m : Stage × Worker χ => if m.1 = .restoring then 1 else 0) hk
    split at ht
    next w' ho =>
      cases ht
      refine h.restored hi he rfl fun v hv => ?_
      obtain ⟨m, hm, rfl⟩ := List.mem_map.1 hv
      obtain ⟨hm, hstage⟩ := List.mem_filter.1 hm
      rcases mem_or_eq_of_mem_set hm with hm | rfl
      · exact hr m.2 (List.mem_map_of_mem (List.mem_filter.2 ⟨hm, hstage⟩))
      · exact (Restore.restore_fields ho).2.2
    · cases ht
      exact h.proceed hi (.inr ⟨Nat.zero_le _, Nat.zero_le _⟩) rfl (by simp)
  · cases ht
  · split_ifs at ht with hl
    cases ht
    refine h.finish hi rfl fun w hw => ?_
    rcases mem_append.1 hw with hw | hw
    · exact .inl hw
    · obtain ⟨m, hm, rfl⟩ := List.mem_map.1 hw
      have hstage := List.all_eq_true.1 hl m hm
      exact .inr (List.mem_map_of_mem (List.mem_filter.2 ⟨hm, hstage⟩))

lemma act (h : s.Synced) (hi : s.tasks[i]? = some a)
    (hg : ∀ u ∈ drainsFor a, s.Revises u → ∀ task ∈ s.tasks, task.ready = [])
    (ht : s.act exec i k ok a = some t) : t.Synced := by
  cases a with
  | client w =>
    cases ht
    exact h.proceed hi (.inr ⟨le_rfl, le_rfl⟩) rfl (by simp)
  | recycling w =>
    simp only [Recycling.act] at ht
    split_ifs at ht
    · cases ht
      exact h.finish hi rfl fun v hv => .inl hv
    · cases ht
      exact h.proceed hi (.inr ⟨le_rfl, le_rfl⟩) rfl (by simp)
  | cancelling w =>
    simp only [Recycling.act] at ht
    split_ifs at ht
    · cases ht
      exact h.proceed hi (.inr ⟨le_rfl, le_rfl⟩) rfl (by simp)
    · cases ht
      exact h.finish hi rfl fun v hv => .inl hv
  | updating w =>
    simp only [Recycling.act] at ht
    split_ifs at ht with hfree
    cases ht
    exact h.proceed hi (.inl ⟨hfree, rfl⟩) rfl (by simp)
  | restoring w =>
    simp only [Recycling.act] at ht
    split at ht
    next w' hr =>
      cases ht
      refine h.restored hi Nat.one_pos rfl fun v hv => ?_
      cases mem_singleton.1 hv
      exact (Restore.restore_fields hr).2.2
    · cases ht
      exact h.finish hi rfl fun v hv => .inl hv
  | requeueing w =>
    cases ht
    refine h.finish hi rfl fun v hv => ?_
    exact mem_append.1 hv
  | growing m => exact h.resync hi ht
  | reloading =>
    cases ht
    exact drain (h.proceed hi (.inr ⟨le_rfl, le_rfl⟩) rfl (by simp))
  | locking u =>
    simp only [Recycling.act] at ht
    split_ifs at ht with hfree
    cases ht
    have he := become_writers (b := .draining u) hi
    have hd := become_readers (b := .draining u) hi
    simp only [Task.writing, Task.reading] at he hd
    refine ⟨.inr ⟨by omega, by omega⟩, h.idle, fun task hm w hw => ?_, fun v hv => ?_⟩
    · rcases mem_or_eq_of_mem_set hm with hm | rfl
      · exact h.ready task hm w hw
      · cases hw
    · rcases mem_or_eq_of_mem_set hv with hv | heq
      · exact absurd hv (not_applying_of_no_writer hfree.1 v)
      · cases heq
  | draining u =>
    cases ht
    exact h.drainFor hi (hg u rfl)
  | applying u =>
    cases ht
    exact h.applied hi
  | ended => cases ht

lemma spawn (h : s.Synced) (hw : a.writing = 0) (hr : a.reading = 0) (hd : a.ready = [])
    {e : WorkerQueue χ} (he : e.restore = s.queue.restore) (hq : ∀ w ∈ e.q, w ∈ s.queue.q) :
    (⟨e, s.tasks ++ [a]⟩ : Recycling χ).Synced := by
  refine ⟨?_, fun w hme => ?_, fun task hme w hv => ?_, fun u hu hrv => ?_⟩
  · simpa [writers, readers, hw, hr] using h.exclusive
  · exact (h.idle w (hq w hme)).trans (congrArg Restore.update he.symm)
  · rcases mem_append.1 hme with hme | hme
    · exact (h.ready task hme w hv).trans (congrArg Restore.update he.symm)
    · cases mem_singleton.1 hme
      rw [hd] at hv
      cases hv
  · have hu' : .applying u ∈ s.tasks := by
      rcases mem_append.1 hu with hu | hu
      · exact hu
      · rw [← mem_singleton.1 hu] at hw
        cases hw
    have hre : s.Revises u := by
      change (u.apply e.restore).update ≠ e.restore.update at hrv
      rwa [he] at hrv
    obtain ⟨hm, hn⟩ := h.drained u hu' hre
    refine ⟨eq_nil_iff_forall_not_mem.2 fun w hme => ?_, fun task hme => ?_⟩
    · have hi := hq w hme
      rw [hm] at hi
      cases hi
    · rcases mem_append.1 hme with hme | hme
      · exact hn task hme
      · cases mem_singleton.1 hme
        exact hd

lemma step (h : s.Synced) {e : Event χ} (hg : s.NoneReady e)
    (ht : s.step exec e = some t) : t.Synced := by
  cases e with
  | recv =>
    simp only [Recycling.step] at ht
    split at ht
    next w q hl hq =>
      cases ht
      exact h.spawn rfl rfl rfl rfl fun v hv => hq ▸ mem_cons_of_mem w hv
    · cases ht
  | grow c =>
    simp only [Recycling.step] at ht
    split_ifs at ht
    cases ht
    refine h.spawn rfl ?_ ?_ rfl fun v hv => hv
    · simp only [Task.reading, total_map, total_eq_zero]
      exact fun _ _ => rfl
    · simp [Task.ready, filter_eq_nil_iff]
  | reload | update u =>
    cases ht
    exact h.spawn rfl rfl rfl rfl fun v hv => hv
  | act i k ok =>
    obtain ⟨task, hi, hac⟩ := Option.bind_eq_some_iff.1 ht
    exact h.act hi (hg task hi) hac

end Synced

/-- Idle workers are up to date in a run where no update that makes a revision drains the queue while
a restored worker is on its way to it. -/
theorem fresh_of_noneReady (exec : WorkerCall → χ → Option χ) (maxRequests : ℕ)
    (projects : List String) (es : List (Event χ)) (t : Recycling χ)
    (hgood : Along (step exec) NoneReady (start maxRequests projects) es)
    (hrun : run (step exec) (start maxRequests projects) es = some t) : t.Fresh := by
  have ht : (start maxRequests projects : Recycling χ).Synced :=
    ⟨.inl rfl, fun w hw => absurd hw not_mem_nil, fun task hm => absurd hm not_mem_nil,
      fun u hu => absurd hu not_mem_nil⟩
  have hy : t.Synced := run_invariant (fun _ _ _ h hg hs => h.step hg hs) ht hgood hrun
  exact fun _ => hy.idle

def updatedIdle : List (Event Unit) :=
  [.grow [()], .act 0 0 true, .act 0 0 true, .act 0 1 true, .update (.cache .update), .act 1 0 true,
    .act 1 0 true, .act 1 0 true, .act 2 0 true, .act 2 0 true, .act 2 0 true, .act 2 0 true,
    .act 2 0 true]

theorem fresh_of_noneReady_idle : ∃ t : Recycling Unit,
    run (step fun _ c => some c) (start 50 []) updatedIdle = some t ∧
      t.queue.q.map (·.lastUpdate) = [1] ∧ t.Fresh := by
  have hg : Along (step fun _ c => some c) NoneReady (start 50 []) updatedIdle := by decide +kernel
  have hl : (run (step fun _ c => some c) (start 50 []) updatedIdle).map
      (·.queue.q.map (·.lastUpdate)) = some [1] := by decide +kernel
  obtain ⟨t, hr, hl⟩ := Option.map_eq_some_iff.1 hl
  exact ⟨t, hr, hl, fresh_of_noneReady _ _ _ _ t hg hr⟩

/-- A project is pulled after the worker has released the read lock and before it is queued. -/
theorem not_fresh_update_before_requeue : ∃ t : Recycling Unit,
    run (step fun _ c => some c) (start 50 []) (served ++ [.act 1 0 true, .act 1 0 true, .act 1 0 true,
      .act 1 0 true, .update (.cache (.pull "/a")), .act 2 0 true, .act 2 0 true, .act 2 0 true,
      .act 1 0 true]) = some t ∧ ¬ t.Fresh := by
  have hv : (run (step fun _ c => some c) (start 50 []) (served ++ ([.act 1 0 true, .act 1 0 true,
      .act 1 0 true, .act 1 0 true, .update (.cache (.pull "/a")), .act 2 0 true, .act 2 0 true,
      .act 2 0 true, .act 1 0 true] : List (Event Unit)))).map
      (fun s => (s.writers, s.queue.restore.update, s.queue.q.map (·.lastUpdate))) =
        some (0, 1, [0]) := by decide +kernel
  obtain ⟨t, hr, hv⟩ := Option.map_eq_some_iff.1 hv
  simp only [Prod.mk.injEq] at hv
  obtain ⟨hfree, he, hq⟩ := hv
  refine ⟨t, hr, fun hf => ?_⟩
  obtain ⟨w, hw, ho⟩ := List.mem_map.1 (hq ▸ mem_singleton_self 0)
  have hd := hf hfree w hw
  rw [UpToDate, he, ho] at hd
  omega

end QJazz.Pool.Recycling
