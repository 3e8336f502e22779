import QJazz.Rpc.Signals.Model

/-! The lock has the requests of the tasks that wait for the pool or have it, and no others. -/
namespace QJazz.Rpc.Signals

open Transition List

/-- The requests that the task made and did not release, if it is the `i`-th. -/
def Task.requests (i : ℕ) : Task → List Request
  | .measuring => [⟨i, false, false⟩]
  | .exceeding | .scaling | .maintaining => [⟨i, false, true⟩]
  | .failing => [⟨i, false, true⟩, ⟨i, true, true⟩]
  | .asking write | .serving write => [⟨i, false, write⟩]
  | .sleeping | .releasing | .released | .measured _ | .cancelling | .finished => []

def Task.unreleased : Task → Bool
  | .sleeping | .releasing => true
  | _ => false

def Task.upholds : Task → Bool
  | .maintaining | .failing => true
  | _ => false

lemma Task.task_of_mem_requests {i : ℕ} {t : Task} {r : Request} (h : r ∈ t.requests i) :
    r.task = i := by
  cases t <;> simp [requests] at h
  all_goals first | rw [h] | (rcases h with rfl | rfl <;> rfl)

/-- The lock has the requests of the tasks. Who upholds the pool is the first, somebody will release the
barrier if it is up, and the thread cancels the server when it leaves. -/
structure State.Sound (s : State) : Prop where
  nodup : s.lock.Nodup
  mem_iff : ∀ r, r ∈ s.lock ↔ ∃ a : Task, s.tasks[r.task]? = some a ∧ r ∈ a.requests r.task
  first : ∀ i (a : Task), s.tasks[i]? = some a → a.upholds = true → s.lock.head? = some ⟨i, false, true⟩
  barrier : s.rescaling = true → s.handler = .spawning ∨ ∃ a ∈ s.tasks, a.unreleased = true
  ended : s.handler = .left → s.cancelled = true

namespace State
variable {s t : State} {e : Event} {i j : ℕ} {a b : Task} {r : Request}

lemma sound_start : Sound {} where
  nodup := nodup_nil
  mem_iff := by simp
  first := by simp
  barrier := by simp
  ended := by simp

@[simp] lemma become_lock : (s.become i a).lock = s.lock := rfl
@[simp] lemma become_tasks : (s.become i a).tasks = s.tasks.set i a := rfl
@[simp] lemma request_lock : (s.request r).lock = s.lock ++ [r] := rfl
@[simp] lemma request_tasks : (s.request r).tasks = s.tasks := rfl
@[simp] lemma release_lock : (s.release r).lock = s.lock.erase r := rfl
@[simp] lemma release_tasks : (s.release r).tasks = s.tasks := rfl

lemma withLock_eq_some {u : State} (h : s.withLock r t = some u) :
    granted Request.write s.lock r ∧ u = t := by
  unfold withLock at h
  split at h
  next hg =>
    cases h
    exact ⟨hg, rfl⟩
  · cases h

inductive Turns (i : ℕ) (a b : Task) (lock : List Request) : List Request → Prop
  | keeps (h : b.requests i = a.requests i) : Turns i a b lock lock
  | requests {r : Request} (h : b.requests i = a.requests i ++ [r]) (hnew : r ∉ a.requests i) :
      Turns i a b lock (lock ++ [r])
  | releases {r : Request} (ha : a.requests i = [r]) (hb : b.requests i = []) :
      Turns i a b lock (lock.erase r)

structure Turned (s : State) (i : ℕ) (a b : Task) (t : State) : Prop where
  tasks : t.tasks = s.tasks.set i b
  lock : Turns i a b s.lock t.lock
  handler : t.handler = s.handler
  pending : t.pending = s.pending
  starts : s.starts ≤ t.starts
  cancelled : s.cancelled = true → t.cancelled = true
  upholds : b.upholds = true → s.lock.head? = some ⟨i, false, true⟩
  barrier : t.rescaling = true → s.rescaling = true ∧ (a.unreleased = true → b.unreleased = true)

lemma Turns.mem_iff {lock l : List Request} (h : Turns i a b lock l) (hn : lock.Nodup)
    (ha : ∀ r : Request, r.task = i → (r ∈ lock ↔ r ∈ a.requests i)) :
    l.Nodup ∧ ∀ r, r ∈ l ↔ if r.task = i then r ∈ b.requests i else r ∈ lock := by
  cases h with
  | keeps h =>
    refine ⟨hn, fun r => ?_⟩
    split
    next hr => rw [ha r hr, h]
    · rfl
  | @requests q h hnew =>
    have hq : q.task = i := Task.task_of_mem_requests (h ▸ mem_append_right _ mem_cons_self)
    have ht : q ∉ lock := fun hm => hnew ((ha q hq).1 hm)
    have ho : (lock ++ [q]).Nodup :=
      nodup_append.2 ⟨hn, by simp, fun r hr p hp => by
        rw [mem_singleton.1 hp]
        exact fun heq => ht (heq ▸ hr)⟩
    refine ⟨ho, fun r => ?_⟩
    split
    next hr => rw [h, mem_append, mem_append, ha r hr]
    next hr =>
      have hne : r ≠ q := fun heq => hr (heq ▸ hq)
      simp [hne]
  | @releases q hqa hb =>
    have hq : q.task = i := Task.task_of_mem_requests (hqa ▸ mem_cons_self)
    refine ⟨hn.erase q, fun r => ?_⟩
    rw [hn.mem_erase_iff]
    split
    next hr =>
      rw [ha r hr, hqa, hb]
      simp
    next hr => exact ⟨And.right, fun hm => ⟨fun heq => hr (heq ▸ hq), hm⟩⟩

lemma Turns.head? {o l : List Request} (h : Turns i a b o l)
    (hr : o.head? = some r) (hne : r.task = i → b.requests i ≠ []) : l.head? = some r := by
  cases h with
  | keeps h => exact hr
  | requests h hnew => exact head?_append_of_head hr
  | @releases q hqa hb =>
    have hq : q.task = i := Task.task_of_mem_requests (hqa ▸ mem_cons_self)
    exact head?_erase_of_ne hr fun heq => hne (heq ▸ hq) hb

lemma sound_turned (hs : s.Sound) (ha : s.tasks[i]? = some a) (h : Turned s i a b t) : t.Sound := by
  have hi := (List.getElem?_eq_some_iff.1 ha).1
  have he : t.tasks[i]? = some b := by rw [h.tasks, List.getElem?_set_self hi]
  have ho {j : ℕ} (hj : j ≠ i) : t.tasks[j]? = s.tasks[j]? := by
    rw [h.tasks, List.getElem?_set_ne (Ne.symm hj)]
  obtain ⟨hn, hm⟩ := h.lock.mem_iff hs.nodup fun r hr => by
    subst hr
    simp [hs.mem_iff, ha]
  have hf : b.upholds → b.requests i ≠ [] := by
    cases b <;> simp [Task.upholds, Task.requests]
  exact
    { nodup := hn
      mem_iff := by
        intro r
        rw [hm]
        split
        next hr => simp [hr, he]
        next hr => rw [hs.mem_iff, ho hr]
      first := by
        intro j c hc hp
        by_cases hj : j = i
        · subst hj
          obtain rfl := Option.some.inj (he.symm.trans hc)
          exact h.lock.head? (h.upholds hp) fun _ => hf hp
        · exact h.lock.head? (hs.first j c ((ho hj).symm.trans hc) hp) fun heq => absurd heq hj
      barrier := by
        intro hup
        obtain ⟨hd, hk⟩ := h.barrier hup
        rw [h.handler]
        refine (hs.barrier hd).imp_right ?_
        rintro ⟨c, hc, hu⟩
        obtain ⟨j, hj⟩ := mem_iff_getElem?.1 hc
        by_cases hji : j = i
        · subst hji
          obtain rfl := Option.some.inj (ha.symm.trans hj)
          exact ⟨b, mem_of_getElem? he, hk hu⟩
        · exact ⟨c, mem_of_getElem? ((ho hji).trans hj), hu⟩
      ended := by
        intro hl
        exact h.cancelled (hs.ended (h.handler ▸ hl)) }

lemma Sound.not_granted_again (hs : s.Sound) (ha : s.tasks[i]? = some .failing) :
    granted Request.write s.lock ⟨i, true, true⟩ ≠ true := by
  intro hg
  have hh := head_of_granted hg rfl
  rw [hs.first i .failing ha rfl] at hh
  cases hh

lemma turned_proceed {n : Bool} (hs : s.Sound) (ha : s.tasks[i]? = some a)
    (h : s.proceed i n a = some t) : ∃ b, Turned s i a b t := by
  cases a with
  | sleeping =>
    cases h
    exact ⟨.releasing, rfl, .keeps rfl, rfl, rfl, le_rfl, id, nofun, fun h => ⟨h, fun _ => rfl⟩⟩
  | releasing =>
    cases h
    exact ⟨.released, rfl, .keeps rfl, rfl, rfl, le_rfl, id, nofun, nofun⟩
  | released =>
    cases h
    exact ⟨.measuring, rfl, .requests rfl (by simp [Task.requests]), rfl, rfl, le_rfl, id, nofun,
      fun h => ⟨h, nofun⟩⟩
  | measuring | exceeding =>
    obtain ⟨-, rfl⟩ := withLock_eq_some h
    exact ⟨_, rfl, .releases rfl rfl, rfl, rfl, le_rfl, id, nofun, fun h => ⟨h, nofun⟩⟩
  | measured x =>
    cases h
    cases x with
    | true =>
      exact ⟨.exceeding, rfl, .requests rfl (by simp [Task.requests]), rfl, rfl, le_rfl, id, nofun,
        fun h => ⟨h, nofun⟩⟩
    | false =>
      exact ⟨.scaling, rfl, .requests rfl (by simp [Task.requests]), rfl, rfl, le_rfl, id, nofun,
        fun h => ⟨h, nofun⟩⟩
  | scaling =>
    obtain ⟨hg, rfl⟩ := withLock_eq_some h
    exact ⟨.maintaining, rfl, .keeps rfl, rfl, rfl, Nat.le_succ _, id,
      fun _ => head_of_granted hg rfl, fun h => ⟨h, nofun⟩⟩
  | maintaining =>
    have hf := hs.first i .maintaining ha rfl
    cases n with
    | true =>
      cases h
      exact ⟨.failing, rfl, .requests rfl (by simp [Task.requests]), rfl, rfl, le_rfl, id, fun _ => hf,
        fun h => ⟨h, nofun⟩⟩
    | false =>
      cases h
      exact ⟨.finished, rfl, .releases rfl rfl, rfl, rfl, le_rfl, id, nofun, fun h => ⟨h, nofun⟩⟩
  | failing => exact absurd (withLock_eq_some h).1 (hs.not_granted_again ha)
  | cancelling =>
    cases h
    exact ⟨.finished, rfl, .keeps rfl, rfl, rfl, le_rfl, fun _ => rfl, nofun, fun h => ⟨h, nofun⟩⟩
  | finished => cases h
  | asking w =>
    obtain ⟨-, rfl⟩ := withLock_eq_some h
    refine ⟨.serving w, rfl, .keeps rfl, rfl, rfl, ?_, id, nofun, fun h => ⟨h, nofun⟩⟩
    show s.starts ≤ if w && n then s.starts + 1 else s.starts
    split <;> omega
  | serving w =>
    cases h
    exact ⟨.finished, rfl, .releases rfl rfl, rfl, rfl, le_rfl, id, nofun, fun h => ⟨h, nofun⟩⟩

lemma turned_giveUp (h : s.giveUp i a = some t) : ∃ b, Turned s i a b t := by
  cases a with
  | asking w | serving w =>
    cases h
    exact ⟨.finished, rfl, .releases rfl rfl, rfl, rfl, le_rfl, id, nofun, fun h => ⟨h, nofun⟩⟩
  | _ => cases h

/-- A step that leaves the tasks and the requests as they are, but for new ones. -/
structure Grown (s t : State) : Prop where
  tasks : ∃ added, t.tasks = s.tasks ++ added ∧ Task.failing ∉ added
  lock : ∃ added, t.lock = s.lock ++ added
  starts : t.starts = s.starts
  cancelled : s.cancelled = true → t.cancelled = true

lemma step_cases (hs : s.Sound) (h : s.step e = some t) :
    (∃ i a b, s.tasks[i]? = some a ∧ Turned s i a b t ∧
      ((∃ n, e = .proceed i n ∧ s.proceed i n a = some t) ∨
        (e = .drop i ∧ s.giveUp i a = some t))) ∨ ((∀ i n, e ≠ .proceed i n) ∧ Grown s t) := by
  have hm {u : State} (hk : u.tasks = s.tasks) (hlock : u.lock = s.lock)
      (hr : u.starts = s.starts) (hn : s.cancelled = true → u.cancelled = true) :
      Grown s u := ⟨⟨[], by simp [hk], by simp⟩, ⟨[], by simp [hlock]⟩, hr, hn⟩
  cases e with
  | deliver | interrupt =>
    cases h
    exact Or.inr ⟨by simp, hm rfl rfl rfl id⟩
  | poll o =>
    refine Or.inr ⟨by simp, ?_⟩
    simp only [step, poll] at h
    split_ifs at h <;> cases h <;> exact hm rfl rfl rfl id
  | handle =>
    refine Or.inr ⟨by simp, ?_⟩
    simp only [step, handle] at h
    split at h <;> cases h
    · exact hm rfl rfl rfl id
    · exact hm rfl rfl rfl id
    · exact ⟨⟨_, rfl, by simp⟩, ⟨[], by simp⟩, rfl, id⟩
    · exact hm rfl rfl rfl fun _ => rfl
  | proceed i n =>
    obtain ⟨a, ha, hp⟩ := Option.bind_eq_some_iff.1 h
    obtain ⟨b, ht⟩ := turned_proceed hs ha hp
    exact Or.inl ⟨i, a, b, ha, ht, Or.inl ⟨n, rfl, hp⟩⟩
  | arrive w =>
    cases h
    exact Or.inr ⟨by simp, ⟨_, rfl, by simp⟩, ⟨_, rfl⟩, rfl, id⟩
  | drop i =>
    obtain ⟨a, ha, hg⟩ := Option.bind_eq_some_iff.1 h
    obtain ⟨b, ht⟩ := turned_giveUp hg
    exact Or.inl ⟨i, a, b, ha, ht, Or.inr ⟨rfl, hg⟩⟩

lemma sound_added (hs : s.Sound) (ht : t.tasks = s.tasks ++ [a])
    (hlock : t.lock = s.lock ++ a.requests s.tasks.length) (hn : (a.requests s.tasks.length).Nodup)
    (hu : a.upholds = false)
    (hi : t.rescaling → t.handler = .spawning ∨ ∃ c ∈ t.tasks, c.unreleased)
    (he : t.handler = .left → t.cancelled) : t.Sound := by
  have ho {r : Request} (hr : r ∈ s.lock) : r.task < s.tasks.length := by
    obtain ⟨c, hc, -⟩ := (hs.mem_iff r).1 hr
    exact (List.getElem?_eq_some_iff.1 hc).1
  have hnew {r : Request} (hr : r ∈ a.requests s.tasks.length) : r.task = s.tasks.length :=
    Task.task_of_mem_requests hr
  refine ⟨?_, fun r => ?_, fun j c hc hc' => ?_, hi, he⟩
  · rw [hlock]
    refine nodup_append.2 ⟨hs.nodup, hn, fun r hr q hq heq => ?_⟩
    exact absurd (ho (heq ▸ hr)) (hnew hq).not_lt
  · rw [hlock, ht, mem_append]
    rcases lt_trichotomy r.task s.tasks.length with hlt | heq | hgt
    · rw [List.getElem?_append_left hlt, ← hs.mem_iff]
      exact or_iff_left fun hr => hlt.ne (hnew hr)
    · have hget : (s.tasks ++ [a])[r.task]? = some a := by
        rw [heq]
        simp
      rw [hget, ← heq]
      simp only [Option.some.injEq, exists_eq_left']
      exact or_iff_right fun hr => (ho hr).ne heq
    · have hget : (s.tasks ++ [a])[r.task]? = none := by
        rw [List.getElem?_eq_none_iff, length_append]
        exact hgt
      rw [hget]
      refine iff_of_false ?_ (by simp)
      rintro (hr | hr)
      · exact absurd (ho hr) hgt.not_gt
      · exact hgt.ne' (hnew hr)
  · rw [hlock]
    rw [ht, List.getElem?_append] at hc
    split at hc
    · exact head?_append_of_head (hs.first j c hc hc')
    · have hca : c = a := mem_singleton.1 (mem_of_getElem? hc)
      rw [hca, hu] at hc'
      cases hc'

lemma sound_step (hs : s.Sound) (h : s.step e = some t) : t.Sound := by
  cases e with
  | deliver | interrupt =>
    cases h
    exact ⟨hs.nodup, hs.mem_iff, hs.first, hs.barrier, hs.ended⟩
  | poll o =>
    simp only [step, poll] at h
    split_ifs at h with hw hst <;> cases h
    · exact ⟨hs.nodup, hs.mem_iff, hs.first, fun hup => (hs.barrier hup).imp_left (by simp [hw]),
        by simp⟩
    · exact ⟨hs.nodup, hs.mem_iff, hs.first, fun hup => (hs.barrier hup).imp_left (by simp [hw]),
        by simp⟩
  | handle =>
    simp only [step, handle] at h
    split at h
    next hl =>
      cases h
      refine ⟨hs.nodup, hs.mem_iff, hs.first, fun hup => Or.inr ?_, by simp [ite_eq_iff]⟩
      exact (hs.barrier hup).resolve_left (by simp [hl])
    next ho =>
      cases h
      exact ⟨hs.nodup, hs.mem_iff, hs.first, fun _ => Or.inl rfl, by simp⟩
    next hn =>
      cases h
      refine sound_added (a := .sleeping) hs rfl (by simp [Task.requests]) (by simp [Task.requests]) rfl ?_
        (by simp)
      exact fun _ => Or.inr ⟨.sleeping, by simp, rfl⟩
    next he =>
      cases h
      refine ⟨hs.nodup, hs.mem_iff, hs.first, fun hup => Or.inr ?_, by simp⟩
      exact (hs.barrier hup).resolve_left (by simp [he])
    · cases h
    · cases h
  | proceed i n =>
    obtain ⟨a, ha, hp⟩ := Option.bind_eq_some_iff.1 h
    obtain ⟨b, ht⟩ := turned_proceed hs ha hp
    exact sound_turned hs ha ht
  | arrive w =>
    cases h
    refine sound_added (a := .asking w) hs rfl rfl (by simp [Task.requests]) rfl ?_ hs.ended
    intro hup
    refine (hs.barrier hup).imp_right ?_
    rintro ⟨c, hc, hu⟩
    exact ⟨c, mem_append_left _ hc, hu⟩
  | drop i =>
    obtain ⟨a, ha, hg⟩ := Option.bind_eq_some_iff.1 h
    obtain ⟨b, ht⟩ := turned_giveUp hg
    exact sound_turned hs ha ht

end State
end QJazz.Rpc.Signals
