import QJazz.Pool.Queue.Model

/-! Every queued item that a blocked receiver could take is matched by a wake-up on its way, unless
a notification finds the permit already stored while several receivers are about to register, or the
queue is closed while a receiver has yet to create its waiter. -/
namespace QJazz.Pool.Queue
open Transition List

variable {α : Type*}

namespace Thread

def blocked : Thread α → ℕ
  | .waiting => 1
  | _ => 0

/-- Found the queue empty and is about to register. -/
def window : Thread α → ℕ
  | .enlist _ | .create | .poll _ => 1
  | _ => 0

/-- Was woken and has not looked at the queue again. -/
def woken : Thread α → ℕ
  | .notified _ | .resumed | .check true | .pop true => 1
  | _ => 0

/-- The notifications a sender has still to give for items it queued. -/
def owed : Thread α → ℕ
  | .recount | .notifyOne => 1
  | .storeCount sent | .notifyAll sent => sent
  | _ => 0

def announcing : Thread α → ℕ
  | .notifyWaiters => 1
  | _ => 0

/-- Passed the closed check and has not created its waiter. -/
def unaware : Thread α → ℕ
  | .pop _ | .enlist _ | .create => 1
  | _ => 0

/-- Blocked, or bound to block without another look at the closed flag. -/
def exposed (epoch : ℕ) : Thread α → ℕ
  | .waiting | .pop _ | .enlist _ | .create => 1
  | .poll e => if e = epoch then 1 else 0
  | _ => 0

end Thread

namespace State
open Thread

def Quiescent (s : State α) : Prop := total owed s.threads = 0 ∧ total announcing s.threads = 0

/-- A receiver is blocked only on an empty and open queue, or a wake-up is under way. -/
def NoLostWakeup (s : State α) : Prop :=
  s.Quiescent → 0 < total blocked s.threads →
    (s.queue = [] ∧ s.closed = false) ∨ 0 < total woken s.threads

/-- A notification would find the permit stored while several receivers are about to register. -/
def Deaf (s : State α) : Prop := s.permit = true ∧ 2 ≤ total window s.threads

/-- The notification a thread is about to give reaches those it is meant for. -/
def HeardFrom (s : State α) : Thread α → Prop
  | .notifyOne | .notifyAll (_ + 1) => ¬ s.Deaf
  | .notifyWaiters => total unaware s.threads = 0
  | _ => True

/-- The events whose notifications, if they give any, are heard. -/
def Heard (s : State α) : Event α → Prop
  | .step i _ => ∀ a ∈ s.threads[i]?, s.HeardFrom a
  | .cancel i _ => ∀ a ∈ s.threads[i]?, a.woken = 1 → ¬ s.Deaf
  | _ => True

instance (s : State α) : Decidable s.Deaf := inferInstanceAs (Decidable (_ ∧ _))

instance (s : State α) : (a : Thread α) → Decidable (s.HeardFrom a)
  | .notifyOne | .notifyAll (_ + 1) => inferInstanceAs (Decidable (¬ s.Deaf))
  | .notifyWaiters => inferInstanceAs (Decidable (total unaware s.threads = 0))
  | .arrive | .check _ | .pop _ | .uncount _ | .enlist _ | .create | .poll _ | .waiting | .notified _
  | .resumed | .done _ | .dropped | .push _ | .recount | .pushAll _ | .drain _ | .retain _
  | .storeCount _ | .notifyAll 0 | .closing | .finished => isTrue trivial

instance (s : State α) : (e : Event α) → Decidable (s.Heard e)
  | .step i _ => inferInstanceAs (Decidable (∀ a ∈ s.threads[i]?, s.HeardFrom a))
  | .cancel i _ => inferInstanceAs (Decidable (∀ a ∈ s.threads[i]?, a.woken = 1 → ¬ s.Deaf))
  | .call _ | .setMaxRequests _ => isTrue trivial

/-- The balance of items and wake-ups, and what closing leaves behind. -/
structure Supplied (s : State α) : Prop where
  permit : s.permit = true → total blocked s.threads = 0
  supply : s.closed = false → s.permit.toNat < total blocked s.threads + total window s.threads →
    s.queue.length ≤ total woken s.threads + s.permit.toNat + total owed s.threads
  epoch : s.closed = false → s.epoch = 0
  created : ∀ e, .poll e ∈ s.threads → e ≤ s.epoch
  toAll : s.closed = false → .notified true ∉ s.threads
  announced : s.closed = false → total announcing s.threads = 0
  shut : s.closed = true → 0 < total announcing s.threads ∨ total (exposed s.epoch) s.threads = 0

variable {s t : State α} {i : ℕ} {a b : Thread α}

lemma blocked_eq_zero (h : a ≠ .waiting) : a.blocked = 0 := by
  cases a with
  | waiting => exact absurd rfl h
  | _ => rfl

lemma blocked_le_exposed (e : ℕ) (r : List (Thread α))
    (h : total (exposed e) r = 0) : total blocked r = 0 := by
  rw [total_eq_zero] at h ⊢
  intro a ha
  refine blocked_eq_zero ?_
  rintro rfl
  exact absurd (h _ ha) one_ne_zero

lemma Supplied.noLostWakeup (h : s.Supplied) : s.NoLostWakeup := by
  rintro ⟨ho, hn⟩ hk
  cases hl : s.closed with
  | true =>
    rcases h.shut hl with hpo | he
    · omega
    · have hz := blocked_le_exposed _ _ he
      omega
  | false =>
    cases hp : s.permit with
    | true =>
      have hz := h.permit hp
      omega
    | false =>
      have hu := h.supply hl
      rw [hp, ho] at hu
      simp only [Bool.toNat_false, add_zero] at hu
      cases hq : s.queue with
      | nil => exact .inl ⟨rfl, rfl⟩
      | cons e q =>
        rw [hq, length_cons] at hu
        right
        have hle := hu (by omega)
        omega

lemma start_supplied (maxRequests : ℕ) : (start maxRequests : State α).Supplied :=
  ⟨nofun, fun _ h => absurd h (by simp [start]), fun _ => rfl, fun _ h => absurd h (by simp [start]),
    fun _ => by simp [start], fun _ => rfl, nofun⟩

lemma Supplied.of_totals (h : s.Supplied) (hl : t.closed = s.closed) (hh : t.epoch = s.epoch)
    (hN : total announcing t.threads = total announcing s.threads)
    (hX : s.closed → total (exposed s.epoch) t.threads ≤ total (exposed s.epoch) s.threads)
    (hme : ∀ c ∈ t.threads, c ∈ s.threads ∨ c ≠ .notified true ∧ ∀ e, c = .poll e → e ≤ s.epoch)
    (hp : t.permit → total blocked t.threads = 0)
    (hs : s.closed = false → t.permit.toNat < total blocked t.threads + total window t.threads →
      t.queue.length ≤ total woken t.threads + t.permit.toNat + total owed t.threads) :
    t.Supplied := by
  constructor
  · exact hp
  · rwa [hl]
  · rw [hl, hh]
    exact h.epoch
  · rw [hh]
    intro e he
    rcases hme _ he with hm | ⟨-, hle⟩
    exacts [h.created e hm, hle e rfl]
  · rw [hl]
    intro hopen hal
    rcases hme _ hal with hm | ⟨hne, -⟩
    exacts [h.toAll hopen hm, hne rfl]
  · rw [hl, hN]
    exact h.announced
  · rw [hl, hh, hN]
    intro hu
    exact (h.shut hu).imp_right fun hz => Nat.le_zero.1 ((hX hu).trans hz.le)

/-- What a move of one thread must respect, apart from notifications. -/
structure Balanced (s t : State α) (a b : Thread α) : Prop where
  permit : s.permit = true → b.blocked ≤ a.blocked
  supply : s.closed = false → t.queue = [] ∨
    (b.blocked + b.window ≤ a.blocked + a.window ∧
      t.queue.length + a.woken + a.owed ≤ s.queue.length + b.woken + b.owed)
  created : ∀ e, b = .poll e → e ≤ s.epoch
  toAll : b ≠ .notified true
  announcing : a.announcing = 0 ∧ b.announcing = 0
  shut : s.closed = true → b.exposed s.epoch ≤ a.exposed s.epoch

lemma Supplied.move (h : s.Supplied) (hi : s.threads[i]? = some a) (hb : Balanced s t a b)
    (ht : t.threads = s.threads.set i b) (hl : t.closed = s.closed)
    (hr : t.permit = s.permit) (hh : t.epoch = s.epoch) : t.Supplied := by
  have ho (f : Thread α → ℕ) : total f t.threads + f a = total f s.threads + f b := by
    rw [ht]
    exact total_set hi
  have hB := ho blocked
  refine h.of_totals hl hh ?_ (fun hu => ?_) (fun c hc => ?_) (fun hp => ?_) fun hopen hlt => ?_
  · have hN := ho announcing
    have hn := hb.announcing
    omega
  · have hX := ho (exposed s.epoch)
    have he := hb.shut hu
    omega
  · rw [ht] at hc
    refine (mem_or_eq_of_mem_set hc).imp_right ?_
    rintro rfl
    exact ⟨hb.toAll, hb.created⟩
  · rw [hr] at hp
    have hz := h.permit hp
    have hle := hb.permit hp
    omega
  · rw [hr] at hlt ⊢
    rcases hb.supply hopen with hq | ⟨hw, hlen⟩
    · rw [hq]
      exact Nat.zero_le _
    · have hW := ho window
      have hM := ho woken
      have hK := ho owed
      have hle := h.supply hopen (by omega)
      omega

lemma Supplied.takePermit (h : s.Supplied) {e : ℕ} (hi : s.threads[i]? = some (.poll e))
    (hp : s.permit) : ({ s with permit := false }.goto i .resumed).Supplied := by
  have ho (f : Thread α → ℕ) :
      total f (s.threads.set i .resumed) + f (.poll e) = total f s.threads + f .resumed :=
    total_set hi
  refine h.of_totals rfl rfl (ho announcing) (fun _ => ?_) (fun c hc => ?_) nofun
    fun hopen hlt => ?_
  · exact (Nat.le_add_right _ _).trans (ho (exposed s.epoch)).le
  · refine (mem_or_eq_of_mem_set hc).imp_right ?_
    rintro rfl
    exact ⟨nofun, nofun⟩
  · have hB := ho blocked
    have hW := ho window
    have hM := ho woken
    have hK := ho owed
    have hu := h.supply hopen
    simp only [goto, blocked, window, woken, owed, hp, Bool.toNat_true, Bool.toNat_false] at *
    have hle := hu (by omega)
    omega

/-- A thread that gives up one wake-up, owed or received, and passes it to the notifier. -/
structure Yields (a b : Thread α) : Prop where
  blocked : a.blocked = 0 ∧ b.blocked = 0
  window : a.window = 0 ∧ b.window = 0
  woken : a.woken + a.owed = b.woken + b.owed + 1
  created : ∀ e, b ≠ .poll e
  toAll : b ≠ .notified true
  announcing : a.announcing = 0 ∧ b.announcing = 0
  exposed : ∀ e, b.exposed e = 0

lemma Yields.mem_set (hy : Yields a b) {c : Thread α} (hc : c ∈ s.threads.set i b) :
    c ∈ s.threads ∨ c ≠ .notified true ∧ ∀ e, c = .poll e → e ≤ s.epoch := by
  refine (mem_or_eq_of_mem_set hc).imp_right ?_
  rintro rfl
  exact ⟨hy.toAll, fun e he => absurd he (hy.created e)⟩

lemma Supplied.yield_wake (h : s.Supplied) (hi : s.threads[i]? = some a) (hy : Yields a b)
    {j : ℕ} (hj : (s.goto i b).threads[j]? = some .waiting) :
    ((s.goto i b).goto j (.notified false)).Supplied := by
  have ho (f : Thread α → ℕ) :
      total f ((s.goto i b).goto j (.notified false)).threads + f .waiting + f a =
        total f s.threads + f b + f (.notified false) := by
    have he : total f (s.goto i b).threads + f a = total f s.threads + f b := total_set hi
    have hw : total f ((s.goto i b).goto j (.notified false)).threads + f .waiting =
        total f (s.goto i b).threads + f (.notified false) := total_set hj
    omega
  have hB : total blocked _ + 1 + a.blocked = _ + b.blocked + 0 := ho _
  obtain ⟨hBa, hBb⟩ := hy.blocked
  refine h.of_totals rfl rfl ?_ (fun _ => ?_) (fun c hc => ?_) (fun hp => ?_) fun hopen hlt => ?_
  · have hN : total announcing _ + 0 + a.announcing = _ + b.announcing + 0 := ho _
    obtain ⟨hNa, hNb⟩ := hy.announcing
    omega
  · have hX : total (exposed s.epoch) _ + 1 + a.exposed s.epoch = _ + b.exposed s.epoch + 0 := ho _
    have hx := hy.exposed s.epoch
    omega
  · rcases mem_or_eq_of_mem_set hc with hm | rfl
    exacts [hy.mem_set hm, .inr ⟨nofun, nofun⟩]
  · have hz := h.permit hp
    omega
  · have hW : total window _ + 0 + a.window = _ + b.window + 0 := ho _
    have hM : total woken _ + 0 + a.woken = _ + b.woken + 1 := ho _
    have hK : total owed _ + 0 + a.owed = _ + b.owed + 0 := ho _
    obtain ⟨hWa, hWb⟩ := hy.window
    have hg := hy.woken
    have hu := h.supply hopen
    change s.permit.toNat < _ at hlt
    change s.queue.length ≤ _ + s.permit.toNat + _
    have hle := hu (by omega)
    omega

lemma Supplied.yield_store (h : s.Supplied) (hi : s.threads[i]? = some a) (hy : Yields a b)
    (hh : ¬ s.Deaf) (hn : ∀ c ∈ (s.goto i b).threads, c ≠ .waiting) :
    { s.goto i b with permit := true }.Supplied := by
  have ho (f : Thread α → ℕ) : total f (s.threads.set i b) + f a = total f s.threads + f b :=
    total_set hi
  have hz : total blocked (s.threads.set i b) = 0 :=
    total_eq_zero.2 fun c hc => blocked_eq_zero (hn c hc)
  refine h.of_totals rfl rfl ?_ (fun _ => ?_) (fun c hc => hy.mem_set hc) (fun _ => hz)
    fun hopen hlt => ?_
  · have hN := ho announcing
    obtain ⟨hNa, hNb⟩ := hy.announcing
    simp only [goto]
    omega
  · have hX := ho (exposed s.epoch)
    have he := hy.exposed s.epoch
    simp only [goto]
    omega
  · have hW := ho window
    have hM := ho woken
    have hK := ho owed
    obtain ⟨hWa, hWb⟩ := hy.window
    have hg := hy.woken
    have hu := h.supply hopen
    simp only [goto, Bool.toNat_true] at hlt ⊢
    cases hp : s.permit with
    | true => exact absurd ⟨hp, by omega⟩ hh
    | false =>
      rw [hp, Bool.toNat_false] at hu
      have hle := hu (by omega)
      omega

lemma Supplied.yield (h : s.Supplied) (hi : s.threads[i]? = some a) (hy : Yields a b)
    (hh : ¬ s.Deaf) {r : Option ℕ} (hn : (s.goto i b).notify r = some t) : t.Supplied := by
  rcases notify_cases hn with ⟨j, hj, rfl⟩ | ⟨ho, rfl⟩
  · exact h.yield_wake hi hy hj
  · exact h.yield_store hi hy hh ho

/-- Waking the waiters leaves nobody exposed, if every receiver past the closed check has created
its waiter. -/
lemma Supplied.wakeAll (h : s.Supplied) (hi : s.threads[i]? = some .notifyWaiters)
    (hh : total unaware s.threads = 0) :
    ({ s with epoch := s.epoch + 1, threads := s.threads.map wake }.goto i .finished).Supplied := by
  have hl : s.closed := by
    by_contra hopen
    have hle := le_total (f := announcing) hi
    rw [h.announced (by simpa using hopen)] at hle
    cases hle
  have hf : ∀ c ∈ (s.threads.map wake).set i .finished, c.exposed (s.epoch + 1) = 0 := by
    intro c hc
    rcases mem_or_eq_of_mem_set hc with hc | rfl
    · obtain ⟨d, hd, rfl⟩ := List.mem_map.1 hc
      have hun := total_eq_zero.1 hh d hd
      cases d with
      | poll e =>
        have hle := h.created e hd
        simp only [wake, exposed]
        rw [if_neg (by omega)]
      | pop woken | enlist woken | create => cases hun
      | _ => rfl
    · rfl
  have hx := total_eq_zero.2 hf
  refine ⟨fun _ => blocked_le_exposed _ _ hx, fun hopen => ?_, fun hopen => ?_, fun e he => ?_,
    fun hopen => ?_, fun hopen => ?_, fun _ => .inr hx⟩
  · exact absurd (hl.symm.trans hopen) nofun
  · exact absurd (hl.symm.trans hopen) nofun
  · rcases mem_or_eq_of_mem_set he with he | heq
    · obtain ⟨d, hd, heq⟩ := List.mem_map.1 he
      cases d with
      | poll e' =>
        cases heq
        exact (h.created e hd).trans (Nat.le_succ _)
      | _ => cases heq
    · cases heq
  · exact absurd (hl.symm.trans hopen) nofun
  · exact absurd (hl.symm.trans hopen) nofun

lemma Supplied.close (h : s.Supplied) (hi : s.threads[i]? = some .closing) :
    ({ s with closed := true }.goto i .notifyWaiters).Supplied := by
  have hB := total_set (f := blocked) (b := .notifyWaiters) hi
  have hN := total_set (f := announcing) (b := .notifyWaiters) hi
  simp only [blocked, announcing] at hB hN
  refine ⟨fun hp => ?_, nofun, nofun, fun e he => ?_, nofun, nofun, fun _ => .inl ?_⟩
  · have hz := h.permit hp
    simp only [goto]
    omega
  · rcases mem_or_eq_of_mem_set he with hm | heq
    exacts [h.created e hm, by cases heq]
  · simp only [goto]
    omega

lemma Supplied.advance (h : s.Supplied) (hi : s.threads[i]? = some a) (hh : s.HeardFrom a)
    {r : Option ℕ} (he : s.advance i r a = some t) : t.Supplied := by
  cases a with
  | arrive =>
    cases he
    refine h.move hi ?_ rfl rfl rfl rfl
    split_ifs <;> constructor <;> simp [goto, blocked, window, woken, owed, announcing, exposed]
  | check wk =>
    cases he
    refine h.move hi ?_ rfl rfl rfl rfl
    split_ifs with hl
    · constructor <;> simp [blocked, announcing, exposed, hl]
    · constructor <;> cases wk <;>
        simp [goto, blocked, window, woken, owed, announcing, exposed, hl]
  | pop wk =>
    have ht := underLock_eq_some he
    split at ht
    next m q hq =>
      subst t
      refine h.move hi (b := .uncount m) ?_ rfl rfl rfl rfl
      constructor <;> cases wk <;>
        simp [goto, blocked, window, woken, owed, announcing, exposed, hq]
    next hq =>
      subst t
      refine h.move hi (b := .enlist wk) ?_ rfl rfl rfl rfl
      constructor <;> simp [goto, blocked, announcing, exposed, hq]
  | poll e =>
    cases he
    split_ifs with hp ho
    · exact h.takePermit hi hp
    · refine h.move hi ?_ rfl rfl rfl rfl
      have hle := h.created e (mem_of_getElem? hi)
      have hl : s.closed := by
        by_contra hopen
        have hz := h.epoch (by simpa using hopen)
        omega
      constructor <;> simp [blocked, announcing, exposed, hl]
    · refine h.move hi ?_ rfl rfl rfl rfl
      constructor <;>
        simp_all [goto, blocked, window, woken, owed, announcing, exposed]
  | uncount m | enlist wk | create | notified all | resumed | recount | storeCount sent =>
    cases he
    refine h.move hi ?_ rfl rfl rfl rfl
    constructor <;> simp [goto, blocked, window, woken, owed, announcing, exposed]
  | push m | pushAll items | drain n =>
    have ht := underLock_eq_some he
    subst t
    refine h.move hi ?_ rfl rfl rfl rfl
    constructor <;> simp [goto, blocked, window, woken, owed, announcing, exposed]
  | notifyOne =>
    refine h.yield hi (b := .finished) ?_ hh he
    constructor <;> simp [blocked, window, woken, owed, announcing, exposed]
  | retain k =>
    have ht := underLock_eq_some he
    subst t
    refine h.move hi (b := .storeCount 0) ?_ rfl rfl rfl rfl
    constructor <;>
      simp [goto, blocked, window, woken, owed, announcing, exposed, length_filter_le]
  | notifyAll sent =>
    cases sent with
    | zero =>
      cases he
      refine h.move hi (b := .finished) ?_ rfl rfl rfl rfl
      constructor <;> simp [goto, blocked, window, woken, owed, announcing, exposed]
    | succ sent =>
      refine h.yield hi (b := .notifyAll sent) ?_ hh he
      constructor <;> simp [blocked, window, woken, owed, announcing, exposed]
  | closing =>
    cases he
    exact h.close hi
  | notifyWaiters =>
    cases he
    exact h.wakeAll hi hh
  | waiting | done result | dropped | finished => cases he

lemma Supplied.cancel (h : s.Supplied) (hi : s.threads[i]? = some a)
    (hh : a = .notified false → ¬ s.Deaf) {r : Option ℕ}
    (ht : s.cancel i r a = some t) : t.Supplied := by
  cases a with
  | waiting =>
    cases ht
    refine h.move hi (b := .dropped) ?_ rfl rfl rfl rfl
    constructor <;> simp [goto, blocked, window, woken, owed, announcing, exposed]
  | notified all =>
    cases all with
    | true =>
      cases ht
      refine h.move hi (b := .dropped) ?_ rfl rfl rfl rfl
      have hl : s.closed := by
        by_contra hopen
        exact h.toAll (by simpa using hopen) (mem_of_getElem? hi)
      constructor <;> simp [goto, blocked, announcing, exposed, hl]
    | false =>
      refine h.yield hi (b := .dropped) ?_ (hh rfl) ht
      constructor <;> simp [blocked, window, woken, owed, announcing, exposed]
  | _ => cases ht

lemma Supplied.call (h : s.Supplied) (c : Call α) :
    ({ s with threads := s.threads ++ [c.entry] } : State α).Supplied := by
  have hentry : c.entry.blocked = 0 ∧ c.entry.window = 0 ∧ c.entry.woken = 0 ∧ c.entry.owed = 0 ∧
      c.entry.announcing = 0 ∧ c.entry.exposed s.epoch = 0 ∧ c.entry ≠ .notified true ∧
        ∀ e, c.entry ≠ .poll e := by
    cases c <;> simp [Call.entry, blocked, window, woken, owed, announcing, exposed]
  obtain ⟨hB, hW, hM, hK, hN, hX, hl, hp⟩ := hentry
  refine ⟨?_, ?_, h.epoch, fun e he => ?_, fun hopen hm => ?_, ?_, ?_⟩
  · simpa [hB] using h.permit
  · simpa [hB, hW, hM, hK] using h.supply
  · rcases mem_append.1 he with hm | hm
    exacts [h.created e hm, absurd (mem_singleton.1 hm).symm (hp e)]
  · rcases mem_append.1 hm with hm | hm
    exacts [h.toAll hopen hm, hl (mem_singleton.1 hm).symm]
  · simpa [hN] using h.announced
  · simpa [hN, hX] using h.shut

lemma Supplied.step (h : s.Supplied) {e : Event α} (hh : s.Heard e)
    (ht : s.step e = some t) : t.Supplied := by
  cases e with
  | call c =>
    cases ht
    exact h.call c
  | step i r =>
    obtain ⟨a, hi, hd⟩ := Option.bind_eq_some_iff.1 ht
    exact h.advance hi (hh a hi) hd
  | cancel i r =>
    obtain ⟨a, hi, hn⟩ := Option.bind_eq_some_iff.1 ht
    exact h.cancel hi (fun ha => hh a hi (ha ▸ rfl)) hn
  | setMaxRequests n =>
    cases ht
    exact ⟨h.permit, h.supply, h.epoch, h.created, h.toAll, h.announced, h.shut⟩

/-- No wake-up is lost in a run whose notifications are all heard, and closing the queue then leaves
no receiver blocked. -/
theorem noLostWakeup_of_heard (maxRequests : ℕ) (es : List (Event α)) (t : State α)
    (hheard : Along step Heard (start maxRequests) es) (hrun : run step (start maxRequests) es = some t) :
    t.NoLostWakeup ∧ (t.Quiescent → t.closed = true → total blocked t.threads = 0) := by
  have hu : t.Supplied := run_invariant (fun _ _ _ h hg ht => h.step hg ht)
    (start_supplied maxRequests) hheard hrun
  refine ⟨hu.noLostWakeup, fun hq hl => ?_⟩
  rcases hu.shut hl with hp | he
  · exact absurd hq.2 (by omega)
  · exact blocked_le_exposed _ _ he

theorem noLostWakeup_of_heard_send : ∃ t : State ℕ,
    run step (start 1) ([.call .recv] ++ alone 0 6 ++ [.call (.send 7), .step 1 none, .step 1 none,
      .step 1 (some 0)]) = some t ∧ t.queue = [7] ∧ t.NoLostWakeup := by
  obtain ⟨t, hr, hqueue⟩ : ∃ t : State ℕ, run step (start 1) (([.call .recv] : List (Event ℕ)) ++
      alone 0 6 ++ ([.call (.send 7), .step 1 none, .step 1 none, .step 1 (some 0)] : List (Event ℕ))) =
      some t ∧ t.queue = [7] := ⟨_, rfl, rfl⟩
  exact ⟨t, hr, hqueue, (noLostWakeup_of_heard 1 _ t (by decide) hr).1⟩

/-- Two receivers are about to register when two workers are sent at once: one of them stays blocked
with a worker in the queue. And a receiver that passed the closed check before `close` blocks for good
on the closed queue. -/
theorem not_noLostWakeup_sendAll_close :
    (∃ t : State ℕ, run step (start 50) ([.call .recv, .call .recv] ++ alone 0 4 ++ alone 1 4 ++
        [.call (.sendAll [7, 8])] ++ alone 2 5 ++ alone 0 2 ++ alone 1 2 ++ alone 0 4) = some t ∧
      t.queue = [8] ∧ ¬ t.NoLostWakeup) ∧
    (∃ t : State ℕ, run step (start 50) ([.call .recv] ++ alone 0 2 ++ [.call .close] ++ alone 1 2 ++
        alone 0 4) = some t ∧ t.closed = true ∧ ¬ t.NoLostWakeup) := by
  constructor
  · refine ⟨_, rfl, rfl, fun h => ?_⟩
    rcases h ⟨rfl, rfl⟩ (by decide) with ⟨hq, -⟩ | hw
    · cases hq
    · revert hw
      decide
  · refine ⟨_, rfl, rfl, fun h => ?_⟩
    rcases h ⟨rfl, rfl⟩ (by decide) with ⟨-, hc⟩ | hw
    · cases hc
    · revert hw
      decide

end State

end QJazz.Pool.Queue
