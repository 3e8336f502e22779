import QJazz.Pool.Restore.Replay

/-! A property of a child that is about one project is followed through the messages of a restore.
-/
namespace QJazz.Pool.Restore
open Config List Option

/-- What the services issue: a cache command or a configuration patch. -/
inductive Issued where
  | cache (c : State)
  | config (config : Document)

def issue (r : Restore) : Issued → Restore
  | .cache c => r.updateCache c
  | .config config => r.updateConfig config

def issueAll (r : Restore) (history : List Issued) : Restore := history.foldl issue r

lemma LogOrdered.issue {r : Restore} (h : r.LogOrdered) (e : Issued) : (r.issue e).LogOrdered := by
  cases e with
  | cache c => exact h.updateCache c
  | config config => exact ⟨h.increasing, fun entry he => (h.bounded entry he).trans (Nat.le_succ _)⟩

lemma LogOrdered.issueAll {r : Restore} (h : r.LogOrdered) (history : List Issued) :
    (r.issueAll history).LogOrdered := by
  induction history generalizing r with
  | nil => exact h
  | cons e history ih => exact ih (h.issue e)

lemma LogOrdered.pending_of_le {r : Restore} (h : r.LogOrdered) {l : ℕ}
    (hle : r.update ≤ l) : r.pending l = [] := by
  have hn : (r.states.filter fun e => l < e.1) = [] := by
    rw [filter_eq_nil_iff]
    intro e hentry
    have ho := h.bounded e hentry
    simp only [decide_eq_true_eq]
    omega
  rw [pending, hn, map_nil]

/-- A property of a child that is about the project `uri`: dropping the project and clearing the
cache establish it, messages about other projects keep it, a pull of the project establishes it if
`pulled`, and refreshing the cache if `swept`. -/
structure Follows {χ : Type*} (exec : WorkerCall → χ → Option χ) (uri : String) (pulled swept : Bool)
    (Inv P : χ → Prop) : Prop where
  inv : ∀ {m c c'}, Inv c → exec m c = some c' → Inv c'
  config : ∀ {config c c'}, Inv c → exec (.putConfig config) c = some c' → P c → P c'
  look : ∀ {v c c'}, Inv c → exec (.checkoutProject v false) c = some c' → P c → P c'
  pull : ∀ {v c c'}, Inv c → exec (.checkoutProject v true) c = some c' →
    (if v = uri then pulled = true else P c) → P c'
  drop : ∀ {v c c'}, Inv c → exec (.dropProject v) c = some c' → v = uri ∨ P c → P c'
  clear : ∀ {c c'}, Inv c → exec .clearCache c = some c' → P c'
  update : ∀ {c c'}, Inv c → exec .updateCache c = some c' → swept = true ∨ P c → P c'

/-- What a command settles about the project, if it does. -/
def State.decides (uri : String) (pulled : Bool) : State → Option Bool
  | .pull v => if v = uri then some pulled else none
  | .remove v => if v = uri then some true else none
  | .clear => some true
  | .update => none

/-- Whether a worker that was restored at the revision has the property after it is restored again. -/
def settled (r : Restore) (uri : String) (pulled swept : Bool) (lastUpdate : ℕ) : Bool :=
  if lastUpdate = 0 then pulled && decide (uri ∈ r.pulls)
  else if lastUpdate < r.update then
    ((r.pending lastUpdate).findSome? (State.decides uri pulled)).getD swept
  else false

def oldestAbout (r : Restore) (uri : String) (lastUpdate : ℕ) : Option State :=
  (r.pending lastUpdate).find? fun c => c.names uri || decide (c = .clear)

lemma findSome?_decides (uri : String) (pulled : Bool) (cs : List State) :
    cs.findSome? (State.decides uri pulled) =
      (cs.find? fun c => c.names uri || decide (c = .clear)).map fun c =>
        if c = .pull uri then pulled else true := by
  induction cs with
  | nil => rfl
  | cons c cs ih =>
    rw [List.findSome?_cons, List.find?_cons]
    cases c with
    | pull v | remove v => by_cases hv : v = uri <;> simp [State.decides, State.names, hv, ih]
    | clear => simp [State.decides, State.names]
    | update => simp [State.decides, State.names, ih]

lemma LogOrdered.settled_remove {r : Restore} (ho : r.LogOrdered) {l : ℕ}
    (hle : l ≤ r.update) (uri : String) :
    (r.updateCache (.remove uri)).settled uri false false l ↔
      l ≠ 0 ∧ r.oldestAbout uri l ≠ some (.pull uri) ∧
        (r.oldestAbout uri l = none → uri ∈ r.pulls) := by
  by_cases hz : l = 0
  · simp [settled, hz]
  simp only [settled, hz, if_false, findSome?_decides, oldestAbout, ne_eq, not_false_eq_true,
    true_and]
  by_cases hm : uri ∈ r.pulls
  · have he : (State.remove uri).effective r.pulls := by simpa [State.effective] using hm
    have hl := pending_updateCache hle he
    simp only [reduceCtorEq, if_false] at hl
    rw [updateCache_update he, if_pos (by omega), hl, List.find?_append]
    cases (r.pending l).find? fun c => c.names uri || decide (c = .clear) with
    | none => simp [State.names, hm]
    | some c => by_cases hc : c = .pull uri <;> simp [hc]
  · rw [updateCache_noop (by simpa [State.effective] using hm)]
    by_cases hlt : l < r.update
    · rw [if_pos hlt]
      cases (r.pending l).find? fun c => c.names uri || decide (c = .clear) with
      | none => simp [hm]
      | some c => by_cases hc : c = .pull uri <;> simp [hc]
    · simp [hlt, hm, ho.pending_of_le (not_lt.1 hlt)]

lemma LogOrdered.settled_pull {r : Restore} (ho : r.LogOrdered) {l : ℕ}
    (hle : l ≤ r.update) (uri : String) (swept : Bool) :
    (r.updateCache (.pull uri)).settled uri true swept l ↔
      uri ∉ r.pulls ∨ l = 0 ∨ r.oldestAbout uri l ≠ none ∨ (swept ∧ l < r.update) := by
  by_cases hz : l = 0
  · simp [settled, hz, updateCache_pulls, State.onSet]
  simp only [settled, hz, if_false, findSome?_decides, oldestAbout, false_or, ite_self]
  by_cases hm : uri ∈ r.pulls
  · rw [updateCache_noop (by simpa [State.effective] using hm)]
    by_cases hlt : l < r.update
    · rw [if_pos hlt]
      cases (r.pending l).find? fun c => c.names uri || decide (c = .clear) with
      | none => simp [hm, hlt]
      | some c => simp
    · simp [hlt, hm, ho.pending_of_le (not_lt.1 hlt)]
  · have he : (State.pull uri).effective r.pulls := by simpa [State.effective] using hm
    have hl := pending_updateCache hle he
    simp only [reduceCtorEq, if_false] at hl
    rw [updateCache_update he, if_pos (by omega), hl, List.find?_append]
    cases (r.pending l).find? fun c => c.names uri || decide (c = .clear) with
    | none => simp [State.names, hm]
    | some c => simp [hm]

namespace Follows
variable {χ : Type*} {e : WorkerCall → χ → Option χ} {uri : String} {pulled swept : Bool}
  {Inv P : χ → Prop} {w w' : Worker χ} {r : Restore}

/-- The child is as it should be, and has the property if the flag says so. -/
structure Known (Inv P : χ → Prop) (known : Bool) (w : Worker χ) : Prop where
  inv : Inv w.child
  holds : known = true → P w.child

lemma known_call (hf : Follows e uri pulled swept Inv P) {m : WorkerCall} {n k : Bool}
    (hw : Known Inv P n w) (h : w.call e m = some w')
    (hP : e m w.child = some w'.child → (n → P w.child) → k → P w'.child) :
    Known Inv P k w' :=
  ⟨hf.inv hw.inv (Worker.exec_of_call h), hP (Worker.exec_of_call h) hw.holds⟩

lemma known_pull (hf : Follows e uri pulled swept Inv P) {v : String} {k : Bool}
    (hw : Known Inv P k w) (h : w.call e (.checkoutProject v true) = some w') :
    Known Inv P (if v = uri then pulled else k) w' := by
  refine hf.known_call hw h fun he hn hk => hf.pull hw.inv he ?_
  split
  next hv => rwa [if_pos hv] at hk
  next hv =>
    rw [if_neg hv] at hk
    exact hn hk

lemma known_apply (hf : Follows e uri pulled swept Inv P) {c : State} {k : Bool}
    (hw : Known Inv P k w) (h : c.apply e w = some w') :
    Known Inv P ((c.decides uri pulled).getD k) w' := by
  cases c with
  | pull v =>
    have hp := hf.known_pull hw h
    rw [State.decides]
    split at hp <;> simp_all
  | remove v =>
    refine hf.known_call hw h fun he hn hk => hf.drop hw.inv he ?_
    rw [State.decides] at hk
    split at hk
    next hv => exact Or.inl hv
    · exact Or.inr (hn hk)
  | clear => exact hf.known_call hw h fun he _ _ => hf.clear hw.inv he
  | update =>
    cases h
    exact hw

lemma known_foldlM (hf : Follows e uri pulled swept Inv P) {cs : List State} {k : Bool}
    (hw : Known Inv P k w) (h : cs.reverse.foldlM (State.apply e) w = some w') :
    Known Inv P ((cs.findSome? (State.decides uri pulled)).getD k) w' := by
  induction cs generalizing w' with
  | nil =>
    cases h
    exact hw
  | cons c cs ih =>
    rw [reverse_cons, foldlM_append] at h
    obtain ⟨v, hv, h⟩ := bind_eq_some_iff.1 h
    have hp := hf.known_apply (ih hv) (by simpa using h)
    rw [List.findSome?_cons]
    cases hc : c.decides uri pulled with
    | none | some b => simpa [hc] using hp

lemma known_checkouts (hf : Follows e uri pulled swept Inv P) {i : List String} {k : Bool}
    (hw : Known Inv P k w)
    (h : i.foldlM (fun w uri => w.call e (.checkoutProject uri true)) w = some w') :
    Known Inv P (if uri ∈ i then pulled else k) w' := by
  induction i generalizing w k with
  | nil =>
    cases h
    simpa using hw
  | cons v i ih =>
    rw [foldlM_cons] at h
    obtain ⟨u, hu, h⟩ := bind_eq_some_iff.1 h
    have hr := ih (hf.known_pull hw hu) h
    by_cases hv : v = uri
    · subst hv
      simpa using hr
    · simpa [hv, Ne.symm hv] using hr

lemma known_updateWorkerConfig (hf : Follows e uri pulled swept Inv P) {k : Bool}
    (hw : Known Inv P k w) (h : r.updateWorkerConfig e w = some w') : Known Inv P k w' := by
  unfold updateWorkerConfig at h
  split at h
  · exact hf.known_call hw h fun he hn hk => hf.config hw.inv he (hn hk)
  · cases h
    exact hw

lemma known_restore (hf : Follows e uri pulled swept Inv P) (ho : r.LogOrdered) (hw : Inv w.child)
    (h : r.restore e w = some w') :
    Known Inv P (r.settled uri pulled swept w.lastUpdate) w' := by
  obtain ⟨v, hv, h⟩ := bind_eq_some_iff.1 h
  obtain ⟨u, hu, h⟩ := bind_eq_some_iff.1 h
  cases h
  have hl : v.lastUpdate = w.lastUpdate := by
    unfold updateWorkerConfig at hv
    split at hv
    · exact (Worker.call_fields hv).2.2
    · cases hv
      rfl
  have hn : Known Inv P false v := hf.known_updateWorkerConfig ⟨hw, by simp⟩ hv
  suffices hcache : Known Inv P (r.settled uri pulled swept w.lastUpdate) u from
    ⟨hcache.inv, hcache.holds⟩
  rw [settled, ← hl]
  simp only [updateWorkerCache] at hu
  split_ifs at hu ⊢ with hz hlt
  · have hal := hf.known_checkouts hn hu
    by_cases hm : uri ∈ r.pulls
    · simpa [hm] using hal
    · simpa [hm] using hal
  · obtain ⟨v₁, hv₁, hu⟩ := bind_eq_some_iff.1 hu
    obtain ⟨v₂, hv₂, hu⟩ := bind_eq_some_iff.1 hu
    have hp : Known Inv P swept v₂ :=
      hf.known_call (hf.known_updateWorkerConfig hn hv₁) hv₂ fun he _ hk =>
        hf.update (hf.known_updateWorkerConfig hn hv₁).inv he (Or.inl hk)
    rw [ho.replay_eq] at hu
    exact hf.known_foldlM hp hu
  · cases hu
    exact hn

lemma holds_restore (hf : Follows e uri true swept Inv P) (hw : Known Inv P true w)
    (h : r.restore e w = some w') : Known Inv P true w' := by
  have hp : CacheRespects e fun w w' => Known Inv P true w → Known Inv P true w' := by
    refine ⟨fun _ => id, fun h h' => h' ∘ h, ?_⟩
    intro m w w' ho h hw
    refine hf.known_call hw h fun he hP _ => ?_
    cases m with
    | putConfig c => exact absurd rfl (ho c)
    | checkoutProject v p =>
      cases p with
      | false => exact hf.look hw.inv he (hP rfl)
      | true =>
        refine hf.pull hw.inv he ?_
        split
        · rfl
        · exact hP rfl
    | dropProject v => exact hf.drop hw.inv he (Or.inr (hP rfl))
    | updateCache => exact hf.update hw.inv he (Or.inr (hP rfl))
    | clearCache => exact hf.clear hw.inv he
  obtain ⟨v, hv, h⟩ := bind_eq_some_iff.1 h
  obtain ⟨u, hu, h⟩ := bind_eq_some_iff.1 h
  cases h
  have hk := hf.known_updateWorkerConfig hw hv
  suffices hcache : Known Inv P true u from ⟨hcache.inv, hcache.holds⟩
  simp only [updateWorkerCache] at hu
  split_ifs at hu
  · exact hp.checkouts hu hk
  · obtain ⟨v₁, hv₁, hu⟩ := bind_eq_some_iff.1 hu
    obtain ⟨v₂, hv₂, hu⟩ := bind_eq_some_iff.1 hu
    exact hp.replay hu (hp.call (by simp) hv₂ (hf.known_updateWorkerConfig hk hv₁))
  · cases hu
    exact hk

end Follows

section Bit
variable (uri : String) (pulled swept : Bool)

/-- A child that is nothing but the property. It makes of each message only what the laws demand. -/
def bitExec : WorkerCall → Bool → Option Bool
  | .putConfig _, b => some b
  | .checkoutProject v pull, b => some (if pull && decide (v = uri) then pulled else b)
  | .dropProject v, b => some (decide (v = uri) || b)
  | .updateCache, b => some (swept || b)
  | .clearCache, _ => some true

lemma follows_bit : Follows (bitExec uri pulled swept) uri pulled swept (fun _ => True) (·) where
  inv _ _ := trivial
  config _ h hb := by
    cases h
    exact hb
  look _ h hb := by
    cases h
    simpa using hb
  pull _ h hb := by
    cases h
    simpa using hb
  drop _ h hb := by
    cases h
    simpa using hb
  clear _ h := by
    cases h
    rfl
  update _ h hb := by
    cases h
    simpa using hb

def bitWorker (lastUpdate : ℕ) (b : Bool) : Worker Bool := { child := b, lastUpdate }

variable {uri pulled swept}

lemma call_bit {l : ℕ} {b b' : Bool} {m : WorkerCall}
    (h : bitExec uri pulled swept m b = some b') :
    (bitWorker l b).call (bitExec uri pulled swept) m = some (bitWorker l b') := by
  rw [Worker.call, bitWorker, if_pos rfl, h]
  rfl

lemma apply_bit (l : ℕ) (b : Bool) (c : State) :
    c.apply (bitExec uri pulled swept) (bitWorker l b) =
      some (bitWorker l ((c.decides uri pulled).getD b)) := by
  cases c with
  | pull v | remove v =>
    refine call_bit ?_
    by_cases hv : v = uri <;> simp [bitExec, State.decides, hv]
  | clear => exact call_bit rfl
  | update => rfl

lemma foldlM_bit (l : ℕ) (b : Bool) (cs : List State) :
    cs.reverse.foldlM (State.apply (bitExec uri pulled swept)) (bitWorker l b) =
      some (bitWorker l ((cs.findSome? (State.decides uri pulled)).getD b)) := by
  induction cs with
  | nil => rfl
  | cons c cs ih =>
    rw [reverse_cons, foldlM_append, ih]
    simp only [bind_eq_bind, bind_some, foldlM_cons, foldlM_nil, apply_bit, List.findSome?_cons]
    cases c.decides uri pulled <;> rfl

lemma checkouts_bit (l : ℕ) (b : Bool) (u : List String) :
    u.foldlM (fun w v => w.call (bitExec uri pulled swept) (.checkoutProject v true))
      (bitWorker l b) = some (bitWorker l (if uri ∈ u then pulled else b)) := by
  induction u generalizing b with
  | nil => rfl
  | cons v u ih =>
    rw [foldlM_cons, call_bit rfl]
    refine (ih _).trans ?_
    by_cases hv : v = uri
    · simp [hv]
    · simp [hv, Ne.symm hv]

lemma updateWorkerConfig_bit (r : Restore) (l : ℕ) (b : Bool) :
    r.updateWorkerConfig (bitExec uri pulled swept) (bitWorker l b) = some (bitWorker l b) := by
  rw [updateWorkerConfig]
  split
  · exact call_bit rfl
  · rfl

lemma LogOrdered.restore_bit {r : Restore} (ho : r.LogOrdered) (lastUpdate : ℕ) :
    r.restore (bitExec uri pulled swept) (bitWorker lastUpdate false) =
      some (bitWorker r.update (r.settled uri pulled swept lastUpdate)) := by
  have hh : r.updateWorkerCache (bitExec uri pulled swept) (bitWorker lastUpdate false) =
      some (bitWorker lastUpdate (r.settled uri pulled swept lastUpdate)) := by
    have hl : (bitWorker lastUpdate false).lastUpdate = lastUpdate := rfl
    simp only [updateWorkerCache, settled, hl]
    split_ifs with hz hlt
    · refine (checkouts_bit _ _ _).trans ?_
      by_cases hm : uri ∈ r.pulls <;> simp [hm]
    · rw [updateWorkerConfig_bit]
      simp only [bind_eq_bind, bind_some, call_bit (m := .updateCache) rfl, Bool.or_false]
      rw [ho.replay_eq, foldlM_bit]
    · rfl
  rw [restore, updateWorkerConfig_bit]
  simp only [bind_eq_bind, bind_some, hh]
  rfl

end Bit
end QJazz.Pool.Restore
