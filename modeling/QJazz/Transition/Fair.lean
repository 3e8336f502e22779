import QJazz.Transition.Run

/-! At each moment an event happens or nothing does. An execution is fair to some events if they
cannot be possible all the time without ever happening. -/
namespace QJazz.Transition

variable {σ ε ι : Type*}

structure Execution (step : σ → ε → Option σ) where
  state : ℕ → σ
  event : ℕ → Option ε
  next : ∀ n, (event n).elim (some (state n)) (step (state n)) = some (state (n + 1))

def Enabled (step : σ → ε → Option σ) (A : ε → Prop) (s : σ) : Prop := ∃ e t, A e ∧ step s e = some t

namespace Execution

variable {step : σ → ε → Option σ} {x : Execution step} {n m : ℕ} {I P Q R : σ → Prop}

def WeaklyFair (x : Execution step) (A : ε → Prop) : Prop :=
  ∀ n, (∀ m ≥ n, Enabled step A (x.state m)) → ∃ m ≥ n, ∃ e, A e ∧ x.event m = some e

/-- Events that are possible again and again happen. -/
def StronglyFair (x : Execution step) (A : ε → Prop) : Prop :=
  ∀ n, (∀ k ≥ n, ∃ m ≥ k, Enabled step A (x.state m)) → ∃ m ≥ n, ∃ e, A e ∧ x.event m = some e

/-- Whenever `P` holds, `Q` holds then or later. -/
def LeadsTo (x : Execution step) (P Q : σ → Prop) : Prop :=
  ∀ n, P (x.state n) → ∃ m ≥ n, Q (x.state m)

lemma state_succ_of_none (h : x.event n = none) : x.state (n + 1) = x.state n := by
  have hn := x.next n
  rw [h] at hn
  exact (Option.some.inj hn).symm

lemma step_of_event {e : ε} (h : x.event n = some e) :
    step (x.state n) e = some (x.state (n + 1)) := by
  have hn := x.next n
  rw [h] at hn
  exact hn

lemma next_cases (x : Execution step) (n : ℕ) : x.state (n + 1) = x.state n ∨
      ∃ e, x.event n = some e ∧ step (x.state n) e = some (x.state (n + 1)) := by
  cases he : x.event n with
  | none => exact Or.inl (state_succ_of_none he)
  | some e => exact Or.inr ⟨e, rfl, step_of_event he⟩

lemma holds_from (ht : ∀ k ≥ n, ∀ e, P (x.state k) → x.event k = some e → P (x.state (k + 1)))
    (hn : P (x.state n)) (hm : n ≤ m) : P (x.state m) := by
  induction m, hm using Nat.le_induction with
  | base => exact hn
  | succ k hk ih =>
    rcases x.next_cases k with hsa | ⟨e, he, -⟩
    · rwa [hsa]
    · exact ht k hk e ih he

lemma invariant (ht : ∀ s e t, I s → step s e = some t → I t) (h : I (x.state 0)) (n : ℕ) :
    I (x.state n) :=
  holds_from (fun _ _ _ hk he => ht _ _ _ hk (step_of_event he)) h (Nat.zero_le n)

namespace LeadsTo

lemma of_imp (h : ∀ s, P s → Q s) : x.LeadsTo P Q := fun n hn => ⟨n, le_rfl, h _ hn⟩

lemma trans (h : x.LeadsTo P Q) (h' : x.LeadsTo Q R) : x.LeadsTo P R := by
  intro n hn
  obtain ⟨m, hm, hQ⟩ := h n hn
  obtain ⟨k, hk, hR⟩ := h' m hQ
  exact ⟨k, hm.trans hk, hR⟩

lemma or (h : x.LeadsTo P R) (h' : x.LeadsTo Q R) : x.LeadsTo (fun s => P s ∨ Q s) R := by
  rintro n (hP | hQ)
  · exact h n hP
  · exact h' n hQ

lemma exists_left {α : Type*} {P : α → σ → Prop} (h : ∀ a, x.LeadsTo (P a) Q) :
    x.LeadsTo (fun s => ∃ a, P a s) Q := by
  rintro n ⟨a, ha⟩
  exact h a n ha

end LeadsTo

/-- A goal is reached if off the goal a fair process can act, and each step reaches the goal, brings
the measure down, or leaves the measure and the process as they are and is not one of that process.
-/
lemma leadsTo_of_measure {α : Type*} [LT α] [WellFoundedLT α] {A : ι → ε → Prop} (p : σ → ι) (m : σ → α)
    (hf : ∀ i, x.WeaklyFair (A i)) (hI : ∀ n, I (x.state n))
    (henabled : ∀ s, I s → P s → Enabled step (A (p s)) s)
    (ht : ∀ s e t, I s → I t → P s → step s e = some t →
      Q t ∨ P t ∧ (m t < m s ∨ m t = m s ∧ p t = p s ∧ ¬ A (p s) e)) : x.LeadsTo P Q := by
  intro n hP
  induction hm : m (x.state n) using WellFoundedLT.induction generalizing n with
  | ind a ih =>
    subst hm
    by_contra hnever
    push Not at hnever
    have hd : ∀ k ≥ n, P (x.state k) → ¬ m (x.state k) < m (x.state n) := by
      intro k hk hPk hlt
      obtain ⟨j, hj, hQ⟩ := ih _ hlt k hPk rfl
      exact hnever j (le_trans hk hj) hQ
    -- so nothing changes any more, and the process never acts
    have hsa : ∀ k ≥ n, P (x.state k) ∧ m (x.state k) = m (x.state n) ∧
        p (x.state k) = p (x.state n) := by
      intro k hk
      refine holds_from (P := fun s => P s ∧ m s = m (x.state n) ∧ p s = p (x.state n)) ?_
        ⟨hP, rfl, rfl⟩ hk
      rintro k hk e ⟨hPk, hmk, hpk⟩ he
      rcases ht _ e _ (hI k) (hI (k + 1)) hPk (step_of_event he) with hQ | ⟨hP', hlt | ⟨hm', hp', -⟩⟩
      · exact absurd hQ (hnever _ (by omega))
      · exact absurd (hmk ▸ hlt) (hd _ (by omega) hP')
      · exact ⟨hP', hm'.trans hmk, hp'.trans hpk⟩
    obtain ⟨k, hk, e, he, hv⟩ := hf (p (x.state n)) n fun k hk => by
      obtain ⟨hPk, -, hpk⟩ := hsa k hk
      exact hpk ▸ henabled _ (hI k) hPk
    obtain ⟨hPk, hmk, hpk⟩ := hsa k hk
    rcases ht _ e _ (hI k) (hI (k + 1)) hPk (step_of_event hv) with
      hQ | ⟨hP', hlt | ⟨-, -, hn⟩⟩
    · exact hnever _ (by omega) hQ
    · exact hd _ (by omega) hP' (hmk ▸ hlt)
    · exact hn (hpk ▸ he)

lemma leadsTo_of_stronglyFair {A : ε → Prop} (hf : x.StronglyFair A) (hI : ∀ n, I (x.state n))
    (hr : x.LeadsTo P fun s => Enabled step A s ∨ Q s)
    (hp : ∀ s e t, I s → I t → P s → step s e = some t → Q t ∨ P t ∧ ¬ A e) : x.LeadsTo P Q := by
  intro n hP
  by_contra hnever
  push Not at hnever
  have ht : ∀ k ≥ n, P (x.state k) := by
    intro k hk
    refine holds_from ?_ hP hk
    intro j hj e hPj he
    rcases hp _ e _ (hI j) (hI (j + 1)) hPj (step_of_event he) with hQ | ⟨hP', -⟩
    · exact absurd hQ (hnever _ (by omega))
    · exact hP'
  obtain ⟨k, hk, e, he, hv⟩ := hf n fun k hk => by
    obtain ⟨m, hm, henabled | hQ⟩ := hr k (ht k hk)
    · exact ⟨m, hm, henabled⟩
    · exact absurd hQ (hnever m (by omega))
  rcases hp _ e _ (hI k) (hI (k + 1)) (ht k hk) (step_of_event hv) with hQ | ⟨-, hn⟩
  · exact hnever _ (by omega) hQ
  · exact hn he

lemma run_take_succ {s u : σ} {es : List ε} (h : run step s es = some u) (n : ℕ) :
    ∃ t, run step s (es.take n) = some t ∧
      (es[n]?).elim (some t) (step t) = run step s (es.take (n + 1)) := by
  have hp : run step s (es.take n ++ es.drop n) = some u := by rwa [List.take_append_drop]
  rw [run_append] at hp
  obtain ⟨t, ht, -⟩ := Option.bind_eq_some_iff.1 hp
  refine ⟨t, ht, ?_⟩
  rw [List.take_add_one, run_append, ht]
  cases es[n]? with
  | none => rfl
  | some e => simp [run_cons]

def ofRun {s u : σ} {es : List ε} (h : run step s es = some u) : Execution step where
  state n := (run step s (es.take n)).getD s
  event n := es[n]?
  next n := by
    obtain ⟨t, ht, hnext⟩ := run_take_succ h n
    obtain ⟨t', ht', -⟩ := run_take_succ h (n + 1)
    simp only [ht, Option.getD_some, ht', hnext]

lemma state_ofRun {s u : σ} {es : List ε} (h : run step s es = some u) (hn : es.length ≤ n) :
    (ofRun h).state n = u := by
  show (run step s (es.take n)).getD s = u
  rw [List.take_of_length_le hn, h]
  rfl

lemma weaklyFair_ofRun {s u : σ} {es : List ε} (h : run step s es = some u) {A : ε → Prop}
    (he : ¬ Enabled step A u) : (ofRun h).WeaklyFair A := by
  intro n henabled
  have hl := henabled (max n es.length) (le_max_left _ _)
  rw [state_ofRun h (le_max_right _ _)] at hl
  exact absurd hl he

lemma stronglyFair_ofRun {s u : σ} {es : List ε} (h : run step s es = some u) {A : ε → Prop}
    (he : ¬ Enabled step A u) : (ofRun h).StronglyFair A := by
  intro n henabled
  obtain ⟨m, hm, hl⟩ := henabled (max n es.length) (le_max_left _ _)
  rw [state_ofRun h (le_trans (le_max_right _ _) hm)] at hl
  exact absurd hl he

end Execution

end QJazz.Transition
