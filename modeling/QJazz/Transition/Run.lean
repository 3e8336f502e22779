import Mathlib.Data.List.Infix
import Mathlib.Order.WellFounded

/-! Invariants are proved once for a step and carried to whole runs by the rules of this module. -/
namespace QJazz.Transition
open List

variable {σ ε : Type*}

/-- The state after the listed events. An event that is not enabled ends the run with `none`. -/
def run (step : σ → ε → Option σ) : σ → List ε → Option σ
  | s, [] => some s
  | s, e :: es => (step s e).bind fun t => run step t es

/-- Every step the events take meets `good` in the state it starts from. -/
def Along (step : σ → ε → Option σ) (good : σ → ε → Prop) : σ → List ε → Prop
  | _, [] => True
  | s, e :: es => ∀ t, step s e = some t → good s e ∧ Along step good t es

/-- The property holds in every state the events visit, the first and the last included. -/
def Always (step : σ → ε → Option σ) (P : σ → Prop) : σ → List ε → Prop
  | s, [] => P s
  | s, e :: es => P s ∧ ∀ t, step s e = some t → Always step P t es

variable {step : σ → ε → Option σ} {good : σ → ε → Prop} {P Inv : σ → Prop}
  {s t u : σ} {e : ε} {es fs : List ε}

@[simp] lemma run_nil : run step s [] = some s := rfl

lemma run_cons : run step s (e :: es) = (step s e).bind fun t => run step t es := rfl

lemma run_cons_some : run step s (e :: es) = some u ↔
    ∃ t, step s e = some t ∧ run step t es = some u := by
  rw [run_cons, Option.bind_eq_some_iff]

lemma run_append : run step s (es ++ fs) = (run step s es).bind fun t => run step t fs := by
  induction es generalizing s with
  | nil => rfl
  | cons e es ih =>
    rw [cons_append, run_cons, run_cons, Option.bind_assoc]
    exact congrArg _ (funext fun t => ih)

lemma along_cons (h : step s e = some t) :
    Along step good s (e :: es) ↔ good s e ∧ Along step good t es := by
  simp [Along, h]

lemma along_of_forall (h : ∀ e ∈ es, ∀ s, good s e) : Along step good s es := by
  induction es generalizing s with
  | nil => trivial
  | cons e es ih =>
    exact fun t _ => ⟨h e mem_cons_self s, ih fun f hf => h f (mem_cons_of_mem _ hf)⟩

instance decidableAlong [∀ s e, Decidable (good s e)] :
    (s : σ) → (es : List ε) → Decidable (Along step good s es)
  | _, [] => isTrue trivial
  | s, e :: es =>
    match h : step s e with
    | none => isTrue fun _ ht => absurd (h.symm.trans ht) nofun
    | some t =>
      have := decidableAlong t es
      decidable_of_iff _ (along_cons h).symm

/-- An inductive invariant of the steps that meet `good` holds at the end of every run made of
such steps. -/
lemma run_invariant (he : ∀ s e t, Inv s → good s e → step s e = some t → Inv t)
    (hs : Inv s) (hl : Along step good s es) (hu : run step s es = some u) : Inv u := by
  induction es generalizing s with
  | nil =>
    rw [run_nil, Option.some.injEq] at hu
    exact hu ▸ hs
  | cons e es ih =>
    obtain ⟨t, ht, hr⟩ := run_cons_some.1 hu
    obtain ⟨hg, hn⟩ := hl t ht
    exact ih (he s e t hs hg ht) hn hr

lemma always_of_along (he : ∀ s e t, Inv s → good s e → step s e = some t → Inv t)
    (hs : Inv s) (hl : Along step good s es) : Always step Inv s es := by
  induction es generalizing s with
  | nil => exact hs
  | cons e es ih =>
    refine ⟨hs, fun t ht => ?_⟩
    obtain ⟨hg, hn⟩ := hl t ht
    exact ih (he s e t hs hg ht) hn

lemma Always.imp {Q : σ → Prop} (h : ∀ s, P s → Q s) (hP : Always step P s es) :
    Always step Q s es := by
  induction es generalizing s with
  | nil => exact h s hP
  | cons e es ih => exact ⟨h s hP.1, fun t ht => ih (hP.2 t ht)⟩

section Map

variable {τ : Type*} {step' : τ → ε → Option τ} {f : τ → σ} {x : τ}

lemma run_map (h : ∀ x e, (step' x e).map f = step (f x) e) :
    (run step' x es).map f = run step (f x) es := by
  induction es generalizing x with
  | nil => rfl
  | cons e es ih =>
    rw [run_cons, run_cons, ← h x e]
    cases step' x e with
    | none => rfl
    | some y => exact ih

lemma along_map (h : ∀ x e, (step' x e).map f = step (f x) e) :
    Along step' (fun x e => good (f x) e) x es ↔ Along step good (f x) es := by
  induction es generalizing x with
  | nil => exact Iff.rfl
  | cons e es ih =>
    have hx := h x e
    cases hy : step' x e with
    | none =>
      rw [hy] at hx
      simp [Along, hy, ← hx]
    | some y =>
      rw [hy] at hx
      rw [along_cons hy, along_cons hx.symm, ih]

end Map

lemma always_iff_segments : Always step P s es ↔
    ∀ pre t, pre <+: es → run step s pre = some t → P t := by
  induction es generalizing s with
  | nil =>
    constructor
    · intro h pre t hp hu
      rw [prefix_nil.1 hp, run_nil, Option.some.injEq] at hu
      exact hu ▸ h
    · intro h
      exact h [] s nil_prefix rfl
  | cons e es ih =>
    constructor
    · rintro ⟨hs, hn⟩ pre t hp hu
      cases pre with
      | nil =>
        rw [run_nil, Option.some.injEq] at hu
        exact hu ▸ hs
      | cons f pre =>
        obtain ⟨rfl, ht⟩ := cons_prefix_cons.1 hp
        obtain ⟨m, hm, hr⟩ := run_cons_some.1 hu
        exact ih.1 (hn m hm) pre t ht hr
    · intro h
      refine ⟨h [] s nil_prefix rfl, fun m hm => ih.2 fun pre t hp hu => ?_⟩
      exact h (e :: pre) t (cons_prefix_cons.2 ⟨rfl, hp⟩) (run_cons_some.2 ⟨m, hm, hu⟩)

/-- When `good` decides, step by step, whether the property survives the events of a kind, the
property holds throughout a run of such events exactly when every step of the run is good. -/
lemma always_iff_along_of_mem {own : ε → Prop}
    (hk : ∀ s e t, Inv s → own e → step s e = some t → Inv t)
    (hx : ∀ s e t, Inv s → P s → own e → step s e = some t → (P t ↔ good s e))
    (ho : ∀ e ∈ es, own e) (hs : Inv s) (hP : P s) : Always step P s es ↔ Along step good s es := by
  induction es generalizing s with
  | nil => exact ⟨fun _ => trivial, fun _ => hP⟩
  | cons e es ih =>
    have he : own e := ho e mem_cons_self
    have hes : ∀ f ∈ es, own f := fun f hf => ho f (mem_cons_of_mem _ hf)
    constructor
    · rintro ⟨-, hn⟩ t ht
      have hPt : P t := by
        cases es with
        | nil => exact hn t ht
        | cons f es => exact (hn t ht).1
      exact ⟨(hx s e t hs hP he ht).1 hPt, (ih hes (hk s e t hs he ht) hPt).1 (hn t ht)⟩
    · intro hl
      refine ⟨hP, fun t ht => ?_⟩
      obtain ⟨hg, hr⟩ := hl t ht
      exact (ih hes (hk s e t hs he ht) ((hx s e t hs hP he ht).2 hg)).2 hr

lemma always_iff_along (hk : ∀ s e t, Inv s → step s e = some t → Inv t)
    (he : ∀ s e t, Inv s → P s → step s e = some t → (P t ↔ good s e))
    (hs : Inv s) (hP : P s) : Always step P s es ↔ Along step good s es :=
  always_iff_along_of_mem (fun s e t h (_ : True) => hk s e t h)
    (fun s e t h hp _ => he s e t h hp) (fun _ _ => trivial) hs hP

variable {σ ε : Type*}

inductive Inevitable (step : σ → ε → Option σ) (own : ε → Prop) (goal : σ → Prop) : σ → Prop
  | now {s : σ} (h : goal s) : Inevitable step own goal s
  | later {s : σ} (henabled : ∃ e t, own e ∧ step s e = some t)
      (h : ∀ e t, own e → step s e = some t → Inevitable step own goal t) : Inevitable step own goal s

variable {step : σ → ε → Option σ} {own : ε → Prop} {g I T : σ → Prop} {s : σ}

lemma inevitable_of_measure {α : Type*} [LT α] [WellFoundedLT α] (m : σ → α)
    (henabled : ∀ s, I s → ¬ g s → ∃ e t, own e ∧ step s e = some t)
    (hp : ∀ s e t, I s → own e → step s e = some t → I t ∧ m t < m s) (hs : I s) :
    Inevitable step own g s := by
  induction hm : m s using WellFoundedLT.induction generalizing s with
  | ind a ih =>
    subst hm
    by_cases hg : g s
    · exact .now hg
    · refine .later (henabled s hs hg) fun e t he ht => ?_
      obtain ⟨hI, hlt⟩ := hp s e t hs he ht
      exact ih (m t) hlt hI rfl

/-- A goal is not reached from a trap: a set of states off the goal that the system can stay in as long
as it takes steps. -/
lemma not_inevitable_of_trap (hg : ∀ s, T s → ¬ g s)
    (hy : ∀ s e t, T s → own e → step s e = some t → ∃ e' t', own e' ∧ step s e' = some t' ∧ T t')
    (hs : T s) : ¬ Inevitable step own g s := by
  intro h
  induction h with
  | now h => exact hg _ hs h
  | later henabled _ ih =>
    obtain ⟨e, t, he, ht⟩ := henabled
    obtain ⟨e', t', he', ht', hr⟩ := hy _ e t hs he ht
    exact ih e' t' he' ht' hr

end QJazz.Transition
