import QJazz.Transition.Run

/-! # What a run gives out and takes in -/
namespace QJazz.Transition

variable {σ ε β : Type*} {step : σ → ε → Option σ} {s t u : σ} {e : ε} {es : List ε}
  {out inp : σ → ε → List β} {view : σ → List β}

/-- What the events of a run give out one after the other. -/
def history (step : σ → ε → Option σ) (out : σ → ε → List β) : σ → List ε → List β
  | _, [] => []
  | s, e :: es => out s e ++ (step s e).elim [] fun t => history step out t es

lemma history_cons (h : step s e = some t) :
    history step out s (e :: es) = out s e ++ history step out t es := by
  rw [history, h, Option.elim_some]

/-- A balance between what is given out, what is held and what is taken in that each step keeps
holds for the whole run. -/
lemma history_balance {r : List β → List β → Prop} (hrefl : ∀ l, r l l)
    (htrans : ∀ {k l m}, r k l → r l m → r k m)
    (hleft : ∀ {k l} m, r k l → r (m ++ k) (m ++ l))
    (hright : ∀ {k l} m, r k l → r (k ++ m) (l ++ m))
    (h : ∀ s e t, step s e = some t → r (out s e ++ view t) (view s ++ inp s e))
    (hu : run step s es = some u) :
    r (history step out s es ++ view u) (view s ++ history step inp s es) := by
  induction es generalizing s with
  | nil =>
    cases hu
    simpa [history] using hrefl (view u)
  | cons e es ih =>
    obtain ⟨t, ht, hr⟩ := run_cons_some.1 hu
    have ho := hleft (out s e) (ih hr)
    rw [history_cons ht, history_cons ht, List.append_assoc]
    refine htrans ho ?_
    rw [← List.append_assoc, ← List.append_assoc]
    exact hright _ (h s e t ht)

end QJazz.Transition
