import QJazz.Config.Update
import QJazz.Transition.Run

/-! `ConfBuilder` collects sections. Its model is made anew when sections were added, and
configurations are validated by it. A flag says that the model has to be made. -/
namespace QJazz.Config

open Transition

/-- What is asked of the library of models, for sections of type `σ`. Every section is a field of a
configuration. -/
structure Pydantic (σ : Type) where
  /-- `_create_base_model`, which calls the models of the sections for their defaults, may raise. -/
  creates : List (String × σ) → Bool
  modelValidate : List (String × σ) → Fields → Option Fields
  shapes : List (String × σ) → Model
  mem_of_validate : ∀ m data c name, modelValidate m data = some c → name ∈ m.map Prod.fst →
    name ∈ c.map Prod.fst

variable {σ : Type}

/-- A configuration: the sections of the model it is an instance of, and its dump. -/
structure Conf (py : Pydantic σ) where
  model : List (String × σ)
  dump : Fields
  valid : ∃ data, py.modelValidate model data = some dump

structure ConfBuilder (py : Pydantic σ) where
  sections : List (String × σ) := []
  model : Option (List (String × σ)) := none
  conf : Option (Conf py) := none
  modelChanged : Bool := true

namespace ConfBuilder

variable {py : Pydantic σ} (b : ConfBuilder py) (obj : Fields)

def getModel : Option (List (String × σ) × ConfBuilder py) :=
  if b.modelChanged || b.model.isNone then
    if py.creates b.sections then
      some (b.sections, { b with model := some b.sections, modelChanged := false })
    else none
  else b.model.map (·, b)

/-- The builder after a validation, and the configuration unless the validation raises. -/
def validate : ConfBuilder py × Option (Conf py) :=
  match b.getModel with
  | none => (b, none)
  | some (m, b) =>
    match h : py.modelValidate m obj with
    | none => (b, none)
    | some dump =>
      let c : Conf py := ⟨m, dump, obj, h⟩
      ({ b with conf := some c }, some c)

def data : Fields :=
  match b.conf with
  | some c => dictMerge (py.shapes c.model) c.dump obj
  | none => obj

def updateConfig : ConfBuilder py × Option (Option (Conf py)) :=
  if b.modelChanged || !obj.isEmpty then
    let r := b.validate (b.data obj)
    (r.1, r.2.map some)
  else (b, some b.conf)

def addSection (name : String) (model : σ) (replace : Bool) : ConfBuilder py :=
  if !replace && decide (name ∈ b.sections.map Prod.fst) then b
  else { b with sections := setKey name model b.sections, modelChanged := true }

inductive Op (σ : Type) where
  | addSection (name : String) (model : σ) (replace : Bool)
  | updateConfig (obj : Fields)
  | validate (obj : Fields)
  /-- An access to the property `conf` -/
  | conf

def step : Op σ → Option (ConfBuilder py)
  | .addSection name model replace => some (b.addSection name model replace)
  | .updateConfig obj => some (b.updateConfig obj).1
  | .validate obj => some (b.validate obj).1
  | .conf => some (b.updateConfig []).1

/-- An access to `conf` raises, or returns an instance of the model of the present sections that has
each of them, and that is the one stored or validated from it. -/
def Right : Prop :=
  ∀ r, (b.updateConfig []).2 = some r → ∃ c, r = some c ∧ c.model = b.sections ∧
    (∀ name ∈ b.sections.map Prod.fst, name ∈ c.dump.map Prod.fst) ∧
    (b.conf = some c ∨ py.modelValidate b.sections (b.data []) = some c.dump)

/-- The stored configuration is one of the present sections. -/
def Fits : Prop := ∃ c, b.conf = some c ∧ c.model = b.sections

def Rejects (data : Fields) : Prop :=
  (b.modelChanged = true → py.creates b.sections = true) ∧ py.modelValidate b.sections data = none

/-- Nothing is rejected while the stored configuration is not one of the present sections. -/
def Harmless : Op σ → Prop
  | .addSection _ _ _ => True
  | .updateConfig obj => (b.modelChanged || !obj.isEmpty) = true → b.Rejects (b.data obj) → b.Fits
  | .validate obj => b.Rejects obj → b.Fits
  | .conf => b.modelChanged = true → b.Rejects (b.data []) → b.Fits

def Synced : Prop := b.modelChanged = false → b.model = some b.sections

inductive Validation (data : Fields) : ConfBuilder py × Option (Conf py) → Prop
  | raised (hc : b.modelChanged = true) (hn : py.creates b.sections = false) :
      Validation data (b, none)
  | rejected (hr : b.Rejects data) :
      Validation data ({ b with model := some b.sections, modelChanged := false }, none)
  | accepted (c : Conf py) (hm : c.model = b.sections)
      (hd : py.modelValidate b.sections data = some c.dump) :
      Validation data
        ({ b with model := some b.sections, modelChanged := false, conf := some c }, some c)

variable {b obj}

lemma getModel_eq (h : b.Synced) : b.getModel =
    if b.modelChanged → py.creates b.sections = true then
      some (b.sections, { b with model := some b.sections, modelChanged := false })
    else none := by
  unfold getModel
  cases hc : b.modelChanged with
  | true => simp
  | false =>
    have hm := h hc
    obtain ⟨sections, model, o, c⟩ := b
    obtain rfl : c = false := hc
    obtain rfl : model = some sections := hm
    rfl

lemma validate_cases (h : b.Synced) (obj : Fields) :
    b.Validation obj (b.validate obj) := by
  rw [validate, getModel_eq h]
  by_cases hc : b.modelChanged = true → py.creates b.sections = true
  · rw [if_pos hc]
    dsimp only
    split
    next hv => exact .rejected ⟨hc, hv⟩
    next d hv => exact .accepted ⟨_, d, _, hv⟩ rfl hv
  · rw [if_neg hc]
    rw [Classical.not_imp, Bool.not_eq_true] at hc
    exact .raised hc.1 hc.2

lemma synced_validate (h : b.Synced) : (b.validate obj).1.Synced := by
  generalize hv : b.validate obj = r
  cases hv ▸ validate_cases h obj with
  | raised => exact h
  | rejected | accepted => exact fun _ => rfl

lemma synced_updateConfig (h : b.Synced) : (b.updateConfig obj).1.Synced := by
  unfold updateConfig
  split
  · exact synced_validate h
  · exact h

lemma synced_step {e : Op σ} {t : ConfBuilder py} (h : b.Synced) (ht : b.step e = some t) :
    t.Synced := by
  cases e with
  | addSection n m r =>
    cases ht
    unfold addSection
    split
    · exact h
    · exact fun hc => absurd hc (by simp)
  | updateConfig obj =>
    cases ht
    exact synced_updateConfig h
  | validate obj =>
    cases ht
    exact synced_validate h
  | conf =>
    cases ht
    exact synced_updateConfig h

lemma right_iff (h : b.Synced) : b.Right ↔ (b.modelChanged = false → b.Fits) := by
  unfold Right updateConfig
  cases hc : b.modelChanged with
  | true =>
    refine iff_of_true (fun r hr => ?_) nofun
    generalize hv : b.validate (b.data []) = v at hr
    cases hv ▸ validate_cases h (b.data []) with
    | raised | rejected => cases hr
    | accepted c hm hd =>
      cases hr
      refine ⟨c, rfl, hm, fun n hn => ?_, .inr hd⟩
      exact py.mem_of_validate _ _ _ n hd hn
  | false =>
    simp only [Bool.false_or, List.isEmpty_nil, Bool.not_true, Bool.false_eq_true, if_false,
      Option.some.injEq, forall_eq', forall_const]
    constructor
    · rintro ⟨c, hb, hm, -⟩
      exact ⟨c, hb, hm⟩
    · rintro ⟨c, hb, hm⟩
      obtain ⟨d, hv⟩ := c.valid
      exact ⟨c, hb, hm, fun n hn => py.mem_of_validate _ _ _ n hv (hm ▸ hn), .inl hb⟩

lemma right_validate (h : b.Synced) (hr : b.Right) :
    (b.validate obj).1.Right ↔ (b.Rejects obj → b.Fits) := by
  rw [right_iff (synced_validate h)]
  generalize hv : b.validate obj = r
  cases hv ▸ validate_cases h obj with
  | raised hc hn =>
    refine iff_of_true ((right_iff h).1 hr) fun hj => ?_
    rw [hj.1 hc] at hn
    cases hn
  | rejected hj => exact ⟨fun hf _ => hf rfl, fun hf _ => hf hj⟩
  | accepted c hm hd =>
    refine iff_of_true (fun _ => ⟨c, rfl, hm⟩) fun hj => ?_
    rw [hj.2] at hd
    cases hd

lemma right_updateConfig (h : b.Synced) (hr : b.Right) : (b.updateConfig obj).1.Right ↔
    ((b.modelChanged || !obj.isEmpty) → b.Rejects (b.data obj) → b.Fits) := by
  unfold updateConfig
  split
  next ho =>
    rw [right_validate h hr]
    exact ⟨fun hf _ => hf, fun hf => hf ho⟩
  next ho => exact iff_of_true hr fun hc => absurd hc ho

lemma right_step {e : Op σ} {t : ConfBuilder py} (h : b.Synced) (hr : b.Right)
    (ht : b.step e = some t) : t.Right ↔ b.Harmless e := by
  have hs := synced_step h ht
  cases e with
  | addSection n m r =>
    cases ht
    refine iff_of_true ((right_iff hs).2 fun hc => ?_) trivial
    unfold addSection at hc ⊢
    split at hc
    next ho =>
      rw [if_pos ho]
      exact (right_iff h).1 hr hc
    · cases hc
  | updateConfig obj =>
    cases ht
    exact right_updateConfig h hr
  | validate obj =>
    cases ht
    exact right_validate h hr
  | conf =>
    cases ht
    exact (right_updateConfig h hr).trans (by simp [Harmless])

/-- An access is right after any part of a sequence exactly if nothing is rejected while the stored
configuration is not one of the present sections. -/
theorem right_iff_harmless (py : Pydantic σ) (ops : List (Op σ)) :
    Always step Right ({} : ConfBuilder py) ops ↔ Along step Harmless ({} : ConfBuilder py) ops := by
  have h : ({} : ConfBuilder py).Synced := fun hc => absurd hc (by simp)
  exact always_iff_along (fun _ _ _ => synced_step) (fun _ _ _ => right_step) h
    ((right_iff h).2 fun hc => absurd hc (by simp))

def flags : Pydantic Unit where
  creates _ := true
  modelValidate m data :=
    if data.all fun item => decide (item.2 ∈ [.bool false, .bool true]) then
      some (m.map fun s => (s.1, (data.lookup s.1).getD (.bool true)))
    else none
  shapes m := m.map fun s => (s.1, .value)
  mem_of_validate m data c name h hn := by
    obtain ⟨-, hc⟩ := Option.ite_none_right_eq_some.1 h
    cases hc
    simpa using hn

/-- After a rejected update the section that was added is not there: the access returns nothing, or
the configuration of before. -/
theorem conf_of_rejected :
    (run step ({} : ConfBuilder flags) [.addSection "a" () false, .updateConfig [("a", .null)]]).map
        (fun b => ((b.updateConfig []).2.map fun r => r.map Conf.dump)) = some (some none) ∧
      (run step ({} : ConfBuilder flags) [.addSection "a" () false, .conf,
        .addSection "b" () false, .updateConfig [("b", .null)]]).map
          (fun b => ((b.updateConfig []).2.map fun r => r.map Conf.dump)) =
        some (some (some [("a", .bool true)])) := by
  decide

end ConfBuilder
end QJazz.Config
