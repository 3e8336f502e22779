import Mathlib.Algebra.Order.Ring.Nat
import QJazz.Json.Basic

/-! A value that is missing and one that counts as false in Python take the same branch. -/
namespace QJazz.Processing
open List

/-- How pydantic reads texts and numbers, in its lax mode. -/
structure Pydantic where
  intOfText : String → Option ℤ
  floatOfText : String → Option ℚ
  floatOfNumber : ℚ → Option ℚ
  floatOfBool : Bool → Option ℚ

def floatMax : ℚ :=
  (((2 ^ 53 - 1) * 2 ^ 971 : ℕ) : ℚ)

/-- The types of the literal parameters, with what their definitions say. The model of an enumeration
cannot be created without options. -/
inductive Kind where
  | bool
  | string
  | number (integer : Bool) (minimum maximum : ℚ)
  | enum (options : List String) (allowMultiple usesStaticStrings : Bool) (nonempty : options ≠ [])

structure InputParameter where
  name : String
  optional : Bool
  kind : Kind

inductive Value where
  | bool (b : Bool)
  | text (s : String)
  | int (n : ℤ)
  | float (q : ℚ)
  | index (k : ℕ)
  | texts (ss : List String)
  | indexes (ks : List ℕ)
  deriving DecidableEq

def boolOfText (s : String) : Option Bool :=
  if s.toLower ∈ ["1", "on", "t", "true", "y", "yes"] then some true
  else if s.toLower ∈ ["0", "off", "f", "false", "n", "no"] then some false
  else none

def validateBool : Json → Option Bool
  | .bool b => some b
  | .num n => if n = 0 then some false else if n = 1 then some true else none
  | .str s => boolOfText s
  | _ => none

def validateString : Json → Option String
  | .str s => some s
  | _ => none

/-- `set_number_minmax`: only bounds that are floating-point numbers below the largest one count. -/
def inBounds (minimum maximum q : ℚ) : Bool :=
  (!decide (-floatMax < minimum) || decide (minimum ≤ q)) &&
    (!decide (maximum < floatMax) || decide (q ≤ maximum))

def Pydantic.validateInt (p : Pydantic) : Json → Option ℤ
  | .num n => if n.isInt then some n.num else none
  | .bool b => some (if b then 1 else 0)
  | .str s => p.intOfText s
  | _ => none

def Pydantic.validateFloat (p : Pydantic) : Json → Option ℚ
  | .num n => p.floatOfNumber n
  | .bool b => p.floatOfBool b
  | .str s => p.floatOfText s
  | _ => none

def validateOption (options : List String) : Json → Option String
  | .str s => if s ∈ options then some s else none
  | _ => none

/-- The distinct options of a list, in the order in which they come first. -/
def validateOptions (options : List String) : Json → Option (List String)
  | .arr items => (items.mapM (validateOption options)).map List.eraseDups
  | _ => none

def Pydantic.value (p : Pydantic) : Kind → Json → Option Value
  | .bool, v => (validateBool v).map .bool
  | .string, v => (validateString v).map .text
  | .number true minimum maximum, v =>
    ((p.validateInt v).filter fun n : ℤ => inBounds minimum maximum n).map .int
  | .number false minimum maximum, v =>
    ((p.validateFloat v).filter fun q => inBounds minimum maximum q).map .float
  | .enum options false usesStaticStrings _, v =>
    (validateOption options v).map fun s =>
      if usesStaticStrings then .text s else .index (options.idxOf s)
  | .enum options true usesStaticStrings _, v =>
    (validateOptions options v).map fun ss =>
      if usesStaticStrings then .texts ss else .indexes (ss.map options.idxOf)

def Pydantic.Valid (p : Pydantic) (kind : Kind) (v : Json) : Prop :=
  (p.value kind v).isSome = true

instance (p : Pydantic) (kind : Kind) (v : Json) : Decidable (p.Valid kind v) :=
  inferInstanceAs (Decidable (_ = true))

inductive InputValueError where
  | missing (name : String)
  | invalid (name : String)
  deriving DecidableEq

variable (p : Pydantic) (params : List (String × Json))

def InputParameter.convert (i : InputParameter) : Except InputValueError Value :=
  let v := (params.lookup i.name).getD .null
  if v.truthy || i.optional then
    match p.value i.kind v with
    | some value => .ok value
    | none => .error (.invalid i.name)
  else .error (.missing i.name)

/-- `InputParameter.parameters`, with the parameters that are converted already. -/
def convertAll (done : List (String × Value)) :
    List InputParameter → Except InputValueError (List (String × Value))
  | [] => .ok done
  | i :: is =>
    match i.convert p params with
    | .ok value => convertAll (setKey i.name value done) is
    | .error e => .error e

def parameters (inputs : List InputParameter) : Except InputValueError (List (String × Value)) :=
  convertAll p params [] inputs

def InputParameter.Given (i : InputParameter) : Prop :=
  ∃ v, params.lookup i.name = some v ∧ p.Valid i.kind v

def InputParameter.Rejected (i : InputParameter) : Prop :=
  (i.optional = false ∧ params.lookup i.name = none) ∨
    ∃ v, params.lookup i.name = some v ∧ ¬ p.Valid i.kind v

/-- The conversion fails exactly if a parameter has to be rejected, and says of it what is wrong: only
absent values are missing, and only values of the request are invalid. -/
def ExactlyAccepted (inputs : List InputParameter) : Prop :=
  ((∃ e, parameters p params inputs = .error e) ↔ ∃ i ∈ inputs, i.Rejected p params) ∧
    (∀ name, parameters p params inputs = .error (.missing name) → params.lookup name = none) ∧
    ∀ name, parameters p params inputs = .error (.invalid name) → params.lookup name ≠ none

/-- The conversion reads the parameter as it is given: an optional one is in the request, and the value
of a required one counts as true. -/
def InputParameter.ReadAsGiven (i : InputParameter) : Prop :=
  match params.lookup i.name with
  | none => i.optional = false
  | some v => i.optional = true ∨ v.truthy = true

variable {p params} {i : InputParameter} {inputs : List InputParameter}

lemma not_valid_null (k : Kind) : ¬ p.Valid k .null := by
  cases k with
  | bool => simp [Pydantic.Valid, Pydantic.value, validateBool]
  | string => simp [Pydantic.Valid, Pydantic.value, validateString]
  | number n m x =>
    cases n <;> simp [Pydantic.Valid, Pydantic.value, Pydantic.validateInt, Pydantic.validateFloat]
  | enum t a u o =>
    cases a <;> simp [Pydantic.Valid, Pydantic.value, validateOption, validateOptions]

lemma convert_of_given (hg : i.Given p params) (hr : i.ReadAsGiven params) :
    ∃ value, i.convert p params = .ok value := by
  obtain ⟨v, hv, hl⟩ := hg
  obtain ⟨value, hu⟩ := Option.isSome_iff_exists.1 hl
  have hr : i.optional ∨ v.truthy := by simpa [InputParameter.ReadAsGiven, hv] using hr
  refine ⟨value, ?_⟩
  simp [InputParameter.convert, hv, hu, hr.symm]

lemma convert_of_not_given (hg : ¬ i.Given p params) (hr : i.ReadAsGiven params) :
    i.Rejected p params ∧
      (i.convert p params = .error (.missing i.name) ∧ params.lookup i.name = none ∨
        i.convert p params = .error (.invalid i.name) ∧ params.lookup i.name ≠ none) := by
  cases hl : params.lookup i.name with
  | none =>
    have ho : i.optional = false := by
      simpa [InputParameter.ReadAsGiven, hl] using hr
    refine ⟨Or.inl ⟨ho, hl⟩, Or.inl ⟨?_, rfl⟩⟩
    simp [InputParameter.convert, hl, ho, Json.truthy]
  | some v =>
    have hr : i.optional ∨ v.truthy := by
      simpa [InputParameter.ReadAsGiven, hl] using hr
    have hv : ¬ p.Valid i.kind v := fun hv => hg ⟨v, hl, hv⟩
    have hu : p.value i.kind v = none := by simpa [Pydantic.Valid] using hv
    refine ⟨Or.inr ⟨v, hl, hv⟩, Or.inr ⟨?_, by simp⟩⟩
    simp [InputParameter.convert, hl, hu, hr.symm]

lemma convert_of_not_readAsGiven (hr : ¬ i.ReadAsGiven params) :
    i.convert p params = .error (.invalid i.name) ∧ params.lookup i.name = none ∨
      i.convert p params = .error (.missing i.name) ∧ params.lookup i.name ≠ none := by
  cases hl : params.lookup i.name with
  | none =>
    have ho : i.optional := by
      simpa [InputParameter.ReadAsGiven, hl] using hr
    have hv : p.value i.kind .null = none := by
      simpa [Pydantic.Valid] using not_valid_null i.kind
    refine Or.inl ⟨?_, rfl⟩
    simp [InputParameter.convert, hl, ho, hv]
  | some v =>
    have hr : i.optional = false ∧ v.truthy = false := by
      simpa [InputParameter.ReadAsGiven, hl] using hr
    refine Or.inr ⟨?_, by simp⟩
    simp [InputParameter.convert, hl, hr]

lemma convertAll_eq_ok {o : List (String × Value)}
    (h : ∀ i ∈ inputs, ∃ v, i.convert p params = .ok v) :
    ∃ d, convertAll p params o inputs = .ok d := by
  induction inputs generalizing o with
  | nil => exact ⟨o, rfl⟩
  | cons i is ih =>
    obtain ⟨v, hv⟩ := h i mem_cons_self
    simp only [convertAll, hv]
    exact ih fun j hj => h j (mem_cons_of_mem _ hj)

lemma convertAll_eq_error {d : List (String × Value)} {b a : List InputParameter}
    {e : InputValueError} (h : ∀ j ∈ b, ∃ v, j.convert p params = .ok v)
    (he : i.convert p params = .error e) : convertAll p params d (b ++ i :: a) = .error e := by
  induction b generalizing d with
  | nil => simp only [nil_append, convertAll, he]
  | cons j b ih =>
    obtain ⟨v, hv⟩ := h j mem_cons_self
    simp only [cons_append, convertAll, hv]
    exact ih fun k hk => h k (mem_cons_of_mem _ hk)

lemma forall_or_first {α : Type*} (P : α → Prop) (l : List α) :
    (∀ a ∈ l, P a) ∨ ∃ e a f, l = e ++ a :: f ∧ (∀ b ∈ e, P b) ∧ ¬ P a := by
  induction l with
  | nil => simp
  | cons a l ih =>
    by_cases ha : P a
    · rcases ih with hl | ⟨e, b, f, rfl, he, hb⟩
      · exact Or.inl (forall_mem_cons.2 ⟨ha, hl⟩)
      · exact Or.inr ⟨a :: e, b, f, rfl, forall_mem_cons.2 ⟨ha, he⟩, hb⟩
    · exact Or.inr ⟨[], a, l, rfl, by simp, ha⟩

lemma mem_of_append_cons_eq {α : Type*} {a b : α} {f r e t : List α}
    (h : e ++ b :: t = f ++ a :: r) (ha : a ∉ e) : b ∈ f ++ [a] := by
  rcases append_eq_append_iff.1 h with ⟨mid, rfl, hm⟩ | ⟨mid, rfl, hm⟩
  · cases mid with
    | nil | cons c mid => simp [(List.cons.inj hm).1]
  · cases mid with
    | nil => simp [(List.cons.inj hm).1]
    | cons c mid => simp [(List.cons.inj hm).1] at ha

lemma parameters_of_first {b a : List InputParameter} {e : InputValueError}
    (hf : ∀ j ∈ b, j.Given p params ∧ j.ReadAsGiven params) (he : i.convert p params = .error e) :
    parameters p params (b ++ i :: a) = .error e :=
  convertAll_eq_error (fun j hj => convert_of_given (hf j hj).1 (hf j hj).2) he

lemma not_rejected_of_given (h : i.Given p params) : ¬ i.Rejected p params := by
  obtain ⟨v, hv, hl⟩ := h
  rintro (⟨_, hn⟩ | ⟨w, hw, hi⟩)
  · simp [hv] at hn
  · rw [hv, Option.some.injEq] at hw
    exact hi (hw ▸ hl)

lemma exactlyAccepted_of_all (h : ∀ i ∈ inputs, i.Given p params ∧ i.ReadAsGiven params) :
    ExactlyAccepted p params inputs := by
  obtain ⟨d, hd⟩ : ∃ d, parameters p params inputs = .ok d :=
    convertAll_eq_ok fun i hi => convert_of_given (h i hi).1 (h i hi).2
  refine ⟨⟨?_, ?_⟩, ?_, ?_⟩
  · rintro ⟨e, he⟩
    simp [hd] at he
  · rintro ⟨i, hi, hr⟩
    exact absurd hr (not_rejected_of_given (h i hi).1)
  · intro n he
    simp [hd] at he
  · intro n he
    simp [hd] at he

lemma exactlyAccepted_of_first {b a : List InputParameter}
    (hf : ∀ j ∈ b, j.Given p params ∧ j.ReadAsGiven params)
    (hg : ¬ i.Given p params) (hd : i.ReadAsGiven params) :
    ExactlyAccepted p params (b ++ i :: a) := by
  obtain ⟨hr, ho⟩ := convert_of_not_given hg hd
  have hm : ∃ j ∈ b ++ i :: a, j.Rejected p params := ⟨i, by simp, hr⟩
  rcases ho with ⟨he, hl⟩ | ⟨he, hl⟩
  · have he : parameters p params (b ++ i :: a) = .error _ :=
      parameters_of_first hf he
    refine ⟨⟨fun _ => hm, fun _ => ⟨_, he⟩⟩, ?_, ?_⟩
    · intro name hn
      have hn : i.name = name := by simpa [he] using hn
      exact hn ▸ hl
    · intro name hn
      simp [he] at hn
  · have he : parameters p params (b ++ i :: a) = .error _ :=
      parameters_of_first hf he
    refine ⟨⟨fun _ => hm, fun _ => ⟨_, he⟩⟩, ?_, ?_⟩
    · intro name hn
      simp [he] at hn
    · intro name hn
      have hn : i.name = name := by simpa [he] using hn
      exact hn ▸ hl

lemma not_exactlyAccepted_of_first {b a : List InputParameter}
    (hf : ∀ j ∈ b, j.Given p params ∧ j.ReadAsGiven params)
    (hr : ¬ i.ReadAsGiven params) : ¬ ExactlyAccepted p params (b ++ i :: a) := by
  rintro ⟨_, hm, hi⟩
  rcases convert_of_not_readAsGiven hr with ⟨he, hl⟩ | ⟨he, hl⟩
  · exact hi i.name (parameters_of_first hf he) hl
  · exact hl (hm i.name (parameters_of_first hf he))

/-- The conversion is exact if and only if each parameter behind valid ones is read as it is given. -/
theorem exactlyAccepted_iff (p : Pydantic) (params : List (String × Json))
    (inputs : List InputParameter) : ExactlyAccepted p params inputs ↔
      ∀ before i after, inputs = before ++ i :: after → (∀ j ∈ before, j.Given p params) →
        i.ReadAsGiven params := by
  rcases forall_or_first (fun i => i.Given p params ∧ i.ReadAsGiven params) inputs with
    hall | ⟨before, i, after, rfl, he, hi⟩
  · refine iff_of_true (exactlyAccepted_of_all hall) ?_
    rintro before i after rfl _
    exact (hall i (by simp)).2
  · by_cases hr : i.ReadAsGiven params
    · have hg : ¬ i.Given p params := fun hg => hi ⟨hg, hr⟩
      refine iff_of_true (exactlyAccepted_of_first he hg hr) ?_
      intro b i' a heq hf
      have hm := mem_of_append_cons_eq heq.symm fun hm => hg (hf i hm)
      rcases mem_append.1 hm with hm | hm
      · exact (he i' hm).2
      · exact mem_singleton.1 hm ▸ hr
    · refine iff_of_false (not_exactlyAccepted_of_first he hr) ?_
      intro h
      exact hr (h before i after rfl fun j hj => (he j hj).1)

def plainNumbers : Pydantic where
  intOfText _ := none
  floatOfText _ := none
  floatOfNumber := some
  floatOfBool _ := none

/-- A required flag is given as false, and an optional one is not in the request. -/
theorem not_exactlyAccepted_flags :
    parameters plainNumbers [("OVERWRITE", .bool false)] [⟨"OVERWRITE", false, .bool⟩] =
        .error (.missing "OVERWRITE") ∧
      ¬ ExactlyAccepted plainNumbers [("OVERWRITE", .bool false)] [⟨"OVERWRITE", false, .bool⟩] ∧
      parameters plainNumbers [] [⟨"OVERWRITE", true, .bool⟩] = .error (.invalid "OVERWRITE") ∧
      ¬ ExactlyAccepted plainNumbers [] [⟨"OVERWRITE", true, .bool⟩] := by
  have hm : parameters plainNumbers [("OVERWRITE", .bool false)]
      [⟨"OVERWRITE", false, .bool⟩] = .error (.missing "OVERWRITE") := by decide
  have hi : parameters plainNumbers [] [⟨"OVERWRITE", true, .bool⟩] =
      .error (.invalid "OVERWRITE") := by decide
  refine ⟨hm, ?_, hi, ?_⟩
  · rintro ⟨_, he, _⟩
    exact absurd (he _ hm) (by decide)
  · rintro ⟨_, _, hp⟩
    exact hp _ hi rfl

end QJazz.Processing
