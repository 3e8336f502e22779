import Mathlib.Algebra.Order.Group.Nat
import QJazz.Lexical.QueryString

/-! A query whose values are written as they are, without percent codes. Its fields are read back
exactly if every value is, since reading never gives more characters than were written. -/
namespace QJazz.Lexical
open List

def rawField (x : String × Text) : Text := x.1.toList ++ '=' :: x.2

def rawQuery (fields : List (String × Text)) : Text := ['&'].intercalate (fields.map rawField)

def Verbatim (v : Text) : Prop := v ≠ [] ∧ '&' ∉ v ∧ unquotePlus v = v

def VerbatimKey (k : String) : Prop :=
  '=' ∉ k.toList ∧ '&' ∉ k.toList ∧ unquotePlus k.toList = k.toList

instance (v : Text) : Decidable (Verbatim v) := inferInstanceAs (Decidable (_ ∧ _ ∧ _))

instance (k : String) : Decidable (VerbatimKey k) := inferInstanceAs (Decidable (_ ∧ _ ∧ _))

variable {fields : List (String × Text)} {k : String} {v s : Text}

lemma unquotePlus_of_notMem (hp : '%' ∉ v) (hl : '+' ∉ v) : unquotePlus v = v := by
  rw [unquotePlus, plusToBlank_of_notMem hl, unquote, if_neg hp]

lemma Verbatim.of_plain (hne : v ≠ []) (h : ∀ c ∈ v, c ≠ '%' ∧ c ≠ '+' ∧ c ≠ '&') : Verbatim v :=
  ⟨hne, fun hm => (h _ hm).2.2 rfl,
    unquotePlus_of_notMem (fun hm => (h _ hm).1 rfl) fun hm => (h _ hm).2.1 rfl⟩

lemma parseQsl_intercalate (p : List Text) :
    parseQsl (['&'].intercalate p) = p.flatMap parseQsl := by
  induction p with
  | nil => rfl
  | cons i p ih =>
    cases p with
    | nil => simp
    | cons next p =>
      rw [intercalate_cons_cons, append_assoc, singleton_append, parseQsl_append, ih]
      rfl

lemma parseQsl_rawQuery (fields : List (String × Text)) :
    parseQsl (rawQuery fields) = fields.flatMap fun x => parseQsl (rawField x) := by
  rw [rawQuery, parseQsl_intercalate, flatMap_map]

lemma rawQuery_concat (hne : fields ≠ []) (x : String × Text) :
    rawQuery (fields ++ [x]) = rawQuery fields ++ '&' :: rawField x := by
  induction fields with
  | nil => exact absurd rfl hne
  | cons y fields ih =>
    cases fields with
    | nil => simp [rawQuery]
    | cons z fields =>
      have hr := ih (cons_ne_nil _ _)
      rw [rawQuery, cons_append, map_cons] at *
      rw [rawQuery] at hr
      simp only [cons_append, map_cons, intercalate_cons_cons] at hr ⊢
      rw [hr]
      simp [rawQuery, intercalate_cons_cons]

lemma parseQsl_rawField {x : String × Text} (hk : VerbatimKey x.1) (hne : x.2 ≠ [])
    (hm : '&' ∉ x.2) : parseQsl (rawField x) = [(x.1, unquotePlus x.2)] := by
  rw [rawField, parseQsl_field hk.1 hk.2.1 hne hm, hk.2.2, String.ofList_toList]

lemma parseQsl_singleton (h : '&' ∉ s) : parseQsl s = (readField s).toList := by
  rw [parseQsl, splitOn_eq_singleton h]
  cases hr : readField s with
  | none => rw [filterMap_cons_none hr, filterMap_nil, Option.toList_none]
  | some x => rw [filterMap_cons_some hr, filterMap_nil, Option.toList_some]

lemma parseQsl_rawField_nil {x : String × Text} (hk : VerbatimKey x.1) (hn : x.2 = []) :
    parseQsl (rawField x) = [] := by
  have hne : ∀ c ∈ x.1.toList, decide (c ≠ '=') = true :=
    fun c hc => decide_eq_true (ne_of_mem_of_not_mem hc hk.1)
  have hp : '&' ∉ rawField x := by
    rw [rawField, hn, mem_append, mem_singleton, not_or]
    exact ⟨hk.2.1, by decide⟩
  have hr : readField (rawField x) = none := by
    rw [readField, rawField, hn, dropWhile_append_of_pos hne]
    rfl
  rw [parseQsl_singleton hp, hr, Option.toList_none]

def weight (fields : List (String × Text)) : ℕ := (fields.flatMap Prod.snd).length

lemma weight_append (a b : List (String × Text)) : weight (a ++ b) = weight a + weight b := by
  rw [weight, flatMap_append, length_append]
  rfl

lemma weight_singleton (x : String × Text) : weight [x] = x.2.length := by
  rw [weight, flatMap_singleton]

lemma weight_readField_le (p : Text) : weight (readField p).toList ≤ p.length := by
  rw [readField]
  split
  · exact Nat.zero_le _
  · have hd := length_unquotePlus_le (p.dropWhile (· ≠ '=')).tail
    have ht := length_tail (l := p.dropWhile (· ≠ '='))
    have hr := (dropWhile_sublist (l := p) (· ≠ '=')).length_le
    rw [Option.toList_some, weight_singleton]
    simp only
    omega

lemma weight_parseQsl_le (s : Text) : weight (parseQsl s) ≤ s.length := by
  induction hl : s.length using Nat.strong_induction_on generalizing s with
  | _ n ih =>
    by_cases hm : '&' ∈ s
    · obtain ⟨a, b, rfl, -⟩ := eq_append_cons_of_mem hm
      rw [length_append, length_cons] at hl
      have ha := ih a.length (by omega) a rfl
      have hb := ih b.length (by omega) b rfl
      rw [parseQsl_append, weight_append]
      omega
    · rw [parseQsl_singleton hm, ← hl]
      exact weight_readField_le s

lemma weight_parseQsl_rawField {x : String × Text} (hk : VerbatimKey x.1) :
    weight (parseQsl (rawField x)) ≤ x.2.length ∧
      ('&' ∈ x.2 → weight (parseQsl (rawField x)) < x.2.length) := by
  obtain ⟨k, v⟩ := x
  have hp {a : Text} (ha : '&' ∉ a) : weight (parseQsl (rawField (k, a))) ≤ a.length := by
    by_cases hne : a = []
    · rw [parseQsl_rawField_nil (x := (k, a)) hk hne]
      exact Nat.zero_le _
    · rw [parseQsl_rawField (x := (k, a)) hk hne ha]
      simpa [weight] using length_unquotePlus_le a
  by_cases hm : '&' ∈ v
  · obtain ⟨a, b, rfl, ha⟩ := eq_append_cons_of_mem hm
    have hl : rawField (k, a ++ '&' :: b) = rawField (k, a) ++ '&' :: b := by simp [rawField]
    have hf := hp ha
    have hba := weight_parseQsl_le b
    rw [hl, parseQsl_append, weight_append, length_append, length_cons]
    exact ⟨by omega, fun _ => by omega⟩
  · exact ⟨hp hm, fun h => absurd h hm⟩

lemma le_of_flatMap {α : Type*} {μ : List α → ℕ} (hd : ∀ a b, μ (a ++ b) = μ a + μ b)
    {f : α → List α} {l : List α} (h : ∀ x ∈ l, μ (f x) ≤ μ [x]) :
    μ (l.flatMap f) ≤ μ l ∧ (μ l ≤ μ (l.flatMap f) → ∀ x ∈ l, μ [x] ≤ μ (f x)) := by
  induction l with
  | nil => exact ⟨le_rfl, fun _ x hx => absurd hx not_mem_nil⟩
  | cons y l ih =>
    have hy := h y mem_cons_self
    have ho : μ (y :: l) = μ [y] + μ l := hd [y] l
    obtain ⟨hle, hr⟩ := ih fun x hx => h x (mem_cons_of_mem _ hx)
    rw [flatMap_cons, hd, ho]
    refine ⟨by omega, fun ht x hx => ?_⟩
    rcases mem_cons.1 hx with rfl | hx
    · omega
    · exact hr (by omega) x hx

lemma parseQsl_rawQuery_of_verbatim (hk : ∀ x ∈ fields, VerbatimKey x.1)
    (h : ∀ x ∈ fields, Verbatim x.2) : parseQsl (rawQuery fields) = fields := by
  rw [parseQsl_rawQuery]
  calc fields.flatMap (fun x => parseQsl (rawField x))
    _ = fields.flatMap fun x => [x] := by
      refine flatMap_congr fun x hx => ?_
      obtain ⟨hne, hp, hm⟩ := h x hx
      rw [parseQsl_rawField (hk x hx) hne hp, hm]
    _ = fields := List.flatMap_singleton' fields

lemma parseQsl_rawQuery_iff (hk : ∀ x ∈ fields, VerbatimKey x.1) :
    parseQsl (rawQuery fields) = fields ↔ ∀ x ∈ fields, Verbatim x.2 := by
  refine ⟨fun h => ?_, parseQsl_rawQuery_of_verbatim hk⟩
  rw [parseQsl_rawQuery] at h
  have hm : ∀ x ∈ fields, '&' ∉ x.2 := by
    intro x hx he
    have hw : ∀ y ∈ fields, weight (parseQsl (rawField y)) ≤ weight [y] :=
      fun y hy => weight_singleton y ▸ (weight_parseQsl_rawField (hk y hy)).1
    have hle := (le_of_flatMap weight_append hw).2 (congrArg weight h).ge x hx
    rw [weight_singleton] at hle
    exact absurd ((weight_parseQsl_rawField (hk x hx)).2 he) (not_lt.2 hle)
  have ho : ∀ x ∈ fields, (parseQsl (rawField x)).length ≤ [x].length := by
    intro x hx
    by_cases hne : x.2 = []
    · rw [parseQsl_rawField_nil (hk x hx) hne]
      exact Nat.zero_le _
    · rw [parseQsl_rawField (hk x hx) hne (hm x hx)]
      exact le_rfl
  have hne : ∀ x ∈ fields, x.2 ≠ [] := by
    intro x hx hn
    have hl := (congrArg List.length h).ge
    have hle := (le_of_flatMap (fun _ _ => length_append) ho).2 hl x hx
    rw [parseQsl_rawField_nil (hk x hx) hn] at hle
    exact absurd hle (Nat.not_succ_le_zero 0)
  have hp : fields.map (fun x => (x.1, unquotePlus x.2)) = fields := by
    rw [← flatMap_pure_eq_map]
    refine Eq.trans (flatMap_congr fun x hx => ?_) h
    exact (parseQsl_rawField (hk x hx) (hne x hx) (hm x hx)).symm
  intro x hx
  have hid := map_inj_left.1 (hp.trans (List.map_id fields).symm) x hx
  exact ⟨hne x hx, hm x hx, congrArg Prod.snd hid⟩

end QJazz.Lexical
