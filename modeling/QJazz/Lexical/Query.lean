import QJazz.Lexical.Url

/-! A query is a list of fields between `&`, each with a key and, behind the first `=`, a value. -/
namespace QJazz.Lexical
open List Template

def queryFields (q : Template) : List (Template × Option Template) :=
  (q.splitOn (.char '&')).map (cut '=')

variable {σ : String → Text} {q t : Template} {a : Symbol} {c : Char}

lemma mem_of_mem_key {f : Template × Option Template} (hf : f ∈ queryFields q) (ha : a ∈ f.1)
    (hne : a ≠ .char '&') : a ∈ q := by
  obtain ⟨p, hp, rfl⟩ := List.mem_map.1 hf
  exact (exists_mem_splitOn hne).2 ⟨p, hp, mem_of_mem_cut_fst ha⟩

lemma mem_of_mem_value {f : Template × Option Template} (hf : f ∈ queryFields q)
    (ha : a ∈ f.2.getD []) (hne : a ≠ .char '&') : a ∈ q := by
  obtain ⟨p, hp, rfl⟩ := List.mem_map.1 hf
  exact (exists_mem_splitOn hne).2 ⟨p, hp, mem_of_mem_cut_snd ha⟩

lemma exists_field (ha : a ∈ q) (hm : a ≠ .char '&') (heq : a ≠ .char '=') :
    ∃ f ∈ queryFields q, a ∈ f.1 ∨ a ∈ f.2.getD [] := by
  obtain ⟨p, hp, hap⟩ := (exists_mem_splitOn hm).1 ha
  refine ⟨cut '=' p, List.mem_map_of_mem hp, ?_⟩
  obtain ⟨-, hu⟩ | ⟨s, i, rfl, -, hu⟩ := cut_cases '=' p
  · rw [hu]
    exact Or.inl hap
  · rw [hu]
    rw [mem_append, mem_cons] at hap
    rcases hap with hap | hap | hap
    · exact Or.inl hap
    · exact absurd hap heq
    · exact Or.inr hap

def valuesWith (σ : String → Text) (q : Template) : List (Template × Option Template) :=
  (queryFields q).map fun f => (f.1, f.2.map (Template.subst σ))

lemma keys_of_queryFields_eq {r : Template} (hr : ∀ x, .var x ∉ r)
    (h : queryFields r = valuesWith σ q) {f : Template × Option Template} (hf : f ∈ queryFields q)
    (x : String) : .var x ∉ f.1 := by
  intro hx
  have hm : (f.1, f.2.map (Template.subst σ)) ∈ queryFields r := by
    rw [h]
    exact List.mem_map_of_mem (f := fun f => (f.1, f.2.map (Template.subst σ))) hf
  exact hr x (mem_of_mem_key hm hx (by simp))

lemma mem_of_queryFields_eq {r : Template} (h : queryFields r = valuesWith σ q)
    (hk : ∀ f ∈ queryFields q, ∀ x, .var x ∉ f.1) {x : String} (hx : .var x ∈ q)
    (hc : c ∈ σ x) (hne : c ≠ '&') : .char c ∈ r := by
  obtain ⟨f, hf, hfx⟩ := exists_field hx (by simp) (by simp)
  have hl := hfx.resolve_left (hk f hf x)
  have hm : (f.1, f.2.map (Template.subst σ)) ∈ queryFields r := by
    rw [h]
    exact List.mem_map_of_mem (f := fun f => (f.1, f.2.map (Template.subst σ))) hf
  refine mem_of_mem_value hm ?_ (by simpa using hne)
  cases hv : f.2 with
  | none => simp [hv] at hl
  | some v =>
    rw [hv] at hl
    exact char_mem_subst.2 (Or.inr ⟨x, hl, hc⟩)

lemma count_subst (h : (Template.subst σ t).count (.char c) = t.count (.char c)) (x : String)
    (hx : .var x ∈ t) : c ∉ σ x := by
  have hle (t : Template) : t.count (.char c) ≤ (Template.subst σ t).count (.char c) := by
    induction t with
    | nil => rfl
    | cons a t ih =>
      cases a with
      | char d =>
        rw [subst_char, count_cons, count_cons]
        omega
      | var y =>
        rw [subst_var, count_append, count_cons]
        simp only [beq_iff_eq, reduceCtorEq, if_false]
        omega
  induction t with
  | nil => cases hx
  | cons a t ih =>
    cases a with
    | char d =>
      rw [subst_char, count_cons, count_cons] at h
      exact ih (by omega) (by simpa using hx)
    | var y =>
      rw [subst_var, count_append, count_cons] at h
      simp only [beq_iff_eq, reduceCtorEq, if_false, Nat.add_zero] at h
      have ht := hle t
      cases mem_cons.1 hx with
      | inl hx =>
        injection hx with hx
        rw [hx, ← char_mem_ofText, ← count_eq_zero]
        omega
      | inr hx => exact ih (by omega) hx

lemma subst_intercalate (a : Char) (ps : List Template) :
    Template.subst σ ([.char a].intercalate ps) =
      [.char a].intercalate (ps.map (Template.subst σ)) := by
  induction ps with
  | nil => rfl
  | cons p ps ih =>
    cases ps with
    | nil => simp
    | cons q ps =>
      rw [intercalate_cons_cons, subst_append, subst_append, ih]
      simp only [map_cons, intercalate_cons_cons]
      rfl

lemma splitOn_subst (h : ∀ x, .var x ∈ q → c ∉ σ x) :
    (Template.subst σ q).splitOn (.char c) = (q.splitOn (.char c)).map (Template.subst σ) := by
  have hi : ∀ p ∈ (q.splitOn (.char c)).map (Template.subst σ), .char c ∉ p := by
    intro p hp
    obtain ⟨r, hr, rfl⟩ := List.mem_map.1 hp
    rw [char_mem_subst, not_or]
    refine ⟨notMem_of_mem_splitOn hr, ?_⟩
    rintro ⟨x, hx, hc⟩
    exact h x ((exists_mem_splitOn (by simp)).2 ⟨r, hr, hx⟩) hc
  have hne : (q.splitOn (.char c)).map (Template.subst σ) ≠ [] := by
    simp [splitOn_ne_nil]
  rw [← splitOn_intercalate _ hi hne, ← subst_intercalate, intercalate_splitOn]

lemma cut_subst (h : ∀ x, .var x ∉ (cut c t).1) :
    cut c (Template.subst σ t) = ((cut c t).1, (cut c t).2.map (Template.subst σ)) := by
  obtain ⟨hc, heq⟩ | ⟨s, i, rfl, hc, heq⟩ := cut_cases c t
  · rw [heq] at h ⊢
    rw [subst_eq_self h, heq]
    rfl
  · rw [heq] at h ⊢
    rw [subst_append, subst_eq_self h, subst_char, cut_append hc]
    rfl

/-- After a substitution the query has the same keys and the values with the texts put in, exactly
if no text adds a field and no key has a field of the template. -/
lemma queryFields_subst_iff : queryFields (Template.subst σ q) = valuesWith σ q ↔
      (∀ x, .var x ∈ q → '&' ∉ σ x) ∧ ∀ f ∈ queryFields q, ∀ x, .var x ∉ f.1 := by
  constructor
  · intro h
    constructor
    · have hlen := congrArg List.length h
      simp only [valuesWith, queryFields, length_map, length_splitOn] at hlen
      exact count_subst (by omega)
    · intro f hf
      exact keys_of_queryFields_eq (fun x => var_notMem_subst) h hf
  · rintro ⟨hm, hk⟩
    rw [queryFields, splitOn_subst hm, valuesWith, queryFields, List.map_map, List.map_map]
    apply map_congr_left
    intro p hp
    exact cut_subst (hk _ (List.mem_map_of_mem hp))

end QJazz.Lexical
