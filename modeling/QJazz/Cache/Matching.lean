import QJazz.Cache.Routes

/-! A variable of a location takes as many characters as the rest of the location allows, so the
match that is found is the one that reaches furthest. -/
namespace QJazz.Cache

open Lexical List Option Template

def Spans : Template → Text → ℕ → Prop
  | [], _, n => n = 0
  | .char c :: t, s, n => s.head? = some c ∧ ∃ m, n = m + 1 ∧ Spans t s.tail m
  | .var _ :: t, s, n =>
    ∃ k m, n = k + m ∧ 0 < k ∧ k ≤ (s.takeWhile isGood).length ∧ Spans t (s.drop k) m

variable {t : Template} {s : Text} {n k : ℕ}

lemma length_takeWhile_drop (h : k ≤ (s.takeWhile isGood).length) :
    (s.takeWhile isGood).length = k + ((s.drop k).takeWhile isGood).length := by
  induction k generalizing s with
  | zero => simp
  | succ k ih =>
    cases s with
    | nil => simp at h
    | cons c s =>
      by_cases hc : isGood c = true
      · rw [takeWhile_cons_of_pos hc, length_cons] at h ⊢
        rw [drop_succ_cons, ih (by omega)]
        omega
      · rw [takeWhile_cons_of_neg hc] at h
        cases h

lemma Spans.shift {m : ℕ} (h : Spans t s n) (hk : Spans t (s.drop k) m) :
    ∃ m', Spans t (s.drop k) m' ∧ n ≤ k + m' := by
  induction t generalizing s n k m with
  | nil =>
    cases h
    exact ⟨0, rfl, by omega⟩
  | cons a t ih =>
    cases a with
    | char c =>
      obtain ⟨-, n, rfl, hn⟩ := h
      obtain ⟨hh, m, rfl, hm⟩ := hk
      rw [tail_drop, ← drop_tail] at hm
      obtain ⟨m', hm', hle⟩ := ih hn hm
      refine ⟨m' + 1, ⟨hh, m', rfl, ?_⟩, by omega⟩
      rwa [tail_drop, ← drop_tail]
    | var x =>
      obtain ⟨i, n, rfl, hi, he, hn⟩ := h
      obtain ⟨j, m, rfl, hj, hl, hm⟩ := hk
      rw [drop_drop] at hm
      by_cases hr : i ≤ k + j
      · -- the rest of the location starts later as well
        obtain ⟨d, hd⟩ := Nat.exists_eq_add_of_le hr
        rw [hd, ← drop_drop] at hm
        obtain ⟨m', hm', hle⟩ := ih hn hm
        rw [drop_drop, ← hd, ← drop_drop] at hm'
        exact ⟨j + m', ⟨j, m', rfl, hj, hl, hm'⟩, by omega⟩
      · -- the variable can be extended to where it ended before
        have hg := length_takeWhile_drop (s := s) (k := k) (by omega)
        refine ⟨i - k + n, ⟨i - k, n, rfl, by omega, by omega, ?_⟩, by omega⟩
        rwa [drop_drop, Nat.add_sub_cancel' (by omega)]

lemma longest_spec {β : Type} {f : ℕ → Option β} {b : β} (h : longest f n = some b) :
    ∃ m, 0 < m ∧ m ≤ n ∧ f m = some b ∧ ∀ k, k ≤ n → (f k).isSome → k ≤ m := by
  induction n with
  | zero => cases h
  | succ n ih =>
    rw [longest, or_eq_some_iff] at h
    rcases h with h | ⟨hn, h⟩
    · exact ⟨n + 1, by omega, le_rfl, h, fun k hk _ => hk⟩
    · obtain ⟨m, hp, hle, hm, hx⟩ := ih h
      refine ⟨m, hp, by omega, hm, fun k hk ho => ?_⟩
      by_cases hl : k = n + 1
      · rw [hl, hn] at ho
        cases ho
      · exact hx k (by omega) ho

lemma isSome_longest {β : Type} {f : ℕ → Option β} (hp : 0 < k) (hk : k ≤ n)
    (h : (f k).isSome) : (longest f n).isSome = true := by
  induction n with
  | zero => omega
  | succ n ih =>
    rw [longest, isSome_or, Bool.or_eq_true]
    by_cases hl : k = n + 1
    · exact .inl (hl ▸ h)
    · exact .inr (ih (by omega))

lemma Spans.isSome_matchLocation (h : Spans t s n) : (matchLocation t s).isSome = true := by
  induction t generalizing s n with
  | nil => rfl
  | cons a t ih =>
    cases a with
    | char c =>
      obtain ⟨hh, n, rfl, hn⟩ := h
      cases s with
      | nil => cases hh
      | cons d s =>
        cases hh
        rw [matchLocation, if_pos rfl]
        exact ih hn
    | var x =>
      obtain ⟨i, n, rfl, hi, hl, hn⟩ := h
      rw [matchLocation]
      exact isSome_longest hi hl (by simpa using ih hn)

lemma isSome_lookup_of_matchLocation {r : List (String × Text)}
    (h : matchLocation t s = some r) (x : String) : (r.lookup x).isSome ↔ .var x ∈ t := by
  induction t generalizing s r with
  | nil =>
    cases h
    simp
  | cons a t ih =>
    cases a with
    | char c =>
      cases s with
      | nil => cases h
      | cons d s =>
        rw [matchLocation] at h
        split at h
        · simpa using ih h
        · cases h
    | var y =>
      rw [matchLocation] at h
      obtain ⟨m, -, -, hm, -⟩ := longest_spec h
      obtain ⟨e, hr, rfl⟩ := map_eq_some_iff.1 hm
      by_cases hxy : x = y
      · simp [hxy]
      · rw [lookup_cons, beq_false_of_ne hxy]
        simpa [hxy] using ih hr

/-- The texts of a substitution that a variable can be matched with. -/
def Matchable (σ : String → Text) (t : Template) : Prop :=
  ∀ x, .var x ∈ t → σ x ≠ [] ∧ ∀ c ∈ σ x, isGood c = true

lemma subst_congr {σ τ : String → Text} (h : ∀ x, .var x ∈ t → σ x = τ x) :
    Template.subst σ t = Template.subst τ t := by
  refine flatMap_congr fun a ha => ?_
  cases a with
  | char c => rfl
  | var x => rw [Symbol.value, Symbol.value, h x ha]

lemma matchLocation_spec {r : List (String × Text)}
    (hd : (t.filter fun a => !a.isChar).Nodup) (h : matchLocation t s = some r) : ∃ n, Spans t s n ∧
      s.take n = (Template.subst (fun x => (r.lookup x).getD []) t).render ∧
      ∀ m, Spans t s m → m ≤ n := by
  induction t generalizing s r with
  | nil => exact ⟨0, rfl, rfl, fun m hm => le_of_eq hm⟩
  | cons a t ih =>
    cases a with
    | char c =>
      cases s with
      | nil => cases h
      | cons d s =>
        rw [matchLocation] at h
        split at h
        next hcd =>
          obtain ⟨n, hn, ht, hma⟩ := ih hd h
          refine ⟨n + 1, ⟨congrArg some hcd.symm, n, rfl, hn⟩, ?_, ?_⟩
          · rw [take_succ_cons, ht, hcd]
            rfl
          · rintro _ ⟨-, m, rfl, hm⟩
            exact Nat.succ_le_succ (hma m hm)
        · cases h
    | var y =>
      rw [matchLocation] at h
      obtain ⟨k, hpo, hle, hk, hl⟩ := longest_spec h
      obtain ⟨e, hr, rfl⟩ := map_eq_some_iff.1 hk
      have ho : (Symbol.var y :: t.filter fun a => !a.isChar).Nodup := hd
      rw [nodup_cons] at ho
      obtain ⟨n, hn, ht, hma⟩ := ih ho.2 hr
      have hy : .var y ∉ t := fun he => ho.1 (List.mem_filter.2 ⟨he, rfl⟩)
      refine ⟨k + n, ⟨k, n, rfl, hpo, hle, hn⟩, ?_, ?_⟩
      · rw [take_add, ht, subst_var, render_append, render_ofText]
        congr 1
        · simp
        · congr 1
          refine subst_congr fun x hx => ?_
          have hxy : x ≠ y := by
            rintro rfl
            exact hy hx
          rw [lookup_cons, beq_false_of_ne hxy]
      · rintro _ ⟨i, m, rfl, hi, hil, hm⟩
        -- the match that is found starts the rest of the location later, so it ends no earlier
        have hik : i ≤ k := hl i hil (by simpa using hm.isSome_matchLocation)
        have hp : s.drop k = (s.drop i).drop (k - i) := by
          rw [drop_drop, Nat.add_sub_cancel' hik]
        rw [hp] at hn hma
        obtain ⟨m', hm', hlm⟩ := hm.shift hn
        have hlen := hma m' hm'
        omega

variable {σ τ : String → Text}

lemma spans_render (hσ : Matchable σ t) (r : Text) :
    Spans t ((Template.subst σ t).render ++ r) (Template.subst σ t).render.length := by
  induction t with
  | nil => rfl
  | cons a t ih =>
    have ih := ih fun x hx => hσ x (mem_cons_of_mem _ hx)
    cases a with
    | char c => exact ⟨rfl, _, rfl, ih⟩
    | var y =>
      obtain ⟨hne, hg⟩ := hσ y mem_cons_self
      rw [subst_var, render_append, render_ofText, append_assoc]
      refine ⟨(σ y).length, _, length_append, length_pos_iff.2 hne, ?_, ?_⟩
      · rw [takeWhile_append_of_pos hg, length_append]
        omega
      · rwa [drop_left]

lemma not_isGood_slash : isGood '/' = false := by decide

lemma count_slash_render (hσ : Matchable σ t) :
    (Template.subst σ t).render.count '/' = t.count (.char '/') := by
  induction t with
  | nil => rfl
  | cons a t ih =>
    have ih := ih fun x hx => hσ x (mem_cons_of_mem _ hx)
    cases a with
    | char c =>
      change (c :: (Template.subst σ t).render).count '/' = _
      rw [count_cons, count_cons, ih]
      simp
    | var y =>
      have hz : (σ y).count '/' = 0 := by
        rw [count_eq_zero]
        intro hm
        have hg := (hσ y mem_cons_self).2 _ hm
        rw [not_isGood_slash] at hg
        cases hg
      rw [subst_var, render_append, render_ofText, count_append, hz,
        ih, Nat.zero_add, count_cons]
      simp

lemma getLast?_render_iff (hσ : Matchable σ t) :
    (Template.subst σ t).render.getLast? = some '/' ↔ t.getLast? = some (.char '/') := by
  rcases eq_nil_or_concat t with rfl | ⟨t, a, rfl⟩
  · simp
  · rw [concat_eq_append] at hσ ⊢
    rw [subst_append, render_append, List.getLast?_append, List.getLast?_concat]
    cases a with
    | char c =>
      change ([c].getLast?).or _ = _ ↔ _
      simp
    | var y =>
      obtain ⟨hne, hg⟩ := hσ y (by simp)
      have hv : (Template.subst σ [.var y]).render = σ y := by simp
      rw [hv, List.getLast?_eq_some_getLast hne, some_or]
      refine iff_of_false (fun h => ?_) (by simp)
      have hl := hg _ (getLast_mem hne)
      rw [Option.some.inj h, not_isGood_slash] at hl
      cases hl

def EndsComponent (m rest : Text) : Prop :=
  rest = [] ∨ rest.head? = some '/' ∨ m.getLast? = some '/'

lemma matchable_of_matchLocation {args : List (String × Text)} (h : matchLocation t s = some args) :
    Matchable (fun x => (args.lookup x).getD []) t := by
  intro x hx
  obtain ⟨v, hv⟩ := isSome_iff_exists.1 ((isSome_lookup_of_matchLocation h x).2 hx)
  obtain ⟨f, b, hp, -⟩ := lookup_eq_some_iff.1 hv
  have hm : (x, v) ∈ args := by simp [hp]
  simpa [hv] using isGood_of_matchLocation h hm

lemma render_of_endsComponent {g : List (String × Text)} {r : Text}
    (hn : (t.filter fun a => !a.isChar).Nodup) (hσ : Matchable σ t)
    (hd : EndsComponent (Template.subst σ t).render r)
    (h : matchLocation t ((Template.subst σ t).render ++ r) = some g) :
    (Template.subst (fun x => (g.lookup x).getD []) t).render = (Template.subst σ t).render := by
  have hτ := matchable_of_matchLocation h
  obtain ⟨n, -, ht, hm⟩ := matchLocation_spec hn h
  obtain ⟨k, rfl⟩ := Nat.exists_eq_add_of_le (hm _ (spans_render hσ r))
  rw [take_length_add_append] at ht
  -- the longer match has no slash more
  have hcount : '/' ∉ r.take k := by
    have ho := (count_slash_render hτ).trans (count_slash_render hσ).symm
    rw [← ht, count_append] at ho
    exact count_eq_zero.1 (by omega)
  have he : r.take k = [] := by
    by_contra hne
    rcases hd with rfl | hh | hl
    · exact hne take_nil
    · obtain ⟨i, rfl⟩ := List.head?_eq_some_iff.1 hh
      cases k with
      | zero => exact hne rfl
      | succ k => exact hcount mem_cons_self
    · rw [getLast?_render_iff hσ, ← getLast?_render_iff hτ, ← ht, List.getLast?_append,
        List.getLast?_eq_some_getLast hne, some_or] at hl
      exact hcount (Option.some.inj hl ▸ getLast_mem hne)
  rw [← ht, he, append_nil]

end QJazz.Cache
