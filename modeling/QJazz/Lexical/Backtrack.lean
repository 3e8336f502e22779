import QJazz.Lexical.PosixPath

/-! A repeated character class is the list of the ways to cut a text, in the order in which they are
tried. -/
namespace QJazz.Lexical

open List

variable {p : Char → Bool} {a b s : Text}

/-- Runs of a class and what is behind them, the longest one first. -/
def greedy (p : Char → Bool) : Text → List (Text × Text)
  | [] => [([], [])]
  | c :: s => (if p c then (greedy p s).map fun x => (c :: x.1, x.2) else []) ++ [([], c :: s)]

def reluctant (p : Char → Bool) : Text → List (Text × Text)
  | [] => [([], [])]
  | c :: s => ([], c :: s) :: if p c then (reluctant p s).map fun x => (c :: x.1, x.2) else []

lemma mem_greedy : (a, b) ∈ greedy p s ↔ s = a ++ b ∧ ∀ c ∈ a, p c = true := by
  induction s generalizing a with
  | nil => simp +contextual [greedy]
  | cons c s ih =>
    rw [greedy, mem_append, mem_singleton]
    cases a with
    | nil => split <;> simp [eq_comm (b := c :: s)]
    | cons d a =>
      split
      next hc =>
        simp only [mem_map, Prod.mk.injEq, Prod.exists, cons.injEq, cons_append]
        constructor
        · rintro (⟨x, y, hm, ⟨rfl, rfl⟩, rfl⟩ | ⟨h, -⟩)
          · obtain ⟨rfl, h⟩ := ih.1 hm
            exact ⟨⟨rfl, rfl⟩, forall_mem_cons.2 ⟨hc, h⟩⟩
          · cases h
        · rintro ⟨⟨rfl, rfl⟩, h⟩
          exact .inl ⟨a, b, ih.2 ⟨rfl, (forall_mem_cons.1 h).2⟩, ⟨rfl, rfl⟩, rfl⟩
      next hc =>
        refine iff_of_false (by simp) ?_
        rintro ⟨h, ha⟩
        cases h
        exact hc (ha c mem_cons_self)

lemma greedy_eq_cons (p : Char → Bool) (s : Text) :
    ∃ l, greedy p s = (s.takeWhile p, s.dropWhile p) :: l := by
  induction s with
  | nil => exact ⟨[], rfl⟩
  | cons c s ih =>
    obtain ⟨l, hl⟩ := ih
    rw [greedy]
    split
    next hc =>
      rw [hl, takeWhile_cons_of_pos hc, dropWhile_cons_of_pos hc]
      exact ⟨_, rfl⟩
    next hc =>
      rw [takeWhile_cons_of_neg hc, dropWhile_cons_of_neg hc]
      exact ⟨[], rfl⟩

lemma findSome?_eq_of_unique {α β : Type*} {l : List α} {f : α → Option β} {x : α} {y : β}
    (hx : x ∈ l) (hy : f x = some y) (h : ∀ z ∈ l, ∀ w, f z = some w → w = y) :
    l.findSome? f = some y := by
  cases hf : l.findSome? f with
  | none =>
    rw [findSome?_eq_none_iff.1 hf x hx] at hy
    cases hy
  | some w =>
    obtain ⟨z, hz, hw⟩ := exists_of_findSome?_eq_some hf
    rw [h z hz w hw]

end QJazz.Lexical
