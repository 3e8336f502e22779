import QJazz.Lexical.PosixPath

/-! A format text such as `/srv/{user}/maps` is kept as a list of symbols, each a character or a
field with a plain name. -/
namespace QJazz.Lexical
open List

inductive Symbol where
  | char (c : Char)
  | var (x : String)
  deriving DecidableEq

abbrev Template := List Symbol

namespace Symbol

def text : Symbol → Text
  | char c => [c]
  | var x => '{' :: x.toList ++ ['}']

def value (σ : String → Text) : Symbol → Template
  | char c => [char c]
  | var x => (σ x).map char

def isChar : Symbol → Bool
  | char _ => true
  | var _ => false

end Symbol

namespace Template

def ofText (s : Text) : Template :=
  s.map .char

def render (t : Template) : Text :=
  t.flatMap Symbol.text

def subst (σ : String → Text) (t : Template) : Template :=
  t.flatMap (Symbol.value σ)

/-- Python's `str.format_map` for fields with plain names: an unknown name and a brace that belongs
to no field are errors. -/
def format (σ : String → Option Text) : Template → Option Template
  | [] => some []
  | .char c :: t => if c = '{' ∨ c = '}' then none else (format σ t).map (.char c :: ·)
  | .var x :: t => do
    let s ← σ x
    let t ← format σ t
    return ofText s ++ t

variable {σ : String → Text} {s t : Template} {c : Char} {x : String}

@[simp] lemma subst_nil : subst σ [] = [] := rfl

@[simp] lemma subst_append : subst σ (s ++ t) = subst σ s ++ subst σ t :=
  flatMap_append

@[simp] lemma subst_char : subst σ (.char c :: t) = .char c :: subst σ t := rfl

@[simp] lemma subst_var : subst σ (.var x :: t) = ofText (σ x) ++ subst σ t := rfl

@[simp] lemma render_nil : render [] = [] := rfl

@[simp] lemma render_append : render (s ++ t) = render s ++ render t :=
  flatMap_append

@[simp] lemma render_ofText (s : Text) : render (ofText s) = s := by
  induction s with
  | nil => rfl
  | cons c s ih => exact congrArg (c :: ·) ih

@[simp] lemma char_mem_ofText {s : Text} : .char c ∈ ofText s ↔ c ∈ s := by
  simp [ofText]

@[simp] lemma var_notMem_ofText {s : Text} : .var x ∉ ofText s := by
  simp [ofText]

lemma var_notMem_subst : .var x ∉ subst σ t := by
  induction t with
  | nil => simp
  | cons a t ih => cases a <;> simp [ih]

lemma char_mem_subst : .char c ∈ subst σ t ↔ .char c ∈ t ∨ ∃ x, .var x ∈ t ∧ c ∈ σ x := by
  induction t with
  | nil => simp
  | cons a t ih =>
    cases a with
    | char d =>
      rw [subst_char, mem_cons, ih]
      simp [or_assoc]
    | var y =>
      rw [subst_var, mem_append, char_mem_ofText, ih]
      simp only [mem_cons, reduceCtorEq, false_or, Symbol.var.injEq]
      constructor
      · rintro (h | h | ⟨x, hx, hc⟩)
        · exact Or.inr ⟨y, Or.inl rfl, h⟩
        · exact Or.inl h
        · exact Or.inr ⟨x, Or.inr hx, hc⟩
      · rintro (h | ⟨x, rfl | hx, hc⟩)
        · exact Or.inr (Or.inl h)
        · exact Or.inl hc
        · exact Or.inr (Or.inr ⟨x, hx, hc⟩)

lemma subst_eq_self (h : ∀ x, .var x ∉ t) : subst σ t = t := by
  induction t with
  | nil => rfl
  | cons a t ih =>
    have ht : ∀ x, .var x ∉ t := fun x hx => h x (mem_cons_of_mem _ hx)
    cases a with
    | char c => rw [subst_char, ih ht]
    | var y => exact absurd mem_cons_self (h y)

@[simp] lemma subst_ofText (s : Text) : subst σ (ofText s) = ofText s :=
  subst_eq_self fun _ => var_notMem_ofText

lemma subst_eq_nil (h : ∀ x, .var x ∈ t → σ x ≠ []) : subst σ t = [] ↔ t = [] := by
  cases t with
  | nil => simp
  | cons a t =>
    cases a with
    | char c => simp
    | var y => simpa [ofText] using fun hy => absurd hy (h y mem_cons_self)

lemma ofText_render (h : ∀ x, .var x ∉ t) : ofText (render t) = t := by
  induction t with
  | nil => rfl
  | cons a t ih =>
    have ht : ∀ x, .var x ∉ t := fun x hx => h x (mem_cons_of_mem _ hx)
    cases a with
    | char c => exact congrArg (Symbol.char c :: ·) (ih ht)
    | var y => exact absurd mem_cons_self (h y)

lemma mem_render (h : ∀ x, .var x ∉ t) : c ∈ render t ↔ .char c ∈ t := by
  rw [← char_mem_ofText, ofText_render h]

lemma format_eq_some {σ : String → Option Text} : format σ t = some s ↔
      (.char '{' ∉ t ∧ .char '}' ∉ t ∧ ∀ x, .var x ∈ t → (σ x).isSome) ∧
        s = subst (fun x => (σ x).getD []) t := by
  induction t generalizing s with
  | nil => simp [format, eq_comm (b := s)]
  | cons a t ih =>
    cases a with
    | char c =>
      by_cases hc : c = '{' ∨ c = '}'
      · rcases hc with rfl | rfl <;> simp [format]
      · rw [not_or] at hc
        simp only [format, hc.1, hc.2, or_self, if_false, Option.map_eq_some_iff, ih]
        simp [Ne.symm hc.1, Ne.symm hc.2, eq_comm (b := s)]
    | var y =>
      cases hy : σ y with
      | none => simp [format, hy]
      | some v =>
        simp only [format, hy, Option.bind_eq_bind, Option.bind_some, Option.bind_eq_some_iff,
          ih, Option.pure_def, Option.some.injEq]
        simp [hy, eq_comm (b := s)]

lemma length_render_subst (h : ∀ y, .var y ∈ t → y = x) :
    (render (subst σ t)).length + t.count (.var x) * (Symbol.var x).text.length =
      (render t).length + t.count (.var x) * (σ x).length := by
  induction t with
  | nil => simp
  | cons a t ih =>
    have ih := ih fun y hy => h y (mem_cons_of_mem _ hy)
    cases a with
    | char c =>
      have hcount : (Symbol.char c :: t).count (.var x) = t.count (.var x) := by simp
      rw [hcount, subst_char]
      change (render (subst σ t)).length + 1 + _ = (render t).length + 1 + _
      omega
    | var y =>
      cases h y mem_cons_self
      have hcount : (Symbol.var x :: t).count (.var x) = t.count (.var x) + 1 := by simp
      have hr : render (.var x :: t) = (Symbol.var x).text ++ render t := rfl
      rw [hcount, subst_var, render_append, render_ofText, hr, length_append,
        length_append, Nat.succ_mul, Nat.succ_mul]
      omega

lemma render_subst_eq_iff (h : ∀ y, .var y ∈ t → y = x) (hx : .var x ∈ t) :
    render (subst σ t) = render t ↔ σ x = (Symbol.var x).text := by
  constructor
  · intro heq
    have hlen : (σ x).length = (Symbol.var x).text.length := by
      have hu := length_render_subst (σ := σ) h
      have hp := count_pos_iff.2 hx
      rw [heq] at hu
      exact (Nat.eq_of_mul_eq_mul_left hp (by omega)).symm
    induction t with
    | nil => cases hx
    | cons a t ih =>
      cases a with
      | char c =>
        have he : render (subst σ t) = render t := by
          injection heq
        exact ih (fun y hy => h y (mem_cons_of_mem _ hy)) (by simpa using hx) he
      | var y =>
        cases h y mem_cons_self
        rw [subst_var, render_append, render_ofText] at heq
        exact (append_inj heq hlen).1
  · intro heq
    clear hx
    induction t with
    | nil => rfl
    | cons a t ih =>
      have ih := ih fun y hy => h y (mem_cons_of_mem _ hy)
      cases a with
      | char c => exact congrArg (c :: ·) ih
      | var y =>
        cases h y mem_cons_self
        rw [subst_var, render_append, render_ofText, heq, ih]
        rfl

end Template
end QJazz.Lexical
