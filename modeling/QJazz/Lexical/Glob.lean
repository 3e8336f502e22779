import QJazz.Lexical.PosixPath

/-! The patterns of `KEYS` and `SCAN`: `*` matches any text, `?` one character, and brackets one
character of a class; a backslash takes the next character as it is. -/
namespace QJazz.Lexical.Glob
open List

inductive Token where
  | star
  | any
  | one (c : Char)
  /-- A class: whether it is negated, and its ranges. -/
  | cls (negated : Bool) (ranges : List (Char × Char))
  deriving DecidableEq

/-- The part of the pattern that is being read. -/
inductive Mode where
  | plain
  | cls (negated : Bool) (ranges : List (Char × Char))

def parse : Mode → Text → List Token
  | .plain, [] => []
  | .plain, '*' :: p => .star :: parse .plain p
  | .plain, '?' :: p => .any :: parse .plain p
  | .plain, '[' :: '^' :: p => parse (.cls true []) p
  | .plain, '[' :: p => parse (.cls false []) p
  | .plain, '\\' :: c :: p => .one c :: parse .plain p
  | .plain, c :: p => .one c :: parse .plain p
  | .cls negated ranges, [] => [.cls negated ranges]
  | .cls negated ranges, '\\' :: c :: p => parse (.cls negated (ranges ++ [(c, c)])) p
  | .cls negated ranges, ']' :: p => .cls negated ranges :: parse .plain p
  | .cls negated ranges, a :: '-' :: b :: p => parse (.cls negated (ranges ++ [(a, b)])) p
  | .cls negated ranges, c :: p => parse (.cls negated (ranges ++ [(c, c)])) p

def inRange (c : Char) (r : Char × Char) : Bool :=
  decide (min r.1.toNat r.2.toNat ≤ c.toNat) && decide (c.toNat ≤ max r.1.toNat r.2.toNat)

def Token.accepts : Token → Char → Bool
  | star, _ => false
  | any, _ => true
  | one d, c => decide (c = d)
  | cls negated ranges, c => ranges.any (inRange c) != negated

def anyEnd (f : Text → Bool) : Text → Bool
  | [] => f []
  | c :: s => f (c :: s) || anyEnd f s

def matchTokens : List Token → Text → Bool
  | [], s => s.isEmpty
  | .star :: ts, s => anyEnd (matchTokens ts) s
  | _ :: _, [] => false
  | t :: ts, c :: s => t.accepts c && matchTokens ts s

def globMatch (pattern s : Text) : Bool := matchTokens (parse .plain pattern) s

/-- The character stands for itself in a pattern. -/
def isPlain (c : Char) : Bool :=
  decide (c ≠ '*') && decide (c ≠ '?') && decide (c ≠ '[') && decide (c ≠ '\\')

variable {p q s : Text} {c : Char} {ts : List Token}

lemma parse_plain_cons (h : isPlain c) : parse .plain (c :: p) = .one c :: parse .plain p := by
  simp only [isPlain, Bool.and_eq_true, decide_eq_true_eq] at h
  obtain ⟨⟨⟨ht, hn⟩, hl⟩, he⟩ := h
  rw [parse.eq_def]
  split <;> simp_all

lemma parse_plain_append (h : ∀ c ∈ p, isPlain c) :
    parse .plain (p ++ q) = p.map .one ++ parse .plain q := by
  induction p with
  | nil => rfl
  | cons c p ih =>
    rw [cons_append, parse_plain_cons (h c mem_cons_self),
      ih fun d hd => h d (mem_cons_of_mem _ hd)]
    rfl

lemma anyEnd_iff {f : Text → Bool} : anyEnd f s ↔ ∃ r t, s = r ++ t ∧ f t = true := by
  induction s with
  | nil =>
    rw [anyEnd]
    constructor
    · intro h
      exact ⟨[], [], rfl, h⟩
    · rintro ⟨r, t, heq, h⟩
      rwa [(append_eq_nil_iff.1 heq.symm).2] at h
  | cons c s ih =>
    rw [anyEnd, Bool.or_eq_true, ih]
    constructor
    · rintro (h | ⟨r, t, rfl, h⟩)
      · exact ⟨[], c :: s, rfl, h⟩
      · exact ⟨c :: r, t, rfl, h⟩
    · rintro ⟨r, t, heq, h⟩
      cases r with
      | nil =>
        rw [nil_append] at heq
        exact Or.inl (heq ▸ h)
      | cons d r =>
        rw [cons_append, List.cons.injEq] at heq
        exact Or.inr ⟨r, t, heq.2, h⟩

@[simp] lemma matchTokens_star :
    matchTokens (.star :: ts) s ↔ ∃ f t, s = f ++ t ∧ matchTokens ts t = true :=
  anyEnd_iff

lemma matchTokens_map_one :
    matchTokens (p.map .one ++ ts) s ↔ ∃ t, s = p ++ t ∧ matchTokens ts t = true := by
  induction p generalizing s with
  | nil => simp
  | cons c p ih =>
    cases s with
    | nil => simp [matchTokens]
    | cons d s =>
      simp only [map_cons, cons_append, matchTokens, Token.accepts, Bool.and_eq_true,
        decide_eq_true_eq, ih, List.cons.injEq]
      constructor
      · rintro ⟨rfl, t, rfl, h⟩
        exact ⟨t, ⟨rfl, rfl⟩, h⟩
      · rintro ⟨t, ⟨rfl, rfl⟩, h⟩
        exact ⟨rfl, t, rfl, h⟩

lemma globMatch_plain_append (h : ∀ c ∈ p, isPlain c) :
    globMatch (p ++ q) s ↔ ∃ t, s = p ++ t ∧ globMatch q t = true := by
  rw [globMatch, parse_plain_append h, matchTokens_map_one]
  rfl

lemma globMatch_star_cons :
    globMatch ('*' :: p) s ↔ ∃ f t, s = f ++ t ∧ globMatch p t = true := by
  rw [globMatch, parse, matchTokens_star]
  rfl

@[simp] lemma globMatch_nil : globMatch [] s ↔ s = [] := by
  simp [globMatch, parse, matchTokens]

end QJazz.Lexical.Glob
