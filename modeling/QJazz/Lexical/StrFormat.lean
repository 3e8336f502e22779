import QJazz.Lexical.Template

/-! Doubled braces are literal ones, and a field reaches to its closing brace, with an index in
brackets and a format specification that may have fields itself. -/
namespace QJazz.Lexical
open List

/-- Where the reader is: in literal text, behind a closing brace, or in a field, of which the
characters read so far are given in reverse. -/
inductive FormatMode where
  | literal
  | closed
  | name (acc : Text)
  | index (acc : Text)
  | spec (acc : Text) (depth : ℕ)

/-- `str.format`, where `value` gives the text of a field unless it raises. -/
def strFormat (value : Text → Option Text) : FormatMode → Text → Option Text
  | .literal, [] => some []
  | _, [] => none
  | .literal, c :: t =>
    if c = '{' then strFormat value (.name []) t
    else if c = '}' then strFormat value .closed t
    else (strFormat value .literal t).map (c :: ·)
  | .closed, c :: t => if c = '}' then (strFormat value .literal t).map ('}' :: ·) else none
  | .name acc, c :: t =>
    if c = '}' then
      (value acc.reverse).bind fun v => (strFormat value .literal t).map (v ++ ·)
    else if c = '{' then
      if acc = [] then (strFormat value .literal t).map ('{' :: ·) else none
    else if c = '[' then strFormat value (.index (c :: acc)) t
    else if c = ':' ∨ c = '!' then strFormat value (.spec (c :: acc) 0) t
    else strFormat value (.name (c :: acc)) t
  | .index acc, c :: t =>
    strFormat value (if c = ']' then .name (c :: acc) else .index (c :: acc)) t
  | .spec acc depth, c :: t =>
    if c = '}' ∧ depth = 0 then
      (value acc.reverse).bind fun v => (strFormat value .literal t).map (v ++ ·)
    else
      strFormat value (.spec (c :: acc)
        (if c = '}' then depth - 1 else if c = '{' then depth + 1 else depth)) t

variable {value : Text → Option Text} {s t : Text}

lemma strFormat_literal_append (h : '{' ∉ s ∧ '}' ∉ s) : strFormat value .literal (s ++ t) =
    (strFormat value .literal t).map (s ++ ·) := by
  induction s with
  | nil => simp
  | cons c s ih =>
    have hc : c ≠ '{' ∧ c ≠ '}' := by
      constructor <;> rintro rfl <;> simp at h
    rw [cons_append, strFormat, if_neg hc.1, if_neg hc.2, ih (by simp_all), Option.map_map]
    rfl

def PlainField (s : Text) : Prop := ∀ c ∈ s, c ∉ ['{', '}', '[', ':', '!']

lemma strFormat_name (acc : Text) (hs : PlainField s) :
    strFormat value (.name acc) (s ++ '}' :: t) =
      (value (acc.reverse ++ s)).bind fun v => (strFormat value .literal t).map (v ++ ·) := by
  induction s generalizing acc with
  | nil => simp [strFormat]
  | cons c s ih =>
    have hc := hs c mem_cons_self
    simp only [mem_cons, not_mem_nil, or_false, not_or] at hc
    obtain ⟨ho, hd, hb, hn⟩ := hc
    rw [cons_append, strFormat, if_neg hd, if_neg ho, if_neg hb, if_neg (not_or.2 hn),
      ih _ fun d hd => hs d (mem_cons_of_mem _ hd)]
    simp

lemma strFormat_render {x : String} {a : Template} {v : Text} (hv : value x.toList = some v)
    (hx : PlainField x.toList) (hc : .char '{' ∉ a ∧ .char '}' ∉ a) (ha : ∀ y, .var y ∈ a → y = x) :
    strFormat value .literal a.render = some (a.subst fun _ => v).render := by
  induction a with
  | nil => rfl
  | cons b a ih =>
    have hr := ih (by simp_all) fun y hy => ha y (mem_cons_of_mem _ hy)
    cases b with
    | char c =>
      have hn : c ≠ '{' ∧ c ≠ '}' := by
        constructor <;> rintro rfl <;> simp at hc
      change strFormat value .literal ([c] ++ Template.render a) = _
      rw [strFormat_literal_append (by simp [hn.1.symm, hn.2.symm]), hr]
      rfl
    | var y =>
      obtain rfl : y = x := ha y mem_cons_self
      have he : Template.render (.var y :: a) = '{' :: (y.toList ++ '}' :: Template.render a) := by
        simp [Template.render, Symbol.text]
      rw [he, strFormat, if_pos rfl, strFormat_name [] hx, hr]
      simp [hv]

end QJazz.Lexical
