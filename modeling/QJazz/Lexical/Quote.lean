import QJazz.Lexical.Percent

/-! Each byte of a text is written as a percent code, unless it is an unreserved character or one of
those that are declared safe. -/
namespace QJazz.Lexical
open List

def quoteSafeByte (safe : Text) (b : ℕ) : Text :=
  if Char.ofNat b ∈ safe then [Char.ofNat b] else quoteByte b

def quote (safe s : Text) : Text := (Utf8.encode s).flatMap (quoteSafeByte safe)

def isSafe (safe : Text) (c : Char) : Bool := isUnreserved c || decide (c ∈ safe)

variable {safe s t : Text} {b : ℕ} {c : Char}

lemma quote_append (safe s t : Text) : quote safe (s ++ t) = quote safe s ++ quote safe t := by
  rw [quote, Utf8.encode, flatMap_append, flatMap_append]
  rfl

lemma quote_eq_flatMap (safe s : Text) : quote safe s = s.flatMap fun c => quote safe [c] := by
  rw [quote, Utf8.encode, flatMap_assoc]
  refine flatMap_congr fun c _ => ?_
  simp [quote, Utf8.encode]

lemma encode_of_lt (h : c.toNat < 0x80) : Utf8.encode [c] = [c.toNat] := by
  simp [Utf8.encode, Utf8.encodeChar, h]

lemma lt_of_isUnreserved (h : isUnreserved c) : c.toNat < 0x80 := by
  delta isUnreserved Char.isAlphanum Char.isAlpha Char.isUpper Char.isLower Char.isDigit at h
  simp only [Bool.or_eq_true, Bool.and_eq_true, decide_eq_true_eq, ge_iff_le,
    UInt32.le_iff_toNat_le] at h
  rcases h with (((((⟨-, h⟩ | ⟨-, h⟩) | ⟨-, h⟩) | rfl) | rfl) | rfl) | rfl
  · exact h.trans_lt (by decide)
  · exact h.trans_lt (by decide)
  · exact h.trans_lt (by decide)
  all_goals decide

section Ascii

variable (hascii : ∀ c ∈ safe, c.toNat < 0x80)
include hascii

lemma quote_singleton_of_isSafe (h : isSafe safe c) : quote safe [c] = [c] := by
  rw [isSafe, Bool.or_eq_true, decide_eq_true_eq] at h
  have hlt := h.elim lt_of_isUnreserved (hascii c)
  rw [quote, encode_of_lt hlt, flatMap_singleton, quoteSafeByte, Char.ofNat_toNat]
  split
  · rfl
  next hn =>
    rw [quoteByte, Char.ofNat_toNat, if_pos (h.resolve_right hn)]

lemma quote_of_forall_isSafe (h : ∀ c ∈ s, isSafe safe c) : quote safe s = s := by
  rw [quote_eq_flatMap]
  induction s with
  | nil => rfl
  | cons c s ih =>
    rw [flatMap_cons, quote_singleton_of_isSafe hascii (h c mem_cons_self),
      ih fun d hd => h d (mem_cons_of_mem _ hd), singleton_append]

end Ascii

lemma quoteSafeByte_ne_nil (safe : Text) (b : ℕ) : quoteSafeByte safe b ≠ [] := by
  rw [quoteSafeByte, quoteByte]
  split_ifs <;> exact cons_ne_nil _ _

lemma one_lt_length_quote (h : isSafe safe c = false) : 1 < (quote safe [c]).length := by
  rw [isSafe, Bool.or_eq_false_iff, decide_eq_false_iff_not] at h
  by_cases hlt : c.toNat < 0x80
  · rw [quote, encode_of_lt hlt, flatMap_singleton, quoteSafeByte, Char.ofNat_toNat,
      if_neg h.2, quoteByte, Char.ofNat_toNat, if_neg (by simp [h.1])]
    simp
  · obtain ⟨b, d, bs, hy⟩ : ∃ b d bs, Utf8.encode [c] = b :: d :: bs := by
      simp only [Utf8.encode, flatMap_singleton, Utf8.encodeChar, if_neg hlt]
      split_ifs <;> exact ⟨_, _, _, rfl⟩
    rw [quote, hy, flatMap_cons, flatMap_cons, length_append, length_append]
    have hb := length_pos_iff.2 (quoteSafeByte_ne_nil safe b)
    have hd := length_pos_iff.2 (quoteSafeByte_ne_nil safe d)
    omega

lemma quote_singleton_ne_nil (safe : Text) (c : Char) : quote safe [c] ≠ [] := by
  obtain ⟨b, bs, hy⟩ : ∃ b bs, Utf8.encode [c] = b :: bs := by
    simp only [Utf8.encode, flatMap_singleton, Utf8.encodeChar]
    split_ifs <;> exact ⟨_, _, rfl⟩
  rw [quote, hy, flatMap_cons]
  exact append_ne_nil_of_left_ne_nil (quoteSafeByte_ne_nil safe b) _

lemma length_le_quote (safe s : Text) : s.length ≤ (quote safe s).length := by
  rw [quote_eq_flatMap]
  induction s with
  | nil => exact Nat.le_refl 0
  | cons c s ih =>
    have hc := length_pos_iff.2 (quote_singleton_ne_nil safe c)
    rw [flatMap_cons, length_append, length_cons]
    omega

lemma length_lt_quote (hc : c ∈ s) (h : isSafe safe c = false) : s.length < (quote safe s).length := by
  obtain ⟨u, v, rfl⟩ := append_of_mem hc
  have hu := length_le_quote safe u
  have hv := length_le_quote safe v
  have ho := one_lt_length_quote h
  rw [← singleton_append, quote_append, quote_append]
  simp only [length_append, length_singleton]
  omega

lemma quote_eq_self_iff (hascii : ∀ c ∈ safe, c.toNat < 0x80) :
    quote safe s = s ↔ ∀ c ∈ s, isSafe safe c = true := by
  refine ⟨fun h c hc => ?_, quote_of_forall_isSafe hascii⟩
  by_contra hunsafe
  exact absurd (congrArg List.length h) (length_lt_quote hc (Bool.eq_false_iff.2 hunsafe)).ne'

lemma quote_eq_nil : quote safe s = [] ↔ s = [] := by
  constructor
  · intro h
    have hle := length_le_quote safe s
    rw [h, length_nil, Nat.le_zero] at hle
    exact length_eq_zero_iff.1 hle
  · rintro rfl
    rfl

lemma of_mem_quote_nil (hc : c ∈ quote [] s) :
    (isUnreserved c ∨ c = '%') ∧ c.toNat < 0x80 := by
  obtain ⟨b, hb, hc⟩ := mem_flatMap.1 hc
  exact of_mem_quoteByte (Utf8.lt_of_mem_encode hb) (by simpa [quoteSafeByte] using hc)

lemma unquotePlus_quote (s : Text) : unquotePlus (quote [] s) = s := by
  have hp : '+' ∉ quote [] s := by
    intro hm
    obtain h | h := (of_mem_quote_nil hm).1
    · exact absurd h (by decide)
    · exact absurd h (by decide)
  have hy (bs : List ℕ) (h : ∀ b ∈ bs, b < 256) :
      percentBytes (bs.flatMap (quoteSafeByte [])) = bs := by
    induction bs with
    | nil => rfl
    | cons b bs ih =>
      have hb : quoteSafeByte [] b = quoteByte b := if_neg not_mem_nil
      rw [flatMap_cons, hb, percentBytes_quoteByte (h b mem_cons_self),
        ih fun b' hb' => h b' (mem_cons_of_mem _ hb')]
  rw [unquotePlus, plusToBlank_of_notMem hp, unquote_ascii fun c hc => (of_mem_quote_nil hc).2,
    quote, hy _ fun b hb => Utf8.lt_of_mem_encode hb, Utf8.decode_encode]

lemma eq_of_ofNat_eq_slash (hlt : b < 256) (h : Char.ofNat b = '/') : b = 47 := by
  have hv : b.isValidChar := .inl (by omega)
  have hn : (Char.ofNat b).toNat = b := by
    rw [Char.ofNat, dif_pos hv]
    rfl
  rw [← hn, h]
  rfl

lemma le_of_mem_encodeChar (h : ¬ c.toNat < 0x80) (hb : b ∈ Utf8.encodeChar c) : 0x80 ≤ b := by
  rw [Utf8.encodeChar, if_neg h] at hb
  split_ifs at hb <;> simp only [mem_cons, not_mem_nil, or_false] at hb <;> omega

lemma slash_notMem_quote_singleton (h : c ≠ '/') : '/' ∉ quote ['/'] [c] := by
  intro hm
  obtain ⟨b, hb, hm⟩ := mem_flatMap.1 hm
  have hlt := Utf8.lt_of_mem_encode hb
  rw [quoteSafeByte] at hm
  split at hm
  next hl =>
    have hb4 : b = 47 := eq_of_ofNat_eq_slash hlt (mem_singleton.1 hl)
    rw [Utf8.encode, flatMap_singleton] at hb
    by_cases hc : c.toNat < 0x80
    · rw [Utf8.encodeChar, if_pos hc, mem_singleton] at hb
      exact h (Char.ext (UInt32.toNat_inj.1 (hb.symm.trans hb4)))
    · have hle := le_of_mem_encodeChar hc hb
      omega
  · obtain hf | hf := (of_mem_quoteByte hlt hm).1
    · exact absurd hf (by decide)
    · exact absurd hf (by decide)

lemma splitOn_append_of_notMem {α : Type*} [BEq α] [LawfulBEq α] {a : α} {u t : List α}
    (h : a ∉ u) : (u ++ t).splitOn a = (t.splitOn a).modifyHead (u ++ ·) := by
  induction u with
  | nil =>
    rw [nil_append]
    cases t.splitOn a <;> rfl
  | cons b u ih =>
    rw [mem_cons, not_or] at h
    rw [cons_append, splitOn_cons_eq_if_modifyHead, if_neg (by simpa using Ne.symm h.1), ih h.2]
    cases t.splitOn a <;> rfl

lemma splitOn_flatMap {α : Type*} [BEq α] [LawfulBEq α] {a : α} {f : α → List α}
    (he : f a = [a]) (hne : ∀ b, b ≠ a → a ∉ f b) (s : List α) :
    (s.flatMap f).splitOn a = (s.splitOn a).map (List.flatMap f) := by
  induction s with
  | nil => rfl
  | cons b s ih =>
    rw [flatMap_cons, splitOn_cons_eq_if_modifyHead]
    by_cases hb : b = a
    · rw [hb, he, singleton_append, splitOn_cons_eq_if_modifyHead]
      simp [ih]
    · rw [splitOn_append_of_notMem (hne b hb), ih, if_neg (by simpa using hb)]
      cases s.splitOn a <;> rfl

lemma quote_slash_ascii : ∀ c ∈ ['/'], c.toNat < 0x80 := forall_mem_singleton.2 (by decide)

lemma quote_eq_dot_iff (p : Text) : quote ['/'] p = ['.'] ↔ p = ['.'] := by
  constructor
  · intro h
    have hle := length_le_quote ['/'] p
    rw [h, length_singleton] at hle
    have he : quote ['/'] p = p := by
      refine (quote_eq_self_iff quote_slash_ascii).2 fun c hc => ?_
      by_contra hu
      have hlt := length_lt_quote hc (Bool.eq_false_iff.2 hu)
      rw [h, length_singleton, Nat.lt_one_iff, length_eq_zero_iff] at hlt
      rw [hlt] at hc
      cases hc
    rw [← he, h]
  · rintro rfl
    rfl

lemma isPart_quote (p : Text) : isPart (quote ['/'] p) = isPart p := by
  simp only [isPart, ne_eq, quote_eq_nil, quote_eq_dot_iff]

lemma components_quote (s : Text) :
    components (quote ['/'] s) = (components s).map (quote ['/']) := by
  have hp : (quote ['/'] s).splitOn '/' = (s.splitOn '/').map (quote ['/']) := by
    rw [quote_eq_flatMap, splitOn_flatMap rfl fun c hc => slash_notMem_quote_singleton hc]
    refine map_congr_left fun p _ => (quote_eq_flatMap _ _).symm
  rw [components, hp, List.filter_map]
  refine congrArg _ (filter_congr fun p _ => isPart_quote p)

lemma parse_quote_eq_iff (s : Text) :
    PosixPath.parse (quote ['/'] s) = .parse s ↔ ∀ c ∈ s, isSafe ['/'] c = true := by
  constructor
  · intro h c hc
    have hr : (components s).map (quote ['/']) = (components s).map id := by
      rw [← components_quote, List.map_id]
      exact congrArg PosixPath.parts h
    by_cases hl : c = '/'
    · rw [hl]
      decide
    by_cases hd : c = '.'
    · rw [hd]
      decide
    obtain ⟨p, hp, hcp⟩ := exists_mem_components hc hl hd
    exact (quote_eq_self_iff quote_slash_ascii).1 (map_inj_left.1 hr p hp) c hcp
  · intro h
    rw [quote_of_forall_isSafe quote_slash_ascii h]

end QJazz.Lexical
