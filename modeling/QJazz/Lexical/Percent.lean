import QJazz.Lexical.Utf8

/-! `quote_plus` of the Python library, and the decoding that `parse_qsl` does with `unquote`: plus
signs are blanks, and each run of ASCII characters is decoded on its own. -/
namespace QJazz.Lexical
open List Utf8

def isUnreserved (c : Char) : Bool :=
  c.isAlphanum || decide (c = '_') || decide (c = '.') || decide (c = '-') || decide (c = '~')

def hexDigit (n : ℕ) : Char :=
  ['0', '1', '2', '3', '4', '5', '6', '7', '8', '9', 'A', 'B', 'C', 'D', 'E', 'F'].getD n '0'

def hexValue (c : Char) : Option ℕ :=
  if '0' ≤ c ∧ c ≤ '9' then some (c.toNat - 48)
  else if 'A' ≤ c ∧ c ≤ 'F' then some (c.toNat - 55)
  else if 'a' ≤ c ∧ c ≤ 'f' then some (c.toNat - 87)
  else none

def quoteByte (b : ℕ) : Text :=
  if isUnreserved (Char.ofNat b) then [Char.ofNat b]
  else ['%', hexDigit (b / 16), hexDigit (b % 16)]

def quotePlus (s : Text) : Text :=
  (Utf8.encode s).flatMap fun b => if b = 0x20 then ['+'] else quoteByte b

def percentBytes : Text → List ℕ
  | [] => []
  | [c] => [c.toNat]
  | [c, d] => [c.toNat, d.toNat]
  | c :: d :: e :: s =>
    if c = '%' then
      match hexValue d, hexValue e with
      | some x, some y => (16 * x + y) :: percentBytes s
      | _, _ => c.toNat :: percentBytes (d :: e :: s)
    else c.toNat :: percentBytes (d :: e :: s)

def unquoteRuns : Text → Text → Text
  | run, [] => Utf8.decode (percentBytes run)
  | run, c :: s =>
    if c.toNat < 0x80 then unquoteRuns (run ++ [c]) s
    else Utf8.decode (percentBytes run) ++ c :: unquoteRuns [] s

def unquote (s : Text) : Text :=
  if '%' ∈ s then unquoteRuns [] s else s

def plusToBlank (s : Text) : Text := s.map fun c => if c = '+' then ' ' else c

/-- What `parse_qsl` makes of a name or a value. -/
def unquotePlus (s : Text) : Text := unquote (plusToBlank s)

variable {s : Text} {b : ℕ} {c : Char}

lemma percentBytes_of_ne (h : c ≠ '%') : percentBytes (c :: s) = c.toNat :: percentBytes s := by
  cases s with
  | nil => rfl
  | cons d s =>
    cases s with
    | nil => rfl
    | cons e s => rw [percentBytes, if_neg h]

lemma percentBytes_code {d e : Char} {x y : ℕ} (hx : hexValue d = some x) (hy : hexValue e = some y) :
    percentBytes ('%' :: d :: e :: s) = (16 * x + y) :: percentBytes s := by
  rw [percentBytes, if_pos rfl, hx, hy]

lemma hexValue_hexDigit : ∀ n : Fin 16, hexValue (hexDigit n) = some n.val := by decide

lemma unreserved_byte : ∀ b : Fin 256, isUnreserved (Char.ofNat b) →
    (Char.ofNat b).toNat = b ∧ Char.ofNat b ≠ '%' ∧ b.val < 0x80 := by
  decide +kernel

lemma percentBytes_quoteByte (h : b < 256) : percentBytes (quoteByte b ++ s) = b :: percentBytes s := by
  rw [quoteByte]
  split
  next hf =>
    obtain ⟨hn, hne, -⟩ := unreserved_byte ⟨b, h⟩ hf
    rw [cons_append, nil_append, percentBytes_of_ne hne]
    exact congrArg (· :: _) hn
  · rw [cons_append, cons_append, cons_append, nil_append,
      percentBytes_code (hexValue_hexDigit ⟨b / 16, by omega⟩) (hexValue_hexDigit ⟨b % 16, by omega⟩)]
    congr 1
    exact Nat.div_add_mod b 16

lemma percentBytes_of_notMem (h : '%' ∉ s) : percentBytes s = s.map Char.toNat := by
  induction s with
  | nil => rfl
  | cons c s ih =>
    rw [mem_cons, not_or] at h
    rw [percentBytes_of_ne (Ne.symm h.1), map_cons, ih h.2]

lemma unquoteRuns_ascii {run : Text} (h : ∀ c ∈ s, c.toNat < 0x80) :
    unquoteRuns run s = Utf8.decode (percentBytes (run ++ s)) := by
  induction s generalizing run with
  | nil => rw [unquoteRuns, append_nil]
  | cons c s ih =>
    rw [unquoteRuns, if_pos (h c mem_cons_self), ih fun d hd => h d (mem_cons_of_mem _ hd),
      append_assoc]
    rfl

lemma unquote_ascii (h : ∀ c ∈ s, c.toNat < 0x80) : unquote s = Utf8.decode (percentBytes s) := by
  rw [unquote]
  split
  · exact unquoteRuns_ascii h
  next hp => rw [percentBytes_of_notMem hp, decode_ascii h]

def isQuoted (c : Char) : Bool := isUnreserved c || decide (c = '%') || decide (c = '+')

lemma hexDigit_spec : ∀ n : Fin 16, isUnreserved (hexDigit n) ∧ (hexDigit n).toNat < 0x80 := by
  decide

lemma of_mem_quoteByte (h : b < 256) (hc : c ∈ quoteByte b) :
    (isUnreserved c ∨ c = '%') ∧ c.toNat < 0x80 := by
  rw [quoteByte] at hc
  split at hc
  next hf =>
    obtain ⟨hn, -, hlt⟩ := unreserved_byte ⟨b, h⟩ hf
    rw [mem_singleton.1 hc]
    exact ⟨.inl hf, lt_of_eq_of_lt hn hlt⟩
  · simp only [mem_cons, not_mem_nil, or_false] at hc
    rcases hc with rfl | rfl | rfl
    · exact ⟨.inr rfl, by decide⟩
    · obtain ⟨hf, hlt⟩ := hexDigit_spec ⟨b / 16, by omega⟩
      exact ⟨.inl hf, hlt⟩
    · obtain ⟨hf, hlt⟩ := hexDigit_spec ⟨b % 16, by omega⟩
      exact ⟨.inl hf, hlt⟩

lemma isQuoted_of_mem_quotePlus (hc : c ∈ quotePlus s) : isQuoted c = true := by
  obtain ⟨b, hb, hc⟩ := mem_flatMap.1 hc
  split at hc
  · rw [mem_singleton.1 hc]
    decide
  · rcases (of_mem_quoteByte (lt_of_mem_encode hb) hc).1 with h | rfl
    · simp [isQuoted, h]
    · decide

/-- A byte as it is read back after the plus signs have become blanks. -/
def blankByte (b : ℕ) : Text := if b = 0x20 then [' '] else quoteByte b

lemma percentBytes_blankByte (h : b < 256) :
    percentBytes (blankByte b ++ s) = b :: percentBytes s := by
  rw [blankByte]
  split
  next hb =>
    rw [cons_append, nil_append, percentBytes_of_ne (by decide), hb]
    rfl
  · exact percentBytes_quoteByte h

lemma plusToBlank_quotePlus (s : Text) :
    plusToBlank (quotePlus s) = (Utf8.encode s).flatMap blankByte := by
  rw [plusToBlank, quotePlus, map_flatMap]
  refine flatMap_congr fun b hb => ?_
  rw [blankByte]
  split
  · rfl
  · have he : ∀ c ∈ quoteByte b, (if c = '+' then ' ' else c) = id c := by
      intro c hc
      rcases (of_mem_quoteByte (lt_of_mem_encode hb) hc).1 with hf | rfl
      · refine if_neg fun h => ?_
        rw [h] at hf
        exact absurd hf (by decide)
      · rfl
    rw [map_congr_left he, List.map_id]

lemma unquotePlus_quotePlus (s : Text) : unquotePlus (quotePlus s) = s := by
  have hlt : ∀ b ∈ Utf8.encode s, b < 256 := fun b hb => lt_of_mem_encode hb
  have hi : ∀ c ∈ (Utf8.encode s).flatMap blankByte, c.toNat < 0x80 := by
    intro c hc
    obtain ⟨b, hb, hc⟩ := mem_flatMap.1 hc
    rw [blankByte] at hc
    split at hc
    · rw [mem_singleton.1 hc]
      decide
    · exact (of_mem_quoteByte (hlt b hb) hc).2
  have hy (bs : List ℕ) (h : ∀ b ∈ bs, b < 256) : percentBytes (bs.flatMap blankByte) = bs := by
    induction bs with
    | nil => rfl
    | cons b bs ih =>
      rw [flatMap_cons, percentBytes_blankByte (h b mem_cons_self),
        ih fun b' hb' => h b' (mem_cons_of_mem _ hb')]
  rw [unquotePlus, plusToBlank_quotePlus, unquote_ascii hi, hy _ hlt, decode_encode]

lemma quotePlus_ne_nil (h : s ≠ []) : quotePlus s ≠ [] := by
  intro hn
  have hk := unquotePlus_quotePlus s
  rw [hn] at hk
  exact h hk.symm

lemma percentBytes_ne_nil (h : s ≠ []) : percentBytes s ≠ [] := by
  fun_cases percentBytes s with
  | case1 => exact absurd rfl h
  | _ => exact cons_ne_nil _ _

lemma length_percentBytes_le (s : Text) : (percentBytes s).length ≤ s.length := by
  fun_induction percentBytes s with
  | case1 | case2 | case3 => exact le_rfl
  | case4 | case5 | case6 => simp only [length_cons] at *; omega

lemma unquoteRuns_ne_nil {run : Text} (h : run ≠ [] ∨ s ≠ []) : unquoteRuns run s ≠ [] := by
  induction s generalizing run with
  | nil => exact decode_ne_nil (percentBytes_ne_nil (by simpa using h))
  | cons c s ih =>
    rw [unquoteRuns]
    split
    · exact ih (.inl (by simp))
    · simp

lemma length_unquoteRuns_le (run s : Text) : (unquoteRuns run s).length ≤ run.length + s.length := by
  have hr (run : Text) : (Utf8.decode (percentBytes run)).length ≤ run.length :=
    (length_decode_le _).trans (length_percentBytes_le run)
  induction s generalizing run with
  | nil => exact hr run
  | cons c s ih =>
    rw [unquoteRuns]
    split
    · have hle := ih (run ++ [c])
      simp only [length_append, length_cons, length_nil] at hle ⊢
      omega
    · have hle := ih []
      have hh := hr run
      simp only [length_append, length_cons, length_nil] at hle ⊢
      omega

lemma percentBytes_of_length (h : s.length ≤ (percentBytes s).length) :
    percentBytes s = s.map Char.toNat := by
  fun_induction percentBytes s with
  | case1 | case2 | case3 => rfl
  | case4 d e s x y =>
    have hle := length_percentBytes_le s
    simp only [length_cons] at h
    omega
  | case5 d e s _ ih | case6 c d e s _ ih => exact congrArg (_ :: ·) (ih (by simpa using h))

lemma decode_percentBytes_of_length (hi : ∀ c ∈ s, c.toNat < 0x80)
    (h : s.length ≤ (Utf8.decode (percentBytes s)).length) : Utf8.decode (percentBytes s) = s := by
  have hle := length_decode_le (percentBytes s)
  rw [percentBytes_of_length (h.trans hle), decode_ascii hi]

lemma unquoteRuns_of_length {run : Text} (hi : ∀ c ∈ run, c.toNat < 0x80)
    (h : run.length + s.length ≤ (unquoteRuns run s).length) : unquoteRuns run s = run ++ s := by
  induction s generalizing run with
  | nil =>
    rw [append_nil]
    exact decode_percentBytes_of_length hi h
  | cons c s ih =>
    rw [unquoteRuns] at h ⊢
    split at h
    next hc =>
      have hr : ∀ d ∈ run ++ [c], d.toNat < 0x80 := by
        intro d hd
        rcases mem_append.1 hd with hd | hd
        · exact hi d hd
        · rwa [mem_singleton.1 hd]
      rw [if_pos hc, ih hr (by simpa [Nat.add_assoc, Nat.add_comm 1] using h), append_assoc]
      rfl
    next hc =>
      have hr := (length_decode_le (percentBytes run)).trans (length_percentBytes_le run)
      have ht := length_unquoteRuns_le [] s
      simp only [length_append, length_cons, length_nil] at h ht
      rw [if_neg hc, decode_percentBytes_of_length hi (by omega),
        ih (by simp) (by simp only [length_nil]; omega), nil_append]

lemma unquotePlus_ne_nil (h : s ≠ []) : unquotePlus s ≠ [] := by
  have hl : plusToBlank s ≠ [] := by simpa [plusToBlank] using h
  rw [unquotePlus, unquote]
  split
  · exact unquoteRuns_ne_nil (.inr hl)
  · exact hl

lemma length_unquotePlus_le (s : Text) : (unquotePlus s).length ≤ s.length := by
  have hl : (plusToBlank s).length = s.length := length_map _
  rw [unquotePlus, unquote]
  split
  · simpa [hl] using length_unquoteRuns_le [] (plusToBlank s)
  · exact hl.le

lemma unquotePlus_of_length (h : s.length ≤ (unquotePlus s).length) : unquotePlus s = plusToBlank s := by
  have hl : (plusToBlank s).length = s.length := length_map _
  rw [unquotePlus, unquote] at h ⊢
  split at h
  next hm =>
    rw [if_pos hm]
    exact unquoteRuns_of_length (by simp) (by simpa [hl] using h)
  next hm => rw [if_neg hm]

lemma plusToBlank_of_notMem (h : '+' ∉ s) : plusToBlank s = s := by
  have hid : ∀ c ∈ s, (if c = '+' then ' ' else c) = c := fun c hc =>
    if_neg (ne_of_mem_of_not_mem hc h)
  rw [plusToBlank, map_congr_left hid, List.map_id']

lemma plus_notMem_plusToBlank (s : Text) : '+' ∉ plusToBlank s := by
  intro hm
  obtain ⟨c, -, hc⟩ := List.mem_map.1 hm
  split at hc
  · exact absurd hc (by decide)
  next hne => exact hne hc

end QJazz.Lexical
