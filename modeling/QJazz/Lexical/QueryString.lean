import QJazz.Json.Merge
import QJazz.Lexical.Percent

/-! `parse_qsl` and `urlencode` of the Python library, and the dictionaries that are made of their
fields. -/
namespace QJazz.Lexical
open List

def readField (piece : Text) : Option (String × Text) :=
  let value := (piece.dropWhile (· ≠ '=')).tail
  if value = [] then none
  else some (.ofList (unquotePlus (piece.takeWhile (· ≠ '='))), unquotePlus value)

def parseQsl (qs : Text) : List (String × Text) := (qs.splitOn '&').filterMap readField

def updateDict (d items : List (String × Text)) : List (String × Text) :=
  items.foldl (fun d x => setKey x.1 x.2 d) d

def parameters (qs : Text) : List (String × Text) := updateDict [] (parseQsl qs)

def encodeField (x : String × Text) : Text := quotePlus x.1.toList ++ '=' :: quotePlus x.2

def urlencode (d : List (String × Text)) : Text := ['&'].intercalate (d.map encodeField)

variable {d items front : List (String × Text)} {k : String} {v : Text}

lemma setKey_append (h : k ∉ front.map Prod.fst) : setKey k v (front ++ d) = front ++ setKey k v d := by
  induction front with
  | nil => rfl
  | cons x front ih =>
    rw [map_cons, mem_cons, not_or] at h
    rw [cons_append, setKey, if_neg (Ne.symm h.1), ih h.2, cons_append]

lemma keys_prefix_setKey (k : String) (v : Text) (d : List (String × Text)) :
    d.map Prod.fst <+: (setKey k v d).map Prod.fst := by
  induction d with
  | nil => exact nil_prefix
  | cons x d ih =>
    rw [setKey]
    split
    next h => rw [map_cons, map_cons, h]
    · rw [map_cons, map_cons, cons_prefix_cons]
      exact ⟨rfl, ih⟩

lemma keys_prefix_updateDict (d items : List (String × Text)) :
    d.map Prod.fst <+: (updateDict d items).map Prod.fst := by
  induction items generalizing d with
  | nil => exact prefix_rfl
  | cons x items ih => exact (keys_prefix_setKey x.1 x.2 d).trans (ih (setKey x.1 x.2 d))

lemma nodup_updateDict (h : (d.map Prod.fst).Nodup) : ((updateDict d items).map Prod.fst).Nodup := by
  induction items generalizing d with
  | nil => exact h
  | cons x items ih => exact ih (Json.nodup_setKey h)

lemma mem_updateDict {x : String × Text} (h : x ∈ updateDict d items) : x ∈ d ∨ x ∈ items := by
  induction items generalizing d with
  | nil => exact .inl h
  | cons y items ih =>
    rcases ih h with hm | hm
    · rcases mem_setKey hm with rfl | hm
      · exact .inr mem_cons_self
      · exact .inl hm
    · exact .inr (mem_cons_of_mem _ hm)

lemma updateDict_append (hk : d.map Prod.fst <+: items.map Prod.fst)
    (hn : ((front ++ items).map Prod.fst).Nodup) : updateDict (front ++ d) items = front ++ items := by
  induction items generalizing front d with
  | nil =>
    have hi : d = [] := by simpa using hk
    rw [hi]
    rfl
  | cons x items ih =>
    have hx : x.1 ∉ front.map Prod.fst := by
      intro hm
      rw [map_append, nodup_append] at hn
      exact hn.2.2 _ hm _ mem_cons_self rfl
    have ht : (front ++ [x]) ++ items = front ++ x :: items := by simp
    change updateDict (setKey x.1 x.2 (front ++ d)) items = _
    rw [← ht] at hn ⊢
    rw [setKey_append hx]
    cases d with
    | nil =>
      have hl : front ++ setKey x.1 x.2 [] = (front ++ [x]) ++ [] := by simp [setKey]
      rw [hl]
      exact ih nil_prefix hn
    | cons y d =>
      rw [map_cons, map_cons, cons_prefix_cons] at hk
      rw [setKey, if_pos hk.1]
      have ho : front ++ (x.1, x.2) :: d = (front ++ [x]) ++ d := by simp
      rw [ho]
      exact ih hk.2 hn

lemma updateDict_of_keys (hk : d.map Prod.fst <+: items.map Prod.fst)
    (hn : (items.map Prod.fst).Nodup) : updateDict d items = items := by
  have hp : updateDict ([] ++ d) items = [] ++ items := updateDict_append hk hn
  exact hp

lemma lookup_updateDict_of_notMem (h : k ∉ items.map Prod.fst) :
    (updateDict d items).lookup k = d.lookup k := by
  induction items generalizing d with
  | nil => rfl
  | cons x items ih =>
    rw [map_cons, mem_cons, not_or] at h
    exact (ih h.2).trans (lookup_setKey_ne h.1)

lemma updateDict_items_append (d a b : List (String × Text)) :
    updateDict d (a ++ b) = updateDict (updateDict d a) b :=
  foldl_append

lemma lookup_updateDict (d items : List (String × Text)) (k : String) :
    (updateDict d items).lookup k = ((updateDict [] items).lookup k).or (d.lookup k) := by
  induction items using List.reverseRecOn with
  | nil => rfl
  | append_singleton items x ih =>
    rw [updateDict_items_append, updateDict_items_append]
    change (setKey x.1 x.2 (updateDict d items)).lookup k =
      ((setKey x.1 x.2 (updateDict [] items)).lookup k).or (d.lookup k)
    by_cases hk : k = x.1
    · rw [hk, lookup_setKey_self, lookup_setKey_self, Option.some_or]
    · rw [lookup_setKey_ne hk, lookup_setKey_ne hk, ih]

lemma setKey_setKey (k : String) (v w : Text) (d : List (String × Text)) :
    setKey k w (setKey k v d) = setKey k w d := by
  induction d with
  | nil => simp [setKey]
  | cons x d ih =>
    by_cases hk : x.1 = k
    · simp [setKey, hk]
    · simp [setKey, hk, ih]

lemma setKey_comm {j : String} {w : Text} (hk : k ∈ d.map Prod.fst) (hne : j ≠ k) :
    setKey k w (setKey j v d) = setKey j v (setKey k w d) := by
  induction d with
  | nil => cases hk
  | cons x d ih =>
    by_cases hxk : x.1 = k
    · simp [setKey, hxk, Ne.symm hne]
    · have hd : k ∈ d.map Prod.fst := by
        rw [map_cons, mem_cons] at hk
        exact hk.resolve_left (Ne.symm hxk)
      by_cases hxj : x.1 = j
      · simp [setKey, hxj, hne]
      · simp [setKey, hxk, hxj, ih hd]

lemma setKey_updateDict {w : Text} (hk : k ∈ d.map Prod.fst) (hi : k ∉ items.map Prod.fst) :
    setKey k w (updateDict d items) = updateDict (setKey k w d) items := by
  induction items generalizing d with
  | nil => rfl
  | cons x items ih =>
    rw [map_cons, mem_cons, not_or] at hi
    change setKey k w (updateDict (setKey x.1 x.2 d) items) =
      updateDict (setKey x.1 x.2 (setKey k w d)) items
    rw [ih (mem_keys_setKey (.inr hk)) hi.2, setKey_comm hk (Ne.symm hi.1)]

lemma updateDict_setKey (hn : (items.map Prod.fst).Nodup) :
    updateDict d (setKey k v items) = setKey k v (updateDict d items) := by
  induction items generalizing d with
  | nil => rfl
  | cons x items ih =>
    rw [map_cons, nodup_cons] at hn
    change _ = setKey k v (updateDict (setKey x.1 x.2 d) items)
    rw [setKey]
    split
    next hk =>
      rw [hk] at hn
      rw [hk, setKey_updateDict (mem_keys_setKey (.inl rfl)) hn.1, setKey_setKey]
      rfl
    · exact ih hn.2

lemma parseQsl_append (s t : Text) : parseQsl (s ++ '&' :: t) = parseQsl s ++ parseQsl t := by
  rw [parseQsl, splitOn_append_cons_self, filterMap_append]
  rfl

lemma exists_of_mem_parseQsl {s : Text} {x : String × Text} (h : x ∈ parseQsl s) :
    ∃ p ∈ s.splitOn '&', (p.dropWhile (· ≠ '=')).tail ≠ [] ∧
      x.2 = unquotePlus (p.dropWhile (· ≠ '=')).tail := by
  obtain ⟨p, hp, hr⟩ := mem_filterMap.1 h
  rw [readField] at hr
  split at hr
  · cases hr
  next hv =>
    cases hr
    exact ⟨p, hp, hv, rfl⟩

lemma ne_nil_of_mem_parseQsl {s : Text} {x : String × Text} (h : x ∈ parseQsl s) : x.2 ≠ [] := by
  obtain ⟨p, -, hv, hx⟩ := exists_of_mem_parseQsl h
  rw [hx]
  exact unquotePlus_ne_nil hv

lemma length_lt_of_mem_parseQsl {s : Text} {x : String × Text} (h : x ∈ parseQsl s) :
    x.2.length < s.length := by
  obtain ⟨p, hp, hv, hx⟩ := exists_of_mem_parseQsl h
  have hd := length_unquotePlus_le (p.dropWhile (· ≠ '=')).tail
  have ho := length_pos_iff.2 hv
  have ht := length_tail (l := p.dropWhile (· ≠ '='))
  have hr := (dropWhile_sublist (l := p) (· ≠ '=')).length_le
  have hp := length_le_of_mem_splitOn hp
  rw [hx]
  omega

lemma quoted_notMem {s : Text} {c : Char} (h : isQuoted c = false) : c ∉ quotePlus s := by
  intro hc
  rw [isQuoted_of_mem_quotePlus hc] at h
  cases h

lemma readField_append {key l : Text} (hk : '=' ∉ key) (hv : l ≠ []) :
    readField (key ++ '=' :: l) = some (.ofList (unquotePlus key), unquotePlus l) := by
  have hne : ∀ c ∈ key, decide (c ≠ '=') = true :=
    fun c hc => decide_eq_true (ne_of_mem_of_not_mem hc hk)
  rw [readField, dropWhile_append_of_pos hne, takeWhile_append_of_pos hne]
  simp [hv]

lemma parseQsl_field {key value : Text} (he : '=' ∉ key) (hk : '&' ∉ key) (hv : value ≠ [])
    (hm : '&' ∉ value) :
    parseQsl (key ++ '=' :: value) = [(.ofList (unquotePlus key), unquotePlus value)] := by
  have hp : '&' ∉ key ++ '=' :: value := by
    rw [mem_append, mem_cons, not_or, not_or]
    exact ⟨hk, by decide, hm⟩
  have hr := readField_append he hv
  rw [parseQsl, splitOn_eq_singleton hp, filterMap_cons_some hr, filterMap_nil]

lemma readField_encodeField {x : String × Text} (h : x.2 ≠ []) :
    readField (encodeField x) = some x := by
  rw [encodeField, readField_append (quoted_notMem (by decide)) (quotePlus_ne_nil h),
    unquotePlus_quotePlus, unquotePlus_quotePlus, String.ofList_toList]

lemma parseQsl_urlencode (h : ∀ x ∈ d, x.2 ≠ []) : parseQsl (urlencode d) = d := by
  by_cases hd : d = []
  · rw [hd]
    rfl
  · have ham : ∀ piece ∈ d.map encodeField, '&' ∉ piece := by
      intro piece hp hm
      obtain ⟨x, -, rfl⟩ := List.mem_map.1 hp
      rw [encodeField, mem_append, mem_cons] at hm
      rcases hm with hm | hm | hm
      · exact quoted_notMem (by decide) hm
      · exact absurd hm (by decide)
      · exact quoted_notMem (by decide) hm
    rw [parseQsl, urlencode, splitOn_intercalate _ ham (by simpa using hd), filterMap_map]
    calc d.filterMap (readField ∘ encodeField)
      _ = d.filterMap some := filterMap_congr fun x hx => readField_encodeField (h x hx)
      _ = d := filterMap_some

lemma parameters_urlencode (h : ∀ x ∈ d, x.2 ≠ []) (hn : (d.map Prod.fst).Nodup) :
    parameters (urlencode d) = d := by
  rw [parameters, parseQsl_urlencode h]
  exact updateDict_of_keys nil_prefix hn

lemma of_mem_urlencode {c : Char} (h : c ∈ urlencode d) :
    isQuoted c ∨ c = '=' ∨ c = '&' := by
  by_cases hm : c = '&'
  · exact .inr (.inr hm)
  · obtain ⟨p, hp, hc⟩ := (mem_intercalate hm).1 h
    obtain ⟨x, -, rfl⟩ := List.mem_map.1 hp
    rw [encodeField, mem_append, mem_cons] at hc
    rcases hc with hc | hc | hc
    · exact .inl (isQuoted_of_mem_quotePlus hc)
    · exact .inr (.inl hc)
    · exact .inl (isQuoted_of_mem_quotePlus hc)

def lead (front : Text) : Text := if front = [] then [] else front ++ ['&']

def trail (back : Text) : Text := if back = [] then [] else '&' :: back

variable {s t a b : Text}

lemma parseQsl_lead : parseQsl (lead a ++ s) = parseQsl a ++ parseQsl s := by
  rw [lead]
  split
  next h =>
    rw [h]
    rfl
  · rw [append_assoc, singleton_append, parseQsl_append]

lemma parseQsl_trail : parseQsl (s ++ trail b) = parseQsl s ++ parseQsl b := by
  rw [trail]
  split
  next h =>
    have hn : parseQsl [] = [] := rfl
    rw [h, hn, append_nil, append_nil]
  · exact parseQsl_append s b

lemma lookup_parameters_between (ha : k ∉ (parseQsl a).map Prod.fst)
    (hb : k ∉ (parseQsl b).map Prod.fst) :
    (parameters (lead a ++ (s ++ trail b))).lookup k = (parameters s).lookup k := by
  rw [parameters, parseQsl_lead, parseQsl_trail, updateDict_items_append, updateDict_items_append,
    lookup_updateDict_of_notMem hb, lookup_updateDict, lookup_updateDict_of_notMem ha]
  exact Option.or_none

lemma parameters_between {w : Text} (hb : k ∉ (parseQsl b).map Prod.fst)
    (hs : parseQsl s = [(k, v)]) (ht : parseQsl t = [(k, w)]) :
    parameters (lead a ++ (t ++ trail b)) = setKey k w (parameters (lead a ++ (s ++ trail b))) := by
  rw [parameters, parseQsl_lead, parseQsl_trail, ht, parameters, parseQsl_lead, parseQsl_trail, hs,
    updateDict_items_append, updateDict_items_append, updateDict_items_append, updateDict_items_append]
  change updateDict (setKey k w (updateDict [] (parseQsl a))) (parseQsl b) =
    setKey k w (updateDict (setKey k v (updateDict [] (parseQsl a))) (parseQsl b))
  rw [setKey_updateDict (mem_keys_setKey (.inl rfl)) hb, setKey_setKey]

def readPair (piece : Text) : String × Text :=
  (.ofList (unquotePlus (piece.takeWhile (· ≠ '='))), unquotePlus (piece.dropWhile (· ≠ '=')).tail)

def parseFields (qs : Text) : List (String × Text) :=
  ((qs.splitOn '&').filter fun piece => piece ≠ []).map readPair

variable {d : List (String × Text)} {s t key value : Text}

lemma parseFields_append (s t : Text) :
    parseFields (s ++ '&' :: t) = parseFields s ++ parseFields t := by
  rw [parseFields, splitOn_append_cons_self, filter_append, map_append]
  rfl

lemma readPair_append (hk : '=' ∉ key) :
    readPair (key ++ '=' :: value) = (.ofList (unquotePlus key), unquotePlus value) := by
  have hne : ∀ c ∈ key, decide (c ≠ '=') = true :=
    fun c hc => decide_eq_true (ne_of_mem_of_not_mem hc hk)
  rw [readPair, dropWhile_append_of_pos hne, takeWhile_append_of_pos hne]
  simp

lemma parseFields_field (he : '=' ∉ key) (hk : '&' ∉ key) (hv : '&' ∉ value) :
    parseFields (key ++ '=' :: value) = [(.ofList (unquotePlus key), unquotePlus value)] := by
  have hp : '&' ∉ key ++ '=' :: value := by
    rw [mem_append, mem_cons, not_or, not_or]
    exact ⟨hk, by decide, hv⟩
  rw [parseFields, splitOn_eq_singleton hp, ← readPair_append he]
  simp

lemma parseFields_encodeField (x : String × Text) : parseFields (encodeField x) = [x] := by
  rw [encodeField, parseFields_field (quoted_notMem (by decide)) (quoted_notMem (by decide))
    (quoted_notMem (by decide)), unquotePlus_quotePlus, unquotePlus_quotePlus, String.ofList_toList]

lemma parseFields_urlencode (d : List (String × Text)) : parseFields (urlencode d) = d := by
  induction d with
  | nil => rfl
  | cons x d ih =>
    cases d with
    | nil =>
      have hi : urlencode [x] = encodeField x := append_nil _
      rw [hi, parseFields_encodeField]
    | cons y d =>
      have ho : urlencode (x :: y :: d) = encodeField x ++ '&' :: urlencode (y :: d) := by
        simp [urlencode, intercalate_cons_cons]
      rw [ho, parseFields_append, parseFields_encodeField, ih]
      rfl

end QJazz.Lexical
