import Mathlib.Data.List.AList
import QJazz.Lexical.Form
import QJazz.Map.HeaderFilter

/-! The gateway puts the status and the headers that a worker replies into metadata, from which the
map server makes the response for the client. -/
namespace QJazz.Map

open Lexical List HeaderFilter

/-- `HeaderMap`: names with one value each, in no given order. -/
abbrev HeaderMap := AList fun _ : Text => Text

def isVisible (c : Char) : Bool := decide (32 ≤ c.toNat ∧ c.toNat < 127) || decide (c = '\t')

/-- `MetadataKey::from_str` for a value that is a text. -/
def metadataKey (k : Text) : Option Text :=
  let name := k.map Char.toLower
  if name ≠ [] ∧ name.all isNameChar = true ∧ ¬ "-bin".toList <:+ name then some name else none

def displayInt : ℤ → Text
  | .ofNat n => Nat.toDigits 10 n
  | .negSucc n => '-' :: Nat.toDigits 10 (n + 1)

def statusKey : Text := "x-reply-status-code".toList

def insertReply (metadata : HeaderMap) (h : Text × Text) : HeaderMap :=
  if h.2.all isVisible = true then (metadataKey h.1).elim metadata fun k => metadata.insert k h.2
  else metadata

/-- `headers_to_metadata` -/
def headersToMetadata (status : ℤ) (headers : List (Text × Text)) : HeaderMap :=
  headers.foldl insertReply ((∅ : HeaderMap).insert statusKey (displayInt status))

structure Builder where
  status : ℕ
  headers : HeaderMap

def stripPrefix (start k : Text) : Option Text :=
  if start <+: k then some (k.drop start.length) else none

/-- A header with an invalid name or value fails the response. -/
def Builder.insertHeader (b : Builder) (name value : Text) : Option Builder :=
  if name ≠ [] ∧ name.all isNameChar = true ∧ value.all isVisible = true then
    some { b with headers := b.headers.insert name value }
  else none

def statusFrom (v : Text) : ℕ :=
  let n := ((U16.fromStr v).map Fin.val).getD 500
  if 100 ≤ n ∧ n < 1000 then n else 500

def Builder.put (b : Builder) (kv : Σ _ : Text, Text) : Option Builder :=
  match stripPrefix "x-reply-".toList kv.1 with
  | none => some b
  | some k =>
    if k = "status-code".toList then some { b with status := statusFrom kv.2 }
    else (stripPrefix "header-".toList k).elim (some b) fun h => b.insertHeader h kv.2

/-- `builder_from_metadata` -/
def builderFromMetadata (code : ℕ) (metadata : HeaderMap) (requestId : Option Text) : Option Builder :=
  (requestId.elim (some ⟨code, ∅⟩) (Builder.insertHeader ⟨code, ∅⟩ "x-request-id".toList)).bind
    fun b => metadata.entries.foldlM Builder.put b

/-- `HEADER_PREFIX` -/
def headerPrefix : Text := "x-reply-header-".toList

lemma statusFrom_displayInt (s : ℤ) :
    (statusFrom (displayInt s) : ℤ) = if 100 ≤ s ∧ s < 1000 then s else 500 := by
  cases s with
  | ofNat n =>
    rw [displayInt, statusFrom, U16.fromStr_toDigits, U16.checked, Int.ofNat_eq_natCast]
    by_cases hn : n < 65536
    · simp only [dif_pos hn, Option.map_some, Option.getD_some]
      split_ifs <;> omega
    · have hs : ¬ (100 ≤ (n : ℤ) ∧ (n : ℤ) < 1000) := by omega
      rw [dif_neg hn, if_neg hs]
      rfl
  | negSucc n =>
    have hf : U16.fromStr ('-' :: Nat.toDigits 10 (n + 1)) = none := by
      simp [U16.fromStr]
    have hs : ¬ (100 ≤ Int.negSucc n ∧ Int.negSucc n < 1000) := by omega
    rw [displayInt, statusFrom, hf, if_neg hs]
    rfl

/-- The value that the last header with the key gives it, among those that can be sent. -/
def lastValue (k : Text) (headers : List (Text × Text)) : Option Text :=
  (headers.filter fun h => h.2.all isVisible && decide (metadataKey h.1 = some k)).getLast?.map Prod.snd

lemma lookup_insertReply {md : HeaderMap} {h : Text × Text} {k : Text} :
    (insertReply md h).lookup k =
      if h.2.all isVisible && decide (metadataKey h.1 = some k) then some h.2 else md.lookup k := by
  rw [insertReply]
  cases hv : h.2.all isVisible with
  | false => simp
  | true =>
    cases hk : metadataKey h.1 with
    | none => simp
    | some j =>
      by_cases hj : j = k
      · subst hj
        simp
      · simp [AList.lookup_insert_ne (Ne.symm hj), hj]

lemma lookup_foldl_insertReply (hs : List (Text × Text)) (md : HeaderMap) (k : Text) :
    (hs.foldl insertReply md).lookup k = (lastValue k hs).or (md.lookup k) := by
  induction hs generalizing md with
  | nil => rfl
  | cons h hs ih =>
    rw [foldl_cons, ih, lookup_insertReply, lastValue, lastValue, filter_cons]
    split_ifs with hc
    · rw [getLast?_cons]
      cases (hs.filter _).getLast? <;> rfl
    · rfl

/-- The headers of a worker as they are in its reply. -/
def replied (hs : List (Text × Text)) : List (Text × Text) :=
  hs.map fun h => (headerPrefix ++ h.1, h.2)

lemma exists_of_lastValue {k v : Text} {hs : List (Text × Text)} (h : lastValue k (replied hs) = some v) :
    ∃ g ∈ hs, k = headerPrefix ++ g.1.map Char.toLower ∧ (g.1.map Char.toLower).all isNameChar = true ∧
      v.all isVisible = true := by
  obtain ⟨f, hm, rfl⟩ := Option.map_eq_some_iff.1 h
  obtain ⟨hm, ha⟩ := mem_filter.1 (mem_of_getLast? hm)
  obtain ⟨g, hg, rfl⟩ := mem_map.1 hm
  have hp : headerPrefix.map Char.toLower = headerPrefix := by decide
  simp only [metadataKey, map_append, hp, Bool.and_eq_true, decide_eq_true_eq,
    Option.ite_none_right_eq_some, Option.some.injEq, all_append] at ha
  exact ⟨g, hg, ha.2.2.symm, ha.2.1.2.1.2, ha.1⟩

lemma stripPrefix_append (p n : Text) : stripPrefix p (p ++ n) = some n := by simp [stripPrefix]

lemma headerPrefix_eq (n : Text) : headerPrefix ++ n = "x-reply-".toList ++ ("header-".toList ++ n) := by
  rw [← append_assoc]
  exact congrArg (· ++ n) (by decide)

lemma ne_statusCode (n : Text) : "header-".toList ++ n ≠ "status-code".toList := fun h =>
  absurd (congrArg head? h) (by simp)

lemma ne_statusKey (n : Text) : headerPrefix ++ n ≠ statusKey := by
  have hs : statusKey = "x-reply-".toList ++ "status-code".toList := by decide
  rw [headerPrefix_eq, hs]
  exact fun h => ne_statusCode n (append_cancel_left h)

lemma put_status (b : Builder) (v : Text) :
    b.put ⟨statusKey, v⟩ = some { b with status := statusFrom v } := by
  have hs : stripPrefix "x-reply-".toList statusKey = some "status-code".toList := by decide
  simp only [Builder.put, hs, if_true]

lemma put_header (b : Builder) {n v : Text} (hn : n ≠ []) (ha : n.all isNameChar = true)
    (hv : v.all isVisible = true) :
    b.put ⟨headerPrefix ++ n, v⟩ = some { b with headers := b.headers.insert n v } := by
  rw [Builder.put, headerPrefix_eq, stripPrefix_append]
  simp only [ne_statusCode, if_false, stripPrefix_append, Option.elim_some]
  exact if_pos ⟨hn, ha, hv⟩

/-- The keys are those of the status and of headers that can be sent. -/
def Sendable (l : List (Σ _ : Text, Text)) : Prop :=
  ∀ kv ∈ l, kv.1 = statusKey ∨ ∃ n, kv.1 = headerPrefix ++ n ∧ n ≠ [] ∧ n.all isNameChar = true ∧
    kv.2.all isVisible = true

lemma exists_foldlM_put {l : List (Σ _ : Text, Text)} (hn : l.NodupKeys) (hr : Sendable l)
    (b : Builder) : ∃ b', l.foldlM Builder.put b = some b' ∧
      b'.status = ((l.dlookup statusKey).map statusFrom).getD b.status ∧
      ∀ n, b'.headers.lookup n = (l.dlookup (headerPrefix ++ n)).or (b.headers.lookup n) := by
  induction l generalizing b with
  | nil => exact ⟨b, rfl, rfl, fun _ => rfl⟩
  | cons kv l ih =>
    obtain ⟨hk, hn⟩ := nodupKeys_cons.1 hn
    have hd := dlookup_eq_none.2 hk
    have ih := ih hn fun kv h => hr kv (mem_cons_of_mem _ h)
    obtain ⟨k, v⟩ := kv
    obtain rfl | ⟨n, rfl, hne, ha, hv⟩ := hr _ mem_cons_self
    · obtain ⟨b', hb, hs, hh⟩ := ih { b with status := statusFrom v }
      refine ⟨b', ?_, by simp [hs, hd], fun n => ?_⟩
      · rw [foldlM_cons, put_status]
        exact hb
      · rw [hh, dlookup_cons_ne _ _ (ne_statusKey n)]
    · obtain ⟨b', hb, hs, hh⟩ := ih { b with headers := b.headers.insert n v }
      refine ⟨b', ?_, ?_, fun m => ?_⟩
      · rw [foldlM_cons, put_header b hne ha hv]
        exact hb
      · rw [hs, dlookup_cons_ne _ _ (ne_statusKey n).symm]
      · rw [hh]
        by_cases hm : m = n
        · subst hm
          simp [hd]
        · rw [dlookup_cons_ne _ _ (by simpa using hm), AList.lookup_insert_ne hm]

lemma lookup_headersToMetadata (status : ℤ) (headers : List (Text × Text)) (k : Text) :
    (headersToMetadata status headers).lookup k =
      (lastValue k headers).or (if k = statusKey then some (displayInt status) else none) := by
  rw [headersToMetadata, lookup_foldl_insertReply]
  split_ifs with hk
  · rw [hk, AList.lookup_insert]
  · rw [AList.lookup_insert_ne hk, AList.lookup_empty]

lemma exists_start (id : Option Text) (hid : ∀ v ∈ id, v.all isVisible = true) :
    ∃ b, id.elim (some ⟨200, ∅⟩) (Builder.insertHeader ⟨200, ∅⟩ "x-request-id".toList) = some b ∧
      ∀ name, b.headers.lookup name = if name = "x-request-id".toList then id else none := by
  cases id with
  | none => exact ⟨_, rfl, fun _ => (ite_self _).symm⟩
  | some v =>
    refine ⟨_, if_pos ⟨by decide, by decide, hid v rfl⟩, fun name => ?_⟩
    split_ifs with hk
    · rw [hk, AList.lookup_insert]
    · exact AList.lookup_insert_ne hk

/-- The response for the client has the status that the worker replies, if there is one of this number,
and the last value that the worker gives a header, if the name and the value can be sent. -/
theorem exists_response (status : ℤ) (hs : List (Text × Text)) (id : Option Text)
    (hne : ∀ h ∈ hs, h.1 ≠ []) (hid : ∀ v ∈ id, v.all isVisible = true) :
    ∃ b, builderFromMetadata 200 (headersToMetadata status (replied hs)) id = some b ∧
      (b.status : ℤ) = (if 100 ≤ status ∧ status < 1000 then status else 500) ∧
      ∀ name, b.headers.lookup name = (lastValue (headerPrefix ++ name) (replied hs)).or
        (if name = "x-request-id".toList then id else none) := by
  have hr : Sendable (headersToMetadata status (replied hs)).entries := by
    rintro ⟨k, v⟩ hkv
    have hl := AList.mem_lookup_iff.2 hkv
    rw [lookup_headersToMetadata, Option.mem_def, Option.or_eq_some_iff] at hl
    obtain hl | ⟨-, hl⟩ := hl
    · obtain ⟨g, hg, hk, hn, hv⟩ := exists_of_lastValue hl
      exact .inr ⟨_, hk, by simpa using hne g hg, hn, hv⟩
    · exact .inl (Option.ite_none_right_eq_some.1 hl).1
  obtain ⟨b₀, hb₀, hl⟩ := exists_start id hid
  obtain ⟨b, hb, hs', hh⟩ := exists_foldlM_put (AList.nodupKeys _) hr b₀
  have hk : lastValue statusKey (replied hs) = none := by
    refine Option.eq_none_iff_forall_not_mem.2 fun v hv => ?_
    obtain ⟨g, -, hk, -⟩ := exists_of_lastValue hv
    exact ne_statusKey _ hk.symm
  refine ⟨b, ?_, ?_, fun name => ?_⟩
  · rw [builderFromMetadata, hb₀]
    exact hb
  · have hd := lookup_headersToMetadata status (replied hs) statusKey
    rw [hk, if_pos rfl, AList.lookup] at hd
    rw [hs', hd, ← statusFrom_displayInt]
    rfl
  · have hd := lookup_headersToMetadata status (replied hs) (headerPrefix ++ name)
    rw [if_neg (ne_statusKey name), Option.or_none, AList.lookup] at hd
    rw [hh, hd, hl]

theorem exists_response_png : ∃ b, builderFromMetadata 200 (headersToMetadata 404 (replied
      [("Content-Type".toList, "text/xml".toList), ("content-type".toList, "image/png".toList)]))
        none = some b ∧ (b.status : ℤ) = 404 ∧
      b.headers.lookup "content-type".toList = some "image/png".toList := by
  obtain ⟨b, hb, hs, hh⟩ := exists_response 404
    [("Content-Type".toList, "text/xml".toList), ("content-type".toList, "image/png".toList)] none
    (by decide) nofun
  exact ⟨b, hb, hs, (hh _).trans (by decide +kernel)⟩

end QJazz.Map
