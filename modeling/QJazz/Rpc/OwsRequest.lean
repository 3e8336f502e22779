import Mathlib.Data.List.TakeWhile
import QJazz.Lexical.RawQuery

/-! What the options lack of `SERVICE`, `REQUEST` and `VERSION` is put before them; the first is
looked for among the keys, the other two as words in the text. -/
namespace QJazz.Rpc.Ows

open Lexical List

structure Uppercase where
  upper : Text → Text
  upper_ascii : ∀ s, (∀ c ∈ s, c.toNat < 0x80) → upper s = s.map Char.toUpper

structure Message where
  options : Option Text
  service : Text
  request : Text
  version : Option Text := none
  url : Option Text := none

inductive Key where
  | service
  | request
  | version
deriving DecidableEq

def Key.name : Key → String
  | .service => "SERVICE"
  | .request => "REQUEST"
  | .version => "VERSION"

def removeMark (s : Text) : Text := if s.head? = some '?' then s.tail else s

def values (u : Uppercase) (key : Text) (fields : List (String × Text)) : List Text :=
  (fields.filter fun x => u.upper x.1.toList = key).map Prod.snd

namespace Message

variable (u : Uppercase) (m : Message)

/-- What the message has for a key. Empty texts count as missing. -/
def value : Key → Text
  | .service => if m.service = [] then "WMS".toList else m.service
  | .request => m.request
  | .version => m.version.getD []

def field (key : Key) : Text := rawField (key.name, m.value key)

def put (key : Key) (options : Text) : Text := m.field key ++ '&' :: options

def withService (options : Text) : Text :=
  if values u Key.service.name.toList (parseQsl options) = [] then m.put .service options else options

def withWord (key : Key) (options : Text) : Text :=
  if key.name.toList <:+: options ∨ m.value key = [] then options else m.put key options

def query : Text :=
  if m.options.getD [] = [] then
    m.put .service (m.field .request) ++
      if m.value .version = [] then [] else '&' :: m.field .version
  else
    m.withWord .version (m.withWord .request (m.withService u (removeMark (m.options.getD []))))

def rebuild : Text := m.url.getD [] ++ '?' :: m.query u

end Message

def queryOf (url : Text) : Text := ((url.takeWhile (· ≠ '#')).dropWhile (· ≠ '?')).tail

namespace Message

variable (u : Uppercase) (m : Message)

def given : List (String × Text) := parseQsl (removeMark (m.options.getD []))

/-- What the message has for a key that the options do not define. -/
def fallback (key : Text) : List Text :=
  if key = Key.service.name.toList then [m.value .service]
  else if key = Key.request.name.toList then [m.value .request].filter (· ≠ [])
  else if key = Key.version.name.toList then [m.value .version].filter (· ≠ [])
  else []

/-- All parameters of the options are there as they are, and what they do not define of the three keys
is there as the message has it. -/
def Keeps : Prop :=
  ∀ key, values u key (parseQsl (queryOf (m.rebuild u))) =
    if values u key m.given = [] then m.fallback key else values u key m.given

def searched : Key → Text
  | .service => []
  | .request => m.withService u (removeMark (m.options.getD []))
  | .version => m.withWord .request (m.withService u (removeMark (m.options.getD [])))

/-- Whether the url gets a field for the key, if the message has a value. -/
def writes (key : Key) : Bool :=
  decide (m.options.getD [] = []) ||
    if key = .service then decide (values u Key.service.name.toList m.given = [])
    else !decide (key.name.toList <:+: m.searched u key)

/-- The message has nothing for the key, or the key is written exactly if the options do not define
it, and the value is then read as it is. -/
def Agrees (key : Key) : Prop :=
  m.value key = [] ∨
    (m.writes u key = true ↔ values u key.name.toList m.given = []) ∧
      (m.writes u key = true → unquotePlus (m.value key) = m.value key)

instance (key : Key) : Decidable (m.Agrees u key) := inferInstanceAs (Decidable (_ ∨ _))

/-- Nothing of the message can be taken for the start of another part of the url, or for its end. -/
structure Flat : Prop where
  url : ∀ c ∈ m.url.getD [], c ≠ '?' ∧ c ≠ '#'
  options : '#' ∉ m.options.getD []
  value : ∀ key, ∀ c ∈ m.value key, c ≠ '&' ∧ c ≠ '#'

end Message

variable {u : Uppercase} {m : Message} {key : Key} {a b : List (String × Text)} {k options : Text}

lemma values_append : values u k (a ++ b) = values u k a ++ values u k b := by
  rw [values, filter_append, map_append]
  rfl

lemma verbatimKey_name (key : Key) : VerbatimKey key.name := by
  cases key <;> decide +kernel

lemma name_injective {i j : Key} (h : i.name.toList = j.name.toList) : i = j := by
  cases i <;> cases j <;> first | rfl | exact absurd h (by decide +kernel)

lemma upper_name (u : Uppercase) (key : Key) : u.upper key.name.toList = key.name.toList := by
  have hi : key.name.toList.all (fun c => decide (c.toNat < 0x80)) := by
    cases key <;> decide +kernel
  have hu : key.name.toList.map Char.toUpper = key.name.toList := by
    cases key <;> decide +kernel
  rw [u.upper_ascii _ fun c hc => of_decide_eq_true (List.all_eq_true.1 hi c hc), hu]

lemma values_field (u : Uppercase) (key : Key) (v : Text) (k : Text) :
    values u k [(key.name, v)] = if k = key.name.toList then [v] else [] := by
  rw [values, filter_singleton]
  simp only [upper_name]
  by_cases h : k = key.name.toList
  · simp [h]
  · simp [h, Ne.symm h]

namespace Message

def block (u : Uppercase) (m : Message) (key : Key) : List (String × Text) :=
  if m.writes u key = true ∧ m.value key ≠ [] then [(key.name, unquotePlus (m.value key))] else []

lemma Flat.parseQsl_field (h : m.Flat) (key : Key) : parseQsl (m.field key) =
      if m.value key = [] then [] else [(key.name, unquotePlus (m.value key))] := by
  split
  next hn => exact parseQsl_rawField_nil (verbatimKey_name key) hn
  next hne =>
    exact parseQsl_rawField (verbatimKey_name key) hne fun hm => (h.value key _ hm).1 rfl

lemma Flat.parseQsl_put (h : m.Flat) (key : Key) (options : Text) : parseQsl (m.put key options) =
      (if m.value key = [] then [] else [(key.name, unquotePlus (m.value key))]) ++
        parseQsl options := by
  rw [put, parseQsl_append, h.parseQsl_field]

lemma value_service_ne_nil (m : Message) : m.value .service ≠ [] := by
  rw [value]
  split
  · decide +kernel
  next h => exact h

lemma Flat.parseQsl_withService (h : m.Flat) (hne : m.options.getD [] ≠ []) :
    parseQsl (m.withService u (removeMark (m.options.getD []))) = m.block u .service ++ m.given := by
  rw [withService, block, writes, decide_eq_false hne, Bool.false_or, if_pos rfl]
  simp only [value_service_ne_nil, ne_eq, not_false_eq_true, and_true, decide_eq_true_eq]
  change (parseQsl (if values u Key.service.name.toList m.given = [] then _ else _)) = _
  split
  · rw [h.parseQsl_put, if_neg (value_service_ne_nil m)]
    rfl
  · rfl

lemma Flat.parseQsl_withWord (h : m.Flat) (hne : m.options.getD [] ≠ []) (hk : key ≠ .service) :
    parseQsl (m.withWord key (m.searched u key)) = m.block u key ++ parseQsl (m.searched u key) := by
  have hr : m.writes u key = !decide (key.name.toList <:+: m.searched u key) := by
    rw [writes, decide_eq_false hne, Bool.false_or, if_neg hk]
  rw [withWord, block, hr]
  by_cases hw : key.name.toList <:+: m.searched u key
  · simp [hw]
  · by_cases hn : m.value key = []
    · simp [hn]
    · rw [if_neg (by simp [hw, hn]), if_pos (by simp [hw, hn]), h.parseQsl_put, if_neg hn]

lemma Flat.parseQsl_query (h : m.Flat) : parseQsl (m.query u) =
      if m.options.getD [] = [] then m.block u .service ++ m.block u .request ++ m.block u .version
      else m.block u .version ++ (m.block u .request ++ (m.block u .service ++ m.given)) := by
  rw [query]
  split
  next hn =>
    have hl (key : Key) : m.block u key = parseQsl (m.field key) := by
      rw [h.parseQsl_field, block, writes, decide_eq_true hn, Bool.true_or]
      by_cases hv : m.value key = [] <;> simp [hv]
    rw [hl .service, hl .request, hl .version, put]
    split
    next hv => rw [append_nil, parseQsl_append, h.parseQsl_field .version, if_pos hv, append_nil]
    · rw [append_assoc, cons_append, parseQsl_append, parseQsl_append, append_assoc]
  next hne =>
    have he : parseQsl (m.withWord .version (m.searched u .version)) = _ :=
      h.parseQsl_withWord hne (by decide)
    have hr : parseQsl (m.withWord .request (m.searched u .request)) = _ :=
      h.parseQsl_withWord hne (by decide)
    have hi := h.parseQsl_withService (u := u) hne
    simp only [searched] at he hr
    rw [he, hr, hi]

lemma values_block (u : Uppercase) (m : Message) (key : Key) (k : Text) :
    values u k (m.block u key) =
      if k = key.name.toList ∧ m.writes u key ∧ m.value key ≠ [] then
        [unquotePlus (m.value key)] else [] := by
  rw [block]
  by_cases h : m.writes u key = true ∧ m.value key ≠ []
  · rw [if_pos h, values_field]
    simp [h]
  · rw [if_neg h, if_neg fun hl => h hl.2]
    rfl

lemma given_of_nil (h : m.options.getD [] = []) : m.given = [] := by
  rw [given, h]
  rfl

lemma Flat.values_query (h : m.Flat) (key : Key) :
    values u key.name.toList (parseQsl (m.query u)) =
      (if m.writes u key ∧ m.value key ≠ [] then [unquotePlus (m.value key)] else []) ++
        values u key.name.toList m.given := by
  have hn (i : Key) : key.name.toList = i.name.toList ↔ key = i :=
    ⟨name_injective, fun heq => by rw [heq]⟩
  rw [h.parseQsl_query]
  split
  next hi =>
    rw [given_of_nil hi]
    simp only [values_append, values_block, hn]
    cases key <;> simp [values]
  · simp only [values_append, values_block, hn]
    cases key <;> simp

lemma Flat.values_query_other (h : m.Flat) (hk : ∀ key : Key, k ≠ key.name.toList) :
    values u k (parseQsl (m.query u)) = values u k m.given := by
  rw [h.parseQsl_query]
  split
  next hn =>
    rw [given_of_nil hn]
    simp [values_append, values_block, hk]
    rfl
  · simp [values_append, values_block, hk]

lemma Flat.hash_notMem_field (h : m.Flat) (key : Key) : '#' ∉ m.field key := by
  have hn : '#' ∉ key.name.toList := by cases key <;> decide +kernel
  rw [field, rawField, mem_append, mem_cons, not_or, not_or]
  exact ⟨hn, by decide, fun hm => (h.value key _ hm).2 rfl⟩

lemma Flat.hash_notMem_put (h : m.Flat) (key : Key) (ho : '#' ∉ options) :
    '#' ∉ m.put key options := by
  rw [put, mem_append, mem_cons, not_or, not_or]
  exact ⟨h.hash_notMem_field key, by decide, ho⟩

lemma Flat.hash_notMem_query (h : m.Flat) : '#' ∉ m.query u := by
  have hw (key : Key) {options : Text} (ho : '#' ∉ options) :
      '#' ∉ m.withWord key options := by
    rw [withWord]
    split
    · exact ho
    · exact h.hash_notMem_put key ho
  rw [query]
  split
  · rw [mem_append, not_or]
    refine ⟨h.hash_notMem_put .service (h.hash_notMem_field .request), ?_⟩
    split
    · exact not_mem_nil
    · rw [mem_cons, not_or]
      exact ⟨by decide, h.hash_notMem_field .version⟩
  · refine hw .version (hw .request ?_)
    have ho : '#' ∉ removeMark (m.options.getD []) := by
      rw [removeMark]
      split
      · exact fun hm => h.options (mem_of_mem_tail hm)
      · exact h.options
    rw [withService]
    split
    · exact h.hash_notMem_put .service ho
    · exact ho

lemma Flat.queryOf_rebuild (h : m.Flat) : queryOf (m.rebuild u) = m.query u := by
  have hh : ∀ c ∈ m.rebuild u, decide (c ≠ '#') := by
    intro c hc
    rw [rebuild, mem_append, mem_cons] at hc
    rcases hc with hc | rfl | hc
    · exact decide_eq_true (h.url c hc).2
    · rfl
    · exact decide_eq_true (ne_of_mem_of_not_mem hc h.hash_notMem_query)
  have hm : ∀ c ∈ m.url.getD [], decide (c ≠ '?') = true :=
    fun c hc => decide_eq_true (h.url c hc).1
  rw [queryOf, takeWhile_eq_self_iff.2 hh, rebuild, dropWhile_append_of_pos hm]
  rfl

lemma fallback_name (m : Message) (key : Key) :
    m.fallback key.name.toList = [m.value key].filter (· ≠ []) := by
  cases key with
  | service => simp [fallback, Key.name, value_service_ne_nil]
  | request | version => rfl

lemma prepend_eq_iff {w : Bool} {v x : Text} {vs : List Text} :
    ((if w ∧ v ≠ [] then [x] else []) ++ vs =
        if vs = [] then [v].filter (· ≠ []) else vs) ↔
      v = [] ∨ (w ↔ vs = []) ∧ (w → x = v) := by
  by_cases hv : v = []
  · simp [hv]
  · by_cases hvs : vs = []
    · cases w <;> simp [hv, hvs]
    · cases w <;> simp [hv, hvs]

/-- Letters of other alphabets are left as they are. -/
def ascii : Uppercase where
  upper := List.map Char.toUpper
  upper_ascii _ _ := rfl

def capabilities : Message where
  options := some "MAP=/world".toList
  service := []
  request := "GetCapabilities".toList
  url := some "/ows".toList

lemma flat_capabilities : capabilities.Flat where
  url c hc := by
    have hl : ("/ows".toList.all fun c => decide (c ≠ '?' ∧ c ≠ '#')) := by decide +kernel
    exact of_decide_eq_true (List.all_eq_true.1 hl c hc)
  options := by decide +kernel
  value key c hc := by
    have hl : ((capabilities.value key).all fun c => decide (c ≠ '&' ∧ c ≠ '#')) := by
      cases key <;> decide +kernel
    exact of_decide_eq_true (List.all_eq_true.1 hl c hc)

def requestsLayer : Message where
  options := some "SERVICE=WMS&LAYERS=REQUESTS".toList
  service := "WMS".toList
  request := "GetMap".toList

def lowerCase : Message where
  options := some "service=WMS&request=GetFeatureInfo".toList
  service := "WMS".toList
  request := "GetMap".toList

end Message
end QJazz.Rpc.Ows
