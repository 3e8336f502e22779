import Mathlib.Data.List.Nodup
import QJazz.Lexical.Glob

/-! A key is made of the job's identifier, its service and its realm, and every lookup is a glob
pattern on the keys. -/
namespace QJazz.Processes

open Lexical Glob List

/-- A record as the executor reads it. -/
structure TaskInfo where
  jobId : Text
  created : ℕ
  service : Text
  realm : Text
  processId : Text
  dismissed : Bool
  pendingTimeout : ℕ
  expires : ℕ
  tag : Text
  deriving DecidableEq

structure Record where
  jobId : Text
  service : Text
  realm : Option Text
  processId : Text
  created : ℕ
  expires : ℕ
  pendingTimeout : ℕ
  tag : Option Text
  dismissed : Bool
  deriving DecidableEq

def separator : Text := "::".toList

/-- How every key of the registry starts, up to the identifier of the job. -/
def keyStart : Text := "qjazz::".toList

def Record.key (e : Record) : Text :=
  keyStart ++ (e.jobId ++ (separator ++ (e.service ++ (separator ++ e.realm.getD "None".toList))))

def Record.unmarked (e : Record) : Record := { e with dismissed := false }

def Record.decode (e : Record) : TaskInfo where
  jobId := e.jobId
  created := e.created
  service := e.service
  realm := e.realm.getD []
  processId := e.processId
  dismissed := e.dismissed
  pendingTimeout := e.pendingTimeout
  expires := e.expires
  tag := e.tag.getD []

/-- The time, in seconds, up to which Redis keeps the record. -/
def Record.expireAt (e : Record) : ℕ := e.created + e.expires + e.pendingTimeout

structure Registry where
  records : List Record
  nodup : (records.map Record.key).Nodup
  deriving DecidableEq

/-- A missing or empty filter is the pattern `*`. -/
def orStar : Option Text → Text
  | none | some [] => ['*']
  | some (c :: text) => c :: text

def findPattern (jobId : Text) (realm : Option Text) : Text :=
  keyStart ++ (jobId ++ (separator ++ ('*' :: separator ++ orStar realm)))

def jobPattern (jobId : Text) : Text := keyStart ++ (jobId ++ (separator ++ ['*']))

def existsPattern (jobId : Text) (service : Option Text) : Text :=
  keyStart ++ (jobId ++ (separator ++ orStar service))

def listPattern (service realm : Option Text) : Text :=
  keyStart ++ ('*' :: separator ++ (orStar service ++ (separator ++ orStar realm)))

def splitSeparator : Text → List Text
  | [] => [[]]
  | ':' :: ':' :: s => [] :: splitSeparator s
  | c :: s => (splitSeparator s).modifyHead (c :: ·)

namespace Registry

variable (r : Registry) (jobId : Text)

def keys (pattern : Text) : List Record := r.records.filter fun e => globMatch pattern e.key

def register (e : Record) : Registry where
  records :=
    if e.key ∈ r.records.map Record.key then r.records.map fun f => if f.key = e.key then e else f
    else r.records ++ [e]
  nodup := by
    split
    · have hkeys : (r.records.map fun f => if f.key = e.key then e else f).map Record.key =
          r.records.map Record.key := by
        rw [List.map_map]
        refine List.map_congr_left fun f _ => ?_
        by_cases h : f.key = e.key
        · rw [Function.comp_apply, if_pos h, h]
        · rw [Function.comp_apply, if_neg h]
      exact hkeys ▸ r.nodup
    · next h =>
      rw [List.map_append, List.map_singleton]
      exact List.nodup_append.2 ⟨r.nodup, List.nodup_singleton _, fun a ha b hb =>
        fun hab => h (List.mem_singleton.1 hb ▸ hab ▸ ha)⟩

def hsetDismissed (key : Text) (dismissed : Bool) : Registry where
  records := r.records.map fun e => if e.key = key then { e with dismissed } else e
  nodup := by
    have hkeys : (r.records.map fun e => if e.key = key then { e with dismissed } else e).map
        Record.key = r.records.map Record.key := by
      rw [List.map_map]
      refine List.map_congr_left fun e _ => ?_
      rw [Function.comp_apply]
      split <;> rfl
    exact hkeys ▸ r.nodup

def filter (p : Record → Bool) : Registry where
  records := r.records.filter p
  nodup := r.nodup.sublist (List.filter_sublist.map _)

def findJob (realm : Option Text) : Option TaskInfo :=
  (r.keys (findPattern jobId realm)).head?.map Record.decode

def findKeys (service realm : Option Text) : List (List Text) :=
  (r.keys (listPattern service realm)).map fun e => ((splitSeparator e.key).drop 1).take 3

def dismiss (reset : Bool) : Bool × Registry :=
  match r.keys (jobPattern jobId) with
  | [] => (false, r)
  | e :: _ => (true, r.hsetDismissed e.key !reset)

def delete : ℕ × Registry :=
  match r.keys (jobPattern jobId) with
  | [] => (0, r)
  | e :: es => (1, r.filter fun f => decide (f.key ∉ (e :: es).map Record.key))

def existsJob (service : Option Text) : Bool := !(r.keys (existsPattern jobId service)).isEmpty

def liveAt (now : ℕ) : Registry := r.filter fun e => decide (now ≤ 1000 * e.expireAt)

variable {r jobId} {e : Record} {key p : Text} {realm s : Option Text} {reset : Bool}

lemma mem_keys : e ∈ r.keys p ↔ e ∈ r.records ∧ globMatch p e.key = true := List.mem_filter

lemma exists_of_findJob {info : TaskInfo} (h : r.findJob jobId realm = some info) :
    ∃ e ∈ r.records, globMatch (findPattern jobId realm) e.key ∧ e.decode = info := by
  obtain ⟨e, he, hi⟩ := Option.map_eq_some_iff.1 h
  obtain ⟨hme, hm⟩ := mem_keys.1 (mem_of_head? he)
  exact ⟨e, hme, hm, hi⟩

lemma existsJob_iff : r.existsJob jobId s ↔
    ∃ e ∈ r.records, globMatch (existsPattern jobId s) e.key = true := by
  simp only [existsJob, Bool.not_eq_true', isEmpty_eq_false_iff_exists_mem, mem_keys]

lemma mem_filter {p : Record → Bool} : e ∈ (r.filter p).records ↔ e ∈ r.records ∧ p e = true :=
  List.mem_filter

lemma mem_liveAt {now : ℕ} : e ∈ (r.liveAt now).records ↔ e ∈ r.records ∧ now ≤ 1000 * e.expireAt := by
  rw [liveAt, mem_filter, decide_eq_true_eq]

lemma eq_of_key_eq {f : Record} (he : e ∈ r.records) (hf : f ∈ r.records) (h : e.key = f.key) : e = f :=
  inj_on_of_nodup_map r.nodup he hf h

lemma mem_register {f : Record} :
    f ∈ (r.register e).records ↔ f = e ∨ f ∈ r.records ∧ f.key ≠ e.key := by
  rw [register]
  split
  · next h =>
    obtain ⟨g, hg, hk⟩ := List.mem_map.1 h
    rw [List.mem_map]
    constructor
    · rintro ⟨f', hf', rfl⟩
      by_cases hne : f'.key = e.key
      · exact Or.inl (if_pos hne)
      · rw [if_neg hne]
        exact Or.inr ⟨hf', hne⟩
    · rintro (rfl | ⟨hf, hne⟩)
      · exact ⟨g, hg, if_pos hk⟩
      · exact ⟨f, hf, if_neg hne⟩
  · next h =>
    rw [mem_append, mem_singleton, or_comm]
    refine or_congr_right ⟨fun hf => ⟨hf, fun hk => h ?_⟩, And.left⟩
    exact hk ▸ List.mem_map_of_mem hf

lemma map_unmarked_hsetDismissed {d : Bool} :
    (r.hsetDismissed key d).records.map Record.unmarked = r.records.map Record.unmarked := by
  rw [hsetDismissed, List.map_map]
  refine map_congr_left fun f _ => ?_
  rw [Function.comp_apply]
  split <;> rfl

lemma map_unmarked_dismiss :
    (r.dismiss jobId reset).2.records.map Record.unmarked = r.records.map Record.unmarked := by
  rw [dismiss]
  split
  · rfl
  · exact map_unmarked_hsetDismissed

lemma mem_hsetDismissed_of_ne {d : Bool} (hne : e.key ≠ key) :
    e ∈ (r.hsetDismissed key d).records ↔ e ∈ r.records := by
  rw [hsetDismissed, List.mem_map]
  constructor
  · rintro ⟨f, hf, rfl⟩
    by_cases hk : f.key = key
    · rw [if_pos hk] at hne
      exact absurd hk hne
    · rwa [if_neg hk]
  · exact fun h => ⟨e, h, if_neg hne⟩

lemma mem_dismiss (hm : globMatch (jobPattern jobId) e.key ≠ true) :
    e ∈ (r.dismiss jobId reset).2.records ↔ e ∈ r.records := by
  rw [dismiss]
  split
  · exact Iff.rfl
  · next f fs hk =>
    have hf : f ∈ r.keys (jobPattern jobId) := hk ▸ mem_cons_self
    refine mem_hsetDismissed_of_ne fun he => hm ?_
    rw [he]
    exact (mem_keys.1 hf).2

lemma mem_delete : e ∈ (r.delete jobId).2.records ↔
    e ∈ r.records ∧ globMatch (jobPattern jobId) e.key ≠ true := by
  have hk : e.key ∈ (r.keys (jobPattern jobId)).map Record.key ↔
      e.key ∈ r.records.map Record.key ∧ globMatch (jobPattern jobId) e.key = true := by
    simp only [List.mem_map, mem_keys]
    constructor
    · rintro ⟨f, ⟨hf, hm⟩, hy⟩
      exact ⟨⟨f, hf, hy⟩, hy ▸ hm⟩
    · rintro ⟨⟨f, hf, hy⟩, hm⟩
      exact ⟨f, ⟨hf, hy ▸ hm⟩, hy⟩
  rw [delete]
  split
  · next h =>
    rw [h, map_nil, iff_false_left not_mem_nil] at hk
    constructor
    · exact fun he => ⟨he, fun hm => hk ⟨List.mem_map_of_mem he, hm⟩⟩
    · exact And.left
  · next f fs h =>
    rw [h] at hk
    rw [filter, List.mem_filter, decide_eq_true_eq, hk]
    constructor
    · rintro ⟨he, hno⟩
      exact ⟨he, fun hm => hno ⟨List.mem_map_of_mem he, hm⟩⟩
    · rintro ⟨he, hno⟩
      exact ⟨he, fun hm => hno hm.2⟩

end Registry

/-- The identifier stands for itself in a pattern and has no part of a separator. -/
def PlainId (jobId : Text) : Prop := ∀ c ∈ jobId, isPlain c = true ∧ c ≠ ':'

instance (jobId : Text) : Decidable (PlainId jobId) :=
  List.decidableBAll (fun c => isPlain c = true ∧ c ≠ ':') jobId

lemma isPlain_keyStart : ∀ c ∈ keyStart, isPlain c = true := List.all_eq_true.1 rfl

lemma isPlain_separator : ∀ c ∈ separator, isPlain c = true := List.all_eq_true.1 rfl

lemma PlainId.notMem {jobId : Text} (h : PlainId jobId) : ':' ∉ jobId := fun hc => (h _ hc).2 rfl

lemma append_separator_inj {s t x y : Text} (hs : ':' ∉ s) (ht : ':' ∉ t) :
    s ++ (separator ++ x) = t ++ (separator ++ y) ↔ s = t ∧ x = y := by
  constructor
  · intro h
    induction s generalizing t with
    | nil =>
      cases t with
      | nil => exact ⟨rfl, append_cancel_left h⟩
      | cons d t =>
        have hd : d = ':' := (List.cons.inj h).1.symm
        exact absurd (hd ▸ mem_cons_self) ht
    | cons c s ih =>
      cases t with
      | nil =>
        have hc : c = ':' := (List.cons.inj h).1
        exact absurd (hc ▸ mem_cons_self) hs
      | cons d t =>
        obtain ⟨rfl, hr⟩ := List.cons.inj h
        obtain ⟨rfl, hxy⟩ := ih (not_mem_of_not_mem_cons hs) (not_mem_of_not_mem_cons ht) hr
        exact ⟨rfl, hxy⟩
  · rintro ⟨rfl, rfl⟩
    rfl

lemma jobId_eq_of_key_eq {e f : Record} (he : ':' ∉ e.jobId) (hf : ':' ∉ f.jobId)
    (h : e.key = f.key) : e.jobId = f.jobId :=
  ((append_separator_inj he hf).1 (append_cancel_left h)).1

section PlainId

variable {jobId q : Text} {e : Record} (hid : PlainId jobId) (hcolon : ':' ∉ e.jobId)
include hid hcolon

lemma globMatch_plainId : globMatch (keyStart ++ (jobId ++ (separator ++ q))) e.key ↔
    e.jobId = jobId ∧
      globMatch q (e.service ++ (separator ++ e.realm.getD "None".toList)) = true := by
  have hp : ∀ c ∈ keyStart ++ (jobId ++ separator), isPlain c := by
    intro c hc
    rw [mem_append, mem_append] at hc
    obtain hc | hc | hc := hc
    · exact isPlain_keyStart c hc
    · exact (hid c hc).1
    · exact isPlain_separator c hc
  rw [← append_assoc jobId, ← append_assoc keyStart, globMatch_plain_append hp, Record.key]
  simp only [append_assoc, append_cancel_left_eq, append_separator_inj hcolon hid.notMem]
  constructor
  · rintro ⟨t, ⟨hj, rfl⟩, hm⟩
    exact ⟨hj, hm⟩
  · rintro ⟨hj, hm⟩
    exact ⟨_, ⟨hj, rfl⟩, hm⟩

lemma globMatch_jobPattern : globMatch (jobPattern jobId) e.key ↔ e.jobId = jobId := by
  rw [jobPattern, globMatch_plainId hid hcolon, and_iff_left]
  exact globMatch_star_cons.2 ⟨_, [], (append_nil _).symm, globMatch_nil.2 rfl⟩

lemma globMatch_findPattern : globMatch (findPattern jobId none) e.key ↔ e.jobId = jobId := by
  rw [findPattern, globMatch_plainId hid hcolon, and_iff_left]
  refine globMatch_star_cons.2 ⟨e.service, _, rfl, ?_⟩
  refine (globMatch_plain_append isPlain_separator).2 ⟨_, rfl, ?_⟩
  exact globMatch_star_cons.2 ⟨_, [], (append_nil _).symm, globMatch_nil.2 rfl⟩

end PlainId

namespace Registry

variable {r : Registry} {jobId : Text} (hid : PlainId jobId) (hcolon : ∀ e ∈ r.records, ':' ∉ e.jobId)
include hid hcolon

lemma findJob_plainId : r.findJob jobId none =
    (r.records.find? fun e => decide (e.jobId = jobId)).map Record.decode := by
  have hf : r.keys (findPattern jobId none) =
      r.records.filter fun e => decide (e.jobId = jobId) := by
    refine filter_congr fun e he => ?_
    rw [Bool.eq_iff_iff, globMatch_findPattern hid (hcolon e he), decide_eq_true_eq]
  rw [findJob, hf, List.head?_filter]

lemma existsJob_plainId : r.existsJob jobId none ↔ ∃ e ∈ r.records, e.jobId = jobId := by
  rw [existsJob_iff]
  refine exists_congr fun e => and_congr_right fun he => ?_
  exact globMatch_jobPattern hid (hcolon e he)

end Registry

/-- The identifiers are those that Celery generates: plain, and each used once. -/
structure Registry.Generated (r : Registry) : Prop where
  plain : ∀ e ∈ r.records, PlainId e.jobId
  nodup : (r.records.map Record.jobId).Nodup

namespace Registry.Generated

variable {r : Registry} {e f : Record} (h : r.Generated)
include h

lemma eq_of_jobId (he : e ∈ r.records) (hf : f ∈ r.records) (hid : e.jobId = f.jobId) : e = f :=
  inj_on_of_nodup_map h.nodup he hf hid

lemma findJob_jobId (he : e ∈ r.records) : r.findJob e.jobId none = some e.decode := by
  have hcolon : ∀ f ∈ r.records, ':' ∉ f.jobId := fun f hf => (h.plain f hf).notMem
  rw [findJob_plainId (h.plain e he) hcolon]
  cases hi : r.records.find? fun f => decide (f.jobId = e.jobId) with
  | none => exact absurd (decide_eq_true rfl) (List.find?_eq_none.1 hi e he)
  | some f =>
    have hid : f.jobId = e.jobId := by simpa using List.find?_some hi
    rw [h.eq_of_jobId (List.mem_of_find?_eq_some hi) he hid]
    rfl

end Registry.Generated

end QJazz.Processes
