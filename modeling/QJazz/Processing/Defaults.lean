import Mathlib.Data.List.Dedup
import Mathlib.Data.List.GetD
import QJazz.Lexical.PosixPath
import QJazz.Python.Generator

/-! The description of an input advertises the default of its parameter, and a client may send it
back as the value. -/
namespace QJazz.Processing

open Lexical Python List

inductive DescribeError where
  | noOptions
  | invalidDefault
  | outOfRange
  | invalidColor

/-- The description is built, and what it advertises is accepted and means the default. -/
def Usable {α β : Type*} (describe : Except DescribeError (Option α)) (value : α → Option β)
    (Meant : β → Prop) : Prop :=
  ∃ adv, describe = .ok adv ∧ ∀ a ∈ adv, ∃ b, value a = some b ∧ Meant b

inductive Choice (α : Type*) where
  | one (a : α)
  | many (as : List α)

inductive EnumDefault where
  | text (s : Text)
  | texts (ts : List Text)
  | index (k : ℕ)
  | indexes (ks : List ℕ)

def EnumDefault.isIndex : EnumDefault → Bool
  | .index _ => true
  | _ => false

inductive Pick where
  | text (t : Text)
  | index (k : ℕ)

structure EnumParam where
  options : List Text
  allowMultiple : Bool
  usesStaticStrings : Bool
  default : Option EnumDefault

namespace EnumParam

variable (p : EnumParam)

def option (k : ℕ) : Text := p.options.getD k []

def picks : EnumDefault → List Pick
  | .text s => if p.allowMultiple then (s.splitOn ',').map .text else [.text s]
  | .texts ts => ts.map .text
  | .index k => [.index k]
  | .indexes ks => ks.map .index

def textOf : Pick → Text
  | .text t => t
  | .index k => p.option k

def InRange : Pick → Prop
  | .text _ => True
  | .index k => k < p.options.length

instance (x : Pick) : Decidable (p.InRange x) :=
  match x with
  | .text _ => instDecidableTrue
  | .index _ => Nat.decLt _ _

/-- The default of `create_model`. An empty list is refused, one index is one option, and the order of
a set is not fixed. -/
def advertise (d : EnumDefault) : Except DescribeError (Choice Text) :=
  match p.picks d with
  | [] => .error .invalidDefault
  | x :: xs =>
    if p.allowMultiple = true ∧ d.isIndex = false then
      if ∀ y ∈ x :: xs, p.InRange y then .ok (.many ((x :: xs).map p.textOf).dedup)
      else .error .outOfRange
    else if p.InRange x then .ok (.one (p.textOf x))
    else .error .outOfRange

def createModel : Except DescribeError (Option (Choice Text)) :=
  if p.options = [] then .error .noOptions
  else
    match p.default with
    | none => .ok none
    | some d => (p.advertise d).map some

def convert (t : Text) : Pick :=
  if p.usesStaticStrings then .text t else .index (p.options.idxOf t)

def value : Choice Text → Option (Choice Pick)
  | .one t => if p.allowMultiple = false ∧ t ∈ p.options then some (.one (p.convert t)) else none
  | .many ts =>
    if p.allowMultiple = true ∧ ∀ t ∈ ts, t ∈ p.options then some (.many (ts.map p.convert)) else none

def meant : Pick → Pick
  | .text t => p.convert t
  | .index k => if p.usesStaticStrings then .text (p.option k) else .index k

/-- A default means its first option, or the set of its options. -/
def Meant (d : EnumDefault) : Choice Pick → Prop
  | .one v => p.allowMultiple = false ∧ ((p.picks d).head?.map p.meant) = some v
  | .many vs => p.allowMultiple = true ∧ ∀ v, v ∈ vs ↔ v ∈ (p.picks d).map p.meant

def Usable : Prop :=
  Processing.Usable p.createModel p.value fun c => ∃ d ∈ p.default, p.Meant d c

def Found : Pick → Prop
  | .text t => t ∈ p.options
  | .index k => k < p.options.length ∧ (p.usesStaticStrings = true ∨ p.options.idxOf (p.option k) = k)

/-- One index is no set, and an empty list is refused. -/
def SoundDefault (d : EnumDefault) : Prop :=
  p.picks d ≠ [] ∧ (d.isIndex = true → p.allowMultiple = false) ∧
    ∀ x ∈ (if p.allowMultiple then p.picks d else (p.picks d).take 1), p.Found x

def Sound : Prop := p.options ≠ [] ∧ ∀ d ∈ p.default, p.SoundDefault d

variable {p} {d : EnumDefault} {x : Pick} {xs : List Pick} {c : Choice Text}

lemma option_mem {k : ℕ} (h : k < p.options.length) : p.option k ∈ p.options := by
  rw [option, getD_eq_getElem _ _ h]
  exact getElem_mem h

lemma found_iff : p.Found x ↔ p.InRange x ∧ p.textOf x ∈ p.options ∧
    p.convert (p.textOf x) = p.meant x := by
  cases x with
  | text t => simp [Found, InRange, textOf, meant]
  | index k =>
    rw [Found, InRange, textOf, convert, meant]
    constructor
    · rintro ⟨hk, h⟩
      refine ⟨hk, option_mem hk, ?_⟩
      split
      · rfl
      next hs => rw [h.resolve_left hs]
    · rintro ⟨hk, -, h⟩
      refine ⟨hk, ?_⟩
      split at h
      next hs => exact .inl hs
      · exact .inr (Pick.index.inj h)

lemma found_of_set {ts : List Text} (ht : ∀ t, t ∈ ts ↔ t ∈ xs.map p.textOf)
    (hx : ∀ x ∈ xs, p.InRange x) :
    ((∀ t ∈ ts, t ∈ p.options) ∧ ∀ v, v ∈ ts.map p.convert ↔ v ∈ xs.map p.meant) ↔
      ∀ x ∈ xs, p.Found x := by
  constructor
  · rintro ⟨ho, hv⟩ x hm
    have hi := ho _ ((ht _).2 (List.mem_map_of_mem hm))
    have hj := (hv (p.meant x)).2 (List.mem_map_of_mem hm)
    refine found_iff.2 ⟨hx x hm, hi, ?_⟩
    cases x with
    | text t => rfl
    | index k =>
      obtain ⟨t, hi, he⟩ := List.mem_map.1 hj
      rw [convert, meant] at he ⊢
      split at he
      next hs => rw [if_pos hs, if_pos hs, textOf]
      next hs =>
        rw [if_neg hs, if_neg hs, textOf, ← Pick.index.inj he, option, getD_eq_getElem _ _ (idxOf_lt_length_of_mem (ho t hi)), getElem_idxOf]
  · intro h
    have hf (x : Pick) (hm : x ∈ xs) := found_iff.1 (h x hm)
    have he : ∀ t ∈ ts, ∃ x ∈ xs, p.textOf x = t := fun t hi => List.mem_map.1 ((ht t).1 hi)
    refine ⟨fun t hi => ?_, fun v => ?_⟩
    · obtain ⟨x, hm, rfl⟩ := he t hi
      exact (hf x hm).2.1
    · rw [List.mem_map, List.mem_map]
      constructor
      · rintro ⟨t, hi, rfl⟩
        obtain ⟨x, hm, rfl⟩ := he t hi
        exact ⟨x, hm, (hf x hm).2.2.symm⟩
      · rintro ⟨x, hm, rfl⟩
        exact ⟨_, (ht _).2 (List.mem_map_of_mem hm), (hf x hm).2.2⟩

lemma exists_of_ite {q : Prop} [Decidable q] {e : DescribeError} {P : Choice Text → Prop} :
    (∃ a, (if q then .ok c else .error e : Except DescribeError (Choice Text)) = .ok a ∧ P a) ↔
      q ∧ P c := by
  split <;> simp [*]

lemma sendable_one (h : p.picks d = x :: xs) :
    (∃ b, p.value (.one (p.textOf x)) = some b ∧ p.Meant d b) ↔
      p.allowMultiple = false ∧ p.textOf x ∈ p.options ∧ p.convert (p.textOf x) = p.meant x := by
  rw [value]
  split
  next hv => simp [Meant, h, hv.1, hv.2, eq_comm]
  next hv =>
    refine iff_of_false (by simp) ?_
    rintro ⟨hm, ho, -⟩
    exact hv ⟨hm, ho⟩

lemma sendable_many {ts : List Text} : (∃ b, p.value (.many ts) = some b ∧ p.Meant d b) ↔
      p.allowMultiple ∧ (∀ t ∈ ts, t ∈ p.options) ∧
        ∀ v, v ∈ ts.map p.convert ↔ v ∈ (p.picks d).map p.meant := by
  rw [value]
  split
  next hv =>
    constructor
    · rintro ⟨b, hb, h⟩
      cases hb
      exact ⟨hv.1, hv.2, h.2⟩
    · rintro ⟨hm, -, h⟩
      exact ⟨_, rfl, hm, h⟩
  next hv =>
    refine iff_of_false (by simp) ?_
    rintro ⟨hm, ho, -⟩
    exact hv ⟨hm, ho⟩

lemma usable_of_default (hp : p.default = some d) (ho : p.options ≠ []) :
    p.Usable ↔ ∃ a, p.advertise d = .ok a ∧ ∃ b, p.value a = some b ∧ p.Meant d b := by
  rw [Usable, Processing.Usable, createModel, if_neg ho, hp]
  cases ha : p.advertise d with
  | error e => simp [Except.map, ha]
  | ok a => simp [Except.map, ha]

lemma soundDefault_iff (ho : p.options ≠ []) (hp : p.default = some d) :
    p.Usable ↔ p.SoundDefault d := by
  rw [usable_of_default hp ho, advertise, SoundDefault]
  cases hk : p.picks d with
  | nil => simp
  | cons x xs =>
    by_cases hm : p.allowMultiple = true ∧ d.isIndex = false
    · dsimp only
      rw [if_pos hm, exists_of_ite, sendable_many, hk, if_pos hm.1]
      constructor
      · rintro ⟨hr, -, h⟩
        exact ⟨by simp, by simp [hm.2], (found_of_set (fun _ => mem_dedup) hr).1 h⟩
      · rintro ⟨-, -, h⟩
        have hr := fun x hx => (found_iff.1 (h x hx)).1
        exact ⟨hr, hm.1, (found_of_set (fun _ => mem_dedup) hr).2 h⟩
    · dsimp only
      rw [if_neg hm, exists_of_ite, sendable_one hk]
      cases ha : p.allowMultiple with
      | false => simp [found_iff]
      | true => simp_all

lemma usable_iff : p.Usable ↔ p.Sound := by
  rw [Sound]
  by_cases ho : p.options = []
  · refine iff_of_false (fun ⟨a, ha, _⟩ => ?_) fun h => h.1 ho
    rw [createModel, if_pos ho] at ha
    cases ha
  · cases hp : p.default with
    | none =>
      refine iff_of_true ⟨none, ?_, by simp⟩ ⟨ho, by simp⟩
      rw [createModel, if_neg ho, hp]
    | some d =>
      rw [soundDefault_iff ho hp]
      simp [ho]

end EnumParam

structure QColor where
  red : Fin 65536
  green : Fin 65536
  blue : Fin 65536
  alpha : Fin 65536

/-- What the text of a colour has: eight bits per channel. -/
structure Rgba where
  red : ℕ
  green : ℕ
  blue : ℕ
  alpha : ℕ

inductive ColorDefault where
  | text (s : Text)
  | color (c : Option QColor)

structure ColorParam where
  opacityEnabled : Bool
  default : Option ColorDefault

/-- The rounded opacity. One below 1e-4 is written with an exponent, which is not read. -/
def QColor.write (c : QColor) : Except DescribeError Rgba :=
  if 0 < c.alpha.val ∧ c.alpha.val < 7 then .error .invalidColor
  else .ok ⟨c.red / 256, c.green / 256, c.blue / 256, (2 * c.alpha + 257) / 514⟩

namespace ColorParam

local instance : @NeZero ℕ Zero.ofOfNat0 65536 := ⟨by decide⟩

variable (parseColor : Text → Option QColor) (p : ColorParam)

def color : ColorDefault → Option QColor
  | .text s => parseColor s
  | .color c => c

def createModel : Except DescribeError (Option Rgba) :=
  match p.default with
  | none => .error .invalidDefault
  | some d =>
    match color parseColor d with
    | none => .ok none
    | some c => c.write.map some

def value (v : Rgba) : Option QColor :=
  some ⟨.ofNat _ (257 * v.red), .ofNat _ (257 * v.green), .ofNat _ (257 * v.blue),
    if p.opacityEnabled then .ofNat _ (257 * v.alpha) else .last _⟩

/-- Without opacity a colour is opaque. -/
def meant (c : QColor) : QColor := if p.opacityEnabled then c else { c with alpha := .last _ }

def Usable : Prop :=
  Processing.Usable (p.createModel parseColor) p.value fun v =>
    ∃ d ∈ p.default, (color parseColor d).map p.meant = some v

/-- Each channel has eight bits, up to an opacity that is not enabled. -/
def Narrow (c : QColor) : Prop :=
  (257 ∣ c.red.val ∧ 257 ∣ c.green.val ∧ 257 ∣ c.blue.val) ∧
    if p.opacityEnabled then 257 ∣ c.alpha.val else ¬ (0 < c.alpha.val ∧ c.alpha.val < 7)

def Sound : Prop := ∃ d ∈ p.default, ∀ c ∈ color parseColor d, p.Narrow c

variable {parseColor} {p}

lemma channel_iff (n : Fin 65536) : Fin.ofNat 65536 (257 * (n / 256)) = n ↔ 257 ∣ n.val := by
  have hn := n.isLt
  rw [Fin.ext_iff, Fin.val_ofNat, Nat.mod_eq_of_lt (by omega)]
  omega

lemma alpha_iff (n : Fin 65536) :
    Fin.ofNat 65536 (257 * ((2 * n + 257) / 514)) = n ↔ 257 ∣ n.val := by
  have hn := n.isLt
  rw [Fin.ext_iff, Fin.val_ofNat, Nat.mod_eq_of_lt (by omega)]
  omega

lemma narrow_iff {c : QColor} :
    (∃ v, c.write = .ok v ∧ p.value v = some (p.meant c)) ↔ p.Narrow c := by
  rw [QColor.write, Narrow]
  split
  next h =>
    refine iff_of_false (by simp) fun hn => ?_
    have ha := hn.2
    split at ha
    · omega
    · exact ha h
  next h =>
    simp only [Except.ok.injEq, exists_eq_left', value, meant, Option.some.injEq]
    split
    · rw [QColor.mk.injEq, channel_iff, channel_iff, channel_iff, alpha_iff, and_assoc, and_assoc]
    · rw [QColor.mk.injEq, channel_iff, channel_iff, channel_iff]
      simp only [h, not_false_eq_true, and_true]

lemma usable_iff : p.Usable parseColor ↔ p.Sound parseColor := by
  rw [Usable, Processing.Usable, Sound]
  cases hp : p.default with
  | none => simp [createModel, hp]
  | some d =>
    cases hc : color parseColor d with
    | none => simp [createModel, hp, hc]
    | some c =>
      have he : p.createModel parseColor = c.write.map some := by simp [createModel, hp, hc]
      rw [he]
      cases hw : c.write with
      | error e => simp [Except.map, hc, ← narrow_iff, hw]
      | ok v => simp [Except.map, hc, ← narrow_iff, hw, eq_comm]

end ColorParam

/-- A default that is not empty has the cells of whole rows, as many as are fixed. -/
structure MatrixParam (α : Type) where
  headers : ℕ
  fixedRows : Option ℕ
  default : List α
  consistent : default ≠ [] →
    ∃ m n, default.length = m * n ∧ (headers ≠ 0 → n = headers) ∧ ∀ r ∈ fixedRows, m = r

inductive MatrixInput (α : Type) where
  | rows (rs : List (List α))
  | flat (l : List α)

namespace MatrixParam

variable {α : Type} (p : MatrixParam α)

def cols : ℕ := if p.headers ≠ 0 then p.headers else p.default.length / p.fixedRows.getD 0

def getDefaultValue : Option (MatrixInput α) :=
  if p.default = [] then none
  else if p.cols ≠ 0 then some (.rows (slices p.cols p.default))
  else some (.flat p.default)

def value : MatrixInput α → Option (List α)
  | .rows rs =>
    if (p.headers ≠ 0 → ∀ r ∈ rs, r.length = p.headers) ∧ ∀ n ∈ p.fixedRows, rs.length = n then
      some rs.flatten
    else none
  | .flat _ => none

def Usable : Prop := Processing.Usable (.ok p.getDefaultValue) p.value (· = p.default)

def Sound : Prop := p.default = [] ∨ p.headers ≠ 0 ∨ p.fixedRows ≠ none

variable {p}

lemma usable_iff : p.Usable ↔ p.Sound := by
  rw [Usable, Processing.Usable, getDefaultValue, Sound]
  by_cases hd : p.default = []
  · simp [hd]
  · obtain ⟨m, n, hl, hh, hr⟩ := p.consistent hd
    have hp : 0 < m * n := hl ▸ length_pos_iff.2 hd
    have hn : 0 < n := Nat.pos_of_mul_pos_left hp
    have hm : 0 < m := Nat.pos_of_mul_pos_right hp
    rw [if_neg hd]
    by_cases hc : p.headers ≠ 0 ∨ p.fixedRows ≠ none
    · have he : p.cols = n := by
        rw [cols]
        split
        next h => exact (hh h).symm
        next h =>
          obtain ⟨r, hi⟩ := Option.ne_none_iff_exists'.1 (hc.resolve_left h)
          rw [hi, hl, hr r hi]
          exact Nat.mul_div_cancel_left n (hr r hi ▸ hm)
      refine iff_of_true ⟨_, rfl, fun a ha => ?_⟩ (.inr hc)
      rw [he, if_pos hn.ne'] at ha
      cases ha
      refine ⟨_, if_pos ⟨fun h s hs => ?_, fun r hi => ?_⟩, flatten_slices hn⟩
      · exact (length_of_mem_slices hn hl hs).trans (hh h)
      · exact (length_slices hn hl).trans (hr r hi)
    · obtain ⟨hz, hi⟩ := not_or.1 hc
      have he : p.cols = 0 := by
        rw [cols, if_neg hz, not_not.1 hi]
        exact Nat.div_zero _
      refine iff_of_false ?_ (by simp [hd, hc])
      rintro ⟨a, ha, h⟩
      rw [he] at ha
      cases ha
      obtain ⟨b, hb, -⟩ := h _ rfl
      cases hb

end MatrixParam

theorem usable_iff_sound (parseColor : Text → Option QColor) :
    (∀ p : EnumParam, p.Usable ↔ p.Sound) ∧
      (∀ p : ColorParam, p.Usable parseColor ↔ p.Sound parseColor) ∧
        ∀ (α : Type) (p : MatrixParam α), p.Usable ↔ p.Sound :=
  ⟨fun _ => EnumParam.usable_iff, fun _ => ColorParam.usable_iff, fun _ _ => MatrixParam.usable_iff⟩

/-- An empty list of indexes and a colour without default are refused. One index of several options
is advertised as a text, and a matrix without headers and number of rows as a flat list. -/
theorem not_usable : ¬ EnumParam.Usable ⟨[['a']], true, false, some (.indexes [])⟩ ∧
      ¬ EnumParam.Usable ⟨[['a']], true, false, some (.index 0)⟩ ∧
        ¬ ColorParam.Usable (fun _ => none) ⟨false, none⟩ ∧ ¬ MatrixParam.Usable
            (⟨0, none, [1, 2], fun _ => ⟨1, 2, rfl, absurd rfl, fun r h =>
              absurd h (Option.not_mem_none r)⟩⟩ : MatrixParam ℕ) := by
  refine ⟨?_, ?_, ?_, ?_⟩
  · rintro ⟨a, ha, -⟩
    cases ha
  · rintro ⟨a, ha, h⟩
    cases ha
    obtain ⟨b, hb, -⟩ := h _ rfl
    cases hb
  · rintro ⟨a, ha, -⟩
    cases ha
  · rintro ⟨a, ha, h⟩
    cases ha
    obtain ⟨b, hb, -⟩ := h _ rfl
    cases hb

end QJazz.Processing
