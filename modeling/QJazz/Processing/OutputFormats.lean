import Mathlib.Logic.Function.Basic
import QJazz.Processing.FileOutputs

/-! Each of the two setters derives the other field from the table of media types, and a definition
may be copied from another one. -/
namespace QJazz.Processing

open Lexical List

/-- The extensions and media types that `mimetypes.add_type` was given, in this order, and `str.lower`. -/
structure MediaTypes where
  added : List (Text × Text)
  lower : Text → Text

namespace MediaTypes

variable (m : MediaTypes)

def typesMap (ext : Text) : Option Text := m.added.reverse.lookup ext

def guessExtension (type : Text) : Option Text :=
  (m.added.find? fun entry => entry.2 = m.lower type).map Prod.fst

def Associates (type ext : Text) : Prop :=
  ext ≠ [] ∧ ((ext, type) ∈ m.added ∨ (ext, m.lower type) ∈ m.added)

/-- The media types from which the setter gets an extension. -/
def Guessed (type : Text) : Prop := ∃ ext, m.guessExtension type = some ext ∧ ext ≠ []

lemma mem_of_typesMap {e t : Text} (h : m.typesMap e = some t) : (e, t) ∈ m.added := by
  obtain ⟨l, r, hl, -⟩ := lookup_eq_some_iff.1 h
  exact mem_reverse.1 (hl ▸ mem_append_right l mem_cons_self)

lemma mem_of_guessExtension {e t : Text} (h : m.guessExtension t = some e) :
    (e, m.lower t) ∈ m.added := by
  obtain ⟨⟨e', t'⟩, hf, rfl⟩ := Option.map_eq_some_iff.1 h
  have ht : t' = m.lower t := by simpa using List.find?_some hf
  exact ht ▸ List.mem_of_find?_eq_some hf

end MediaTypes

namespace OutputFormatDefinition

variable (m : MediaTypes) (d : OutputFormatDefinition)

/-- The setter of `output_format`. For the generic format it assigns an attribute `extension`, which is
not the one that is read. -/
def setFormat (value : Text) : OutputFormatDefinition :=
  if value = anyFormat then { d with outputFormat := value }
  else { outputFormat := value, outputExt := (m.guessExtension value).getD [] }

def Consistent : Prop :=
  d.outputFormat = anyFormat ∧
      (d.outputExt = [] ∨ (m.typesMap d.outputExt).filter (· ≠ []) = none) ∨
    m.Associates d.outputFormat d.outputExt

variable {m d} {e v : Text}

lemma consistent_setExtension (h : setExtension m.typesMap e = .ok d) : d.Consistent m := by
  rw [setExtension] at h
  split at h
  next he =>
    cases h
    cases hf : (m.typesMap e).filter (· ≠ []) with
    | none => exact .inl ⟨rfl, .inr hf⟩
    | some t =>
      have ht := (Option.filter_eq_some_iff.1 hf).1
      refine .inr ⟨?_, .inl ?_⟩
      · rintro rfl
        cases he
      · exact m.mem_of_typesMap ht
  · cases h

lemma consistent_setFormat (hv : v ≠ anyFormat) :
    (d.setFormat m v).Consistent m ↔ m.Guessed v := by
  rw [setFormat, if_neg hv]
  constructor
  · rintro (⟨ha, -⟩ | ⟨hn, -⟩)
    · exact absurd ha hv
    · cases hg : m.guessExtension v with
      | none => exact absurd (by rw [hg]; rfl) hn
      | some e => exact ⟨e, hg, by simpa [hg] using hn⟩
  · rintro ⟨e, hg, hn⟩
    rw [hg]
    exact .inr ⟨hn, .inr (m.mem_of_guessExtension hg)⟩

end OutputFormatDefinition

inductive Assignment (ι : Type) where
  | outputFormat (i : ι) (value : Text)
  | outputExtension (i : ι) (ext : Text)
  | copyFormatFrom (i other : ι)

namespace Assignment

variable {ι : Type} [DecidableEq ι] (m : MediaTypes)

open OutputFormatDefinition

/-- A rejected extension changes nothing. -/
def step (s : ι → OutputFormatDefinition) : Assignment ι → ι → OutputFormatDefinition
  | outputFormat i value => Function.update s i ((s i).setFormat m value)
  | outputExtension i ext =>
    match setExtension m.typesMap ext with
    | .ok d => Function.update s i d
    | .error _ => s
  | copyFormatFrom i other => Function.update s i (s other)

def run (l : List (Assignment ι)) : ι → OutputFormatDefinition :=
  l.foldl (step m) fun _ => ⟨anyFormat, []⟩

lemma run_concat (l : List (Assignment ι)) (a : Assignment ι) :
    run m (l ++ [a]) = a.step m (run m l) := by
  rw [run, foldl_append]
  rfl

variable {m} {s : ι → OutputFormatDefinition}

lemma consistent_update {i : ι} {d : OutputFormatDefinition} (hs : ∀ k, (s k).Consistent m)
    (hd : d.Consistent m) (k : ι) : (Function.update s i d k).Consistent m := by
  rw [Function.update_apply]
  split
  · exact hd
  · exact hs k

lemma consistent_step {a : Assignment ι} (hs : ∀ k, (s k).Consistent m)
    (ha : ∀ k v, a = outputFormat k v → v ≠ anyFormat ∧ m.Guessed v) (k : ι) :
    (a.step m s k).Consistent m := by
  cases a with
  | outputFormat i value =>
    obtain ⟨hv, hg⟩ := ha i value rfl
    exact consistent_update hs ((consistent_setFormat hv).2 hg) k
  | outputExtension i ext =>
    cases hd : setExtension m.typesMap ext with
    | ok d =>
      simp only [step, hd]
      exact consistent_update hs (consistent_setExtension hd) k
    | error error =>
      simp only [step, hd]
      exact hs k
  | copyFormatFrom i other => exact consistent_update hs (hs other) k

lemma consistent_run {l : List (Assignment ι)}
    (hl : ∀ k v, outputFormat k v ∈ l → v ≠ anyFormat ∧ m.Guessed v) (k : ι) :
    (run m l k).Consistent m := by
  induction l using List.reverseRecOn generalizing k with
  | nil => exact .inl ⟨rfl, .inl rfl⟩
  | append_singleton l a ih =>
    rw [run_concat]
    refine consistent_step (ih fun k v h => hl k v (mem_append_left _ h)) ?_ k
    rintro k v rfl
    exact hl k v (by simp)

variable (m) in
/-- The definitions are consistent, and a generic format chosen last has no extension. -/
def Orderly (l : List (Assignment ι)) : Prop :=
  (∀ k, (run m l k).Consistent m) ∧
    ∀ k l', l = l' ++ [outputFormat k anyFormat] → (run m l k).outputExt = []

variable (m) in
/-- Whatever is assigned, the definitions stay in order exactly if the formats that are assigned are
not the generic one and have an extension in the table. -/
theorem orderly_iff_guessed (i : ι) (allowed : Text → Prop) :
    (∀ l : List (Assignment ι), (∀ k v, outputFormat k v ∈ l → allowed v) → Orderly m l) ↔
      ∀ v, allowed v → v ≠ anyFormat ∧ m.Guessed v := by
  constructor
  · intro h v hv
    have hn : v ≠ anyFormat := by
      rintro rfl
      have hk := (h [outputExtension i ['.'], outputFormat i anyFormat] (by simp_all)).2 i
        [outputExtension i ['.']] rfl
      simp [run, step, setExtension, setFormat] at hk
    refine ⟨hn, ?_⟩
    have hc := (h [outputFormat i v] (by simp_all)).1 i
    rw [run, foldl_cons, foldl_nil, step, Function.update_self] at hc
    exact (consistent_setFormat hn).1 hc
  · intro h l hl
    refine ⟨consistent_run fun k v hm => h v (hl k v hm), ?_⟩
    rintro k l' rfl
    exact absurd rfl (h anyFormat (hl k anyFormat (by simp))).1

/-- The extension of a raster stays when the generic format is chosen, and a media type that the table
does not have gets none. -/
theorem not_orderly_raster : ¬ Orderly ⟨[(".tif".toList, "image/tiff".toList)], id⟩
        [outputExtension () ".tif".toList, outputFormat () anyFormat] ∧
      ¬ Orderly ⟨[(".tif".toList, "image/tiff".toList)], id⟩
        [outputFormat () "image/x-unknown".toList] := by
  constructor
  · intro h
    exact absurd (h.2 () [outputExtension () ".tif".toList] rfl) (by decide)
  · intro h
    obtain ⟨e, he, -⟩ := (consistent_setFormat (d := ⟨anyFormat, []⟩)
      (v := "image/x-unknown".toList) (by decide)).1 (h.1 ())
    exact Option.some_ne_none e (he.symm.trans (by decide))

end Assignment
end QJazz.Processing
