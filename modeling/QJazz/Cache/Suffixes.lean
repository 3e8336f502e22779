import Mathlib.Data.Set.Basic
import QJazz.Cache.Listing

/-! A path that does not name a project file gets one of the two suffixes. It is given with
`with_suffix`, which replaces what looks like a suffix already, so names with a dot inside lose
their end. -/
namespace QJazz.Cache

open Lexical List ProjectSuffix

namespace ProjectSuffix

variable {sfx s : ProjectSuffix} {p q r : PosixPath}

lemma apply_eq_some : sfx.apply p = some q ↔ p.parts ≠ [] ∧ q.root = p.root ∧
      q.parts = p.parts.dropLast ++ [p.stem ++ sfx.text] := by
  rw [apply]
  split
  next h => simp [h]
  next h =>
    rw [Option.some.injEq]
    constructor
    · rintro rfl
      exact ⟨h, rfl, rfl⟩
    · rintro ⟨-, hr, hp⟩
      exact PosixPath.ext hr.symm hp.symm

lemma exists_apply (sfx : ProjectSuffix) (h : p.parts ≠ []) : ∃ q, sfx.apply p = some q := by
  rw [apply, if_neg h]
  exact ⟨_, rfl⟩

lemma splitSuffix_append_text {s : Text} (sfx : ProjectSuffix) (h : s ≠ []) :
    splitSuffix (s ++ sfx.text) = (s, sfx.text) := by
  cases sfx with
  | qgs | qgz => exact (splitSuffix_dot (by decide)).trans (if_pos ⟨h, by decide⟩)

lemma splitSuffix_name (h : sfx.apply p = some q) : splitSuffix q.name = (p.stem, sfx.text) := by
  obtain ⟨hne, -, hp⟩ := apply_eq_some.1 h
  have hn : q.name = p.stem ++ sfx.text := by simp [PosixPath.name, hp]
  rw [hn, splitSuffix_append_text sfx (PosixPath.stem_ne_nil hne)]

lemma stem_of_apply (h : sfx.apply p = some q) : q.stem = p.stem := by
  rw [PosixPath.stem, splitSuffix_name h]

lemma suffix_of_apply (h : sfx.apply p = some q) : q.suffix = sfx.text := by
  rw [PosixPath.suffix, splitSuffix_name h]

lemma isProject_of_apply (h : sfx.apply p = some q) : FileSystem.isProject q = true := by
  rw [FileSystem.isProject, suffix_of_apply h]
  cases sfx <;> decide

lemma length_of_apply (h : sfx.apply p = some q) : q.parts.length = p.parts.length := by
  obtain ⟨hne, -, hp⟩ := apply_eq_some.1 h
  have ho := length_pos_iff.2 hne
  rw [hp, length_append, length_dropLast, length_singleton]
  omega

lemma apply_of_apply (h : sfx.apply p = some q) : s.apply q = s.apply p := by
  obtain ⟨hne, hro, hp⟩ := apply_eq_some.1 h
  obtain ⟨r, hr⟩ := exists_apply s hne
  obtain ⟨-, ho, ht⟩ := apply_eq_some.1 hr
  rw [hr, apply_eq_some]
  refine ⟨by simp [hp], ho.trans hro.symm, ?_⟩
  rw [ht, stem_of_apply h, hp, dropLast_concat]

lemma ne_of_apply (hq : qgs.apply p = some q) (hr : qgz.apply p = some r) : q ≠ r := by
  rintro rfl
  have ht := (suffix_of_apply hq).symm.trans (suffix_of_apply hr)
  exact absurd ht (by decide)

lemma str_of_apply (h : sfx.apply p = some q) : q.str = p.str ++ sfx.text ↔ p.suffix = [] := by
  obtain ⟨hne, ho, hr⟩ := apply_eq_some.1 h
  obtain ⟨f, hp, hq⟩ := PosixPath.exists_str_of_stem hne ho hr
  rw [hp, hq, append_assoc, append_cancel_left_eq, eq_comm, append_left_eq_self]

end ProjectSuffix

lemma completes_of_bare {fs : FileSystem} {f p q r : PosixPath}
    (he : FileSystem.isProject f = false) (hq : ProjectSuffix.qgs.apply f = some q)
    (hr : ProjectSuffix.qgz.apply f = some r) :
    Completes fs f p ↔ f.isAbsolute ∧ p = if fs.isFile q then q else r := by
  constructor
  · intro h
    refine ⟨h.absolute, ?_⟩
    obtain ⟨q', hq', hg, hz⟩ := h.suffixed he
    cases hq.symm.trans hq'
    cases hf : fs.isFile q with
    | true => exact hg hf
    | false =>
      have hp := hz hf
      rw [apply_of_apply hq, hr] at hp
      exact (Option.some.inj hp).symm
  · rintro ⟨ho, rfl⟩
    refine ⟨ho, fun h => by simp [he] at h, fun _ => ⟨q, hq, fun h => if_pos h, fun h => ?_⟩⟩
    rw [apply_of_apply hq, hr]
    simp [h]

structure BareName where
  path : PosixPath
  absolute : path.isAbsolute = true
  bare : FileSystem.isProject path = false

/-- The file handler takes the path with `.qgs` behind it if there is such a file, and otherwise the
path with `.qgz` behind it. -/
def FileSystem.Gains (fs : FileSystem) (p : PosixPath) : Prop :=
  ∃ q r : PosixPath, q.str = p.str ++ ProjectSuffix.qgs.text ∧
    r.str = p.str ++ ProjectSuffix.qgz.text ∧ fs.checkFilepath p = .ok (if fs.isFile q then q else r)

/-- Names only gain a suffix, so different ones never become the same file. -/
structure OnlyGain (names : Set BareName) : Prop where
  gains : ∀ (fs : FileSystem), ∀ n ∈ names, fs.Gains n.path
  apart : ∀ (fs : FileSystem), ∀ n ∈ names, ∀ m ∈ names, n.path ≠ m.path →
    ∀ p, fs.checkFilepath n.path = .ok p → fs.checkFilepath m.path ≠ .ok p

variable {fs : FileSystem}

lemma FileSystem.Gains.exists_suffix {p q : PosixPath} (h : fs.Gains p)
    (hq : fs.checkFilepath p = .ok q) : ∃ sfx : ProjectSuffix, q.str = p.str ++ sfx.text := by
  obtain ⟨q', r', hg, hz, hh⟩ := h
  cases hq.symm.trans hh
  cases fs.isFile q' with
  | true => exact ⟨.qgs, hg⟩
  | false => exact ⟨.qgz, hz⟩

lemma FileSystem.Gains.eq_of_same {p p' q : PosixPath} (h : fs.Gains p) (h' : fs.Gains p')
    (hq : fs.checkFilepath p = .ok q) (hq' : fs.checkFilepath p' = .ok q) : p = p' := by
  obtain ⟨sfx, hr⟩ := h.exists_suffix hq
  obtain ⟨sfx', ht⟩ := h'.exists_suffix hq'
  refine PosixPath.str_injective (List.append_inj_left' (hr.symm.trans ht) ?_)
  rw [sfx.length_text, sfx'.length_text]

/-- A name gains a suffix, whatever files there are, exactly if it has a last component without a
suffix of its own. -/
lemma gains_iff (n : BareName) :
    (∀ fs : FileSystem, fs.Gains n.path) ↔ n.path.parts ≠ [] ∧ n.path.suffix = [] := by
  constructor
  · intro h
    -- a file system where everything is a file
    obtain ⟨q, r, hg, -, hh⟩ := h ⟨fun _ => none, fun _ => false, fun _ => true, fun _ => [], nofun⟩
    have ho := completes_of_checkFilepath hh
    obtain ⟨q', hq', he, -⟩ := ho.suffixed n.bare
    have hq : q = q' := he rfl
    rw [hq] at hg
    exact ⟨(apply_eq_some.1 hq').1, (str_of_apply hq').1 hg⟩
  · rintro ⟨hne, hu⟩ fs
    obtain ⟨q, hq⟩ := ProjectSuffix.qgs.exists_apply hne
    obtain ⟨r, hr⟩ := ProjectSuffix.qgz.exists_apply hne
    refine ⟨q, r, (str_of_apply hq).2 hu, (str_of_apply hr).2 hu, ?_⟩
    exact checkFilepath_of_completes ((completes_of_bare n.bare hq hr).2 ⟨n.absolute, rfl⟩)

/-- Names only gain a suffix exactly if each has a last component without a suffix of its own. -/
theorem onlyGain_iff (names : Set BareName) :
    OnlyGain names ↔ ∀ n ∈ names, n.path.parts ≠ [] ∧ n.path.suffix = [] := by
  constructor
  · exact fun h n hn => (gains_iff n).1 fun fs => h.gains fs n hn
  · intro h
    have hg : ∀ (fs : FileSystem), ∀ n ∈ names, fs.Gains n.path :=
      fun fs n hn => (gains_iff n).2 (h n hn) fs
    exact ⟨hg, fun fs n hn m hm hne p hp hp' =>
      hne ((hg fs n hn).eq_of_same (hg fs m hm) hp hp')⟩

def firstVersion : BareName := ⟨.parse "/srv/map.v1".toList, by decide, by decide +kernel⟩

def secondVersion : BareName := ⟨.parse "/srv/map.v2".toList, by decide, by decide +kernel⟩

theorem not_onlyGain_versions :
    oneProject.checkFilepath firstVersion.path = .ok (.parse "/srv/map.qgz".toList) ∧
      oneProject.checkFilepath secondVersion.path = .ok (.parse "/srv/map.qgz".toList) ∧
      ¬ OnlyGain {firstVersion, secondVersion} := by
  have hf : oneProject.checkFilepath firstVersion.path = .ok (.parse "/srv/map.qgz".toList) := by
    decide +kernel
  have he : oneProject.checkFilepath secondVersion.path = .ok (.parse "/srv/map.qgz".toList) := by
    decide +kernel
  have hne : firstVersion.path ≠ secondVersion.path := by decide +kernel
  refine ⟨hf, he, fun h => ?_⟩
  exact h.apart oneProject _ (Set.mem_insert _ _) _ (Set.mem_insert_of_mem _ rfl) hne _ hf he

end QJazz.Cache
