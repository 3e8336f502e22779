import QJazz.Processes.Download

/-! The input side puts the name of a file behind the directory of the job, resolves it, cuts a path
that leads out down to its last component and applies the output extension. -/
namespace QJazz.Processing

open Lexical PosixPath

structure Resolver where
  resolve : PosixPath → PosixPath
  root_resolve : ∀ p, (resolve p).root = .single
  ne_dots : ∀ p, ∀ part ∈ (resolve p).parts, part ≠ ['.', '.']

def Resolver.lexical : Resolver where
  resolve p := { p.collapse with root := .single }
  root_resolve _ := rfl
  ne_dots _ _ h := (Climb.mem_names_walk true h).2

structure ProcessingContext where
  workdir : PosixPath
  rawDestinationInputSink : Bool := false
  rawDestinationRootPath : Option PosixPath := none

inductive Destination where
  /-- `ParameterFileDestination` with its output extension, which may be empty -/
  | file (outputExtension : Text)
  /-- `ParameterFolderDestination` -/
  | folder
  deriving DecidableEq

inductive Failure where
  | notImplemented
  | invalidSuffix
  /-- A raw destination is a `str`, which has no `with_suffix`. -/
  | attribute
  /-- `PostconditionError` -/
  | postcondition (message : Text)
  deriving DecidableEq

def removeSlash : Text → Text
  | '/' :: inp => inp
  | inp => inp

variable (r : Resolver) (c : ProcessingContext)

def resolved (inp : Text) : PosixPath :=
  r.resolve (c.workdir.join (.parse (removeSlash inp)))

def resolvePath (inp : Text) : PosixPath :=
  let value := resolved r c inp
  if value.isRelativeTo c.workdir then value else .parse value.name

/-- The output extension replaces the suffix, unless it is empty. -/
def applyExtension (ext : Text) (path : PosixPath) : Option PosixPath :=
  if ext = [] then some path else path.withSuffix ext

/-- The path handed to the algorithm. The class of folder destinations has no type, so the parameter
cannot be created. -/
def Destination.value (inp : Text) : Destination → Except Failure Text
  | .folder => .error .notImplemented
  | .file ext =>
    if c.rawDestinationInputSink then
      if ext = [] then .ok inp else .error .attribute
    else
      match applyExtension ext (resolvePath r c inp) with
      | some path => .ok path.str
      | none => .error .invalidSuffix

def checkOutput (value : Text) : Except Failure PosixPath :=
  let p := PosixPath.parse value
  let root :=
    if c.rawDestinationInputSink then c.rawDestinationRootPath.getD c.workdir else c.workdir
  if p.isRelativeTo root then .ok p
  else .error (.postcondition ("Invalid path: ".toList ++ p.str))

def fileReference (path : PosixPath) : Option Text :=
  if path.isRelativeTo c.workdir then some (path.relativeTo c.workdir).str else none

/-- The path lies strictly inside the directory of the job. A relative one is taken from the current
directory, which has to be that directory. -/
def HandedInside (cwd : PosixPath) (value : Text) : Prop :=
  if (PosixPath.parse value).isAbsolute then
    (PosixPath.parse value).LiesStrictlyUnder c.workdir
  else cwd = c.workdir ∧ (c.workdir.join (.parse value)).LiesStrictlyUnder c.workdir

instance (cwd : PosixPath) (value : Text) : Decidable (HandedInside c cwd value) :=
  inferInstanceAs (Decidable (ite _ _ _))

def Publishable (cwd : PosixPath) (d : Destination) (inp : Text) : Prop :=
  ∃ value, d.value r c inp = .ok value ∧ HandedInside c cwd value ∧
    checkOutput c value = .ok (.parse value)

variable {r c} {cwd : PosixPath} {d : Destination} {inp value ext : Text} {p q : PosixPath}

lemma checkOutput_eq_ok (hr : c.rawDestinationInputSink = false) :
    checkOutput c value = .ok (.parse value) ↔
      (PosixPath.parse value).isRelativeTo c.workdir = true := by
  rw [checkOutput, hr]
  by_cases h : (PosixPath.parse value).isRelativeTo c.workdir = true
  · simp [h]
  · simp [h]

lemma value_eq_ok (hr : c.rawDestinationInputSink = false) :
    (Destination.file ext).value r c inp = .ok value ↔
      ∃ p, applyExtension ext (resolvePath r c inp) = some p ∧ value = p.str := by
  rw [Destination.value, hr]
  cases applyExtension ext (resolvePath r c inp) with
  | none => simp
  | some p => simp [eq_comm]

lemma isRelativeTo_of_applyExtension (h : applyExtension ext p = some q) :
    q.isRelativeTo c.workdir ∧ q ≠ c.workdir ↔
      p.isRelativeTo c.workdir ∧ p ≠ c.workdir := by
  rw [applyExtension] at h
  split_ifs at h with he
  · cases h
    rfl
  · obtain ⟨_, hp, hr, hq⟩ := withSuffix_eq_some.1 h
    rw [isRelativeTo_and_ne_iff, isRelativeTo_and_ne_iff, hr, hq]
    simp [hp]

lemma ne_dots_of_applyExtension (h : applyExtension ext p = some q)
    (hp : ∀ a ∈ p.parts, a ≠ ['.', '.']) : ∀ a ∈ q.parts, a ≠ ['.', '.'] := by
  rw [applyExtension] at h
  split_ifs at h with he
  · cases h
    exact hp
  · obtain ⟨hf, ht, _, hq⟩ := withSuffix_eq_some.1 h
    intro a hr
    rw [hq, List.mem_append, List.mem_singleton] at hr
    rcases hr with hr | rfl
    · exact hp a (List.mem_of_mem_dropLast hr)
    · intro hd
      have hl := two_lt_length_stem_append hf ht
      simp [hd] at hl

lemma exists_applyExtension (hp : p.parts ≠ []) :
    (∃ q, applyExtension ext p = some q) ↔ ext = [] ∨ PosixPath.validSuffix ext = true := by
  by_cases he : ext = []
  · simp [applyExtension, he]
  · by_cases hf : PosixPath.validSuffix ext = true
    · simp [applyExtension, he, PosixPath.withSuffix, hf, hp]
    · simp [applyExtension, he, PosixPath.withSuffix, hf]

lemma ne_dots_resolvePath : ∀ a ∈ (resolvePath r c inp).parts, a ≠ ['.', '.'] := by
  have hd := r.ne_dots (c.workdir.join (.parse (removeSlash inp)))
  rw [resolvePath]
  split_ifs
  · exact hd
  · intro a hr
    rw [eq_of_mem_components (slash_notMem_name _) hr]
    intro hn
    have hp : (resolved r c inp).parts ≠ [] := by
      intro hi
      simp [PosixPath.name, hi] at hn
    rw [name_eq_getLast hp] at hn
    exact hd _ (List.getLast_mem hp) hn

lemma isRelativeTo_resolvePath (hr : c.workdir.root = .single) :
    (resolvePath r c inp).isRelativeTo c.workdir ∧ resolvePath r c inp ≠ c.workdir ↔
      (resolved r c inp).isRelativeTo c.workdir ∧ resolved r c inp ≠ c.workdir := by
  by_cases h : (resolved r c inp).isRelativeTo c.workdir = true
  · rw [resolvePath, if_pos h]
  · have hn : (resolved r c inp).name.head? ≠ some '/' := fun hh =>
      slash_notMem_name _ (List.mem_of_head? hh)
    have hu : ¬ (resolvePath r c inp).isRelativeTo c.workdir := by
      rw [resolvePath, if_neg h, isRelativeTo_iff, root_parse_eq_none.2 hn, hr]
      simp
    simp [h, hu]

lemma handedInside_and_check_iff (hra : c.rawDestinationInputSink = false)
    (ho : c.workdir.root = .single) (hw : ∀ a ∈ c.workdir.parts, a ≠ ['.', '.'])
    (hp : ∀ a ∈ p.parts, a ≠ ['.', '.']) :
    HandedInside c cwd p.str ∧ checkOutput c p.str = .ok (.parse p.str) ↔
      p.isRelativeTo c.workdir ∧ p ≠ c.workdir := by
  rw [checkOutput_eq_ok hra, HandedInside, parse_str, and_comm]
  refine and_congr_right fun he => ?_
  obtain ⟨hr, hf⟩ := isRelativeTo_iff.1 he
  have hab : p.isAbsolute := by simp [PosixPath.isAbsolute, hr, ho]
  rw [if_pos hab, liesStrictlyUnder_iff hp hw]
  constructor
  · rintro ⟨_, _, hne⟩ rfl
    exact hne rfl
  · intro hne
    exact ⟨by simp [PosixPath.isAbsolute, hr], hf,
      fun ht => hne (PosixPath.ext hr ht)⟩

lemma publishable_file_iff (hra : c.rawDestinationInputSink = false)
    (hr : r.resolve c.workdir = c.workdir) : Publishable r c cwd (.file ext) inp ↔
      (ext = [] ∨ PosixPath.validSuffix ext) ∧
        (resolved r c inp).isRelativeTo c.workdir ∧ resolved r c inp ≠ c.workdir := by
  have ho : c.workdir.root = .single := hr ▸ r.root_resolve c.workdir
  have hw : ∀ a ∈ c.workdir.parts, a ≠ ['.', '.'] := hr ▸ r.ne_dots c.workdir
  rw [← isRelativeTo_resolvePath ho]
  constructor
  · rintro ⟨value, hv, he⟩
    obtain ⟨p, hp, rfl⟩ := (value_eq_ok hra).1 hv
    have hd := ne_dots_of_applyExtension hp ne_dots_resolvePath
    rw [handedInside_and_check_iff hra ho hw hd, isRelativeTo_of_applyExtension hp] at he
    have ht := (isRelativeTo_and_ne_iff.1 he).2.1
    exact ⟨(exists_applyExtension ht).1 ⟨p, hp⟩, he⟩
  · rintro ⟨hx, hi⟩
    have ht := (isRelativeTo_and_ne_iff.1 hi).2.1
    obtain ⟨p, hp⟩ := (exists_applyExtension ht).2 hx
    have hd := ne_dots_of_applyExtension hp ne_dots_resolvePath
    refine ⟨p.str, (value_eq_ok hra).2 ⟨p, hp, rfl⟩, ?_⟩
    rw [handedInside_and_check_iff hra ho hw hd]
    exact (isRelativeTo_of_applyExtension hp).2 hi

theorem publishable_iff (hraw : c.rawDestinationInputSink = false)
    (hresolved : r.resolve c.workdir = c.workdir) : Publishable r c cwd d inp ↔
      ∃ ext, d = .file ext ∧ (ext = [] ∨ PosixPath.validSuffix ext = true) ∧
        (resolved r c inp).isRelativeTo c.workdir = true ∧ resolved r c inp ≠ c.workdir := by
  cases d with
  | file ext => simp [publishable_file_iff hraw hresolved]
  | folder => simp [Publishable, Destination.value]

def jobContext : ProcessingContext where
  workdir := .parse "/jobs/a".toList

theorem publishable_subdirectory :
    Publishable .lexical jobContext jobContext.workdir (.file ".tif".toList) "out/b".toList :=
  (publishable_iff rfl (by decide)).2 ⟨_, rfl, by decide, by decide, by decide⟩

/-- The empty destination gives a file beside the directory, and one that leads out of the directory
gives a relative path, which the output side refuses. -/
theorem not_publishable_outside :
    (Destination.file ".tif".toList).value .lexical jobContext [] = .ok "/jobs/a.tif".toList ∧
      ¬ Publishable .lexical jobContext jobContext.workdir (.file ".tif".toList) [] ∧
      (Destination.file ".tif".toList).value .lexical jobContext "../b".toList =
        .ok "b.tif".toList ∧
      ¬ Publishable .lexical jobContext jobContext.workdir (.file ".tif".toList) "../b".toList := by
  have he : (Destination.file ".tif".toList).value .lexical jobContext [] =
      .ok "/jobs/a.tif".toList := by decide
  have ho : (Destination.file ".tif".toList).value .lexical jobContext "../b".toList =
      .ok "b.tif".toList := by decide
  refine ⟨he, ?_, ho, ?_⟩
  · rintro ⟨value, hv, hi, _⟩
    rw [he, Except.ok.injEq] at hv
    subst hv
    exact absurd hi (by decide)
  · rintro ⟨value, hv, _, hh⟩
    rw [ho, Except.ok.injEq] at hv
    subst hv
    exact absurd hh (by decide)

lemma resourcePath_fileReference {w : PosixPath} {j n : Text}
    (hd : c.workdir = Processes.jobDir w j) (h : fileReference c p = some n) :
    Processes.resourcePath w j n = p := by
  rw [fileReference] at h
  split_ifs at h with hr
  cases h
  rw [Processes.resourcePath, ← hd, parse_str]
  exact join_relativeTo hr

/-- Every destination that can be published is found again by a download, inside the directory of
the job. -/
theorem Publishable.inside {w : PosixPath} {j : Text}
    (hraw : c.rawDestinationInputSink = false) (hresolved : r.resolve c.workdir = c.workdir)
    (hd : c.workdir = Processes.jobDir w j) (h : Publishable r c cwd d inp) :
    ∃ value name, d.value r c inp = .ok value ∧ fileReference c (.parse value) = some name ∧
      Processes.resourcePath w j name = .parse value ∧ Processes.Inside w j name := by
  obtain ⟨value, hv, hi, hh⟩ := h
  have hr := (checkOutput_eq_ok hraw).1 hh
  have hn : fileReference c (.parse value) =
      some ((PosixPath.parse value).relativeTo c.workdir).str := if_pos hr
  have hp := resourcePath_fileReference hd hn
  refine ⟨value, _, hv, hn, hp, ?_⟩
  have hab : (PosixPath.parse value).isAbsolute := by
    have ho : c.workdir.root = .single := hresolved ▸ r.root_resolve c.workdir
    rw [PosixPath.isAbsolute, (isRelativeTo_iff.1 hr).1, ho]
    rfl
  rw [HandedInside, if_pos hab] at hi
  rw [← Processes.liesUnder_jobDir_iff, hp, ← hd]
  exact hi.1

theorem Publishable.inside_subdirectory : ∃ value name,
    (Destination.file ".tif".toList).value .lexical jobContext "out/b".toList = .ok value ∧
      fileReference jobContext (.parse value) = some name ∧
      Processes.resourcePath (.parse "/jobs".toList) ['a'] name = .parse value ∧
      Processes.Inside (.parse "/jobs".toList) ['a'] name := by
  have h : Publishable .lexical jobContext jobContext.workdir (.file ".tif".toList) "out/b".toList :=
    (publishable_file_iff rfl (by decide)).2 (by decide)
  exact Publishable.inside rfl (by decide) (by decide) h

end QJazz.Processing
