import QJazz.Processes.PublishedFiles
import QJazz.Processing.Destination

/-! The path that an algorithm returned is checked against the directory of the job. -/
namespace QJazz.Processing

open Lexical Processes

inductive Attribute where
  | text (value : Text)
  | method (result : Text)

structure OutputDefinition where
  name : Text
  describe : Text

def OutputDefinition.title (out : OutputDefinition) (capitalize : Text → Text) : Text :=
  (capitalize out.name).map fun c => if c = '_' then ' ' else c

def OutputDefinition.description (out : OutputDefinition) : Attribute := .method out.describe

inductive OutputError where
  /-- `resolve_path` -/
  | path (failure : Failure)
  /-- `FileNotFoundError` -/
  | fileNotFound (value : Text)
  /-- `PreconditionError` -/
  | precondition (message : Text)
  /-- `ValueError` -/
  | value (message : Text)
  /-- `ValidationError`, by the name of the field -/
  | validation (field : Text)
deriving DecidableEq

structure OutputLink where
  href : Text
  mimeType : Option Text
  title : Text
  description : Option Text
  length : Option ℕ
deriving DecidableEq

def OutputLink.make (href : Text) (mimeType : Option Text) (title : Text) (description : Attribute)
    (length : Option ℕ) : Except OutputError OutputLink :=
  match description with
  | .text value =>
    .ok { href := href, mimeType := mimeType, title := title, description := some value,
          length := length }
  | .method _ => .error (.validation "description".toList)

structure OutputFormatDefinition where
  outputFormat : Text
  outputExt : Text
deriving DecidableEq

def anyFormat : Text := "application/octet-stream".toList

def OutputFormatDefinition.setExtension (typesMap : Text → Option Text) (ext : Text) :
    Except OutputError OutputFormatDefinition :=
  if ext.head? = some '.' then
    .ok { outputFormat := ((typesMap ext).filter (· ≠ [])).getD anyFormat, outputExt := ext }
  else .error (.precondition "Suffix should start with a '.'".toList)

structure Tree extends Files where
  isDir : PosixPath → Bool
  isDir_of_isFile : ∀ p, isFile p = true → isDir p = false

structure OutputContext extends ProcessingContext where
  jobId : Text
  publicUrl : Text
  storeUrl : StoreUrl

structure OutputState where
  format : OutputFormatDefinition
  files : List Text
deriving DecidableEq

variable (x : OutputContext) (tree : Tree) (title : Text) (description : Attribute) (value : Text)
  (s : OutputState)

def OutputContext.storeReferenceUrl (resource : Text) : Text :=
  x.storeUrl x.jobId resource x.publicUrl

def OutputState.record (name : Text) : OutputState := { s with files := s.files.insert name }

/-- The last two steps of the conversions: `file_reference`, and the link. -/
def publish (path : PosixPath) (mimeType : Option Text) (length : Option ℕ) :
    Except OutputError OutputLink × OutputState :=
  match fileReference x.toProcessingContext path with
  | none =>
    (.error (.value ("'".toList ++ path.str ++ "' is not in the subpath of '".toList ++
      x.workdir.str ++ "'".toList)), s)
  | some name =>
    (OutputLink.make (x.storeReferenceUrl name) mimeType title description length, s.record name)

def OutputFormatDefinition.deduce (format : OutputFormatDefinition) (path : PosixPath) :
    Except OutputError OutputFormatDefinition :=
  if format.outputFormat = anyFormat then setExtension tree.typesMap path.suffix else .ok format

def convertFile : Except OutputError OutputLink × OutputState :=
  match checkOutput x.toProcessingContext value with
  | .error failure => (.error (.path failure), s)
  | .ok path =>
    if tree.isFile path = true then
      match s.format.deduce tree path with
      | .error error => (.error error, s)
      | .ok format =>
        publish x title description { s with format := format } path (some format.outputFormat)
          (some (tree.size path))
    else (.error (.fileNotFound value), s)

/-- The common body of `OutputFolder.output` and `OutputHtml.output` -/
def convertFolder : Except OutputError OutputLink × OutputState :=
  match checkOutput x.toProcessingContext value with
  | .error failure => (.error (.path failure), s)
  | .ok path =>
    if tree.isDir path = true then publish x title description s path none none
    else (.error (.value ("'".toList ++ path.str ++ "' is not a directory".toList)), s)

inductive FileOutput where
  /-- `OutputFile` -/
  | file
  /-- `OutputFolder` -/
  | folder
  /-- `OutputHtml` -/
  | html
deriving DecidableEq

def FileOutput.output (capitalize : Text → Text) (out : OutputDefinition) :
    FileOutput → Except OutputError OutputLink × OutputState
  | .file => convertFile x tree (out.title capitalize) out.description value s
  | .folder => convertFolder x tree (out.title capitalize) out.description value s
  | .html => convertFolder x tree (out.title capitalize) out.description value s

/-- The conversion returned a link to the download url of the path, whose name is recorded. -/
def Published (path : PosixPath) (r : Except OutputError OutputLink × OutputState) : Prop :=
  ∃ link, r.1 = .ok link ∧
    link.href = x.storeReferenceUrl (path.relativeTo x.workdir).str ∧
    (path.relativeTo x.workdir).str ∈ r.2.files

variable {x tree title description value s} {p : PosixPath} {capitalize : Text → Text}
  {out : OutputDefinition}

lemma publish_of_isRelativeTo (h : p.isRelativeTo x.workdir) (m : Option Text)
    (l : Option ℕ) : publish x title description s p m l =
      (OutputLink.make (x.storeReferenceUrl (p.relativeTo x.workdir).str) m title
        description l, s.record (p.relativeTo x.workdir).str) := by
  rw [publish, fileReference, if_pos h]

lemma published_publish_iff (h : p.isRelativeTo x.workdir) (m : Option Text)
    (l : Option ℕ) : Published x p (publish x title description s p m l) ↔
      ∃ text, description = .text text := by
  rw [publish_of_isRelativeTo h]
  cases description with
  | text text => simp [Published, OutputLink.make, OutputState.record]
  | method r => simp [Published, OutputLink.make]

lemma head?_suffix (h : p.suffix ≠ []) : p.suffix.head? = some '.' := by
  rw [PosixPath.suffix, splitSuffix] at h ⊢
  split
  · rfl
  next hh => exact absurd (by rw [if_neg hh]) h

lemma deduce_of_nil {f : OutputFormatDefinition} (hn : f.outputFormat = anyFormat)
    (hu : p.suffix = []) : f.deduce tree p =
      .error (.precondition "Suffix should start with a '.'".toList) := by
  rw [OutputFormatDefinition.deduce, if_pos hn, OutputFormatDefinition.setExtension, hu]
  rfl

lemma exists_deduce (tree : Tree) {f : OutputFormatDefinition}
    (h : ¬ (f.outputFormat = anyFormat ∧ p.suffix = [])) :
    ∃ deduced, f.deduce tree p = .ok deduced := by
  by_cases hn : f.outputFormat = anyFormat
  · rw [OutputFormatDefinition.deduce, if_pos hn, OutputFormatDefinition.setExtension,
      if_pos (head?_suffix fun hu => h ⟨hn, hu⟩)]
    exact ⟨_, rfl⟩
  · rw [OutputFormatDefinition.deduce, if_neg hn]
    exact ⟨_, rfl⟩

section Regular

variable (hraw : x.rawDestinationInputSink = false)
  (hinside : (PosixPath.parse value).isRelativeTo x.workdir = true)
  (hfile : tree.isFile (.parse value) = true)
include hraw hinside hfile

lemma convertFile_of_isFile : convertFile x tree title description value s =
      match s.format.deduce tree (.parse value) with
      | .error e => (.error e, s)
      | .ok format =>
        publish x title description { s with format := format } (.parse value)
          (some format.outputFormat) (some (tree.size (.parse value))) := by
  rw [convertFile, (checkOutput_eq_ok hraw).2 hinside]
  exact if_pos hfile

lemma convertFolder_of_isFile (title : Text) (description : Attribute) (s : OutputState) :
    convertFolder x tree title description value s =
      (.error (.value ("'".toList ++ (PosixPath.parse value).str ++
        "' is not a directory".toList)), s) := by
  rw [convertFolder, (checkOutput_eq_ok hraw).2 hinside]
  exact if_neg (by simp [tree.isDir_of_isFile _ hfile])

lemma published_convertFile_iff :
    Published x (.parse value) (convertFile x tree title description value s) ↔
      (∃ t, description = .text t) ∧
        ¬ (s.format.outputFormat = anyFormat ∧ (PosixPath.parse value).suffix = []) := by
  rw [convertFile_of_isFile hraw hinside hfile]
  by_cases h : s.format.outputFormat = anyFormat ∧ (PosixPath.parse value).suffix = []
  · rw [deduce_of_nil h.1 h.2]
    simp [Published, h]
  · obtain ⟨f, hf⟩ := exists_deduce tree h
    rw [hf, published_publish_iff hinside]
    simp [h]

lemma convertFile_method (title r : Text) (s : OutputState) :
    (convertFile x tree title (.method r) value s).1 =
        .error (if s.format.outputFormat = anyFormat ∧ (PosixPath.parse value).suffix = [] then
          .precondition "Suffix should start with a '.'".toList
        else .validation "description".toList) ∧
      (convertFile x tree title (.method r) value s).2.files =
        if s.format.outputFormat = anyFormat ∧ (PosixPath.parse value).suffix = [] then s.files
        else s.files.insert ((PosixPath.parse value).relativeTo x.workdir).str := by
  rw [convertFile_of_isFile hraw hinside hfile]
  by_cases h : s.format.outputFormat = anyFormat ∧ (PosixPath.parse value).suffix = []
  · rw [deduce_of_nil h.1 h.2, if_pos h, if_pos h]
    exact ⟨rfl, rfl⟩
  · obtain ⟨f, hf⟩ := exists_deduce tree h
    rw [hf, if_neg h, if_neg h]
    dsimp only
    rw [publish_of_isRelativeTo hinside]
    exact ⟨rfl, rfl⟩

end Regular

/-- No regular file in the directory of a job is published. The link of a file output refuses the
description, which is a method, after the name was recorded; without a suffix and a format, the
output fails before. An output in HTML refuses whatever is not a directory. -/
theorem not_published_of_isFile (x : OutputContext) (tree : Tree) (capitalize : Text → Text)
    (out : OutputDefinition) (value : Text) (s : OutputState)
    (hraw : x.rawDestinationInputSink = false)
    (hinside : (PosixPath.parse value).isRelativeTo x.workdir = true)
    (hfile : tree.isFile (.parse value) = true) : (∀ output : FileOutput,
      ¬ Published x (.parse value) (output.output x tree value s capitalize out)) ∧
    (FileOutput.file.output x tree value s capitalize out).1 =
      .error (if s.format.outputFormat = anyFormat ∧ (PosixPath.parse value).suffix = [] then
        .precondition "Suffix should start with a '.'".toList
      else .validation "description".toList) ∧
    (FileOutput.file.output x tree value s capitalize out).2.files =
      (if s.format.outputFormat = anyFormat ∧ (PosixPath.parse value).suffix = [] then s.files
      else s.files.insert ((PosixPath.parse value).relativeTo x.workdir).str) ∧
    FileOutput.html.output x tree value s capitalize out =
      (.error (.value ("'".toList ++ (PosixPath.parse value).str ++
        "' is not a directory".toList)), s) := by
  have hm :=
    convertFile_method hraw hinside hfile (out.title capitalize) out.describe s
  have hf :=
    convertFolder_of_isFile hraw hinside hfile (out.title capitalize) out.description s
  refine ⟨fun output => ?_, hm.1, hm.2, hf⟩
  cases output with
  | file =>
    intro hp
    obtain ⟨⟨t, ht⟩, -⟩ := (published_convertFile_iff hraw hinside hfile).1 hp
    cases ht
  | folder | html =>
    rintro ⟨l, hl, -⟩
    rw [FileOutput.output, hf] at hl
    cases hl

def fileTree : Tree where
  present _ := true
  isFile _ := true
  size _ := 1
  typesMap ext := if ext = ".tif".toList then some "image/tiff".toList else none
  isDir _ := false
  isDir_of_isFile _ _ := rfl

def outputContext : OutputContext where
  workdir := .parse "/jobs/a".toList
  jobId := "a".toList
  publicUrl := []
  storeUrl jobId resource _ := "/jobs/".toList ++ jobId ++ "/files/".toList ++ resource

def noFiles : OutputState where
  format := { outputFormat := anyFormat, outputExt := [] }
  files := []

theorem not_published_without_suffix :
    (∀ output : FileOutput, ¬ Published outputContext (.parse "/jobs/a/out".toList)
      (output.output outputContext fileTree "/jobs/a/out".toList noFiles id
        { name := "OUT".toList, describe := "A map".toList })) ∧
    (FileOutput.file.output outputContext fileTree "/jobs/a/out".toList noFiles id
      { name := "OUT".toList, describe := "A map".toList }).1 =
        .error (.precondition "Suffix should start with a '.'".toList) := by
  have h := not_published_of_isFile outputContext fileTree id
    { name := "OUT".toList, describe := "A map".toList } "/jobs/a/out".toList noFiles rfl rfl rfl
  exact ⟨h.1, h.2.1⟩

/-- A raster is recorded and the conversion fails; as an output in HTML it is not even recorded. -/
theorem output_raster :
    FileOutput.file.output outputContext fileTree "/jobs/a/out.tif".toList noFiles id
        { name := "OUT".toList, describe := "A map".toList } =
      (.error (.validation "description".toList),
        { format := { outputFormat := "image/tiff".toList, outputExt := ".tif".toList }
          files := ["out.tif".toList] }) ∧
    FileOutput.html.output outputContext fileTree "/jobs/a/out.tif".toList noFiles id
        { name := "OUT".toList, describe := "A map".toList } =
      (.error (.value "'/jobs/a/out.tif' is not a directory".toList), noFiles) :=
  ⟨rfl, rfl⟩

end QJazz.Processing
