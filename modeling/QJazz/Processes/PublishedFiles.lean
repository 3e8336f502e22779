import QJazz.Lexical.Lines
import QJazz.Lexical.Quote
import QJazz.Processes.Download

/-! The storage turns the path of a file into the text of a url, and the server opens the path that
stands in the url. -/
namespace QJazz.Processes

open Lexical List PosixPath

structure PublishedLink where
  href : Text
  mimeType : Text
  length : ℕ
  title : Text
deriving DecidableEq

abbrev StoreUrl := Text → Text → Text → Text

def Files.publishedFiles (files : Files) (jobdir : PosixPath) (text : Text) : List PosixPath :=
  ((readNames text).map fun name => jobdir.join (.parse name)).filter files.isFile

def Files.makeLinks (files : Files) (storeUrl : StoreUrl) (jobdir : PosixPath) (jobId : Text)
    (paths : List PosixPath) : List PublishedLink :=
  paths.filterMap fun p =>
    if p.isRelativeTo jobdir then
      some
        { href := storeUrl jobId (p.relativeTo jobdir).str "$public_url".toList
          mimeType := (files.typesMap p.suffix).getD "application/octet-stream".toList
          length := files.size p
          title := (p.relativeTo jobdir).str }
    else none

def Files.jobFiles (files : Files) (storeUrl : StoreUrl) (workdir : PosixPath) (jobId : Text)
    (publicUrl : Option Text) (names : List Text) : List PublishedLink :=
  let jobdir := jobDir workdir jobId
  (files.makeLinks storeUrl jobdir jobId (files.publishedFiles jobdir (printLines names))).map
    fun link => { link with href := storeUrl jobId link.title (publicUrl.getD []) }

def Link.urlPath (link : Link) : PosixPath := .parse (quote ['/'] link.href.str)

def Files.openLink (files : Files) (link : Link) : Option PosixPath :=
  if files.isFile link.urlPath then some link.urlPath else none

def Files.Opens (files : Files) (workdir : PosixPath) (jobId resource : Text) (path : PosixPath) :
    Prop :=
  ∃ link, files.downloadUrl workdir jobId resource = .ok link ∧ files.openLink link = some path

variable {files : Files} {storeUrl : StoreUrl} {workdir jobdir path : PosixPath} {jobId name : Text}
  {publicUrl : Option Text} {n : List Text}

def Files.titleOf (files : Files) (jobdir : PosixPath) (name : Text) : Option Text :=
  let p := jobdir.join (.parse name)
  if files.isFile p && p.isRelativeTo jobdir then some (p.relativeTo jobdir).str else none

lemma titles_jobFiles : (files.jobFiles storeUrl workdir jobId publicUrl n).map
    PublishedLink.title =
      (readNames (printLines n)).filterMap (files.titleOf (jobDir workdir jobId)) := by
  rw [Files.jobFiles, List.map_map, Files.makeLinks, Files.publishedFiles, map_filterMap,
    List.filter_map, filterMap_map, filterMap_filter]
  refine filterMap_congr fun name _ => ?_
  simp only [Files.titleOf, Function.comp_apply]
  split_ifs <;> simp_all

lemma length_titleOf_le {t : Text} (hn : name ≠ [])
    (h : files.titleOf jobdir name = some t) : t.length ≤ name.length := by
  simp only [Files.titleOf] at h
  split_ifs at h
  cases h
  refine length_str_le hn rfl ?_
  by_cases hroot : (PosixPath.parse name).root = .none
  · rw [relativeTo_join hroot]
    exact List.Sublist.refl _
  · rw [PosixPath.join, if_neg hroot]
    exact drop_sublist _ _

lemma length_titles_le (hne : [] ∉ n) :
    (n.filterMap (files.titleOf jobdir)).flatten.length ≤ n.flatten.length := by
  induction n with
  | nil => exact Nat.le_refl 0
  | cons name n ih =>
    rw [mem_cons, not_or] at hne
    have hr := ih hne.2
    rw [filterMap_cons, flatten_cons, length_append]
    cases ht : files.titleOf jobdir name with
    | none => exact hr.trans (Nat.le_add_left _ _)
    | some t =>
      have hle := length_titleOf_le (Ne.symm hne.1) ht
      simp only [flatten_cons, length_append]
      omega

lemma titleOf_str (hroot : path.root = .none) (hf : files.isFile (jobdir.join path)) :
    files.titleOf jobdir path.str = some path.str := by
  simp only [Files.titleOf, parse_str, hf, isRelativeTo_join hroot,
    relativeTo_join hroot, Bool.and_self, if_true]

lemma openLink_eq_iff {l : Link} (hf : files.isFile l.href) :
    files.openLink l = some l.href ↔ ∀ c ∈ l.href.str, isSafe ['/'] c = true := by
  rw [← parse_quote_eq_iff, parse_str, Files.openLink, Link.urlPath]
  constructor
  · intro h
    split_ifs at h
    exact Option.some.inj h
  · intro h
    rw [h, if_pos hf]

section Published

variable {paths : List PosixPath} (hroot : ∀ p ∈ paths, p.root = .none)
  (hfiles : ∀ p ∈ paths, files.isFile ((jobDir workdir jobId).join p) = true)
include hroot hfiles

lemma perm_titles_iff : ((files.jobFiles storeUrl workdir jobId publicUrl
      (paths.map PosixPath.str)).map PublishedLink.title).Perm (paths.map PosixPath.str) ↔
    ∀ p ∈ paths, LineStable p.str := by
  have hne : [] ∉ paths.map PosixPath.str := by
    intro hm
    obtain ⟨p, -, hp⟩ := List.mem_map.1 hm
    exact p.str_ne_nil hp
  rw [titles_jobFiles]
  constructor
  · -- the titles have no more characters than the lines, and these no more than the names
    intro h
    have hr : [] ∉ readNames (printLines (paths.map PosixPath.str)) := by
      simp [readNames]
    have hl := (h.flatten).length_eq.symm.le.trans (length_titles_le hr)
    exact List.forall_mem_map.1 (lineStable_of_length hl)
  · intro h
    have ht : paths.filterMap (files.titleOf (jobDir workdir jobId) ∘ PosixPath.str) =
        paths.map PosixPath.str := by
      rw [← filterMap_eq_map]
      exact filterMap_congr fun p hp => titleOf_str (hroot p hp) (hfiles p hp)
    rw [readNames_printLines hne (List.forall_mem_map.2 h), filterMap_map, ht]

lemma opens_iff (habs : (jobDir workdir jobId).isAbsolute)
    (hr : ∀ p ∈ paths, files.present ((jobDir workdir jobId).join p)) {p : PosixPath}
    (hp : p ∈ paths) : files.Opens workdir jobId p.str ((jobDir workdir jobId).join p) ↔
      ∀ c ∈ ((jobDir workdir jobId).join p).str, isSafe ['/'] c = true := by
  have ht : resourcePath workdir jobId p.str = (jobDir workdir jobId).join p := by
    rw [resourcePath, parse_str]
  have hab : (resourcePath workdir jobId p.str).isAbsolute := by
    rw [ht, PosixPath.isAbsolute, join_root_of_relative (hroot p hp)]
    exact habs
  obtain ⟨l, hl, hh⟩ := Files.exists_downloadUrl (ht ▸ hr p hp) hab
  rw [ht] at hh
  have hopen := openLink_eq_iff (hh ▸ hfiles p hp : files.isFile l.href = true)
  rw [hh] at hopen
  rw [← hopen]
  constructor
  · rintro ⟨link', hi, h⟩
    obtain rfl : l = link' := Except.ok.inj (hl.symm.trans hi)
    exact h
  · exact fun h => ⟨l, hl, h⟩

end Published

/-- Recorded files that exist in the directory of the job are listed under their names exactly if the
names have no line breaks and no white space at their ends; a file is opened by its name exactly if no
character of its path is written as a percent code. -/
theorem jobFiles_and_download_iff (files : Files) (storeUrl : StoreUrl) (workdir : PosixPath)
    (jobId : Text) (publicUrl : Option Text) (paths : List PosixPath)
    (hroot : ∀ p ∈ paths, p.root = .none)
    (hfiles : ∀ p ∈ paths, files.isFile ((jobDir workdir jobId).join p) = true)
    (hpresent : ∀ p ∈ paths, files.present ((jobDir workdir jobId).join p) = true)
    (habs : (jobDir workdir jobId).isAbsolute = true) :
    (((files.jobFiles storeUrl workdir jobId publicUrl (paths.map PosixPath.str)).map
        PublishedLink.title).Perm (paths.map PosixPath.str) ↔ ∀ p ∈ paths, LineStable p.str) ∧
      ∀ p ∈ paths, (files.Opens workdir jobId p.str ((jobDir workdir jobId).join p) ↔
        ∀ c ∈ ((jobDir workdir jobId).join p).str, isSafe ['/'] c = true) :=
  ⟨perm_titles_iff hroot hfiles, fun _ hp => opens_iff hroot hfiles habs hpresent hp⟩

theorem jobFiles_plain_name :
    ((allFiles.jobFiles (fun _ name _ => name) (.parse "/jobs".toList) "a".toList none
        ["out.tif".toList]).map PublishedLink.title).Perm ["out.tif".toList] ∧
      allFiles.Opens (.parse "/jobs".toList) "a".toList "out.tif".toList
        (.parse "/jobs/a/out.tif".toList) := by
  have h := jobFiles_and_download_iff allFiles (fun _ name _ => name) (.parse "/jobs".toList)
    "a".toList none [.parse "out.tif".toList] (by decide) (fun _ _ => rfl) (fun _ _ => rfl) rfl
  have hr : ∀ c ∈ "out.tif".toList, isBreak c = false := by
    have hl : ("out.tif".toList.all fun c => !isBreak c) = true := rfl
    exact fun c hc => by simpa using List.all_eq_true.1 hl c hc
  refine ⟨h.1.2 (forall_mem_singleton.2 ⟨hr, rfl⟩),
    (h.2 _ mem_cons_self).2 (List.all_eq_true.1 rfl)⟩

/-- A blank in a name makes the server look for another file. A blank at the end is lost in the listing
already, and a line break leads to two links. -/
theorem jobFiles_other_names :
    (∀ path, allFiles.Opens (.parse "/jobs".toList) "a".toList "my map.tif".toList path →
        path = .parse "/jobs/a/my%20map.tif".toList) ∧
      (allFiles.jobFiles (fun _ name _ => name) (.parse "/jobs".toList) "a".toList none
        ["out ".toList]).map PublishedLink.title = ["out".toList] ∧
      (allFiles.jobFiles (fun _ name _ => name) (.parse "/jobs".toList) "a".toList none
        ["o\nut".toList]).map PublishedLink.title = ["o".toList, "ut".toList] := by
  refine ⟨?_, rfl, rfl⟩
  rintro path ⟨l, hl, hopen⟩
  cases hl
  cases hopen
  rfl

end QJazz.Processes
