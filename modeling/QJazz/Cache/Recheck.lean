import QJazz.Cache.Removal

/-! `checkout` reads the metadata of an url, and `checkout_entry` that of the uri of an entry, which
is the path of a file and is taken for an url. -/
namespace QJazz.Cache

open Lexical Python List ProjectSuffix FileSystem
open Rpc.Worker (CheckoutStatus)

variable {fs : FileSystem} {f p q : PosixPath}

lemma clean_visible (p : PosixPath) : Clean (visible p) := by
  intro a hr c hc
  have hp := Url.split_urlsplit (.ofText p.str)
  have hv (x : String) := Url.var_notMem_urlsplit (Template.var_notMem_ofText (x := x) (s := p.str))
  have hl : c ≠ '/' := ne_of_mem_of_not_mem hc ((visible p).slash_notMem a hr)
  have hm : .char c ∈ (Url.urlsplit (.ofText p.str)).path :=
    (Template.mem_render fun x hx => hv x (by simp [hx])).1 (mem_of_mem_components hr hc hl)
  refine isPathChar_iff.2 ⟨?_, ?_, hp.safe _ (by simp [hm])⟩
  · rintro rfl
    exact hp.path_query hm
  · rintro rfl
    exact hp.path_fragment hm

lemma isPathChar_of_mem_text (sfx : ProjectSuffix) : ∀ c ∈ sfx.text, isPathChar c = true := by
  cases sfx <;> exact List.all_eq_true.1 (by decide)

lemma clean_of_apply {sfx : ProjectSuffix} (h : sfx.apply p = some q) (hp : Clean p) : Clean q := by
  obtain ⟨hne, -, ht⟩ := apply_eq_some.1 h
  intro a hr c hc
  rw [ht, mem_append, mem_singleton] at hr
  rcases hr with hr | rfl
  · exact hp a (mem_of_mem_dropLast hr) c hc
  · rcases mem_append.1 hc with hc | hc
    · refine hp p.name ?_ c (PosixPath.mem_of_mem_stem hc)
      rw [PosixPath.name_eq_getLast hne]
      exact getLast_mem hne
    · exact isPathChar_of_mem_text sfx c hc

lemma Completes.preserves (h : Completes fs f p) :
    p.root = f.root ∧ p.parts.length = f.parts.length ∧ (Clean f → Clean p) := by
  cases hp : FileSystem.isProject f with
  | true =>
    rw [h.self hp]
    exact ⟨rfl, rfl, id⟩
  | false =>
    obtain ⟨q, hq, -, -⟩ := h.suffixed hp
    obtain ⟨r, hr⟩ := ProjectSuffix.qgz.exists_apply (apply_eq_some.1 hq).1
    rw [((completes_of_bare hp hq hr).1 h).2]
    cases fs.isFile q with
    | true =>
      exact ⟨(apply_eq_some.1 hq).2.1, length_of_apply hq, clean_of_apply hq⟩
    | false =>
      exact ⟨(apply_eq_some.1 hr).2.1, length_of_apply hr, clean_of_apply hr⟩

lemma length_visible_of_double (hr : p.root = .double) (hne : p.parts ≠ []) (he : Clean p) :
    (visible p).parts.length < p.parts.length := by
  obtain ⟨a, r, hp⟩ := exists_cons_of_ne_nil hne
  have ht : ∃ back : Text, p.str = '/' :: '/' :: (a ++ back) ∧ components back = r ∧
      back.head?.all (· = '/') = true := by
    have hst : p.str = '/' :: '/' :: ['/'].intercalate p.parts := by
      rw [PosixPath.str, if_neg (by simp [hr]), hr]
      rfl
    rw [hst, hp]
    cases r with
    | nil => exact ⟨[], by simp, rfl, rfl⟩
    | cons b r =>
      let l : PosixPath := ⟨.none, b :: r,
        fun q hq => p.isPart_of_mem q (hp ▸ mem_cons_of_mem _ hq),
        fun q hq => p.slash_notMem q (hp ▸ mem_cons_of_mem _ hq)⟩
      refine ⟨'/' :: ['/'].intercalate (b :: r), by simp, ?_, rfl⟩
      have hl := components_append_slash [] (['/'].intercalate (b :: r))
      rw [nil_append, components_nil, nil_append] at hl
      rw [hl]
      exact l.components_intercalate
  obtain ⟨back, hst, hba, hd⟩ := ht
  have hh : ∀ c ∈ '/' :: (a ++ back), c ≠ '?' ∧ c ≠ '#' ∧ (Symbol.char c).isUnsafe = false :=
    fun c hc => isPathChar_iff.1 (clean_iff_str.1 he c (hst ▸ mem_cons_of_mem _ hc))
  have hn : (Url.splitNetloc (.ofText ('/' :: '/' :: (a ++ back)))).2 = .ofText back := by
    change (Template.ofText (a ++ back)).dropWhile (fun b => !b.isDelim) = _
    have hf : ∀ b ∈ Template.ofText a, (!b.isDelim) := by
      intro b hb
      obtain ⟨c, hc, rfl⟩ := List.mem_map.1 hb
      have hl : c ≠ '/' := ne_of_mem_of_not_mem hc (p.slash_notMem a (by simp [hp]))
      have hk := hh c (by simp [hc])
      simp [Symbol.isDelim, hl, hk.1, hk.2.1]
    rw [Template.ofText, map_append, ← Template.ofText, ← Template.ofText,
      dropWhile_append_of_pos hf]
    cases back with
    | nil => rfl
    | cons c back =>
      have hc : c = '/' := by simpa using hd
      rw [hc]
      rfl
  have hpa : (Url.urlsplit (.ofText p.str)).path = .ofText back := by
    rw [hst, path_urlsplit_of_rooted fun c hc => (hh c hc).2.2, hn]
    refine splitTail_of_notMem (fun hm => ?_) (fun hm => ?_)
    · exact (hh '?' (by simp [hm])).1 rfl
    · exact (hh '#' (by simp [hm])).2.1 rfl
  rw [visible, hpa, Template.render_ofText, PosixPath.parse_parts, hba, hp, length_cons]
  exact Nat.lt_succ_self _

lemma plainPath_of_completes (h : Completes fs (visible p) q) (ho : p.isAbsolute)
    (hne : p.parts ≠ []) (he : q.parts.length = p.parts.length) (hl : Clean q → Clean p) :
    PlainPath p := by
  obtain ⟨-, hv, hm⟩ := h.preserves
  have hp : Clean p := hl (hm (clean_visible p))
  refine plainPath_iff.2 ⟨?_, hp⟩
  cases hr : p.root with
  | none => simp [PosixPath.isAbsolute, hr] at ho
  | single => rfl
  | double =>
    have hh := length_visible_of_double hr hne hp
    omega

lemma eq_of_completes_sibling {sfx s : ProjectSuffix} (hp : sfx.apply f = some p)
    (hq : s.apply f = some q) (ho : p.isAbsolute) (h : Completes fs (visible p) q) :
    q = p := by
  have hne : p.parts ≠ [] := by simp [(apply_eq_some.1 hp).2.2]
  have hl := (length_of_apply hq).trans (length_of_apply hp).symm
  have hk := (apply_of_apply hq).trans hp
  have hi := plainPath_of_completes h ho hne hl (clean_of_apply hk)
  rw [visible_of_plainPath hi] at h
  exact h.self (isProject_of_apply hp)

lemma parts_ne_nil_of_isProject (h : FileSystem.isProject p) : p.parts ≠ [] := by
  intro hn
  rw [FileSystem.isProject, PosixPath.suffix, PosixPath.name, hn] at h
  exact absurd h (by decide)

structure Manager.ServesFiles (cm : Manager) (fs : FileSystem) : Prop where
  handles : cm.hasHandler "file" = true
  reads : ∀ url : Url, url.scheme = fileScheme → cm.projectMetadata url = fs.projectMetadata url

variable {cm : Manager} {cache : Entries} {url : Url} {e : CacheEntry} {md : ProjectMetadata}

lemma FileSystem.projectMetadata_of_there (h : Completes fs (rootPath url) p)
    (hmd : fs.fileMetadata p = some md) : fs.projectMetadata url = .ok md := by
  have hh := checkFilepath_of_completes h
  rw [rootPath] at hh
  rw [projectMetadata, hh]
  simp [hmd]

lemma entryUrl_of_absolute (h : p.isAbsolute) :
    (Manager.entryUrl (.ofList p.str)).scheme = fileScheme ∧
      rootPath (Manager.entryUrl (.ofList p.str)) = visible p := by
  have hh : p.str.head? = some '/' := by
    refine PosixPath.head?_str fun hr => ?_
    simp [PosixPath.isAbsolute, hr] at h
  rw [Manager.entryUrl, String.toList_ofList, validateUrl, if_pos (scheme_urlsplit_of_rooted hh)]
  exact ⟨rfl, rfl⟩

namespace Manager

lemma ServesFiles.handles_url (h : cm.ServesFiles fs) (hscheme : url.scheme = fileScheme) :
    cm.hasHandler (.ofList url.scheme.render) = true := by
  rw [hscheme]
  exact h.handles

lemma checkout_eq_checkoutEntry (he : cm.ServesFiles fs) (hscheme : url.scheme = fileScheme)
    (hentry : e.md.scheme = "file") (huri : e.md.uri = .ofList p.str) (hme : e ∈ cache.items)
    (hl : Cache.Completes fs (rootPath url) p) (ho : p.isAbsolute)
    (hv : Cache.Completes fs (visible p) p) :
    (cm.checkout cache url).map Checkout.status = cm.checkoutEntry e := by
  obtain ⟨hh, hr⟩ := entryUrl_of_absolute ho
  have hget : cache.get? (.ofList p.str) = some e := huri ▸ Dict.get?_of_mem hme
  rw [checkout, if_pos (he.handles_url hscheme), he.reads url hscheme, checkoutEntry, hentry,
    if_pos he.handles, huri, he.reads _ hh]
  rw [← hr] at hv
  cases ht : fs.stat p with
  | none =>
    rw [projectMetadata_of_gone hl ht, projectMetadata_of_gone hv ht]
    simp [hget, Except.map, Checkout.status]
  | some t =>
    have hso : (fs.stat p).isSome := by simp [ht]
    obtain ⟨md, hmd, hm⟩ := exists_fileMetadata hso
    rw [projectMetadata_of_there hl hmd, projectMetadata_of_there hv hmd]
    simp only [hm, hget, Except.map]
    split <;> rfl

lemma exists_status_of_found (cache : Entries) (he : cm.ServesFiles fs)
    (hscheme : url.scheme = fileScheme) (h : fs.projectMetadata url = .ok md) :
    ∃ s, (cm.checkout cache url).map Checkout.status = .ok s ∧ s ≠ .REMOVED := by
  rw [checkout, if_pos (he.handles_url hscheme), he.reads url hscheme, h]
  cases hget : cache.get? md.uri with
  | none => exact ⟨.NEW, by simp [Except.map, hget, Checkout.status], by decide⟩
  | some e =>
    by_cases hn : e.md.lastModified < md.lastModified
    · exact ⟨.NEEDUPDATE, by simp [Except.map, hget, hn, Checkout.status], by decide⟩
    · exact ⟨.UNCHANGED, by simp [Except.map, hget, hn, Checkout.status], by decide⟩

lemma exists_metadata_of_checkoutEntry {s : CheckoutStatus}
    (h : cm.checkoutEntry e = .ok s) (ht : s ≠ .REMOVED) :
    ∃ md, cm.projectMetadata (entryUrl e.md.uri) = .ok md := by
  rw [checkoutEntry] at h
  split at h
  · split at h
    next md hmd => exact ⟨md, hmd⟩
    · cases h
      exact absurd rfl ht
    · cases h
  · cases h

lemma completes_of_agree (hg : ∀ (fs : FileSystem) (cm : Manager), cm.ServesFiles fs →
      (cm.checkout cache url).map Checkout.status = cm.checkoutEntry e)
    (hscheme : url.scheme = fileScheme) (huri : e.md.uri = .ofList p.str) (ho : p.isAbsolute)
    (hfound : Cache.Completes (storagesWith (some q) none).files (rootPath url) q) :
    Cache.Completes (storagesWith (some q) none).files (visible p) q := by
  have he : (storageManager (storagesWith (some q) none)).ServesFiles
      (storagesWith (some q) none).files :=
    ⟨rfl, fun url h => if_pos h⟩
  have hst : ((storagesWith (some q) none).files.stat q).isSome := by simp [storagesWith]
  obtain ⟨hh, hr⟩ := entryUrl_of_absolute ho
  obtain ⟨md, hmd, -⟩ := exists_fileMetadata hst
  obtain ⟨s, ht, hne⟩ := exists_status_of_found cache he hscheme
    (projectMetadata_of_there hfound hmd)
  rw [hg _ _ he] at ht
  obtain ⟨md', hm⟩ := exists_metadata_of_checkoutEntry ht hne
  rw [huri, he.reads _ hh] at hm
  obtain ⟨w, hw, hd⟩ := projectMetadata_eq_ok hm
  have hwq : w = q := by
    by_contra hne
    simp [FileSystem.fileMetadata, storagesWith, hne] at hd
  rwa [hr, hwq] at hw

/-- The checkout of the url that a file was loaded from and that of its entry agree, whatever is in the
storage, exactly if the url has the suffix of a project and its path is left as it is by `urlsplit`. -/
theorem checkout_agrees_iff {fs₀ : FileSystem} (hscheme : url.scheme = fileScheme)
    (hloaded : fs₀.projectMetadata url = .ok e.md) (hmem : e ∈ cache.items) :
    (∀ (fs : FileSystem) (cm : Manager), cm.ServesFiles fs →
        (cm.checkout cache url).map Checkout.status = cm.checkoutEntry e) ↔
      FileSystem.isProject (rootPath url) = true ∧ PlainPath (rootPath url) := by
  obtain ⟨p, hp, hmd⟩ := projectMetadata_eq_ok hloaded
  have huri := uri_of_fileMetadata hmd
  obtain ⟨ht, -, -⟩ := hp.preserves
  have hl : p.isAbsolute = true := by
    rw [PosixPath.isAbsolute, ht]
    exact hp.absolute
  constructor
  · intro hg
    cases ho : FileSystem.isProject (rootPath url) with
    | true =>
      have he := hp.self ho
      have hfound : Cache.Completes (storagesWith (some p) none).files (rootPath url) p :=
        ⟨hp.absolute, fun _ => he, fun hn => by simp [ho] at hn⟩
      have hv := completes_of_agree hg hscheme huri hl hfound
      have hne := parts_ne_nil_of_isProject (he ▸ ho)
      exact ⟨rfl, he ▸ plainPath_of_completes hv hl hne rfl id⟩
    | false =>
      -- the storage has only the file with the other suffix
      obtain ⟨q, hq, -, -⟩ := hp.suffixed ho
      obtain ⟨r, hr⟩ := ProjectSuffix.qgz.exists_apply (apply_eq_some.1 hq).1
      have hne := ne_of_apply hq hr
      obtain ⟨-, hpq⟩ := (completes_of_bare ho hq hr).1 hp
      cases hf : fs₀.isFile q with
      | true =>
        obtain rfl : p = q := by rw [hpq, if_pos hf]
        have hfound : Cache.Completes (storagesWith (some r) none).files (rootPath url) r :=
          (completes_of_bare ho hq hr).2 ⟨hp.absolute, by simp [storagesWith, hne]⟩
        have hv := completes_of_agree hg hscheme huri hl hfound
        exact absurd (eq_of_completes_sibling hq hr hl hv) hne.symm
      | false =>
        obtain rfl : p = r := by rw [hpq, if_neg (by simp [hf])]
        have hfound : Cache.Completes (storagesWith (some q) none).files (rootPath url) q :=
          (completes_of_bare ho hq hr).2 ⟨hp.absolute, by simp [storagesWith]⟩
        have hv := completes_of_agree hg hscheme huri hl hfound
        exact absurd (eq_of_completes_sibling hr hq hl hv) hne
  · rintro ⟨ho, hi⟩ fs cm hse
    have he := hp.self ho
    rw [← he] at ho hi
    have hentry : e.md.scheme = "file" := by
      obtain ⟨t, -, heq⟩ := Option.map_eq_some_iff.1 hmd
      rw [← heq]
    have hfound : Cache.Completes fs p p :=
      ⟨hl, fun _ => rfl, fun hn => by simp [ho] at hn⟩
    refine checkout_eq_checkoutEntry hse hscheme hentry huri hmem ?_ hl ?_
    · rwa [← he]
    · rwa [visible_of_plainPath hi]

end Manager

theorem checkout_agrees_iff_map : ((storageManager (storagesWith none none)).checkout
        (.roomy [newMap "/srv/map.qgs" "file" "file"] (by decide)) (fileUrl "/srv/map.qgs")).map
          Checkout.status =
      (storageManager (storagesWith none none)).checkoutEntry (newMap "/srv/map.qgs" "file" "file") := by
  have hp : PlainPath (rootPath (fileUrl "/srv/map.qgs")) :=
    plainPath_iff.2 ⟨by decide +kernel, clean_iff_str.2 (List.all_eq_true.1 (by decide +kernel))⟩
  have hl : mapStorages.files.projectMetadata (fileUrl "/srv/map.qgs") =
      .ok (newMap "/srv/map.qgs" "file" "file").md := by
    decide +kernel
  exact (Manager.checkout_agrees_iff rfl hl (by simp)).2 ⟨by decide +kernel, hp⟩
    (storagesWith none none).files _ ⟨rfl, fun url h => if_pos h⟩

def hashMap : CacheEntry where
  md := ⟨"/srv/a#b.qgs", "a#b", "file", some "file", 1⟩
  project := mapContent
  timestamp := 2
  loadMemoryBytes := none
  loadTimeMs := 10

def hashStorages : Storages := storagesWith (some (.parse "/srv/a#b.qgs".toList)) none

/-- The map is unchanged when it is checked out by its url, and removed when by its entry: the uri is cut
at the hash sign. -/
theorem not_checkout_agrees_hashMap :
    hashStorages.files.projectMetadata (fileUrl "/srv/a#b.qgs") = .ok hashMap.md ∧
      (storageManager hashStorages).checkout (.roomy [hashMap] (by decide)) (fileUrl "/srv/a#b.qgs") =
        .ok (.unchanged hashMap) ∧
      (storageManager hashStorages).checkoutEntry hashMap = .ok .REMOVED :=
  ⟨by decide +kernel, by decide +kernel, by decide +kernel⟩

end QJazz.Cache
