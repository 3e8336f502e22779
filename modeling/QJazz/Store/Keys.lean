import QJazz.Lexical.PosixPath

/-! Uploads and downloads compute the key of an object by joining paths, while the stat, delete and
list requests concatenate texts. -/
namespace QJazz.Store

open Lexical List PosixPath

inductive Failure where
  /-- `PreconditionError` -/
  | precondition (message : String)
  /-- `StoreError` with the status of the `S3Error` -/
  | store (status : ℕ)
  deriving DecidableEq

/-- The `object_name` of `bucket_destination` and of `bucket_reader`; `start` is the source's
prefix. -/
def objectName (start : Option Text) (name : Text) : Except Failure Text :=
  if name = [] then .error (.precondition "Object must have a valid name")
  else
    match start with
    | some start =>
      if start ≠ [] then .ok ((PosixPath.parse start).join (PosixPath.parse name)).str else .ok name
    | none => .ok name

def pushKey (identity name : Text) : Except Failure Text :=
  objectName (some identity) name

def pullKey (identity name : Text) : Except Failure Text :=
  objectName (some identity) name

def root (identity : Text) : Text :=
  identity ++ ['/']

def statKey (identity name : Text) : Text :=
  root identity ++ name

def deleteKey (identity name : Text) : Text :=
  identity ++ '/' :: name

/-- Every operation on the name addresses the same key, which starts with the identity. -/
def OneKey (identity name : Text) : Prop :=
  ∃ key, pushKey identity name = .ok key ∧ pullKey identity name = .ok key ∧
    statKey identity name = key ∧ deleteKey identity name = key ∧ root identity <+: key

def Addresses (identity name key : Text) : Prop :=
  pushKey identity name = .ok key ∨ pullKey identity name = .ok key ∨
    statKey identity name = key ∨ deleteKey identity name = key

def Clean (identity name : Text) : Prop :=
  isPart identity = true ∧ ∀ piece ∈ name.splitOn '/', isPart piece = true

instance (identity name : Text) : Decidable (Clean identity name) :=
  inferInstanceAs (Decidable (_ ∧ _))

variable {identity other name key : Text}

lemma deleteKey_eq_statKey : deleteKey identity name = statKey identity name := by
  simp [deleteKey, statKey, root]

lemma root_prefix_statKey : root identity <+: statKey identity name :=
  prefix_append _ _

lemma oneKey_iff : OneKey identity name ↔ pushKey identity name = .ok (statKey identity name) := by
  constructor
  · rintro ⟨key, hp, _, rfl, _⟩
    exact hp
  · intro h
    exact ⟨_, h, h, rfl, deleteKey_eq_statKey, root_prefix_statKey⟩

lemma Clean.name_ne_nil (h : Clean identity name) : name ≠ [] := by
  rintro rfl
  exact absurd (h.2 [] (by simp)) (by simp [isPart])

lemma Clean.identity_ne_nil (h : Clean identity name) : identity ≠ [] := by
  rintro rfl
  exact absurd h.1 (by simp [isPart])

lemma clean_iff (hl : '/' ∉ identity) :
    Clean identity name ↔ ∀ p ∈ (statKey identity name).splitOn '/', isPart p = true := by
  rw [← deleteKey_eq_statKey, deleteKey, splitOn_append_cons_self, splitOn_eq_singleton hl]
  simp [Clean]

lemma pushKey_of_relative (hl : '/' ∉ identity) (hi : identity ≠ [])
    (hn : name ≠ []) (hh : name.head? ≠ some '/') :
    pushKey identity name = .ok (PosixPath.parse (statKey identity name)).str := by
  rw [pushKey, objectName, if_neg hn, ← deleteKey_eq_statKey, deleteKey,
    ← join_parse hi hl hh]
  simp [hi]

lemma pushKey_of_absolute (hi : identity ≠ []) (hh : name.head? = some '/') :
    pushKey identity name = .ok (PosixPath.parse name).str := by
  have hn : name ≠ [] := by
    rintro rfl
    simp at hh
  simp [pushKey, objectName, hn, hi, join_parse_of_absolute hh]

lemma head?_statKey (hl : '/' ∉ identity) (hi : identity ≠ []) :
    (statKey identity name).head? ≠ some '/' := by
  rw [← deleteKey_eq_statKey, deleteKey, List.head?_append_of_ne_nil _ hi]
  exact fun h => hl (mem_of_head? h)

lemma pushKey_of_clean (hl : '/' ∉ identity) (h : Clean identity name) :
    pushKey identity name = .ok (statKey identity name) := by
  have hh : name.head? ≠ some '/' := by
    cases name with
    | nil => simp
    | cons c name =>
      intro hc
      have hm : [] ∈ (c :: name).splitOn '/' := by
        simp [Option.some.inj hc, splitOn_cons_eq_if_modifyHead]
      exact absurd (h.2 [] hm) (by simp [isPart])
  rw [pushKey_of_relative hl h.identity_ne_nil h.name_ne_nil hh,
    str_parse_of_isPart ((clean_iff hl).1 h)]

lemma clean_of_pushKey (hl : '/' ∉ identity)
    (h : pushKey identity name = .ok (statKey identity name)) : Clean identity name := by
  have hn : name ≠ [] := by
    rintro rfl
    simp [pushKey, objectName] at h
  have hi : identity ≠ [] := by
    rintro rfl
    simp [pushKey, objectName, hn, statKey, root] at h
  have hh : name.head? ≠ some '/' := by
    intro hab
    rw [pushKey_of_absolute hi hab, Except.ok.injEq] at h
    refine head?_statKey hl hi (h ▸ PosixPath.head?_str ?_)
    exact fun hr => root_parse_eq_none.1 hr hab
  have hd : statKey identity name ≠ ['.'] := by
    intro hd
    have hm : '/' ∈ statKey identity name := by simp [statKey, root]
    simp [hd] at hm
  rw [pushKey_of_relative hl hi hn hh, Except.ok.injEq] at h
  exact (clean_iff hl).2
    (isPart_of_str_parse (head?_statKey hl hi) hd h)

/-- Both names have one key each, and different identities address different keys. -/
def Confined (identity name other otherName : Text) : Prop :=
  OneKey identity name ∧ OneKey other otherName ∧
    (identity ≠ other → ∀ key, Addresses identity name key → ¬ Addresses other otherName key)

lemma OneKey.eq_statKey (h : OneKey identity name) (hk : Addresses identity name key) :
    key = statKey identity name := by
  rw [oneKey_iff] at h
  rcases hk with hp | hu | rfl | rfl
  · exact (Except.ok.inj (h.symm.trans hp)).symm
  · exact (Except.ok.inj (h.symm.trans hu)).symm
  · rfl
  · exact deleteKey_eq_statKey

lemma identity_eq_of_root (hh : '/' ∉ identity) (hl : '/' ∉ other)
    (h : root identity <+: key) (h' : root other <+: key) : identity = other := by
  obtain ⟨a, rfl⟩ := h
  obtain ⟨t, ht⟩ := h'
  have hp := congrArg (List.splitOn '/') ht
  simpa [root, splitOn_append_cons_self, splitOn_eq_singleton hh,
    splitOn_eq_singleton hl, eq_comm] using congrArg List.head? hp

variable {otherName : Text}

theorem confined_iff_clean (hslash : '/' ∉ identity) (hslash' : '/' ∉ other) :
    Confined identity name other otherName ↔ Clean identity name ∧ Clean other otherName := by
  constructor
  · rintro ⟨h, h', _⟩
    exact ⟨clean_of_pushKey hslash (oneKey_iff.1 h), clean_of_pushKey hslash' (oneKey_iff.1 h')⟩
  · rintro ⟨h, h'⟩
    have hn := oneKey_iff.2 (pushKey_of_clean hslash h)
    have ho := oneKey_iff.2 (pushKey_of_clean hslash' h')
    refine ⟨hn, ho, fun hne key he hk => hne ?_⟩
    have ht : root identity <+: key := hn.eq_statKey he ▸ root_prefix_statKey
    have hr : root other <+: key := ho.eq_statKey hk ▸ root_prefix_statKey
    exact identity_eq_of_root hslash hslash' ht hr

theorem confined_clean : Confined "ada".toList "maps/a.tif".toList "bob".toList "a.tif".toList :=
  (confined_iff_clean (by decide) (by decide)).2 (by decide)

theorem not_confined_absolute : pushKey "ada".toList "/a.tif".toList = .ok "/a.tif".toList ∧
      pushKey "bob".toList "/a.tif".toList = .ok "/a.tif".toList ∧
      ¬ Confined "ada".toList "/a.tif".toList "bob".toList "/a.tif".toList := by
  have hd : pushKey "ada".toList "/a.tif".toList = .ok "/a.tif".toList := by decide
  have ho : pushKey "bob".toList "/a.tif".toList = .ok "/a.tif".toList := by decide
  refine ⟨hd, ho, ?_⟩
  rintro ⟨_, _, hk⟩
  exact hk (by decide) _ (.inl hd) (.inl ho)

end QJazz.Store
