import QJazz.Config.Update
import QJazz.Json.Merge

/-! The settings of a worker are read from its environment, over which the dumped configuration is
laid again at every update. -/
namespace QJazz.Config
open Json Option

/-- A field that is not a model. A validated value is read back unchanged, also when it is laid over
the value it came from. -/
structure Leaf where
  default : Json
  read : Json → Option Json
  read_default : read default = some default
  read_self : ∀ v w, read v = some w → read w = some w
  read_over : ∀ v w, v.wellFormed = true → read v = some w → read (overlay v w) = some w

def Leaf.checked (default : Json) (accepts : Json → Bool) (h : accepts default = true) : Leaf where
  default := default
  read v := if accepts v then some v else none
  read_default := if_pos h
  read_self v w hw := by
    obtain ⟨hv, hvw⟩ := Option.ite_none_right_eq_some.1 hw
    cases hvw
    exact if_pos hv
  read_over v w hwf hw := by
    obtain ⟨hv, hvw⟩ := Option.ite_none_right_eq_some.1 hw
    cases hvw
    rw [overlay_self v hwf, if_pos hv]

def isInt : Json → Bool
  | .num n => n.den = 1
  | _ => false

def Leaf.int (default : ℤ) : Leaf := .checked (.num default) isInt rfl

def Leaf.complete (leaf : Leaf) : Option Json → Option Json
  | none => some leaf.default
  | some v => leaf.read v

lemma Leaf.int_read {d : ℤ} {v w : Json} (h : (Leaf.int d).read v = some w) :
    w = v ∧ ∃ n : ℤ, v = .num n := by
  obtain ⟨hv, hvw⟩ := ite_none_right_eq_some.1 h
  cases hvw
  refine ⟨rfl, ?_⟩
  cases v with
  | num q =>
    simp only [isInt, decide_eq_true_eq] at hv
    exact ⟨q.num, congrArg Json.num (Rat.coe_int_num_of_den_eq_one hv).symm⟩
  | null | bool _ | str _ | arr _ | obj _ => cases hv

/-- A model forbids the keys it does not declare, or ignores them. -/
inductive Schema where
  | value (leaf : Leaf)
  | model (forbid : Bool) (names : List (String × Schema))

def isSection : Option Json → Bool
  | none => true
  | some v => v.isObj

namespace Schema

mutual
def complete : Schema → Option Json → Option Json
  | .value leaf, given => leaf.complete given
  | .model forbid names, given =>
    if isSection given = false then none
    else if forbid && (fields given).any fun item => (names.lookup item.1).isNone then none
    else (completeFields names (fields given)).map .obj
termination_by structural s => s

def completeFields : List (String × Schema) → Fields → Option Fields
  | [], _ => some []
  | (k, s) :: rest, given =>
    (s.complete (given.lookup k)).bind fun v =>
      (completeFields rest given).map fun vs => (k, v) :: vs
termination_by structural names => names
end

mutual
/-- Which fields of an instance are models themselves. -/
def shape : Schema → Shape
  | .value _ => .value
  | .model _ names => .model (shapes names)
termination_by structural s => s

def shapes : List (String × Schema) → Model
  | [] => []
  | (k, s) :: rest => (k, s.shape) :: shapes rest
termination_by structural names => names
end

mutual
def distinct : Schema → Bool
  | .value _ => true
  | .model _ names => decide ((names.map Prod.fst).Nodup) && distinctFields names
termination_by structural s => s

def distinctFields : List (String × Schema) → Bool
  | [] => true
  | (_, s) :: rest => s.distinct && distinctFields rest
termination_by structural names => names
end

def sub : Schema → List String → Option Schema
  | s, [] => some s
  | .model _ names, k :: path => (names.lookup k).bind fun s => s.sub path
  | .value _, _ :: _ => none

mutual
def plain : Schema → Option Json → Bool
  | .value leaf, some v => v ≠ .null && !v.isObj && (leaf.read v).all fun w => !w.isObj
  | .value _, none => true
  | .model _ names, given => plainFields names (fields given)
termination_by structural s => s

def plainFields : List (String × Schema) → Fields → Bool
  | [], _ => true
  | (k, s) :: rest, given => s.plain (given.lookup k) && plainFields rest given
termination_by structural names => names
end

variable {s t : Schema} {f : Bool} {names : List (String × Schema)} {l : Leaf}
  {given given' old env : Option Json} {v w c c' patch : Json} {k : String} {path : List String}

lemma sub_cons (h : s.sub (k :: path) = some t) : ∃ f names r,
    s = .model f names ∧ names.lookup k = some r ∧ r.sub path = some t := by
  cases s with
  | value l => cases h
  | model f names =>
    obtain ⟨r, hr, hu⟩ := bind_eq_some_iff.1 h
    exact ⟨f, names, r, rfl, hr, hu⟩

lemma lookup_shapes : (shapes names).lookup k = (names.lookup k).map shape := by
  induction names with
  | nil =>
    rw [shapes]
    rfl
  | cons i names ih =>
    obtain ⟨j, s⟩ := i
    rw [shapes, List.lookup_cons, List.lookup_cons]
    cases k == j with
    | true => rfl
    | false => exact ih

lemma complete_model (h : (model f names).complete given = some c) :
    isSection given ∧ ∃ items, c = .obj items ∧
      completeFields names (fields given) = some items := by
  rw [complete] at h
  split at h
  · cases h
  · rename_i he
    split at h
    · cases h
    · obtain ⟨items, hi, rfl⟩ := map_eq_some_iff.1 h
      exact ⟨by simpa using he, items, rfl, hi⟩

lemma lookup_completeFields {given i : Fields} (h : completeFields names given = some i)
    (hk : names.lookup k = some s) :
    ∃ v, s.complete (given.lookup k) = some v ∧ i.lookup k = some v := by
  induction names generalizing i with
  | nil => cases hk
  | cons e names ih =>
    obtain ⟨j, r⟩ := e
    rw [completeFields] at h
    obtain ⟨v, hv, h⟩ := bind_eq_some_iff.1 h
    obtain ⟨vs, hvs, rfl⟩ := map_eq_some_iff.1 h
    rw [List.lookup_cons] at hk ⊢
    by_cases hj : k = j
    · subst hj
      rw [beq_self_eq_true] at hk ⊢
      cases hk
      exact ⟨v, hv, rfl⟩
    · rw [beq_false_of_ne hj] at hk ⊢
      exact ih hvs hk

lemma complete_sub (path : List String) (h : s.complete given = some c)
    (hu : s.sub path = some t) :
    ∃ v, t.complete (valueAt path given) = some v ∧ valueAt path (some c) = some v := by
  induction path generalizing s given c with
  | nil =>
    cases hu
    exact ⟨c, h, rfl⟩
  | cons k path ih =>
    obtain ⟨f, names, r, rfl, hr, hu⟩ := sub_cons hu
    obtain ⟨-, i, rfl, hi⟩ := complete_model h
    obtain ⟨v, hv, hl⟩ := lookup_completeFields hi hr
    obtain ⟨w, hw, hat⟩ := ih hv hu
    refine ⟨w, hw, ?_⟩
    rw [valueAt_cons, fields_obj, hl]
    exact hat

mutual
lemma complete_ext : (s : Schema) → {given given' : Option Json} → {c c' : Json} →
    s.distinct → s.complete given = some c → s.complete given' = some c' →
    (∀ path l, s.sub path = some (.value l) →
      l.complete (valueAt path given) = l.complete (valueAt path given')) → c = c'
  | .value l, given, given', c, c', _, hc, hc', heq => by
    rw [complete] at hc hc'
    have hl := heq [] l rfl
    rw [valueAt_nil, valueAt_nil, hc, hc', Option.some.injEq] at hl
    exact hl
  | .model f names, given, given', c, c', hd, hc, hc', heq => by
    rw [distinct, Bool.and_eq_true, decide_eq_true_eq] at hd
    obtain ⟨-, e, rfl, ht⟩ := complete_model hc
    obtain ⟨-, i, rfl, hi⟩ := complete_model hc'
    rw [completeFields_ext names hd.2 ht hi]
    intro k r hm path l hu
    apply heq (k :: path) l
    rw [sub, lookup_of_mem hd.1 hm]
    exact hu
termination_by structural s => s

lemma completeFields_ext : (names : List (String × Schema)) → {given given' e i : Fields} →
    distinctFields names → completeFields names given = some e →
    completeFields names given' = some i →
    (∀ k r, (k, r) ∈ names → ∀ path l, r.sub path = some (.value l) →
      l.complete (valueAt path (given.lookup k)) = l.complete (valueAt path (given'.lookup k))) →
    e = i
  | [], given, given', e, i, _, h, h', _ => by
    rw [completeFields, Option.some.injEq] at h h'
    exact h.symm.trans h'
  | (k, r) :: rest, given, given', e, i, hd, h, h', heq => by
    rw [distinctFields, Bool.and_eq_true] at hd
    rw [completeFields] at h h'
    obtain ⟨v, hv, h⟩ := bind_eq_some_iff.1 h
    obtain ⟨vs, hvs, rfl⟩ := map_eq_some_iff.1 h
    obtain ⟨v', hv', h'⟩ := bind_eq_some_iff.1 h'
    obtain ⟨vs', hvs', rfl⟩ := map_eq_some_iff.1 h'
    rw [complete_ext r hd.1 hv hv' (heq k r List.mem_cons_self),
      completeFields_ext rest hd.2 hvs hvs' fun j t hm => heq j t (List.mem_cons_of_mem _ hm)]
termination_by structural names => names
end

lemma plain_lookup {given : Fields} (h : plainFields names given)
    (hk : names.lookup k = some s) : s.plain (given.lookup k) = true := by
  induction names with
  | nil => cases hk
  | cons i names ih =>
    obtain ⟨j, r⟩ := i
    rw [plainFields, Bool.and_eq_true] at h
    rw [List.lookup_cons] at hk
    by_cases hj : k = j
    · subst hj
      rw [beq_self_eq_true] at hk
      cases hk
      exact h.1
    · rw [beq_false_of_ne hj] at hk
      exact ih h.2 hk

lemma plain_sub (h : s.plain given) (hu : s.sub path = some (.value l))
    (hv : valueAt path given = some v) :
    v ≠ .null ∧ v.isObj = false ∧ ∀ w, l.read v = some w → w.isObj = false := by
  induction path generalizing s given with
  | nil =>
    cases hu
    rw [valueAt_nil] at hv
    subst hv
    simp only [plain, Bool.and_eq_true, decide_eq_true_eq, Bool.not_eq_true', Option.all_eq_true] at h
    exact ⟨h.1.1, h.1.2, fun w hw => h.2 w hw⟩
  | cons k path ih =>
    obtain ⟨f, names, r, rfl, hr, hu⟩ := sub_cons hu
    rw [plain] at h
    exact ih (plain_lookup h hr) hu hv

lemma mergeItem_none {sh : Option Shape} : mergeItem sh none v = v := by
  cases v with
  | obj i => exact mergeItem_replace (by simp)
  | null | bool _ | num _ | str _ | arr _ => simp only [mergeItem]

lemma mergeItem_of_not_isObj {sh : Option Shape} (h : v.isObj = false) :
    mergeItem sh old v = v := by
  cases v with
  | obj i => cases h
  | null | bool _ | num _ | str _ | arr _ => simp only [mergeItem]

lemma mergeItem_obj (m : Model) (old : Option Json) {i : Fields} (hd : (i.map Prod.fst).Nodup) :
    ∃ res, mergeItem (some (.model m)) old (.obj i) = .obj res ∧ ∀ k, res.lookup k =
        match i.lookup k with
        | none => (fields old).lookup k
        | some v => some (mergeItem (m.lookup k) ((fields old).lookup k) v) := by
  by_cases ho : ∃ dct, old = some (.obj dct)
  · obtain ⟨dct, rfl⟩ := ho
    refine ⟨dictMerge m dct i, mergeItem_model, fun k => ?_⟩
    cases hk : i.lookup k with
    | none => exact lookup_dictMerge_of_notMem (notMem_of_lookup hk)
    | some v => exact lookup_dictMerge_of_mem hd (mem_of_lookup hk)
  · refine ⟨i, mergeItem_replace fun ⟨_, dct, _, h⟩ => ho ⟨dct, h⟩, fun k => ?_⟩
    have hf : fields old = [] := by
      cases old with
      | none => rfl
      | some u =>
        apply fields_of_not_isObj
        rw [Bool.eq_false_iff]
        intro hu
        obtain ⟨dct, rfl⟩ := exists_obj hu
        exact ho ⟨dct, rfl⟩
    rw [hf]
    cases i.lookup k with
    | none => rfl
    | some v => exact congrArg some mergeItem_none.symm

lemma unblocked_of_complete (hw : patch.wellFormed) (hu : s.sub path = some (.value l))
    (h : s.complete (some (laidOver env (mergeItem (some s.shape) old patch))) = some c) :
    patch.Unblocked path := by
  induction path generalizing s env old patch c with
  | nil => trivial
  | cons k path ih =>
    obtain ⟨f, names, r, rfl, hr, hu⟩ := sub_cons hu
    have hj : patch.isObj := by
      by_contra hnot
      rw [Bool.not_eq_true] at hnot
      rw [mergeItem_of_not_isObj hnot, laidOver_of_not_isObj hnot] at h
      exact absurd (complete_model h).1 (by simp [isSection, hnot])
    obtain ⟨i, rfl⟩ := exists_obj hj
    refine ⟨rfl, fun v hv => ?_⟩
    obtain ⟨m, hm, hl⟩ := mergeItem_obj (shapes names) old (wellFormed_obj_iff.1 hw).1
    obtain ⟨res, hre, he⟩ := laidOver_obj env m
    rw [shape, hm, hre] at h
    obtain ⟨-, o, rfl, ho⟩ := complete_model h
    obtain ⟨x, hx, -⟩ := lookup_completeFields ho hr
    have hk : m.lookup k =
        some (mergeItem (some r.shape) ((fields old).lookup k) v) := by
      rw [hl, show i.lookup k = some v from hv, lookup_shapes, hr]
      rfl
    rw [fields_obj, he k _ hk] at hx
    exact ih (wellFormed_of_lookup hw hv) hu hx

lemma valueAt_mergeItem (hw : patch.wellFormed) (hopen : patch.Unblocked path)
    (hu : s.sub path = some (.value l)) :
    valueAt path (some (mergeItem (some s.shape) old patch)) =
      (valueAt path (some patch)).or (valueAt path old) := by
  induction path generalizing s old patch with
  | nil =>
    cases hu
    cases patch with
    | obj i =>
      rw [mergeItem_replace (by simp [shape])]
      rfl
    | null | bool _ | num _ | str _ | arr _ => simp only [mergeItem, valueAt_nil, some_or]
  | cons k path ih =>
    obtain ⟨f, names, r, rfl, hr, hu⟩ := sub_cons hu
    obtain ⟨i, rfl⟩ := exists_obj hopen.1
    obtain ⟨m, hm, hl⟩ := mergeItem_obj (shapes names) old (wellFormed_obj_iff.1 hw).1
    rw [shape, hm, valueAt_cons, valueAt_cons, valueAt_cons, fields_obj, fields_obj, hl]
    cases hk : i.lookup k with
    | none => rw [valueAt_none, none_or]
    | some v =>
      rw [lookup_shapes, hr]
      exact ih (wellFormed_of_lookup hw hk) (hopen.2 v hk) hu

end Schema

/-- The configuration of a worker process: its logging section, the fields of its QGIS section, and
the parser of patches sent as text. -/
structure Settings where
  logging : Schema
  qgis : List (String × Schema)
  loads : String → Option Document
  distinct : (Schema.model true qgis).distinct = true
  chunkSize : qgis.lookup "max_chunk_size" = some (.value (.int (1024 * 1024)))

namespace Settings

/-- The sections added to the service. The worker section ignores what it does not declare; the QGIS
section does not. -/
def sections (cfg : Settings) : List (String × Schema) :=
  [("logging", cfg.logging), ("worker", .model false [("qgis", .model true cfg.qgis)])]

def root (cfg : Settings) : Schema := .model false cfg.sections

/-- `ConfBuilder.validate`: what is passed has precedence over the environment. -/
def validate (cfg : Settings) (env data : Fields) : Option Fields :=
  match cfg.root.complete (some (overlay (.obj env) (.obj data))) with
  | some (.obj conf) => some conf
  | _ => none

/-- `ConfBuilder.update_config` of a service that holds a validated configuration. -/
def updateConfig (cfg : Settings) (env conf : Fields) (obj : Json) : Option Fields :=
  if obj.truthy then
    match obj with
    | .obj patch => cfg.validate env (dictMerge (Schema.shapes cfg.sections) conf patch)
    | _ => none
  else some conf

/-- The configuration message of the worker: an object, nothing, or a text to parse. -/
def putConfig (cfg : Settings) (env conf : Fields) (config : Document) : Option Fields :=
  match config.value with
  | .str text => (cfg.loads text).bind fun data => cfg.updateConfig env conf data.value
  | .null => cfg.updateConfig env conf .null
  | .obj patch => cfg.updateConfig env conf (.obj patch)
  | _ => none

variable {cfg : Settings} {env conf conf' d : Fields} {patch : Fields} {path : List String}
  {l : Leaf} {t : Schema} {v : Json}

lemma complete_of_validate (h : cfg.validate env d = some conf) :
    cfg.root.complete (some (overlay (.obj env) (.obj d))) = some (.obj conf) := by
  unfold validate at h
  split at h
  · rename_i heq
    rw [heq]
    cases h
    rfl
  · cases h

lemma valueAt_updateConfig (path : List String) (hw : (obj patch).wellFormed)
    (hp : patch ≠ []) (h : cfg.updateConfig env conf (.obj patch) = some conf')
    (hu : cfg.root.sub path = some (.value l)) : (obj patch).Unblocked path ∧
      ∀ v, (valueAt path (some (.obj patch))).or (valueAt path (some (.obj conf))) = some v →
        ∃ w, l.read (laidOver (valueAt path (some (.obj env))) v) = some w ∧
          valueAt path (some (.obj conf')) = some w := by
  rw [updateConfig, if_pos (by simpa [truthy] using hp)] at h
  have hc := complete_of_validate h
  have hm : Json.obj (dictMerge (Schema.shapes cfg.sections) conf patch) =
      mergeItem (some cfg.root.shape) (some (.obj conf)) (.obj patch) := by
    rw [root, Schema.shape, mergeItem_model]
  rw [hm, show overlay (.obj env) _ = laidOver (some (.obj env)) _ from rfl] at hc
  have hopen := Schema.unblocked_of_complete hw hu hc
  refine ⟨hopen, fun v hv => ?_⟩
  obtain ⟨w, hr, hat⟩ := Schema.complete_sub path hc hu
  refine ⟨w, ?_, hat⟩
  rw [← Schema.valueAt_mergeItem hw hopen hu] at hv
  rw [valueAt_laidOver hv, Schema.complete] at hr
  exact hr

lemma updateConfig_validated (hp : patch ≠ [])
    (h : cfg.updateConfig env conf (.obj patch) = some conf') :
    ∃ given, cfg.root.complete given = some (.obj conf') := by
  rw [updateConfig, if_pos (by simpa [truthy] using hp)] at h
  exact ⟨_, complete_of_validate h⟩

end Settings

end QJazz.Config
