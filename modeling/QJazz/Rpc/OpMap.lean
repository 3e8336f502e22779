import QJazz.Map.Wms

/-! `prepare_map_request` reads the options of a map request and adds what a WMS request cannot do
without: the coordinate system, the box, the size of the image and the layers. -/
namespace QJazz.Rpc.OpMap

open Lexical Map.Wms List Option

structure Crs where
  authid : Text
  hasAxisInverted : Bool

structure Rectangle where
  xMinimum : ℚ
  yMinimum : ℚ
  xMaximum : ℚ
  yMaximum : ℚ

namespace Rectangle

def width (r : Rectangle) : ℚ := r.xMaximum - r.xMinimum

def height (r : Rectangle) : ℚ := r.yMaximum - r.yMinimum

def isEmpty (r : Rectangle) : Bool := decide (r.width ≤ 0) || decide (r.height ≤ 0)

def invert (r : Rectangle) : Rectangle := ⟨r.yMinimum, r.xMinimum, r.yMaximum, r.xMaximum⟩

end Rectangle

/-- What is read of a project. `fromOgcWmsCrs` gives nothing for a coordinate system that is not
valid. -/
structure MapProject where
  wmsOutputCrsList : List Text
  fromOgcWmsCrs : Text → Option Crs
  defaultCrs : Crs
  wmsExtent : Rectangle
  computeExtentFromLayers : Crs → Rectangle
  transformExtent : Rectangle → Crs → Rectangle
  wmsMaxWidth : ℤ
  visibleLayers : List Text

structure Floats where
  str : ℚ → Text
  float : Text → Option ℚ

inductive MapError where
  | keyError
  | typeError
  | valueError
  | indexError
  | zeroDivision
deriving DecidableEq

inductive HeaderValue where
  | text (s : Text)
  | list (values : List Text)
deriving DecidableEq

structure MapRequest where
  headers : List (String × HeaderValue)
  options : Text

def int (q : ℚ) : ℤ := if 0 ≤ q then ⌊q⌋ else ⌈q⌉

def intText (n : ℤ) : Text := (if n < 0 then ['-'] else []) ++ Nat.toDigits 10 n.natAbs

def divide (x y : ℚ) : Except MapError ℚ := if y = 0 then .error .zeroDivision else .ok (x / y)

def paramValues (options : Text) (key : String) : List Text :=
  ((parseQsl options).filter fun x => x.1 = key).map Prod.snd

def getCrs (project : MapProject) : Crs :=
  (project.wmsOutputCrsList.findSome? project.fromOgcWmsCrs).getD project.defaultCrs

def bboxInvAspectRatio (fl : Floats) (bbox : Text) : Except MapError ℚ :=
  match (bbox.splitOn ',').mapM fl.float with
  | none => .error .valueError
  | some (c₀ :: c₁ :: c₂ :: c₃ :: _) => divide |c₃ - c₂| |c₁ - c₀|
  | some _ => .error .indexError

def extent (project : MapProject) : Rectangle :=
  if project.wmsExtent.isEmpty then project.computeExtentFromLayers (getCrs project)
  else project.transformExtent project.wmsExtent (getCrs project)

/-- The extent with its axes in the order of the coordinate system. -/
def orientedExtent (project : MapProject) : Rectangle :=
  if (getCrs project).hasAxisInverted then (extent project).invert else extent project

def boxText (fl : Floats) (r : Rectangle) : Text :=
  [','].intercalate ([r.xMinimum, r.yMinimum, r.xMaximum, r.yMaximum].map fl.str)

/-- The ratio of the extent, which is computed after the axes have been inverted. -/
def extentRatio (project : MapProject) : Except MapError ℚ :=
  let r := orientedExtent project
  if (getCrs project).hasAxisInverted then divide r.width r.height else divide r.height r.width

/-- The header for the coordinate system and the options with it. The parameters are a dictionary of
texts, so that to ask it for the item `0` is an error. -/
def withCrs (project : MapProject) (options : Text) : Except MapError (HeaderValue × Text) :=
  if paramValues options "crs" = [] then
    .ok (.text ('[' :: (getCrs project).authid ++ [']']),
      WmsBuilder.write "crs" (getCrs project).authid options)
  else .error .keyError

def withBox (fl : Floats) (project : MapProject) (given options : Text) :
    HeaderValue × Text × Except MapError ℚ :=
  match paramValues given "bbox" with
  | [] =>
    (.text (boxText fl (orientedExtent project)),
      WmsBuilder.write "bbox" (boxText fl (orientedExtent project)) options, extentRatio project)
  | bbox :: more => (.list (bbox :: more), options, bboxInvAspectRatio fl bbox)

def defaultWidth (project : MapProject) : ℤ :=
  if project.wmsMaxWidth < 0 then 1024 else project.wmsMaxWidth

/-- The options with the size. The one that is given is a text, which can neither be multiplied nor
divided by a number that is not an integer. -/
def withSize (project : MapProject) (given options : Text) (ratio : Except MapError ℚ) :
    Except MapError Text :=
  match paramValues given "width", paramValues given "height" with
  | [], [] => ratio.map fun q =>
    WmsBuilder.write "height" (intText (int (defaultWidth project * q)))
      (WmsBuilder.write "width" (intText (defaultWidth project)) options)
  | _ :: _, [] => ratio.bind fun _ => .error .typeError
  | [], _ :: _ => ratio.bind fun _ => .error .typeError
  | _ :: _, _ :: _ => .ok options

def withLayers (project : MapProject) (given options : Text) : Text :=
  let layers := [','].intercalate project.visibleLayers
  if paramValues given "layers" = [] ∧ layers ≠ [] then WmsBuilder.write "layers" layers options
  else options

def prepareMapRequest (fl : Floats) (project : MapProject) (options : Text) :
    Except MapError MapRequest :=
  match withCrs project options with
  | .error e => .error e
  | .ok (crs, withCrs) =>
    let box := withBox fl project options withCrs
    (withSize project options box.2.1 box.2.2).map fun sized =>
      { headers := [("Content-Crs", crs), ("Content-Bbox", box.1)]
        options := withLayers project options sized }

def shown (project : MapProject) : Option Bbox → Rectangle
  | some (.Box2D xmin ymin xmax ymax) => ⟨xmin, ymin, xmax, ymax⟩
  | some (.Box3D xmin ymin _ xmax ymax _) => ⟨xmin, ymin, xmax, ymax⟩
  | none => extent project

def contentBox (n : Numerals) (fl : Floats) (project : MapProject) : Option Bbox → Text
  | some bbox => bbox.display n
  | none => boxText fl (orientedExtent project)

def Scaled (project : MapProject) (p : Params) (w h : ℤ) : Prop :=
  let ratio := (shown project p.bbox).height / (shown project p.bbox).width
  match p.width, p.height with
  | some width, some height => w = width.val ∧ h = height.val
  | some width, none => w = width.val ∧ h = int (width.val * ratio)
  | none, some height => h = height.val ∧ w = int (height.val / ratio)
  | none, none => w = defaultWidth project ∧ h = int (defaultWidth project * ratio)

structure Completes (n : Numerals) (fl : Floats) (project : MapProject) (p : Params) (options : Text)
    (req : MapRequest) : Prop where
  kept : parseQsl options <+: parseQsl req.options
  sizes : ∃ w h, Scaled project p w h ∧ ("width", intText w) ∈ parseQsl req.options ∧
    ("height", intText h) ∈ parseQsl req.options
  box : req.headers.lookup "Content-Bbox" = some (.text (contentBox n fl project p.bbox))

def Completed (n : Numerals) (fl : Floats) (project : MapProject) (p : Params) (options : Text) :
    Prop :=
  ∃ req, prepareMapRequest fl project options = .ok req ∧ Completes n fl project p options req

/-- There is no box, both sizes or none of them are given, and the extent is no vertical line if it is
needed for the ratio. -/
def Completable (project : MapProject) (p : Params) : Prop :=
  p.bbox = none ∧ p.width.isSome = p.height.isSome ∧ (p.width = none → (extent project).width ≠ 0)

variable {n : Numerals} {fl : Floats} {project : MapProject} {p : Params} {accept : List Mime}
  {options : Text} {key : String}

lemma parseQsl_write (key : String) (v o : Text) :
    parseQsl (WmsBuilder.write key v o) = parseQsl o ++ parseQsl (rawField (key, v)) :=
  parseQsl_append o (rawField (key, v))

lemma values_optionalField {v : Option Text} {k : String} :
    ((optionalField key v).filter fun x => x.1 = k) =
      if key = k then optionalField key v else [] := by
  cases v with
  | none => simp [optionalField]
  | some v => by_cases h : key = k <;> simp [optionalField, h]

lemma paramValues_gateway (h : parseQsl options = mapFields n p accept) :
    paramValues options "crs" = (p.bbox.map fun _ => p.bboxCrs.getD crs84).toList ∧
      paramValues options "bbox" = (p.bbox.map (Bbox.display n)).toList ∧
      paramValues options "width" = (p.width.map U16.display).toList ∧
      paramValues options "height" = (p.height.map U16.display).toList := by
  have hn (key : String) (v : Option Text) :
      (optionalField key v).map Prod.snd = v.toList := by
    cases v <;> rfl
  simp only [paramValues, h, mapFields, mapBaseFields, filter_append, values_optionalField]
  refine ⟨?_, ?_, ?_, ?_⟩ <;> simp [hn]

lemma prepareMapRequest_of_bbox {b : Bbox} (h : parseQsl options = mapFields n p accept)
    (hb : p.bbox = some b) : prepareMapRequest fl project options = .error .keyError := by
  have hr := (paramValues_gateway h).1
  rw [hb] at hr
  rw [prepareMapRequest, withCrs, if_neg (by simp [hr])]

def located (fl : Floats) (project : MapProject) (options : Text) : Text :=
  WmsBuilder.write "bbox" (boxText fl (orientedExtent project))
    (WmsBuilder.write "crs" (getCrs project).authid options)

lemma prepareMapRequest_of_none (h : parseQsl options = mapFields n p accept) (hb : p.bbox = none) :
    prepareMapRequest fl project options =
      (withSize project options (located fl project options) (extentRatio project)).map fun s =>
        { headers := [("Content-Crs", .text ('[' :: (getCrs project).authid ++ [']'])),
            ("Content-Bbox", .text (boxText fl (orientedExtent project)))]
          options := withLayers project options s } := by
  obtain ⟨hr, ho, -⟩ := paramValues_gateway h
  simp only [hb, map_none, toList_none] at hr ho
  rw [prepareMapRequest, withCrs, if_pos hr]
  simp only [withBox, ho]
  rfl

lemma extentRatio_eq (project : MapProject) :
    extentRatio project = divide (extent project).height (extent project).width := by
  rw [extentRatio, orientedExtent]
  split <;> rfl

lemma withSize_of_both (h : parseQsl options = mapFields n p accept) (hw : p.width.isSome)
    (hh : p.height.isSome) (opts : Text) (r : Except MapError ℚ) :
    withSize project options opts r = .ok opts := by
  obtain ⟨-, -, hi, he⟩ := paramValues_gateway h
  obtain ⟨w, hw⟩ := isSome_iff_exists.1 hw
  obtain ⟨h, hh⟩ := isSome_iff_exists.1 hh
  simp [withSize, hi, he, hw, hh]

lemma withSize_of_neither (h : parseQsl options = mapFields n p accept) (hw : p.width = none)
    (hh : p.height = none) (o : Text) (r : Except MapError ℚ) :
    withSize project options o r = r.map fun q =>
      WmsBuilder.write "height" (intText (int (defaultWidth project * q)))
        (WmsBuilder.write "width" (intText (defaultWidth project)) o) := by
  obtain ⟨-, -, hi, he⟩ := paramValues_gateway h
  simp [withSize, hi, he, hw, hh]

lemma withSize_of_one (h : parseQsl options = mapFields n p accept)
    (ho : p.width.isSome ≠ p.height.isSome) (o : Text) (r : Except MapError ℚ) :
    ∃ e, withSize project options o r = .error e := by
  obtain ⟨-, -, hi, he⟩ := paramValues_gateway h
  have hz : withSize project options o r = r.bind fun _ => .error .typeError := by
    cases hw : p.width <;> cases hh : p.height
    · simp [hw, hh] at ho
    · simp [withSize, hi, he, hw, hh]
    · simp [withSize, hi, he, hw, hh]
    · simp [hw, hh] at ho
  rw [hz]
  cases r with
  | error e => exact ⟨e, rfl⟩
  | ok q => exact ⟨.typeError, rfl⟩

lemma intText_natCast (m : ℕ) : intText m = Nat.toDigits 10 m := by
  rw [intText, if_neg (by omega), nil_append, Int.natAbs_natCast]

lemma verbatim_intText (m : ℤ) : Verbatim (intText m) := by
  refine verbatim_of_digits (by simp [intText]) fun c hc => ?_
  rw [intText, mem_append] at hc
  rcases hc with hc | hc
  · split at hc
    · exact .inr (.inr (.inl (mem_singleton.1 hc)))
    · cases hc
  · exact .inl (isDigit_of_mem_toDigits hc)

lemma mem_parseQsl_write {v o : Text} (hk : VerbatimKey key) (hv : Verbatim v) :
    (key, v) ∈ parseQsl (WmsBuilder.write key v o) := by
  have hf : parseQsl (rawField (key, v)) = [(key, unquotePlus v)] :=
    parseQsl_rawField hk hv.1 hv.2.1
  rw [parseQsl_write, hf, hv.2.2]
  exact mem_append_right _ (mem_singleton_self _)

lemma parseQsl_prefix_write (key : String) (v o : Text) :
    parseQsl o <+: parseQsl (WmsBuilder.write key v o) := by
  rw [parseQsl_write]
  exact prefix_append _ _

lemma parseQsl_prefix_withLayers (project : MapProject) (g o : Text) :
    parseQsl o <+: parseQsl (withLayers project g o) := by
  rw [withLayers]
  split
  · exact parseQsl_prefix_write _ _ _
  · exact prefix_rfl

lemma parseQsl_prefix_located : parseQsl options <+: parseQsl (located fl project options) :=
  (parseQsl_prefix_write _ _ _).trans (parseQsl_prefix_write _ _ _)

lemma mem_mapFields_width {m : U16} (h : p.width = some m) :
    ("width", intText m.val) ∈ mapFields n p accept := by
  rw [intText_natCast]
  simp [mapFields, optionalField, h, U16.display]

lemma mem_mapFields_height {m : U16} (h : p.height = some m) :
    ("height", intText m.val) ∈ mapFields n p accept := by
  rw [intText_natCast]
  simp [mapFields, optionalField, h, U16.display]

lemma mem_parseQsl_bbox {b : Bbox} (hu : WmsBuilder.build n p accept = .ok options)
    (hb : p.bbox = some b) : ("bbox", b.display n) ∈ parseQsl options := by
  obtain ⟨hne, hp, hm⟩ := verbatim_bbox b (n := n)
  have hk : VerbatimKey "bbox" := by decide
  have hf : parseQsl (rawField ("bbox", b.display n)) = [("bbox", unquotePlus (b.display n))] :=
    parseQsl_rawField hk hne hp
  rw [build_eq] at hu
  split at hu
  · cases hu
  · cases hu
    rw [parseQsl_rawQuery, mem_flatMap]
    refine ⟨("bbox", b.display n), by simp [mapFields, optionalField, hb], ?_⟩
    rw [hf, hm]
    exact mem_singleton_self _

lemma prepareMapRequest_eq_ok {req : MapRequest}
    (h : prepareMapRequest fl project options = .ok req) :
    ∃ crs o s, withCrs project options = .ok (crs, o) ∧
      withSize project options (withBox fl project options o).2.1
        (withBox fl project options o).2.2 = .ok s ∧
      req = ⟨[("Content-Crs", crs), ("Content-Bbox", (withBox fl project options o).1)],
        withLayers project options s⟩ := by
  rw [prepareMapRequest] at h
  split at h
  · cases h
  · rename_i crs o hr
    simp only at h
    cases hi : withSize project options (withBox fl project options o).2.1
        (withBox fl project options o).2.2 with
    | error e =>
      rw [hi] at h
      cases h
    | ok s =>
      rw [hi] at h
      cases h
      exact ⟨crs, o, s, hr, hi, rfl⟩

lemma lookup_bbox_of_given {req : MapRequest} (ho : paramValues options "bbox" ≠ [])
    (hr : prepareMapRequest fl project options = .ok req) :
    req.headers.lookup "Content-Bbox" = some (.list (paramValues options "bbox")) := by
  obtain ⟨crs, o, s, -, -, rfl⟩ := prepareMapRequest_eq_ok hr
  obtain ⟨b, m, ho⟩ := exists_cons_of_ne_nil ho
  have hx : (withBox fl project options o).1 = .list (paramValues options "bbox") := by
    rw [withBox, ho]
  rw [← hx]
  rfl

lemma not_completed_of_bbox {b : Bbox} (hu : WmsBuilder.build n p accept = .ok options)
    (hb : p.bbox = some b) : ¬ Completed n fl project p options := by
  rintro ⟨req, hr, ho⟩
  have hx := ho.box
  rw [lookup_bbox_of_given (ne_nil_of_mem (List.mem_map.2 ⟨_, List.mem_filter.2 ⟨(mem_parseQsl_bbox hu hb), decide_eq_true rfl⟩, rfl⟩)) hr] at hx
  cases hx

lemma Completed.completable_of_none (hp : parseQsl options = mapFields n p accept)
    (hb : p.bbox = none) (h : Completed n fl project p options) : Completable project p := by
  obtain ⟨req, hr, -⟩ := h
  rw [prepareMapRequest_of_none hp hb] at hr
  have hm : p.width.isSome = p.height.isSome := by
    by_contra ho
    obtain ⟨e, he⟩ := withSize_of_one hp ho (located fl project options) (extentRatio project)
    rw [he] at hr
    cases hr
  refine ⟨hb, hm, fun hw hz => ?_⟩
  rw [hw, isSome_none, eq_comm, isSome_eq_false_iff, isNone_iff_eq_none] at hm
  rw [withSize_of_neither hp hw hm, extentRatio_eq, divide, if_pos hz] at hr
  cases hr

lemma Completable.completed_of_both (hp : parseQsl options = mapFields n p accept)
    (hb : p.bbox = none) {w h : U16} (hw : p.width = some w) (hh : p.height = some h) :
    Completed n fl project p options := by
  rw [Completed, prepareMapRequest_of_none hp hb, withSize_of_both hp (by rw [hw]; rfl)
    (by rw [hh]; rfl)]
  have hk := parseQsl_prefix_located.trans
    (parseQsl_prefix_withLayers project options (located fl project options))
  refine ⟨_, rfl, hk, ⟨w.val, h.val, ?_, ?_, ?_⟩, ?_⟩
  · simp only [Scaled, hw, hh, and_self]
  · exact hk.subset (hp ▸ mem_mapFields_width hw)
  · exact hk.subset (hp ▸ mem_mapFields_height hh)
  · rw [hb]
    rfl

lemma Completable.completed_of_neither (hp : parseQsl options = mapFields n p accept)
    (hb : p.bbox = none) (hw : p.width = none) (hh : p.height = none)
    (hx : (extent project).width ≠ 0) : Completed n fl project p options := by
  have hr : extentRatio project = .ok ((extent project).height / (extent project).width) := by
    rw [extentRatio_eq, divide, if_neg hx]
  rw [Completed, prepareMapRequest_of_none hp hb, withSize_of_neither hp hw hh, hr]
  generalize he : int (defaultWidth project * ((extent project).height / (extent project).width))
    = height
  have hl := parseQsl_prefix_withLayers project options (WmsBuilder.write "height"
    (intText height) (WmsBuilder.write "width" (intText (defaultWidth project))
      (located fl project options)))
  have hi := (parseQsl_prefix_write "height" (intText height) (WmsBuilder.write "width"
    (intText (defaultWidth project)) (located fl project options))).trans hl
  have hk := parseQsl_prefix_located.trans ((parseQsl_prefix_write "width"
    (intText (defaultWidth project)) (located fl project options)).trans hi)
  refine ⟨_, rfl, ?_, ⟨defaultWidth project, height, ?_, ?_, ?_⟩, ?_⟩
  · simpa only [he] using hk
  · simp only [Scaled, hw, hh, hb, true_and]
    exact he.symm
  · simpa only [he] using
      hi.subset (mem_parseQsl_write (by decide) (verbatim_intText _))
  · simpa only [he] using
      hl.subset (mem_parseQsl_write (by decide) (verbatim_intText _))
  · rw [hb]
    rfl

lemma Completable.completed (hp : parseQsl options = mapFields n p accept)
    (h : Completable project p) : Completed n fl project p options := by
  obtain ⟨hb, hm, he⟩ := h
  cases hw : p.width with
  | some w =>
    rw [hw, isSome_some, eq_comm, isSome_iff_exists] at hm
    obtain ⟨h, hh⟩ := hm
    exact completed_of_both hp hb hw hh
  | none =>
    rw [hw, isSome_none, eq_comm, isSome_eq_false_iff, isNone_iff_eq_none] at hm
    exact completed_of_neither hp hb hw hm (he hw)

/-- No options with a box are completed. The ones without a box are exactly if not one of the sizes
only is given, provided that the texts of the client are read as they are. -/
theorem completed_iff (n : Numerals) (fl : Floats) (project : MapProject) (p : Params)
    (accept : List Mime) (options : Text) (hbuild : WmsBuilder.build n p accept = .ok options)
    (htexts : p.bbox = none → ∀ t ∈ mapTexts p, Verbatim t) :
    Completed n fl project p options ↔ Completable project p := by
  cases hb : p.bbox with
  | some b =>
    refine ⟨fun h => absurd h (not_completed_of_bbox hbuild hb), fun h => ?_⟩
    cases hb.symm.trans h.1
  | none =>
    have hp := ((carries_map n p accept hbuild).2 (htexts hb)).1
    exact ⟨Completed.completable_of_none hp hb, Completable.completed hp⟩

def town : MapProject where
  wmsOutputCrsList := []
  fromOgcWmsCrs _ := none
  defaultCrs := ⟨"OGC:CRS84".toList, false⟩
  wmsExtent := ⟨0, 0, 10, 20⟩
  computeExtentFromLayers _ := ⟨0, 0, 10, 20⟩
  transformExtent r _ := r
  wmsMaxWidth := -1
  visibleLayers := ["roads".toList]

def wholeFloats : Floats where
  str := wholes.display
  float s := (String.ofList s).toInt?.map Int.cast

def overview : Params := {}

lemma build_overview :
    WmsBuilder.build wholes overview [] = .ok (rawQuery (mapFields wholes overview [])) := by
  rw [build_eq, if_neg (by norm_num [overview])]

theorem completed_overview :
    WmsBuilder.build wholes overview [] = .ok (rawQuery (mapFields wholes overview [])) ∧
      Completed wholes wholeFloats town overview (rawQuery (mapFields wholes overview [])) := by
  refine ⟨build_overview, ?_⟩
  rw [completed_iff wholes wholeFloats town overview [] _ build_overview (by decide +kernel)]
  exact ⟨rfl, rfl, fun _ => by decide +kernel⟩

def quarter : Params := { bbox := some (.Box2D 0 0 5 10), width := some ⟨100, by decide⟩ }

lemma build_quarter :
    WmsBuilder.build wholes quarter [] = .ok (rawQuery (mapFields wholes quarter [])) := by
  rw [build_eq, if_neg (by norm_num [quarter])]

theorem not_completed_quarter :
    WmsBuilder.build wholes quarter [] = .ok (rawQuery (mapFields wholes quarter [])) ∧
      prepareMapRequest wholeFloats town (rawQuery (mapFields wholes quarter [])) =
        .error .keyError ∧
      ¬ Completed wholes wholeFloats town quarter (rawQuery (mapFields wholes quarter [])) := by
  have hp := ((carries_map wholes quarter [] build_quarter).2 (by decide +kernel)).1
  exact ⟨build_quarter, prepareMapRequest_of_bbox hp rfl, not_completed_of_bbox build_quarter rfl⟩

end QJazz.Rpc.OpMap
