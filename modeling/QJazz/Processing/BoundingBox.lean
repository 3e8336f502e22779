import Mathlib.Algebra.Order.Ring.Rat
import Mathlib.Order.Lattice
import QJazz.Processing.GeoJson

/-! The extent parameter makes a rectangle of a box, and the feature source parameter selects the
features that intersect it. -/
namespace QJazz.Processing.BoundingBox

open Json

inductive Extent where
  | extent2D (minx miny maxx maxy : ℚ)
  | extent3D (minx miny minz maxx maxy maxz : ℚ)

structure BBox where
  bbox : Extent
  crs : String

structure Rectangle where
  xMinimum : ℚ
  yMinimum : ℚ
  xMaximum : ℚ
  yMaximum : ℚ

/-- The constructor of `QgsRectangle`, which swaps the corners if need be. -/
def Rectangle.ofCorners (x₁ y₁ x₂ y₂ : ℚ) : Rectangle where
  xMinimum := min x₁ x₂
  yMinimum := min y₁ y₂
  xMaximum := max x₁ x₂
  yMaximum := max y₁ y₂

def Extent.rectangle : Extent → Rectangle
  | extent2D minx miny maxx maxy => .ofCorners minx miny maxx maxy
  | extent3D minx miny _ maxx maxy _ => .ofCorners minx miny maxx maxy

inductive InputError where
  | validation
  /-- `InputValueError` -/
  | inputValue (message : String)
  /-- `IndexError` -/
  | index
  /-- `TypeError` -/
  | notSubscriptable
deriving DecidableEq

section Validation

variable (float : Json → Option ℚ)

def validateExtent : Json → Option Extent
  | .arr [v₀, v₁, v₂, v₃] => do
    return .extent2D (← float v₀) (← float v₁) (← float v₂) (← float v₃)
  | .arr [v₀, v₁, v₂, v₃, v₄, v₅] => do
    return .extent3D (← float v₀) (← float v₁) (← float v₂) (← float v₃) (← float v₄) (← float v₅)
  | _ => none

def validateCrs (default : String) : Option Json → Option String
  | none => some default
  | some (.str crs) => some crs
  | some _ => none

def validateBBox (default : String) : Json → Option BBox
  | .obj fields => do
    let v ← fields.lookup "bbox"
    let bbox ← validateExtent float v
    let crs ← validateCrs default (fields.lookup "crs")
    return { bbox := bbox, crs := crs }
  | _ => none

structure Selection where
  source : String
  intersect : Option BBox
  expression : Option String

inductive Source where
  | name (source : String)
  | selection (s : Selection)

def validateOption {α : Type} (validate : Json → Option α) : Option Json → Option (Option α)
  | none | some .null => some none
  | some v => (validate v).map some

def validateText : Json → Option String
  | .str s => some s
  | _ => none

def validateSource (allowed : String → Bool) (default : String) : Json → Option Source
  | .str name => if allowed name then some (.name name) else none
  | .obj fields => do
    let v ← fields.lookup "source"
    let source ← validateText v
    guard (allowed source)
    let intersect ← validateOption (validateBBox float default) (fields.lookup "intersect")
    let expression ← validateOption validateText (fields.lookup "expression")
    return .selection { source := source, intersect := intersect, expression := expression }
  | _ => none

end Validation

inductive Indexed where
  | sequence (numbers : List ℚ)
  | model (box : BBox)

def Indexed.item : Indexed → ℕ → Except InputError ℚ
  | sequence numbers, i =>
    match numbers[i]? with
    | some q => .ok q
    | none => .error .index
  | model _, _ => .error .notSubscriptable

def Indexed.rectangle (bbox : Indexed) : Except InputError Rectangle := do
  return .ofCorners (← bbox.item 0) (← bbox.item 1) (← bbox.item 2) (← bbox.item 3)

def Extent.coordinates : Extent → List ℚ
  | extent2D minx miny maxx maxy => [minx, miny, maxx, maxy]
  | extent3D minx miny minz maxx maxy maxz => [minx, miny, minz, maxx, maxy, maxz]

def extentValue (float : Json → Option ℚ) (inp : Json) : Except InputError (Rectangle × String) :=
  match validateBBox float GeoJson.wgs84 inp with
  | none => .error .validation
  | some value => do
    let rect ← (Indexed.sequence value.bbox.coordinates).rectangle
    return (rect, value.crs)

inductive MapLayer where
  | vector
  | other

inductive SelectBehavior where
  | setSelection
  | intersectSelection

inductive Selected where
  | byRect (rect : Rectangle) (behavior : SelectBehavior)
  | byExpression (expression : String) (behavior : SelectBehavior)

structure SourceDefinition where
  source : String
  selectedFeaturesOnly : Bool
  selected : List Selected

/-- The selection in a layer: the box first, then the expression among what the box has selected. -/
def Selection.select (s : Selection) : Except InputError (List Selected) := do
  let inside ←
    match s.intersect with
    | none => pure []
    | some intersect => do
      let rect ← (Indexed.model intersect).rectangle
      pure [Selected.byRect rect .setSelection]
  let behavior := if s.intersect.isSome then SelectBehavior.intersectSelection else .setSelection
  match s.expression.filter (· ≠ "") with
  | none => return inside
  | some expression => return inside ++ [.byExpression expression behavior]

/-- `ParameterFeatureSource.value`. The second message is not a formatted one in the source. -/
def featureSourceValue (float : Json → Option ℚ) (allowed : String → Bool) (default : String)
    (context : Option (String → Option MapLayer)) (inp : Json) :
    Except InputError SourceDefinition :=
  match validateSource float allowed default inp with
  | none => .error .validation
  | some (.name source) => .ok { source := source, selectedFeaturesOnly := false, selected := [] }
  | some (.selection s) =>
    match context with
    | none => .ok { source := s.source, selectedFeaturesOnly := false, selected := [] }
    | some getMapLayer =>
      if s.intersect.isSome || s.expression.any (· ≠ "") then
        match getMapLayer s.source with
        | none => .error (.inputValue ("No layer '" ++ s.source ++ "' found"))
        | some .other => .error (.inputValue "'\x7b_inp.source\x7d' is not a vector layer")
        | some .vector => do
          let selected ← s.select
          return { source := s.source, selectedFeaturesOnly := true, selected := selected }
      else .ok { source := s.source, selectedFeaturesOnly := false, selected := [] }

def ExtentUses (float : Json → Option ℚ) (inp : Json) (rect : Rectangle) : Prop :=
  ∃ crs, extentValue float inp = .ok (rect, crs)

def FilterUses (r : Except InputError SourceDefinition) (rect : Rectangle) : Prop :=
  ∃ d, r = .ok d ∧ Selected.byRect rect .setSelection ∈ d.selected

/-- The third and the fourth number are those of the second corner. -/
def Extent.Aligned : Extent → Prop
  | extent2D _ _ _ _ => True
  | extent3D _ _ minz maxx maxy _ => minz = maxx ∧ maxx = maxy

variable {float : Json → Option ℚ} {allowed : String → Bool} {default : String} {v : Json}
  {box : BBox} {fields : List (String × Json)} {source : String} {expression : Option String}

lemma Rectangle.ofCorners_inj {x y x₁ y₁ x₂ y₂ : ℚ} :
    ofCorners x y x₁ y₁ = ofCorners x y x₂ y₂ ↔ x₁ = x₂ ∧ y₁ = y₂ := by
  constructor
  · intro h
    obtain ⟨hx, hy, hm, hym⟩ := Rectangle.mk.inj h
    constructor
    · exact eq_of_inf_eq_sup_eq (by rw [inf_comm, hx, inf_comm])
        (by rw [sup_comm, hm, sup_comm])
    · exact eq_of_inf_eq_sup_eq (by rw [inf_comm, hy, inf_comm])
        (by rw [sup_comm, hym, sup_comm])
  · rintro ⟨rfl, rfl⟩
    rfl

lemma extentUses_iff (h : validateBBox float GeoJson.wgs84 v = some box) :
    ExtentUses float v box.bbox.rectangle ↔ box.bbox.Aligned := by
  rw [ExtentUses, extentValue, h]
  obtain ⟨e, crs⟩ := box
  cases e with
  | extent2D i m x a =>
    exact iff_of_true ⟨crs, rfl⟩ trivial
  | extent3D i m n x a z =>
    constructor
    · rintro ⟨c, h⟩
      have hr := congrArg Prod.fst (Except.ok.inj h)
      exact Rectangle.ofCorners_inj.1 hr
    · rintro ⟨hx, hy⟩
      exact ⟨crs, congrArg (fun r => Except.ok (r, crs)) (Rectangle.ofCorners_inj.2 ⟨hx, hy⟩)⟩

lemma exists_validateCrs {g : Option Json} {crs : String}
    (h : validateCrs default g = some crs) (o : String) : ∃ crs', validateCrs o g = some crs' := by
  cases g with
  | none => exact ⟨o, rfl⟩
  | some w =>
    cases w with
    | str crs' => exact ⟨crs', rfl⟩
    | null | bool _ | num _ | arr _ | obj _ => cases h

lemma exists_validateBBox (h : validateBBox float default v = some box) (o : String) :
    ∃ box', validateBBox float o v = some box' := by
  cases v with
  | obj fields =>
    obtain ⟨w, hw, h⟩ := Option.bind_eq_some_iff.1 h
    obtain ⟨e, he, h⟩ := Option.bind_eq_some_iff.1 h
    obtain ⟨crs, hcr, -⟩ := Option.bind_eq_some_iff.1 h
    obtain ⟨c, hr⟩ := exists_validateCrs hcr o
    exact ⟨⟨e, c⟩, by simp [validateBBox, hw, he, hr]⟩
  | null | bool _ | num _ | str _ | arr _ => cases h

lemma validateOption_of_some {α : Type} {l : Json → Option α} {a : α}
    (hn : l .null = none) (h : l v = some a) : validateOption l (some v) = some (some a) := by
  cases v with
  | null =>
    rw [hn] at h
    cases h
  | bool _ | num _ | str _ | arr _ | obj _ => exact congrArg (Option.map some) h

lemma select_of_intersect {s : Selection} (h : s.intersect = some box) :
    s.select = .error .notSubscriptable := by
  rw [Selection.select, h]
  rfl

lemma featureSourceValue_of_intersect {g : String → Option MapLayer}
    (hx : validateBBox float default v = some box)
    (hu : fields.lookup "source" = some (.str source)) (hl : allowed source)
    (hi : fields.lookup "intersect" = some v)
    (he : validateOption validateText (fields.lookup "expression") = some expression)
    (hy : g source = some .vector) :
    featureSourceValue float allowed default (some g) (.obj fields) = .error .notSubscriptable := by
  have hv : validateSource float allowed default (.obj fields) =
      some (.selection { source := source, intersect := some box, expression := expression }) := by
    have ho := validateOption_of_some rfl hx
    rw [← hi] at ho
    simp [validateSource, hu, validateText, hl, ho, he]
  rw [featureSourceValue, hv]
  simp [hy, select_of_intersect]

/-- The extent parameter uses the rectangle of a box without heights. Of a box with heights it takes
other numbers. The filter of a feature source fails for every box. -/
theorem extent_and_filter (float : Json → Option ℚ) (allowed : String → Bool) (default : String)
    (getMapLayer : String → Option MapLayer) (v : Json) (box : BBox)
    (fields : List (String × Json)) (source : String) (expression : Option String)
    (hbox : validateBBox float GeoJson.wgs84 v = some box)
    (hsource : fields.lookup "source" = some (.str source)) (hallowed : allowed source = true)
    (hintersect : fields.lookup "intersect" = some v)
    (hexpression : validateOption validateText (fields.lookup "expression") = some expression)
    (hlayer : getMapLayer source = some .vector) :
    (ExtentUses float v box.bbox.rectangle ↔ box.bbox.Aligned) ∧
      featureSourceValue float allowed default (some getMapLayer) (.obj fields) =
        .error .notSubscriptable ∧
      ¬ FilterUses (featureSourceValue float allowed default (some getMapLayer) (.obj fields))
        box.bbox.rectangle := by
  obtain ⟨b, ho⟩ := exists_validateBBox hbox default
  have he := featureSourceValue_of_intersect ho hsource hallowed hintersect hexpression hlayer
  refine ⟨extentUses_iff hbox, he, ?_⟩
  rintro ⟨d, hd, -⟩
  rw [he] at hd
  cases hd

def boxOf (numbers : List ℚ) : Json := .obj [("bbox", .arr (numbers.map .num))]

theorem extent_and_filter_unit_square :
    ExtentUses GeoJson.exactFloat (boxOf [0, 0, 1, 1]) (.ofCorners 0 0 1 1) ∧
      featureSourceValue GeoJson.exactFloat (fun _ => true) GeoJson.wgs84
          (some fun _ => some .vector)
          (.obj [("source", .str "roads"), ("intersect", boxOf [0, 0, 1, 1])]) =
        .error .notSubscriptable := by
  have h := extent_and_filter GeoJson.exactFloat (fun _ => true) GeoJson.wgs84
    (fun _ => some .vector) (boxOf [0, 0, 1, 1]) ⟨.extent2D 0 0 1 1, GeoJson.wgs84⟩
    [("source", .str "roads"), ("intersect", boxOf [0, 0, 1, 1])] "roads" none rfl rfl rfl rfl rfl
    rfl
  exact ⟨h.1.2 trivial, h.2.1⟩

/-- Heights between 5 and 9 over the unit square: the extent goes up to 5 in its abscissas. -/
theorem extent_with_heights : extentValue GeoJson.exactFloat (boxOf [0, 0, 5, 1, 1, 9]) =
        .ok (.ofCorners 0 0 5 1, GeoJson.wgs84) ∧ Rectangle.ofCorners 0 0 5 1 ≠ .ofCorners 0 0 1 1 ∧
      featureSourceValue GeoJson.exactFloat (fun _ => true) GeoJson.wgs84
          (some fun _ => some .vector)
          (.obj [("source", .str "roads"), ("intersect", boxOf [0, 0, 1, 1])]) =
        .error .notSubscriptable := by
  refine ⟨rfl, ?_, rfl⟩
  rw [ne_eq, Rectangle.ofCorners_inj]
  decide

end QJazz.Processing.BoundingBox
