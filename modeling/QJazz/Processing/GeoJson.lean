import QJazz.Json.Nested

/-! The geometry models are compared with the geometries of RFC 7946. -/
namespace QJazz.Processing.GeoJson

open Json List Option

structure Bounds where
  minLength : ℕ := 0
  maxLength : Option ℕ := none

def Bounds.admits (b : Bounds) (n : ℕ) : Bool :=
  decide (b.minLength ≤ n) && b.maxLength.all (n ≤ ·)

/-- Sequences nested to a depth, with numbers in them. -/
def Coords : ℕ → Type
  | 0 => ℚ
  | n + 1 => List (Coords n)

def Coords.dump : {n : ℕ} → Coords n → Json
  | 0, q => .num q
  | _ + 1, l => .arr (List.map dump l)

section Validation

-- The validator of a `float` is a parameter: it also converts some values that are not numbers.
variable (float : Json → Option ℚ)

/-- The validation of nested sequences, by the bounds at each level. -/
def validateCoords : (shape : List Bounds) → Json → Option (Coords shape.length)
  | [], v => float v
  | b :: shape, .arr items =>
    if b.admits items.length then items.mapM (validateCoords shape) else none
  | _ :: _, .null | _ :: _, .bool _ | _ :: _, .num _ | _ :: _, .str _ | _ :: _, .obj _ => none

def pointItem : List Bounds := [{ minLength := 2, maxLength := some 4 }]

def lineStringItem : List Bounds := { minLength := 2, maxLength := some 2 } :: pointItem

def ring : List Bounds := { minLength := 4 } :: pointItem

def polygonItem : List Bounds := {} :: ring

inductive Kind where
  | point
  | multiPoint
  | lineString
  | multiLineString
  | polygon
  | multiPolygon
deriving DecidableEq

namespace Kind

def name : Kind → String
  | point => "Point"
  | multiPoint => "MultiPoint"
  | lineString => "LineString"
  | multiLineString => "MultiLineString"
  | polygon => "Polygon"
  | multiPolygon => "MultiPolygon"

def shape : Kind → List Bounds
  | point => pointItem
  | multiPoint => {} :: pointItem
  | lineString => lineStringItem
  | multiLineString => {} :: lineStringItem
  | polygon => polygonItem
  | multiPolygon => {} :: polygonItem

def all : List Kind := [point, multiPoint, lineString, multiLineString, polygon, multiPolygon]

def ofName (name : String) : Option Kind := all.find? fun k => k.name = name

lemma ofName_name (k : Kind) : ofName k.name = some k := by
  cases k <;> rfl

end Kind

def collectionName : String := "GeometryCollection"

/-- A validated geometry with the name of its reference system. -/
inductive Geometry where
  | simple (kind : Kind) (crs : Option String) (coordinates : Coords kind.shape.length)
  | collection (crs : Option String) (geometries : List Geometry)

/-- The reference `WGS84`, which is the default of `NamedCrs`. -/
def wgs84 : String := "urn:ogc:def:crs:OGC:1.3:CRS84"

/-- The field `crs` of `Referenced`, an optional `NamedCrs`. -/
def validateCrs : Option Json → Option (Option String)
  | none | some .null => some none
  | some (.obj crs) =>
    if (crs.lookup "type").all (· = .str "name") then
      match crs.lookup "properties" with
      | none => some (some wgs84)
      | some (.obj properties) =>
        match properties.lookup "name" with
        | some (.str name) => some (some name)
        | _ => none
      | _ => none
    else none
  | some _ => none

def typeOf (fields : List (String × Json)) : Option String :=
  match fields.lookup "type" with
  | some (.str name) => some name
  | _ => none

/-- The union of the models at an object, from the validation of what it has as `geometries`. -/
def validateNode (fields : List (String × Json)) (geometries : Option (List (Option Geometry))) :
    Option Geometry :=
  (validateCrs (fields.lookup "crs")).bind fun crs =>
    (typeOf fields).bind fun name =>
      match Kind.ofName name with
      | some kind =>
        ((fields.lookup "coordinates").bind (validateCoords float kind.shape)).map
          (.simple kind crs)
      | none =>
        if name = collectionName then (geometries.bind (·.mapM id)).map (.collection crs) else none

def validate : Json → Option Geometry := fold "geometries" (validateNode float) none

/-- The model of a parameter without geometry types: a geometry, or a text in WKT or GML. -/
def parameterModel (v : Json) : Option (Geometry ⊕ String) :=
  match validate float v with
  | some g => some (.inl g)
  | none =>
    match v with
    | .str s => some (.inr s)
    | _ => none

end Validation

mutual
def Geometry.dump : Geometry → Json
  | .simple kind _ coordinates =>
    .obj [("type", .str kind.name), ("coordinates", coordinates.dump)]
  | .collection _ geometries =>
    .obj [("type", .str collectionName), ("geometries", .arr (dumpAll geometries))]
termination_by structural g => g

def Geometry.dumpAll : List Geometry → List Json
  | [] => []
  | g :: rest => g.dump :: Geometry.dumpAll rest
termination_by structural gs => gs
end

lemma Geometry.dumpAll_eq_map (gs : List Geometry) : dumpAll gs = gs.map dump := by
  induction gs with
  | nil => rfl
  | cons g gs ih => rw [dumpAll, ih, map_cons]

/-- Sequences that are nested as the bounds say, with numbers of a kind in them. -/
def Fits (p : ℚ → Prop) : List Bounds → Json → Prop
  | [], v => ∃ q, v = .num q ∧ p q
  | b :: shape, v =>
    ∃ items, v = .arr items ∧ b.admits items.length = true ∧ ∀ item ∈ items, Fits p shape item

def items : Json → List Json
  | .arr l => l
  | _ => []

def numbers : ℕ → Json → List ℚ
  | 0, .num q => [q]
  | 0, _ => []
  | n + 1, v => (items v).flatMap (numbers n)

namespace Kind

/-- A position has two to four numbers, a line string two or more positions, and a ring four or
more. -/
def standard : Kind → List Bounds
  | point => [{ minLength := 2, maxLength := some 4 }]
  | multiPoint => [{}, { minLength := 2, maxLength := some 4 }]
  | lineString => [{ minLength := 2 }, { minLength := 2, maxLength := some 4 }]
  | multiLineString => [{}, { minLength := 2 }, { minLength := 2, maxLength := some 4 }]
  | polygon => [{}, { minLength := 4 }, { minLength := 2, maxLength := some 4 }]
  | multiPolygon => [{}, {}, { minLength := 4 }, { minLength := 2, maxLength := some 4 }]

def lines : Kind → Json → List Json
  | lineString, v => [v]
  | multiLineString, v => items v
  | _, _ => []

def rings : Kind → Json → List Json
  | polygon, v => items v
  | multiPolygon, v => (items v).flatMap items
  | _, _ => []

def WellFormed (k : Kind) (v : Json) : Prop :=
  Fits (fun _ => True) k.standard v ∧
    ∀ ring ∈ k.rings v, (items ring).head? = (items ring).getLast?

end Kind

inductive IsGeometry : Json → Prop
  | simple {fields : List (String × Json)} {v : Json} (k : Kind)
      (htype : fields.lookup "type" = some (.str k.name))
      (hcoordinates : fields.lookup "coordinates" = some v) (h : k.WellFormed v) :
      IsGeometry (.obj fields)
  | collection {fields : List (String × Json)} {geometries : List Json}
      (htype : fields.lookup "type" = some (.str collectionName))
      (hgeometries : fields.lookup "geometries" = some (.arr geometries))
      (h : ∀ v ∈ geometries, IsGeometry v) : IsGeometry (.obj fields)

def core : Json → Json :=
  fold "geometries"
    (fun fields geometries =>
      .obj [("type", (fields.lookup "type").getD .null),
        if typeOf fields = some collectionName then ("geometries", .arr (geometries.getD []))
        else ("coordinates", (fields.lookup "coordinates").getD .null)])
    .null

/-- The objects of a geometry and of all geometries that are collected in it. -/
def nested : Json → List (List (String × Json)) :=
  fold "geometries"
    (fun fields geometries =>
      fields :: if typeOf fields = some collectionName then (geometries.getD []).flatten else [])
    []

def coordinatesOf (fields : List (String × Json)) : Option (Kind × Json) :=
  ((typeOf fields).bind Kind.ofName).bind fun k => (fields.lookup "coordinates").map (k, ·)

/-- Line strings have two positions, numbers are those of floats, and the reference system can be
read. -/
def Restricted (float : Json → Option ℚ) (fields : List (String × Json)) : Prop :=
  (∀ x ∈ coordinatesOf fields,
    (∀ line ∈ x.1.lines x.2, (items line).length = 2) ∧
      ∀ q ∈ numbers x.1.shape.length x.2, float (.num q) = some q) ∧
    (validateCrs (fields.lookup "crs")).isSome = true

/-- The parameter takes the geometry and keeps its type and coordinates. -/
def Accepts (float : Json → Option ℚ) (v : Json) : Prop :=
  ∃ g, parameterModel float v = some (.inl g) ∧ g.dump = core v

variable {float : Json → Option ℚ} {p : ℚ → Prop} {v : Json}
  {fields : List (String × Json)} {geometries : List Json} {k : Kind}

lemma exists_validateCoords_iff (s : List Bounds) (v : Json) :
    (∃ c, validateCoords float s v = some c ∧ c.dump = v) ↔
      Fits (fun q => float (.num q) = some q) s v := by
  induction s generalizing v with
  | nil =>
    constructor
    · rintro ⟨q, hq, rfl⟩
      exact ⟨q, rfl, hq⟩
    · rintro ⟨q, rfl, hq⟩
      exact ⟨q, hq, rfl⟩
  | cons b s ih =>
    cases v with
    | arr t =>
      have hi := exists_mapM_iff (validateCoords float s) Coords.dump id t
      rw [List.map_id] at hi
      constructor
      · rintro ⟨c, ho, hd⟩
        obtain ⟨hb, ho⟩ := ite_none_right_eq_some.1 ho
        have hl := hi.1 ⟨c, ho, Json.arr.inj hd⟩
        exact ⟨t, rfl, hb, fun i ht => (ih i).1 (hl i ht)⟩
      · rintro ⟨_, ⟨⟩, hb, hf⟩
        obtain ⟨c, ho, hd⟩ :=
          hi.2 fun i ht => (ih i).2 (hf i ht)
        exact ⟨c, (if_pos hb).trans ho, congrArg Json.arr hd⟩
    | null | bool _ | num _ | str _ | obj _ => simp [validateCoords, Fits]

lemma fits_iff (p : ℚ → Prop) (s : List Bounds) (v : Json) :
    Fits p s v ↔ Fits (fun _ => True) s v ∧ ∀ q ∈ numbers s.length v, p q := by
  induction s generalizing v with
  | nil =>
    constructor
    · rintro ⟨q, rfl, hq⟩
      exact ⟨⟨q, rfl, trivial⟩, forall_mem_singleton.2 hq⟩
    · rintro ⟨⟨q, rfl, -⟩, hq⟩
      exact ⟨q, rfl, hq q mem_cons_self⟩
  | cons b s ih =>
    constructor
    · rintro ⟨l, rfl, hb, hf⟩
      refine ⟨⟨l, rfl, hb, fun i hi => ((ih i).1 (hf i hi)).1⟩, ?_⟩
      intro q hq
      obtain ⟨i, hi, hq⟩ := mem_flatMap.1 hq
      exact ((ih i).1 (hf i hi)).2 q hq
    · rintro ⟨⟨l, rfl, hb, hf⟩, hn⟩
      refine ⟨l, rfl, hb, fun i hi => (ih i).2 ⟨hf i hi, ?_⟩⟩
      exact fun q hq => hn q (mem_flatMap.2 ⟨i, hi, hq⟩)

lemma fits_lineStringItem_iff : Fits p lineStringItem v ↔
      (items v).length = 2 ∧ Fits p ({ minLength := 2 } :: pointItem) v := by
  constructor
  · rintro ⟨l, rfl, hb, hf⟩
    simp only [Bounds.admits, all_some, Bool.and_eq_true, decide_eq_true_eq] at hb
    exact ⟨by simp only [items]; omega, l, rfl, by simp [Bounds.admits, hb.1], hf⟩
  · rintro ⟨hl, l, rfl, -, hf⟩
    have ht : l.length = 2 := hl
    exact ⟨l, rfl, by simp [Bounds.admits, ht], hf⟩

lemma Kind.fits_shape_iff (k : Kind) : Fits p k.shape v ↔
      (∀ i ∈ k.lines v, (items i).length = 2) ∧ Fits p k.standard v := by
  cases k with
  | lineString =>
    rw [lines, forall_mem_singleton]
    exact fits_lineStringItem_iff
  | multiLineString =>
    constructor
    · rintro ⟨l, rfl, hb, hf⟩
      exact ⟨fun i hl => (fits_lineStringItem_iff.1 (hf i hl)).1,
        l, rfl, hb, fun i hl => (fits_lineStringItem_iff.1 (hf i hl)).2⟩
    · rintro ⟨hi, l, rfl, hb, hf⟩
      exact ⟨l, rfl, hb, fun i hl =>
        fits_lineStringItem_iff.2 ⟨hi i hl, hf i hl⟩⟩
  | point | multiPoint | polygon | multiPolygon =>
    exact (and_iff_right (forall_mem_nil _)).symm

lemma Kind.length_standard (k : Kind) : k.standard.length = k.shape.length := by
  cases k <;> rfl

lemma Kind.WellFormed.exists_validateCoords_iff (h : k.WellFormed v) :
    (∃ c, validateCoords float k.shape v = some c ∧ c.dump = v) ↔
      (∀ l ∈ k.lines v, (items l).length = 2) ∧
        ∀ q ∈ numbers k.shape.length v, float (.num q) = some q := by
  rw [GeoJson.exists_validateCoords_iff, k.fits_shape_iff, fits_iff, k.length_standard]
  simp [h.1]

section Simple

variable (htype : fields.lookup "type" = some (.str k.name))
include htype

lemma typeOf_simple : typeOf fields = some k.name := by
  rw [typeOf, htype]

lemma not_collection_simple : typeOf fields ≠ some collectionName := by
  rw [typeOf_simple htype]
  cases k <;> decide

lemma nested_simple : nested (.obj fields) = [fields] := by
  rw [nested, fold_obj, if_neg (not_collection_simple htype)]

variable (hcoordinates : fields.lookup "coordinates" = some v)
include hcoordinates

lemma validate_simple :
    validate float (.obj fields) = (validateCrs (fields.lookup "crs")).bind fun crs =>
      (validateCoords float k.shape v).map (.simple k crs) := by
  rw [validate, fold_obj, validateNode, typeOf_simple htype]
  simp only [bind_some, k.ofName_name, hcoordinates]

lemma core_simple : core (.obj fields) = .obj [("type", .str k.name), ("coordinates", v)] := by
  rw [core, fold_obj, if_neg (not_collection_simple htype), htype, hcoordinates]
  rfl

lemma coordinatesOf_simple : coordinatesOf fields = some (k, v) := by
  rw [coordinatesOf, typeOf_simple htype, bind_some, k.ofName_name, hcoordinates]
  rfl

lemma exists_validate_simple_iff :
    (∃ g, validate float (.obj fields) = some g ∧ g.dump = core (.obj fields)) ↔
      (∃ c, validateCoords float k.shape v = some c ∧ c.dump = v) ∧
        (validateCrs (fields.lookup "crs")).isSome = true := by
  rw [validate_simple htype hcoordinates, core_simple htype hcoordinates]
  cases validateCrs (fields.lookup "crs") with
  | none => simp
  | some crs => simp [Geometry.dump]

end Simple

lemma itemsAt_eq_some (h : fields.lookup "geometries" = some (.arr geometries)) :
    itemsAt "geometries" fields = some geometries := by
  rw [itemsAt, h]

section Collection

variable (htype : fields.lookup "type" = some (.str collectionName))
include htype

lemma typeOf_collection : typeOf fields = some collectionName := by
  rw [typeOf, htype]

lemma coordinatesOf_collection : coordinatesOf fields = none := by
  rw [coordinatesOf, typeOf_collection htype]
  rfl

variable (hgeometries : fields.lookup "geometries" = some (.arr geometries))
include hgeometries

lemma nested_collection : nested (.obj fields) = fields :: (geometries.map nested).flatten := by
  rw [nested, fold_obj, itemsAt_eq_some hgeometries, if_pos (typeOf_collection htype)]
  rfl

lemma core_collection : core (.obj fields) =
      .obj [("type", .str collectionName), ("geometries", .arr (geometries.map core))] := by
  rw [core, fold_obj, itemsAt_eq_some hgeometries, if_pos (typeOf_collection htype), htype]
  rfl

lemma validate_collection :
    validate float (.obj fields) = (validateCrs (fields.lookup "crs")).bind fun crs =>
      (geometries.mapM (validate float)).map (.collection crs) := by
  rw [validate, fold_obj, itemsAt_eq_some hgeometries, validateNode, typeOf_collection htype]
  simp only [bind_some, map_some, mapM_map]
  rfl

lemma exists_validate_collection_iff :
    (∃ g, validate float (.obj fields) = some g ∧ g.dump = core (.obj fields)) ↔
      (∀ v ∈ geometries, ∃ g, validate float v = some g ∧ g.dump = core v) ∧
        (validateCrs (fields.lookup "crs")).isSome = true := by
  rw [validate_collection htype hgeometries, core_collection htype hgeometries, ← exists_mapM_iff]
  cases validateCrs (fields.lookup "crs") with
  | none => simp
  | some crs => simp [Geometry.dump, Geometry.dumpAll_eq_map]

end Collection

lemma accepts_iff_exists_validate :
    Accepts float v ↔ ∃ g, validate float v = some g ∧ g.dump = core v := by
  refine exists_congr fun g => and_congr_left fun _ => ?_
  unfold parameterModel
  cases validate float v with
  | none => cases v <;> simp
  | some g' => simp

/-- A well-formed geometry is accepted and kept exactly if all line strings in it have two positions,
its numbers are those of floats, and every reference system that comes with it can be read. -/
theorem accepts_iff_restricted (float : Json → Option ℚ) (v : Json) (h : IsGeometry v) :
    Accepts float v ↔ ∀ fields ∈ nested v, Restricted float fields := by
  rw [accepts_iff_exists_validate]
  -- The induction is on the collections that the geometry is nested in.
  induction h with
  | simple k htype hcoordinates h =>
    rw [exists_validate_simple_iff htype hcoordinates, h.exists_validateCoords_iff,
      nested_simple htype, forall_mem_singleton, Restricted,
      coordinatesOf_simple htype hcoordinates]
    simp
  | collection htype hgeometries h ih =>
    rw [exists_validate_collection_iff htype hgeometries, nested_collection htype hgeometries,
      forall_mem_cons, Restricted, coordinatesOf_collection htype, and_comm]
    refine and_congr (by simp) ?_
    rw [forall_mem_flatten]
    simp only [List.forall_mem_map]
    exact forall₂_congr ih

def exactFloat : Json → Option ℚ
  | .num q => some q
  | _ => none

def lineOf (positions : List (ℚ × ℚ)) : Json :=
  .obj [("type", .str "LineString"),
    ("coordinates", .arr (positions.map fun x => .arr [.num x.1, .num x.2]))]

lemma isGeometry_lineOf {o : List (ℚ × ℚ)} (h : 2 ≤ o.length) : IsGeometry (lineOf o) := by
  refine .simple .lineString rfl rfl ⟨⟨_, rfl, by simpa [Bounds.admits] using h, ?_⟩, ?_⟩
  · rw [List.forall_mem_map]
    intro x _
    exact ⟨_, rfl, rfl, by simp [Fits]⟩
  · exact forall_mem_nil _

theorem accepts_collected_line : Accepts exactFloat
      (.obj [("type", .str "GeometryCollection"), ("geometries", .arr [lineOf [(0, 0), (1, 2)]])]) := by
  refine (accepts_iff_restricted exactFloat _ (.collection rfl rfl
    (forall_mem_singleton.2 (isGeometry_lineOf (by decide))))).2 ?_
  refine forall_mem_cons.2 ⟨⟨?_, rfl⟩, forall_mem_singleton.2 ⟨?_, rfl⟩⟩
  · rw [coordinatesOf_collection rfl]
    exact fun x hx => absurd hx (not_mem_none x)
  · rw [coordinatesOf_simple (k := .lineString) rfl rfl]
    rintro x ⟨⟩
    exact ⟨forall_mem_singleton.2 rfl, fun q _ => rfl⟩

theorem not_accepts_three_positions : IsGeometry (lineOf [(0, 0), (1, 2), (2, 0)]) ∧
      parameterModel exactFloat (lineOf [(0, 0), (1, 2), (2, 0)]) = none :=
  ⟨isGeometry_lineOf (by decide), rfl⟩

end QJazz.Processing.GeoJson
