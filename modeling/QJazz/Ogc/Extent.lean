import Mathlib.Data.List.Basic

/-! The boxes of a layer come from the extents in the metadata of its provider, or from the layer
itself. -/
namespace QJazz.Ogc.Spatial

structure Rectangle (α : Type) where
  xMinimum : α
  yMinimum : α
  xMaximum : α
  yMaximum : α

structure Box3D (α : Type) where
  toRectangle : Rectangle α
  zMinimum : α
  zMaximum : α

inductive Extent (α : Type) where
  | rectangle (r : Rectangle α)
  | box (b : Box3D α)

/-- What is asked of the QGIS library, for one project. -/
structure Qgis (α Crs : Type) where
  is3D : Box3D α → Bool
  isEmpty : Rectangle α → Bool
  isEmptyBox : Box3D α → Bool
  isValid : Crs → Bool
  hasAxisInverted : Crs → Bool
  transformExtent : Rectangle α → Crs → Crs → Rectangle α

structure MetadataExtent (α Crs : Type) where
  bounds : Box3D α
  extentCrs : Crs

structure Provider (α Crs : Type) where
  crs : Crs
  spatialExtents : List (MetadataExtent α Crs)

structure MapLayer (α Crs : Type) where
  dataProvider : Option (Provider α Crs)
  extent3D : Box3D α
  extent : Rectangle α

structure SpatialExtent (α : Type) where
  bbox : List (List α)
  storageCrsBbox : List (List α)

variable {α Crs : Type}

def parseBbox (r : Rectangle α) (invertAxis : Bool) : List α :=
  if invertAxis then [r.yMinimum, r.xMinimum, r.yMaximum, r.xMaximum]
  else [r.xMinimum, r.yMinimum, r.xMaximum, r.yMaximum]

def parseBbox3d (b : Box3D α) (invertAxis : Bool) : List α :=
  let r := b.toRectangle
  if invertAxis then
    [r.xMinimum, r.yMinimum, b.zMinimum, r.xMaximum, r.yMaximum, b.zMaximum]
  else [r.yMinimum, r.xMinimum, b.zMinimum, r.yMaximum, r.xMaximum, b.zMaximum]

def extendBbox3d (r : List α) (zmin zmax : α) : List α :=
  r.take 2 ++ zmin :: r.drop 2 ++ [zmax]

def withoutHeights (r : List α) : List α :=
  (r.eraseIdx 5).eraseIdx 2

def Rectangle.Diagonal (r : Rectangle α) : Prop :=
  r.xMinimum = r.yMinimum ∧ r.xMaximum = r.yMaximum

section Parse

variable (b : Box3D α) (r : Rectangle α) (invertAxis : Bool)

lemma withoutHeights_parseBbox3d :
    withoutHeights (parseBbox3d b invertAxis) = parseBbox b.toRectangle (!invertAxis) := by
  cases invertAxis <;> rfl

lemma extendBbox3d_parseBbox :
    extendBbox3d (parseBbox b.toRectangle (!invertAxis)) b.zMinimum b.zMaximum =
      parseBbox3d b invertAxis := by
  cases invertAxis <;> rfl

lemma withoutHeights_extendBbox3d (m z : α) :
    withoutHeights (extendBbox3d (parseBbox r invertAxis) m z) = parseBbox r invertAxis := by
  cases invertAxis <;> rfl

lemma parseBbox_not_iff : parseBbox r (!invertAxis) = parseBbox r invertAxis ↔ r.Diagonal := by
  cases invertAxis with
  | false | true =>
    simp only [parseBbox, Bool.not_true, Bool.not_false, Bool.false_eq_true, if_true, if_false,
      List.cons.injEq, and_true, Rectangle.Diagonal]
    grind

end Parse

namespace Qgis

variable (q : Qgis α Crs)

def parseExtent (extent : Extent α) (invertAxis : Bool) : List α :=
  match extent with
  | .rectangle r => parseBbox r invertAxis
  | .box b => if q.is3D b then parseBbox3d b invertAxis else parseBbox b.toRectangle invertAxis

/-- The axes of a box with heights are those of the opposite flag, so the laws for one flag hold
exactly if the corners are on the diagonal. -/
theorem parseExtent_heights_iff (b : Box3D α) (invertAxis : Bool) (hb : q.is3D b = true) :
    withoutHeights (q.parseExtent (.box b) invertAxis) =
      q.parseExtent (.rectangle b.toRectangle) (!invertAxis) ∧
    extendBbox3d (q.parseExtent (.rectangle b.toRectangle) (!invertAxis)) b.zMinimum b.zMaximum =
      q.parseExtent (.box b) invertAxis ∧ (withoutHeights (q.parseExtent (.box b) invertAxis) =
        q.parseExtent (.rectangle b.toRectangle) invertAxis ↔ b.toRectangle.Diagonal) ∧
    (extendBbox3d (q.parseExtent (.rectangle b.toRectangle) invertAxis) b.zMinimum b.zMaximum =
        q.parseExtent (.box b) invertAxis ↔ b.toRectangle.Diagonal) := by
  have hp : q.parseExtent (.box b) invertAxis = parseBbox3d b invertAxis := if_pos hb
  rw [hp, withoutHeights_parseBbox3d, ← extendBbox3d_parseBbox]
  refine ⟨rfl, rfl, parseBbox_not_iff _ _, ?_⟩
  rw [← parseBbox_not_iff _ invertAxis]
  constructor
  · intro h
    have hw := congrArg withoutHeights h
    rw [withoutHeights_extendBbox3d, parseExtent, withoutHeights_extendBbox3d] at hw
    exact hw.symm
  · intro h
    rw [h]
    rfl

def twoSystems : Qgis ℕ Bool where
  is3D b := decide (b.zMinimum < b.zMaximum)
  isEmpty r := decide (r.xMaximum ≤ r.xMinimum)
  isEmptyBox b := decide (b.zMaximum ≤ b.zMinimum)
  isValid c := c
  hasAxisInverted c := c
  transformExtent r _ _ := r

theorem parseExtent_heights_twoSystems :
    withoutHeights (twoSystems.parseExtent (.box ⟨⟨0, 0, 2, 2⟩, 4, 5⟩) true) =
      twoSystems.parseExtent (.rectangle ⟨0, 0, 2, 2⟩) true :=
  (twoSystems.parseExtent_heights_iff ⟨⟨0, 0, 2, 2⟩, 4, 5⟩ true rfl).2.2.1.2 ⟨rfl, rfl⟩

theorem parseExtent_heights_swapped :
    withoutHeights (twoSystems.parseExtent (.box ⟨⟨0, 1, 2, 3⟩, 4, 5⟩) false) = [1, 0, 3, 2] ∧
      twoSystems.parseExtent (.rectangle ⟨0, 1, 2, 3⟩) false = [0, 1, 2, 3] ∧
      extendBbox3d (twoSystems.parseExtent (.rectangle ⟨0, 1, 2, 3⟩) false) 4 5 ≠
        twoSystems.parseExtent (.box ⟨⟨0, 1, 2, 3⟩, 4, 5⟩) false := by
  decide

/-- The boxes that the generator yields, in order. A transformed box is not yielded. -/
def layerExtentsFromMetadata (storageCrs : Crs) : List (MetadataExtent α Crs) → List (Box3D α)
  | [] => []
  | xt :: rest =>
    let box := xt.bounds
    let r := box.toRectangle
    if q.isEmpty r then layerExtentsFromMetadata storageCrs rest
    else if q.isValid xt.extentCrs then
      let r := q.transformExtent r xt.extentCrs storageCrs
      let _box : Box3D α := ⟨r, box.zMinimum, box.zMaximum⟩
      layerExtentsFromMetadata storageCrs rest
    else box :: layerExtentsFromMetadata storageCrs rest

def bboxExtent (storageCrs defaultCrs : Crs) : Extent α → Extent α
  | .box b =>
    let r := q.transformExtent b.toRectangle storageCrs defaultCrs
    if q.is3D b then .box ⟨r, b.zMinimum, b.zMaximum⟩ else .rectangle r
  | .rectangle r => .rectangle (q.transformExtent r storageCrs defaultCrs)

def layerExtent (layer : MapLayer α Crs) : List (Extent α) :=
  if q.is3D layer.extent3D then
    if q.isEmptyBox layer.extent3D then [] else [.box layer.extent3D]
  else if q.isEmpty layer.extent then [] else [.rectangle layer.extent]

def fromLayer (defaultCrs : Crs) (layer : MapLayer α Crs) : Option (SpatialExtent α) :=
  layer.dataProvider.bind fun provider =>
    let boxes := (q.layerExtentsFromMetadata provider.crs provider.spatialExtents).map Extent.box
    let storageExtents := if boxes.isEmpty then q.layerExtent layer else boxes
    if storageExtents.isEmpty then none
    else some {
      bbox := (storageExtents.map (q.bboxExtent provider.crs defaultCrs)).map
        (q.parseExtent · (q.hasAxisInverted defaultCrs))
      storageCrsBbox := storageExtents.map (q.parseExtent · (q.hasAxisInverted provider.crs)) }

def located (storageCrs : Crs) (xt : MetadataExtent α Crs) : Box3D α :=
  if q.isValid xt.extentCrs then
    ⟨q.transformExtent xt.bounds.toRectangle xt.extentCrs storageCrs, xt.bounds.zMinimum,
      xt.bounds.zMaximum⟩
  else xt.bounds

def nonempty (extents : List (MetadataExtent α Crs)) : List (MetadataExtent α Crs) :=
  extents.filter fun xt => !q.isEmpty xt.bounds.toRectangle

lemma layerExtentsFromMetadata_eq (c : Crs) (l : List (MetadataExtent α Crs)) :
    q.layerExtentsFromMetadata c l =
      ((q.nonempty l).filter fun xt => !q.isValid xt.extentCrs).map (q.located c) := by
  induction l with
  | nil => rfl
  | cons xt l ih =>
    rw [layerExtentsFromMetadata, ih]
    cases he : q.isEmpty xt.bounds.toRectangle with
    | true => simp [nonempty, he]
    | false =>
      cases hv : q.isValid xt.extentCrs with
      | true => simp [nonempty, he, hv]
      | false => simp [nonempty, he, hv, located]

lemma layerExtentsFromMetadata_eq_iff (c : Crs) (l : List (MetadataExtent α Crs)) :
    q.layerExtentsFromMetadata c l = (q.nonempty l).map (q.located c) ↔
      ∀ xt ∈ q.nonempty l, q.isValid xt.extentCrs = false := by
  rw [layerExtentsFromMetadata_eq]
  constructor
  · intro h xt hx
    have hl := congrArg List.length h
    rw [List.length_map, List.length_map, List.length_filter_eq_length_iff] at hl
    simpa using hl xt hx
  · intro h
    rw [List.filter_eq_self.2 fun xt hx => by rw [h xt hx]; rfl]

lemma length_fromLayer {d : Crs} {p : Provider α Crs} {b : Box3D α} {r : Rectangle α}
    (hl : q.layerExtentsFromMetadata p.crs p.spatialExtents ≠ []) :
    ∃ s, q.fromLayer d ⟨some p, b, r⟩ = some s ∧
      s.bbox.length = (q.layerExtentsFromMetadata p.crs p.spatialExtents).length ∧
      s.storageCrsBbox.length = (q.layerExtentsFromMetadata p.crs p.spatialExtents).length := by
  have he : ((q.layerExtentsFromMetadata p.crs p.spatialExtents).map Extent.box).isEmpty = false := by
    simpa using hl
  rw [fromLayer, Option.bind_some]
  simp only [he, Bool.false_eq_true, if_false]
  exact ⟨_, rfl, by simp, by simp⟩

/-- The generator yields one box for each extent that is not empty, and the layer has as many, exactly
if no such extent names a reference system of its own. -/
theorem reported_iff_unlocated (defaultCrs : Crs) (p : Provider α Crs) (extent3D : Box3D α)
    (extent : Rectangle α) : (q.layerExtentsFromMetadata p.crs p.spatialExtents =
        (q.nonempty p.spatialExtents).map (q.located p.crs) ∧ (q.nonempty p.spatialExtents ≠ [] →
        ∃ s, q.fromLayer defaultCrs ⟨some p, extent3D, extent⟩ = some s ∧
          s.bbox.length = (q.nonempty p.spatialExtents).length ∧
          s.storageCrsBbox.length = (q.nonempty p.spatialExtents).length)) ↔
    ∀ xt ∈ p.spatialExtents, q.isEmpty xt.bounds.toRectangle = false →
      q.isValid xt.extentCrs = false := by
  have hn : (∀ xt ∈ p.spatialExtents, q.isEmpty xt.bounds.toRectangle = false →
      q.isValid xt.extentCrs = false) ↔
        ∀ xt ∈ q.nonempty p.spatialExtents, q.isValid xt.extentCrs = false := by
    simp [nonempty]
  rw [hn, ← layerExtentsFromMetadata_eq_iff q p.crs]
  refine ⟨And.left, fun h => ⟨h, fun he => ?_⟩⟩
  have hl := q.length_fromLayer (d := defaultCrs) (p := p) (b := extent3D) (r := extent)
  rw [h, List.length_map] at hl
  exact hl (by simpa using he)

/-- The only extent of the metadata is dropped and the layer reports its own in its place. -/
theorem not_reported_located :
    twoSystems.layerExtentsFromMetadata false [⟨⟨⟨0, 1, 2, 3⟩, 4, 5⟩, true⟩] = [] ∧
      (twoSystems.fromLayer false
        ⟨some ⟨false, [⟨⟨⟨0, 1, 2, 3⟩, 4, 5⟩, true⟩]⟩, ⟨⟨6, 6, 7, 7⟩, 0, 0⟩, ⟨6, 6, 7, 7⟩⟩).map
          SpatialExtent.storageCrsBbox = some [[6, 6, 7, 7]] := by
  decide

end Qgis
end QJazz.Ogc.Spatial
