import Mathlib.Data.Prod.Lex
import QJazz.Json.Basic

/-! What the worker reads of a QGIS project, the names of its layers for clients, and the endpoints
its layers are published at. -/
namespace QJazz.Ogc
open Json

inductive LayerKind where
  | vector
  | raster
  | other
deriving DecidableEq

structure MapLayer where
  id : String
  name : String
  shortName : String
  publicSource : String
  providerType : String
  layerType : String
  crs : String
  isValid : Bool
  isSpatial : Bool
  kind : LayerKind
deriving DecidableEq

structure Project where
  fileName : String
  crs : String
  lastSaveVersion : String
  version : Option (ℕ × ℕ)
  mapLayers : List MapLayer
  useLayerIds : Bool
  restrictedLayers : List String
  wfsLayerIds : List String
  wcsLayerIds : List String
deriving DecidableEq

structure OgcEndpoints where
  map : Bool := false
  features : Bool := false
  coverage : Bool := false
  tile : Bool := false
deriving DecidableEq

def OgcEndpoints.value (e : OgcEndpoints) : ℤ :=
  e.map.toNat + 2 * e.features.toNat + 4 * e.coverage.toNat + 8 * e.tile.toNat

lemma OgcEndpoints.value_bounds (e : OgcEndpoints) : 0 ≤ e.value ∧ e.value < 16 := by
  have hm := e.map.toNat_le
  have hf := e.features.toNat_le
  have ho := e.coverage.toNat_le
  have ht := e.tile.toNat_le
  rw [value]
  omega

namespace Project

def layerName (p : Project) (layer : MapLayer) : String :=
  if p.useLayerIds then layer.id
  else if layer.shortName = "" then layer.name
  else layer.shortName

def layerByName (p : Project) (name : String) : Option MapLayer :=
  p.mapLayers.find? fun layer => p.layerName layer = name

def layers (p : Project) : List MapLayer :=
  p.mapLayers.filter fun layer => layer.name ∉ p.restrictedLayers

def endpoints (p : Project) (layer : MapLayer) : OgcEndpoints :=
  match layer.kind with
  | .vector => { features := layer.id ∈ p.wfsLayerIds, map := layer.isSpatial }
  | .raster => { map := true, coverage := layer.id ∈ p.wcsLayerIds }
  | .other => {}

def collectLayers (p : Project) : List (String × OgcEndpoints) :=
  p.layers.foldl (fun d layer => setKey (p.layerName layer) (p.endpoints layer) d) []

def recentEnough (p : Project) (minimum : ℕ × ℕ) : Bool :=
  match p.version with
  | none => true
  | some version => decide (toLex minimum ≤ toLex version)

end Project
end QJazz.Ogc
