import Mathlib.Data.Rat.Floor
import QJazz.Lexical.Form
import QJazz.Lexical.RawQuery

/-! The map and legend handlers turn the parameters of a request into the options of a WMS request,
which a worker reads as a query string. -/
namespace QJazz.Map.Wms

open Lexical List

structure Numerals where
  display : ℚ → Text
  display_ne_nil : ∀ q, display q ≠ []
  display_digits : ∀ q, ∀ c ∈ display q, c.isDigit = true ∨ c = '.' ∨ c = '-'

inductive Bbox where
  | Box2D (xmin ymin xmax ymax : ℚ)
  | Box3D (xmin ymin zmin xmax ymax zmax : ℚ)
deriving DecidableEq

namespace Bbox

def coordinates : Bbox → List ℚ
  | .Box2D xmin ymin xmax ymax => [xmin, ymin, xmax, ymax]
  | .Box3D xmin ymin zmin xmax ymax zmax => [xmin, ymin, zmin, xmax, ymax, zmax]

def display (n : Numerals) (b : Bbox) : Text := [','].intercalate (b.coordinates.map n.display)

end Bbox

def roundHalfEven (q : ℚ) : ℤ :=
  let n := ⌊q⌋
  if q - n < 1 / 2 then n
  else if 1 / 2 < q - n then n + 1
  else if n % 2 = 0 then n
  else n + 1

/-- A positive number with one digit behind the point, as with `{:.1}`. -/
def fixed (q : ℚ) : Text :=
  let tenths := (roundHalfEven (q * 10)).toNat
  Nat.toDigits 10 (tenths / 10) ++ '.' :: Nat.toDigits 10 (tenths % 10)

def crs84 : Text := "http://www.opengis.net/def/crs/OGC/1.3/CRS84".toList

def mapBase : Text := "service=WMS&request=GetMap&version=1.3.0".toList

def legendBase : Text :=
  "service=WMS&request=GetLegendGraphic&version=1.3.0&format=image/png".toList

structure Params where
  bgcolor : Option Text := none
  transparent : Bool := true
  collections : Option Text := none
  width : Option U16 := none
  height : Option U16 := none
  mmPerPixel : Option ℚ := none
  bboxCrs : Option Text := none
  bbox : Option Bbox := none
  styles : Option Text := none
  format : Option Text := none

/-- The type and the subtype of a format that the client accepts. -/
abbrev Mime := String × String

def acceptedFormat (accept : List Mime) : Option Text :=
  accept.findSome? fun m =>
    if m = ("image", "jpeg") then some "image/jpeg".toList
    else if m = ("image", "webp") then some "image/webp".toList
    else if m = ("application", "dxf") then some "application/dxf".toList
    else none

namespace WmsBuilder

def write (key : String) (value opts : Text) : Text := opts ++ '&' :: rawField (key, value)

def writeSome (key : String) (value : Option Text) (opts : Text) : Text :=
  match value with
  | none => opts
  | some value => write key value opts

variable (n : Numerals) (p : Params) (accept : List Mime) (opts : Text)

def layers : Text := writeSome "layers" p.collections opts

def scaling : Text :=
  writeSome "height" (p.height.map U16.display) (writeSome "width" (p.width.map U16.display) opts)

def subsetting : Text :=
  match p.bbox with
  | none => opts
  | some bbox => write "crs" (p.bboxCrs.getD crs84) (write "bbox" (bbox.display n) opts)

def styles : Text := writeSome "styles" p.styles opts

def display : Except String Text :=
  let mmPerPixel := p.mmPerPixel.getD (28 / 100)
  if mmPerPixel ≤ 0 then .error "Invalid mm-per-pixel parameter"
  else .ok (write "dpi" (fixed (254 / 10 / mmPerPixel)) opts)

def bgcolor : Text := writeSome "bgcolor" p.bgcolor opts

def transparent : Text := write "transparent" (toString p.transparent).toList opts

def format : Text := writeSome "format" (p.format.or (acceptedFormat accept)) opts

def build : Except String Text :=
  (display p (subsetting n p (scaling p mapBase))).map
    fun opts => format p accept (transparent p (styles p (bgcolor p (layers p opts))))

end WmsBuilder

inductive Request where
  | default (p : Params) (accept : List Mime)
  | child (resource : Text) (p : Params) (accept : List Mime)
  | styledChild (resource style : Text) (p : Params) (accept : List Mime)
  | legend (layer : Text) (style : Option Text)

def legendOptions (layer : Text) (style : Option Text) : Text :=
  WmsBuilder.writeSome "style" style (WmsBuilder.write "layer" layer legendBase)

namespace Request

def options (n : Numerals) : Request → Except String Text
  | .default p accept => WmsBuilder.build n p accept
  | .child resource p accept => WmsBuilder.build n { p with collections := some resource } accept
  | .styledChild resource style p accept =>
    WmsBuilder.build n { p with collections := some resource, styles := some style } accept
  | .legend layer style => .ok (legendOptions layer style)

end Request

def optionalField (key : String) (value : Option Text) : List (String × Text) :=
  value.toList.map (key, ·)

def mapBaseFields : List (String × Text) :=
  [("service", "WMS".toList), ("request", "GetMap".toList), ("version", "1.3.0".toList)]

def legendBaseFields : List (String × Text) :=
  [("service", "WMS".toList), ("request", "GetLegendGraphic".toList), ("version", "1.3.0".toList),
    ("format", "image/png".toList)]

def mapFields (n : Numerals) (p : Params) (accept : List Mime) : List (String × Text) :=
  mapBaseFields ++
    optionalField "width" (p.width.map U16.display) ++
    optionalField "height" (p.height.map U16.display) ++
    optionalField "bbox" (p.bbox.map (Bbox.display n)) ++
    optionalField "crs" (p.bbox.map fun _ => p.bboxCrs.getD crs84) ++
    [("dpi", fixed (254 / 10 / p.mmPerPixel.getD (28 / 100)))] ++
    optionalField "layers" p.collections ++ optionalField "bgcolor" p.bgcolor ++
    optionalField "styles" p.styles ++
    [("transparent", (toString p.transparent).toList)] ++
    optionalField "format" (p.format.or (acceptedFormat accept))

def legendFields (layer : Text) (style : Option Text) : List (String × Text) :=
  legendBaseFields ++ [("layer", layer)] ++ optionalField "style" style

def mapTexts (p : Params) : List Text :=
  p.collections.toList ++ p.bgcolor.toList ++ p.styles.toList ++ p.format.toList ++
    if p.bbox.isSome then p.bboxCrs.toList else []

namespace Request

def fields (n : Numerals) : Request → List (String × Text)
  | .default p accept => mapFields n p accept
  | .child resource p accept => mapFields n { p with collections := some resource } accept
  | .styledChild resource style p accept =>
    mapFields n { p with collections := some resource, styles := some style } accept
  | .legend layer style => legendFields layer style

def texts : Request → List Text
  | .default p _ => mapTexts p
  | .child resource p _ => mapTexts { p with collections := some resource }
  | .styledChild resource style p _ =>
    mapTexts { p with collections := some resource, styles := some style }
  | .legend layer style => layer :: style.toList

/-- The worker reads the parameters that are meant and no other ones, each of them once. -/
def Carries (n : Numerals) (r : Request) (o : Text) : Prop :=
  parseQsl o = r.fields n ∧ ((parseQsl o).map Prod.fst).Nodup

end Request

variable {n : Numerals} {p : Params} {accept : List Mime} {f : List (String × Text)}
  {key : String} {value : Text}

lemma write_rawQuery (hne : f ≠ []) :
    WmsBuilder.write key value (rawQuery f) = rawQuery (f ++ [(key, value)]) :=
  (rawQuery_concat hne _).symm

lemma writeSome_rawQuery (hne : f ≠ []) (value : Option Text) :
    WmsBuilder.writeSome key value (rawQuery f) =
      rawQuery (f ++ optionalField key value) := by
  cases value with
  | none => simp [WmsBuilder.writeSome, optionalField]
  | some value => exact write_rawQuery hne

lemma subsetting_rawQuery (hne : f ≠ []) : WmsBuilder.subsetting n p (rawQuery f) =
      rawQuery (f ++ optionalField "bbox" (p.bbox.map (Bbox.display n)) ++
        optionalField "crs" (p.bbox.map fun _ => p.bboxCrs.getD crs84)) := by
  rw [WmsBuilder.subsetting]
  cases p.bbox with
  | none => simp [optionalField]
  | some b =>
    simp only
    rw [write_rawQuery hne, write_rawQuery (by simp)]
    rfl

lemma mapBase_eq : mapBase = rawQuery mapBaseFields := by decide +kernel

lemma legendBase_eq : legendBase = rawQuery legendBaseFields := by decide +kernel

lemma mapBaseFields_ne_nil : mapBaseFields ≠ [] := cons_ne_nil _ _

lemma legendBaseFields_ne_nil : legendBaseFields ≠ [] := cons_ne_nil _ _

lemma build_eq (n : Numerals) (p : Params) (accept : List Mime) : WmsBuilder.build n p accept =
      if p.mmPerPixel.getD (28 / 100) ≤ 0 then .error "Invalid mm-per-pixel parameter"
      else .ok (rawQuery (mapFields n p accept)) := by
  rw [WmsBuilder.build, WmsBuilder.scaling, mapBase_eq, writeSome_rawQuery mapBaseFields_ne_nil,
    writeSome_rawQuery (by simp [mapBaseFields_ne_nil]),
    subsetting_rawQuery (by simp [mapBaseFields_ne_nil]), WmsBuilder.display]
  split
  · rfl
  · rw [Except.map, WmsBuilder.layers, WmsBuilder.bgcolor, WmsBuilder.styles, WmsBuilder.transparent,
      WmsBuilder.format, write_rawQuery (by simp [mapBaseFields_ne_nil]), writeSome_rawQuery (by simp),
      writeSome_rawQuery (by simp), writeSome_rawQuery (by simp), write_rawQuery (by simp),
      writeSome_rawQuery (by simp), mapFields]

lemma legendOptions_eq (l : Text) (s : Option Text) :
    legendOptions l s = rawQuery (legendFields l s) := by
  rw [legendOptions, legendBase_eq, write_rawQuery legendBaseFields_ne_nil,
    writeSome_rawQuery (by simp), legendFields]

lemma verbatim_of_digits (hne : value ≠ [])
    (h : ∀ c ∈ value, c.isDigit ∨ c = '.' ∨ c = '-' ∨ c = ',') : Verbatim value := by
  refine .of_plain hne fun c hc => ?_
  rcases h c hc with hd | rfl | rfl | rfl
  · refine ⟨?_, ?_, ?_⟩ <;> (rintro rfl; exact absurd hd (by decide))
  all_goals decide

lemma isDigit_of_mem_toDigits {m : ℕ} {c : Char} (h : c ∈ Nat.toDigits 10 m) : c.isDigit = true :=
  Nat.isDigit_of_mem_toDigits (by decide) (by decide) h

lemma verbatim_fixed (q : ℚ) : Verbatim (fixed q) := by
  refine verbatim_of_digits (by simp [fixed]) fun c hc => ?_
  rw [fixed, mem_append, mem_cons] at hc
  rcases hc with hc | hc | hc
  · exact .inl (isDigit_of_mem_toDigits hc)
  · exact .inr (.inl hc)
  · exact .inl (isDigit_of_mem_toDigits hc)

lemma verbatim_bbox (b : Bbox) : Verbatim (b.display n) := by
  refine verbatim_of_digits ?_ fun c hc => ?_
  · cases b <;> simp [Bbox.display, Bbox.coordinates, intercalate_cons_cons]
  · by_cases ho : c = ','
    · exact .inr (.inr (.inr ho))
    · obtain ⟨i, hp, hc⟩ := (mem_intercalate ho).1 hc
      obtain ⟨q, -, rfl⟩ := List.mem_map.1 hp
      rcases n.display_digits q c hc with h | h | h
      · exact .inl h
      · exact .inr (.inl h)
      · exact .inr (.inr (.inl h))

lemma verbatim_acceptedFormat (h : acceptedFormat accept = some value) : Verbatim value := by
  obtain ⟨m, -, hm⟩ := List.exists_of_findSome?_eq_some h
  split at hm
  · cases hm
    decide
  · split at hm
    · cases hm
      decide
    · split at hm
      · cases hm
        decide
      · cases hm

lemma verbatim_transparent (b : Bool) : Verbatim (toString b).toList := by
  cases b <;> decide

lemma forall_optionalField {P : String × Text → Prop} {value : Option Text} :
    (∀ x ∈ optionalField key value, P x) ↔ ∀ v ∈ value, P (key, v) := by
  cases value <;> simp [optionalField]

lemma verbatim_crs84 : Verbatim crs84 := by decide

lemma verbatim_of_mem_size (s : Option U16) : ∀ v ∈ s.map U16.display, Verbatim v := by
  intro v hv
  obtain ⟨m, -, rfl⟩ := Option.map_eq_some_iff.1 hv
  exact verbatim_of_digits Nat.toDigits_ne_nil fun _ hc => .inl (U16.isDigit_of_mem_display hc)

lemma verbatim_mapFields_iff :
    (∀ x ∈ mapFields n p accept, Verbatim x.2) ↔ ∀ t ∈ mapTexts p, Verbatim t := by
  have he : ∀ x ∈ mapBaseFields, Verbatim x.2 := by decide
  have hw := verbatim_of_mem_size p.width
  have hh := verbatim_of_mem_size p.height
  have ho : ∀ v ∈ p.bbox.map (Bbox.display n), Verbatim v := by
    intro v hv
    obtain ⟨b, -, rfl⟩ := Option.map_eq_some_iff.1 hv
    exact verbatim_bbox b
  have hr : (∀ v ∈ p.bbox.map fun _ => p.bboxCrs.getD crs84, Verbatim v) ↔
      ∀ t ∈ if p.bbox.isSome then p.bboxCrs.toList else [], Verbatim t := by
    cases p.bbox with
    | none => simp
    | some b => cases p.bboxCrs <;> simp [verbatim_crs84]
  have hf : (∀ v ∈ p.format.or (acceptedFormat accept), Verbatim v) ↔
      ∀ v ∈ p.format.toList, Verbatim v := by
    cases p.format with
    | none => simpa using fun v hv => verbatim_acceptedFormat hv
    | some v => simp
  simp only [mapFields, mapTexts, forall_mem_append, forall_mem_singleton,
    forall_optionalField, hr, hf, verbatim_fixed, verbatim_transparent, Option.mem_toList]
  tauto

lemma verbatim_legendFields_iff {l : Text} {s : Option Text} :
    (∀ x ∈ legendFields l s, Verbatim x.2) ↔ ∀ t ∈ l :: s.toList, Verbatim t := by
  have he : ∀ x ∈ legendBaseFields, Verbatim x.2 := by decide
  simp only [legendFields, forall_mem_append, forall_mem_singleton, forall_optionalField,
    forall_mem_cons, Option.mem_toList]
  tauto

def mapKeys : List String :=
  ["service", "request", "version"] ++ ["width"] ++ ["height"] ++ ["bbox"] ++ ["crs"] ++ ["dpi"] ++
    ["layers"] ++ ["bgcolor"] ++ ["styles"] ++ ["transparent"] ++ ["format"]

def legendKeys : List String :=
  ["service", "request", "version", "format"] ++ ["layer"] ++ ["style"]

lemma keys_optionalField (key : String) (value : Option Text) :
    ((optionalField key value).map Prod.fst).Sublist [key] := by
  cases value <;> simp [optionalField]

lemma keys_mapFields (n : Numerals) (p : Params) (accept : List Mime) :
    ((mapFields n p accept).map Prod.fst).Sublist mapKeys := by
  simp only [mapFields, map_append]
  repeat' apply List.Sublist.append
  all_goals first
    | exact keys_optionalField _ _
    | exact List.Sublist.refl _

lemma keys_legendFields (l : Text) (s : Option Text) :
    ((legendFields l s).map Prod.fst).Sublist legendKeys := by
  simp only [legendFields, map_append]
  repeat' apply List.Sublist.append
  all_goals first
    | exact keys_optionalField _ _
    | exact List.Sublist.refl _

lemma carries_rawQuery {e : List String} (hu : (f.map Prod.fst).Sublist e)
    (hk : ∀ k ∈ e, VerbatimKey k) (hn : e.Nodup) :
    (parseQsl (rawQuery f) = f ∧ ((parseQsl (rawQuery f)).map Prod.fst).Nodup) ↔
      ∀ x ∈ f, Verbatim x.2 := by
  have hf : ∀ x ∈ f, VerbatimKey x.1 :=
    fun x hx => hk _ (hu.subset (List.mem_map_of_mem hx))
  rw [← parseQsl_rawQuery_iff hf]
  refine ⟨And.left, fun h => ⟨h, ?_⟩⟩
  rw [h]
  exact hn.sublist hu

lemma carries_map (n : Numerals) (p : Params) (accept : List Mime) {o : Text}
    (h : WmsBuilder.build n p accept = .ok o) :
    (parseQsl o = mapFields n p accept ∧ ((parseQsl o).map Prod.fst).Nodup) ↔
      ∀ t ∈ mapTexts p, Verbatim t := by
  rw [build_eq] at h
  split at h
  · cases h
  · cases h
    rw [carries_rawQuery (keys_mapFields n p accept) (by decide) (by decide),
      verbatim_mapFields_iff]

lemma carries_legend (l : Text) (s : Option Text) :
    (parseQsl (legendOptions l s) = legendFields l s ∧
        ((parseQsl (legendOptions l s)).map Prod.fst).Nodup) ↔ ∀ t ∈ l :: s.toList, Verbatim t := by
  rw [legendOptions_eq, carries_rawQuery (keys_legendFields l s) (by decide)
    (by decide), verbatim_legendFields_iff]

/-- The options carry the values of the client exactly if each of its texts is read as it is. -/
theorem carries_iff (n : Numerals) (r : Request) (o : Text) (h : r.options n = .ok o) :
    r.Carries n o ↔ ∀ t ∈ r.texts, Verbatim t := by
  cases r with
  | default p accept => exact carries_map n p accept h
  | child e p accept | styledChild e s p accept => exact carries_map n _ accept h
  | legend l s =>
    cases h
    exact carries_legend l s

def wholes : Numerals where
  display q := (if q < 0 then ['-'] else []) ++ Nat.toDigits 10 ⌊|q|⌋.toNat
  display_ne_nil q := by simp
  display_digits q c hc := by
    rw [List.mem_append] at hc
    rcases hc with hc | hc
    · split at hc
      · exact .inr (.inr (List.mem_singleton.1 hc))
      · cases hc
    · exact .inl (isDigit_of_mem_toDigits hc)

def roads : Request :=
  .child "roads".toList { bbox := some (.Box2D 0 0 10 20), styles := some "night".toList } []

lemma options_roads : roads.options wholes = .ok (rawQuery (roads.fields wholes)) := by
  rw [roads, Request.options, build_eq, if_neg (by norm_num)]
  rfl

theorem carries_iff_roads : roads.options wholes = .ok (rawQuery (roads.fields wholes)) ∧
      roads.Carries wholes (rawQuery (roads.fields wholes)) :=
  ⟨options_roads, (carries_iff wholes roads _ options_roads).2 (by decide)⟩

def smuggled : Request := .legend "roads&style=night".toList none

theorem not_carries_smuggled :
    ∃ o, smuggled.options wholes = .ok o ∧ ("style", "night".toList) ∈ parseQsl o ∧
      ¬ smuggled.Carries wholes o := by
  refine ⟨legendOptions "roads&style=night".toList none, rfl, by decide +kernel, fun h => ?_⟩
  exact absurd h.1 (by decide +kernel)

end QJazz.Map.Wms
