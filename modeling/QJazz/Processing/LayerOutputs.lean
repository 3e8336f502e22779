import QJazz.Lexical.Lines
import QJazz.Lexical.Quote
import QJazz.Rpc.OwsRequest

/-! The service and its version are taken from the media type of the chosen format, by two regular
expressions that are matched from the beginning. -/
namespace QJazz.Processing

open Lexical Rpc.Ows List

inductive Service where
  | wms
  | wcs
  | wfs
  | wmts
deriving DecidableEq

namespace Service

def text : Service → Text
  | wms => "wms".toList
  | wcs => "wcs".toList
  | wfs => "wfs".toList
  | wmts => "wmts".toList

def upper (s : Service) : Text := s.text.map Char.toUpper

def all : List Service := [wms, wcs, wfs, wmts]

def pattern (s : Service) : Text := "application/x-ogc-".toList ++ s.text ++ "+xml".toList

def mediaType (s : Service) (version : Option Text) : Text :=
  s.pattern ++ version.elim [] ("; version=".toList ++ ·)

end Service

def Format.service (mediaType : Text) : Option Text :=
  (Service.all.find? fun s => s.pattern.isPrefixOf mediaType).map Service.upper

/-- `Format.version`: the pattern has to begin where the media type does. -/
def Format.version : Text → Option Text
  | ';' :: s =>
    let rest := s.dropWhile isSpace
    let value := (rest.drop "version=".length).takeWhile fun c => c ≠ ';' && !isSpace c
    if rest.length < s.length ∧ "version=".toList.isPrefixOf rest = true ∧ value ≠ [] then
      some value
    else none
  | _ => none

def orDefault (value : Option Text) (default : Text) : Text :=
  (value.filter (· ≠ [])).getD default

def andField (front : Text) (value : Option Text) : Text :=
  (value.filter (· ≠ [])).elim [] (front ++ ·)

def owsReference (advertised : Text) (service version request query : Option Text) : Text :=
  advertised ++ (if '?' ∈ advertised then '&' else '?') ::
    ("SERVICE=".toList ++ orDefault service "WMS".toList ++
      ("&REQUEST=".toList ++ orDefault request "GetCapabilities".toList ++
        (andField "&VERSION=".toList version ++ andField ['&'] query)))

def layersQuery (layers : Text) : Text := "LAYERS=".toList ++ quote [] layers

inductive LayerOutput where
  | layer (name : Text)
  | multiple (names : List Text)

namespace LayerOutput

def layers : LayerOutput → Text
  | layer name => name
  | multiple names => [','].intercalate names

def reference (advertised mediaType : Text) : LayerOutput → Text
  | layer name =>
    owsReference advertised (Format.service mediaType) (Format.version mediaType) none
      (some (layersQuery name))
  | multiple names =>
    owsReference advertised (Format.service mediaType) none none
      (some (layersQuery ([','].intercalate names)))

end LayerOutput

def valuesOf (key : String) (url : Text) : List Text :=
  ((parseFields (queryOf url)).filter fun x => x.1 = key).map Prod.snd

def AsksFor (url : Text) (s : Service) (version : Option Text) (layers : Text) : Prop :=
  valuesOf "SERVICE" url = [s.upper] ∧ valuesOf "VERSION" url = version.toList ∧
    valuesOf "LAYERS" url = [layers]

variable {advertised layers t : Text} {s : Service} {version : Option Text} {output : LayerOutput}

lemma service_mediaType (s : Service) (version : Option Text) :
    Format.service (s.mediaType version) = some s.upper := by
  cases s <;> rfl

lemma version_mediaType (s : Service) (version : Option Text) :
    Format.version (s.mediaType version) = none := rfl

def requestText (s : Service) (layers : Text) : Text :=
  "SERVICE=".toList ++ s.upper ++ '&' :: ("REQUEST=GetCapabilities".toList ++ '&' ::
    layersQuery layers)

lemma reference_mediaType (advertised : Text) (s : Service) (version : Option Text)
    (output : LayerOutput) : output.reference advertised (s.mediaType version) =
      advertised ++ (if '?' ∈ advertised then '&' else '?') :: requestText s output.layers := by
  have he : orDefault (some s.upper) "WMS".toList = s.upper := by cases s <;> rfl
  cases output with
  | layer a =>
    rw [LayerOutput.reference, service_mediaType, version_mediaType, owsReference, he]
    rfl
  | multiple n =>
    rw [LayerOutput.reference, service_mediaType, owsReference, he]
    rfl

lemma notMem_quote_nil {c : Char} (hr : isUnreserved c = false) (hc : c ≠ '%') (s : Text) :
    c ∉ quote [] s := by
  intro hm
  rcases (of_mem_quote_nil hm).1 with h | h
  · rw [hr] at h
    cases h
  · exact hc h

lemma hash_notMem_requestText (s : Service) (layers : Text) : '#' ∉ requestText s layers := by
  have he : '#' ∉ s.upper := by cases s <;> decide
  have hr : '#' ∉ "REQUEST=GetCapabilities".toList := by decide
  have hl : '#' ∉ layersQuery layers := by
    unfold layersQuery
    rw [mem_append, not_or]
    exact ⟨by decide, notMem_quote_nil (by decide) (by decide) layers⟩
  unfold requestText
  rw [mem_append, mem_append, mem_cons, mem_append, mem_cons]
  rintro ((h | h) | h | h | h | h)
  · exact absurd h (by decide)
  · exact he h
  · exact absurd h (by decide)
  · exact hr h
  · exact absurd h (by decide)
  · exact hl h

lemma parseFields_layersQuery (layers : Text) :
    parseFields (layersQuery layers) = [("LAYERS", layers)] := by
  have hm : '&' ∉ quote [] layers := notMem_quote_nil (by decide) (by decide) layers
  have hn : parseFields ("LAYERS".toList ++ '=' :: quote [] layers) = _ :=
    parseFields_field (by decide) (by decide) hm
  rw [unquotePlus_quote] at hn
  exact hn

lemma parseFields_requestText (s : Service) (layers : Text) : parseFields (requestText s layers) =
      [("SERVICE", s.upper), ("REQUEST", "GetCapabilities".toList), ("LAYERS", layers)] := by
  have he : parseFields ("SERVICE=".toList ++ s.upper) = [("SERVICE", s.upper)] := by
    cases s <;> rfl
  have hr : parseFields "REQUEST=GetCapabilities".toList =
      [("REQUEST", "GetCapabilities".toList)] := rfl
  unfold requestText
  rw [parseFields_append, parseFields_append, he, hr, parseFields_layersQuery,
    singleton_append, singleton_append]

lemma queryOf_of_notMem (h : '#' ∉ advertised) :
    queryOf advertised = (advertised.dropWhile (· ≠ '?')).tail := by
  rw [queryOf, takeWhile_eq_self_iff.2]
  exact fun c hc => decide_eq_true (ne_of_mem_of_not_mem hc h)

lemma parseFields_queryOf_append (hh : '#' ∉ advertised) (ht : '#' ∉ t) :
    parseFields (queryOf (advertised ++ (if '?' ∈ advertised then '&' else '?') :: t)) =
      parseFields (queryOf advertised) ++ parseFields t := by
  by_cases hm : '?' ∈ advertised
  · obtain ⟨f, b, rfl, hf⟩ := eq_append_cons_of_mem hm
    have hne : ∀ c ∈ f, decide (c ≠ '?') = true :=
      fun c hc => decide_eq_true (ne_of_mem_of_not_mem hc hf)
    rw [if_pos hm, queryOf_of_notMem hh, queryOf_of_notMem (by simp_all), append_assoc,
      dropWhile_append_of_pos hne, dropWhile_append_of_pos hne, ← parseFields_append]
    rfl
  · have hne : ∀ c ∈ advertised, decide (c ≠ '?') = true :=
      fun c hc => decide_eq_true (ne_of_mem_of_not_mem hc hm)
    rw [if_neg hm, queryOf_of_notMem hh, queryOf_of_notMem (by simp_all),
      dropWhile_append_of_pos hne, dropWhile_eq_nil_iff.2 hne]
    rfl

lemma queryOf_append_of_mem (h : '#' ∈ advertised) (t : Text) :
    queryOf (advertised ++ t) = queryOf advertised := by
  obtain ⟨f, b, rfl, hf⟩ := eq_append_cons_of_mem h
  have hne : ∀ c ∈ f, decide (c ≠ '#') = true :=
    fun c hc => decide_eq_true (ne_of_mem_of_not_mem hc hf)
  rw [queryOf, queryOf, append_assoc, takeWhile_append_of_pos hne, takeWhile_append_of_pos hne]
  rfl

lemma valuesOf_reference (hh : '#' ∉ advertised) (key : String) :
    valuesOf key (output.reference advertised (s.mediaType version)) = valuesOf key advertised ++
        ([("SERVICE", s.upper), ("REQUEST", "GetCapabilities".toList),
          ("LAYERS", output.layers)].filter fun x => x.1 = key).map Prod.snd := by
  rw [valuesOf, reference_mediaType,
    parseFields_queryOf_append hh (hash_notMem_requestText s output.layers),
    parseFields_requestText, filter_append, map_append, valuesOf]

lemma asksFor_reference_of_notMem (hh : '#' ∉ advertised) :
    AsksFor (output.reference advertised (s.mediaType version)) s version output.layers ↔
      valuesOf "SERVICE" advertised = [] ∧ valuesOf "VERSION" advertised = version.toList ∧
        valuesOf "LAYERS" advertised = [] := by
  rw [AsksFor, valuesOf_reference hh, valuesOf_reference hh, valuesOf_reference hh]
  simp

/-- The link asks for the layers at the service, but the version that it asks for is the one that the
advertised url has itself, whatever the client has chosen. -/
theorem asksFor_reference_iff (advertised : Text) (s : Service) (version : Option Text)
    (output : LayerOutput) :
    AsksFor (output.reference advertised (s.mediaType version)) s version output.layers ↔
      if '#' ∈ advertised then AsksFor advertised s version output.layers
      else valuesOf "SERVICE" advertised = [] ∧ valuesOf "VERSION" advertised = version.toList ∧
        valuesOf "LAYERS" advertised = [] := by
  by_cases hh : '#' ∈ advertised
  · rw [if_pos hh, reference_mediaType, AsksFor, AsksFor, valuesOf, valuesOf, valuesOf,
      queryOf_append_of_mem hh]
    rfl
  · rw [if_neg hh, asksFor_reference_of_notMem hh]

/-- The version 1.1.1 is not asked for, so that the service takes one of its own choice. -/
theorem not_asksFor_version : (LayerOutput.layer "roads".toList).reference "ows:a/map".toList
        (Service.wms.mediaType (some "1.1.1".toList)) =
      "ows:a/map?SERVICE=WMS&REQUEST=GetCapabilities&LAYERS=roads".toList ∧
    ¬ AsksFor ((LayerOutput.layer "roads".toList).reference "ows:a/map".toList
        (Service.wms.mediaType (some "1.1.1".toList))) .wms (some "1.1.1".toList)
        "roads".toList := by
  refine ⟨rfl, ?_⟩
  rintro ⟨-, hv, -⟩
  cases hv

end QJazz.Processing
