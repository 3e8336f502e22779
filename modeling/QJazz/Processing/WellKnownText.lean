import QJazz.Lexical.Backtrack
import QJazz.Lexical.Lines

/-! `wkt_to_geometry` splits a text by one regular expression. Its dot matches no line break, and
its end is also found before a line break that ends the text. -/
namespace QJazz.Processing

open Lexical List

inductive Tag where
  | crs
  | srid

namespace Tag

def text : Tag → Text
  | crs => "CRS".toList
  | srid => "SRID".toList

def definition : Tag → Text → Text
  | crs, s => s
  | srid, s => "POSTGIS:".toList ++ s

def referenced (tag : Tag) (crs geometry : Text) : Text :=
  tag.text ++ '=' :: (crs ++ ';' :: geometry)

end Tag

def dot (c : Char) : Bool := decide (c ≠ '\n')

def atEnd (s : Text) : Bool := decide (s = [] ∨ s = ['\n'])

abbrev Reference := Option Tag × Text

/-- One alternative of `(CRS|SRID)=(.*);`, with what is behind it. -/
def reference (tag : Tag) (s : Text) : List (Reference × Text) :=
  match (tag.text ++ ['=']).isPrefixOf? s with
  | none => []
  | some r =>
    (greedy dot r).filterMap fun x =>
      if x.2.head? = some ';' then some ((some tag, x.1), x.2.tail) else none

def references (s : Text) : List (Reference × Text) :=
  [Tag.crs, .srid].flatMap fun tag => reference tag s

/-- `(.*?)$` -/
def lineEnd (s : Text) : Option Text :=
  (reluctant dot s).findSome? fun x => if atEnd x.2 then some x.1 else none

def splitReference (s : Text) : Option (Reference × Text) :=
  (references s ++ [((none, []), s)]).findSome? fun x : Reference × Text =>
    (lineEnd x.2).map (Prod.mk x.1)

/-- `WKT_EXPR.match`: the groups, which are empty texts if they are not used. -/
def wktMatch (s : Text) : Option (Reference × Text) :=
  (greedy isSpace s).findSome? fun x => splitReference x.2

/-- `wkt_to_geometry`: no geometry if it is null, and no reference system if it is not valid. -/
def wktToGeometry {G C : Type} (fromWkt : Text → Option G) (crs : Text → Option C) (wkt : Text) :
    Except String (Option (G × Option C)) :=
  match wktMatch wkt with
  | some ((tag, s), g) =>
    .ok ((fromWkt g).map fun x => (x, crs (tag.elim s fun t => t.definition s)))
  | none => .error "Invalid wkt format"

/-- Whatever the parsers are, the geometry is made from the one text, and its reference system from
the other one, if there is one. An empty text is no reference system. -/
def Hands (wkt geometry : Text) (definition : Option Text) : Prop :=
  ∀ (G C : Type) (fromWkt : Text → Option G) (crs : Text → Option C), crs [] = none →
    wktToGeometry fromWkt crs wkt = .ok ((fromWkt geometry).map fun x => (x, definition.bind crs))

variable {s u crs geometry : Text} {tag : Tag} {d : Option Text} {x : Reference × Text}

lemma lineEnd_cons {c : Char} (h : c ≠ '\n') : lineEnd (c :: s) = (lineEnd s).map (c :: ·) := by
  have he : atEnd (c :: s) = false := by simp [atEnd, h]
  have hd : dot c := decide_eq_true h
  rw [lineEnd, reluctant, findSome?_cons, he, if_pos hd, findSome?_map, lineEnd, map_findSome?]
  change findSome? _ _ = findSome? _ _
  congr 1
  funext x
  by_cases hx : atEnd x.2 = true <;> simp [hx]

lemma lineEnd_eq (s : Text) :
    lineEnd s = if '\n' ∈ s.dropLast then none else some (s.takeWhile dot) := by
  induction s with
  | nil => rfl
  | cons c s ih =>
    by_cases hc : c = '\n'
    · subst hc
      cases s with
      | nil => rfl
      | cons d s => simp [lineEnd, reluctant, atEnd, dot]
    · have hd : dot c := decide_eq_true hc
      rw [lineEnd_cons hc, ih, takeWhile_cons_of_pos hd]
      cases s with
      | nil => rfl
      | cons d s =>
        simp only [dropLast_cons_of_ne_nil (cons_ne_nil d s), mem_cons, Ne.symm hc, false_or]
        split <;> rfl

lemma mem_reference : x ∈ reference tag s ↔
    ∃ crs, x.1 = (some tag, crs) ∧ s = tag.referenced crs x.2 ∧ '\n' ∉ crs := by
  rw [reference]
  constructor
  · intro h
    split at h
    · cases h
    next r hr =>
      rw [isPrefixOf?_eq_some_iff_append_eq] at hr
      obtain ⟨⟨a, b⟩, hm, hx⟩ := mem_filterMap.1 h
      obtain ⟨rfl, ha⟩ := mem_greedy.1 hm
      split at hx
      next hb =>
        cases hx
        obtain ⟨b, rfl⟩ := head?_eq_some_iff.1 hb
        refine ⟨a, rfl, by simpa [Tag.referenced] using hr.symm, fun hn => ?_⟩
        exact absurd (ha _ hn) (by decide)
      · cases hx
  · rintro ⟨crs, hx, rfl, hn⟩
    have hr : (tag.text ++ ['=']).isPrefixOf? (tag.referenced crs x.2) =
        some (crs ++ ';' :: x.2) := by
      rw [isPrefixOf?_eq_some_iff_append_eq]
      simp [Tag.referenced]
    rw [hr]
    refine mem_filterMap.2 ⟨(crs, ';' :: x.2), mem_greedy.2 ⟨rfl, fun c hc => ?_⟩, ?_⟩
    · exact decide_eq_true (ne_of_mem_of_not_mem hc hn)
    · rw [← hx]
      rfl

lemma mem_references : x ∈ references s ↔
    ∃ tag crs, x.1 = (some tag, crs) ∧ s = tag.referenced crs x.2 ∧ '\n' ∉ crs := by
  simp only [references, mem_flatMap, mem_reference]
  constructor
  · rintro ⟨tag, -, h⟩
    exact ⟨tag, h⟩
  · rintro ⟨tag, h⟩
    exact ⟨tag, by cases tag <;> simp, h⟩

lemma mem_dropLast_of_append (hu : '\n' ∉ u) (h : '\n' ∈ (u ++ s).dropLast) :
    '\n' ∈ s.dropLast := by
  by_cases hs : s = []
  · rw [hs, append_nil] at h
    exact absurd (mem_of_mem_dropLast h) hu
  · rw [dropLast_append_of_ne_nil hs] at h
    exact (mem_append.1 h).resolve_left hu

lemma newline_of_mem_references (hx : x ∈ references s) (h : '\n' ∈ s.dropLast) :
    '\n' ∈ x.2.dropLast := by
  obtain ⟨tag, crs, -, rfl, hn⟩ := mem_references.1 hx
  have ht : '\n' ∉ tag.text := by cases tag <;> decide
  have hu : '\n' ∉ tag.text ++ '=' :: (crs ++ [';']) := by simp [ht, hn]
  refine mem_dropLast_of_append hu ?_
  simpa [Tag.referenced] using h

lemma splitReference_eq_none : splitReference s = none ↔ '\n' ∈ s.dropLast := by
  rw [splitReference, findSome?_eq_none_iff]
  constructor
  · intro h
    simpa [lineEnd_eq] using h ((none, []), s) (by simp)
  · intro h x hx
    have hl : '\n' ∈ x.2.dropLast := by
      rcases mem_append.1 hx with hx | hx
      · exact newline_of_mem_references hx h
      · rw [mem_singleton.1 hx]
        exact h
    rw [lineEnd_eq, if_pos hl]
    rfl

lemma of_splitReference (h : splitReference s = some x) : '\n' ∉ x.2 ∧ x.2.Sublist s := by
  obtain ⟨y, hy, hx⟩ := exists_of_findSome?_eq_some h
  rw [lineEnd_eq] at hx
  split at hx
  · cases hx
  · cases hx
    have hs : y.2 <:+ s := by
      rcases mem_append.1 hy with hy | hy
      · obtain ⟨tag, crs, -, rfl, -⟩ := mem_references.1 hy
        exact ⟨tag.text ++ '=' :: (crs ++ [';']), by simp [Tag.referenced]⟩
      · rw [mem_singleton.1 hy]
    refine ⟨fun hn => ?_, (takeWhile_sublist _).trans hs.sublist⟩
    exact absurd (mem_takeWhile_imp hn) (by decide)

lemma wktMatch_eq (s : Text) : wktMatch s = splitReference (s.dropWhile isSpace) := by
  obtain ⟨l, hl⟩ := greedy_eq_cons isSpace s
  rw [wktMatch, hl, findSome?_cons]
  cases h : splitReference (s.dropWhile isSpace) with
  | some x => rfl
  | none =>
    refine findSome?_eq_none_iff.2 fun x hx => splitReference_eq_none.2 ?_
    have hm : x ∈ greedy isSpace s := hl ▸ mem_cons_of_mem _ hx
    obtain ⟨rfl, hs⟩ := mem_greedy.1 hm
    rw [splitReference_eq_none, dropWhile_append_of_pos hs] at h
    rw [← takeWhile_append_dropWhile (p := isSpace) (l := x.2)]
    rw [dropLast_append_of_ne_nil (ne_nil_of_mem (mem_of_mem_dropLast h))]
    exact mem_append_right _ h

lemma wktMatch_eq_none : wktMatch s = none ↔ '\n' ∈ (s.dropWhile isSpace).dropLast := by
  rw [wktMatch_eq, splitReference_eq_none]

lemma lineEnd_of_notMem (h : '\n' ∉ s) : lineEnd s = some s := by
  rw [lineEnd_eq, if_neg fun hn => h (mem_of_mem_dropLast hn), takeWhile_eq_self_iff.2]
  exact fun c hc => decide_eq_true (ne_of_mem_of_not_mem hc h)

lemma referenced_inj {t : Tag} {r g : Text} (hc : ';' ∉ crs) (hg : ';' ∉ geometry)
    (h : tag.referenced crs geometry = t.referenced r g) : tag = t ∧ crs = r ∧ geometry = g := by
  have he : tag = t ∧ crs ++ ';' :: geometry = r ++ ';' :: g := by
    revert h
    cases tag <;> cases t <;> simp [Tag.referenced, Tag.text]
  obtain ⟨hr, -, hj⟩ := (append_cons_inj_of_notMem hc hg).1 he.2
  exact ⟨he.1, hr, hj⟩

lemma dropWhile_referenced :
    (tag.referenced crs geometry).dropWhile isSpace = tag.referenced crs geometry := by
  cases tag <;> rfl

lemma wktMatch_referenced (hc : ';' ∉ crs) (hg : ';' ∉ geometry) (hn : '\n' ∉ crs)
    (hl : '\n' ∉ geometry) :
    wktMatch (tag.referenced crs geometry) = some ((some tag, crs), geometry) := by
  have hm : ((some tag, crs), geometry) ∈ references (tag.referenced crs geometry) :=
    mem_references.2 ⟨tag, crs, rfl, rfl, hn⟩
  have hf : (references (tag.referenced crs geometry)).findSome?
      (fun x => (lineEnd x.2).map (Prod.mk x.1)) = some ((some tag, crs), geometry) := by
    refine findSome?_eq_of_unique hm ?_ ?_
    · rw [lineEnd_of_notMem hl]
      rfl
    · intro z hz w hw
      obtain ⟨t, r, hr, he, -⟩ := mem_references.1 hz
      obtain ⟨rfl, rfl, hz⟩ := referenced_inj hc hg he
      rw [← hz, lineEnd_of_notMem hl, hr] at hw
      cases hw
      rfl
  rw [wktMatch_eq, dropWhile_referenced, splitReference, findSome?_append, hf]
  rfl

lemma wktMatch_plain (h : ∀ tag crs g, s ≠ Tag.referenced tag crs g) (hn : '\n' ∉ s)
    (hd : s.dropWhile isSpace = s) : wktMatch s = some ((none, []), s) := by
  have hr : references s = [] := by
    refine eq_nil_iff_forall_not_mem.2 fun x hx => ?_
    obtain ⟨tag, crs, -, he, -⟩ := mem_references.1 hx
    exact h tag crs x.2 he
  rw [wktMatch_eq, hd, splitReference, hr, nil_append, findSome?_singleton, lineEnd_of_notMem hn]
  rfl

lemma Hands.exists_match (h : Hands s geometry d) : ∃ r, wktMatch s = some (r, geometry) := by
  have hw := h Text Unit some (fun _ => none) rfl
  rw [wktToGeometry] at hw
  split at hw
  next t r g hm =>
    rw [hm, (Prod.mk.inj (Option.some.inj (Except.ok.inj hw))).1]
    exact ⟨_, rfl⟩
  · cases hw

lemma hands_of_match {r : Option Tag} (h : wktMatch s = some ((r, crs), geometry))
    (hr : r = none → crs = []) : Hands s geometry (r.map fun t => t.definition crs) := by
  intro G C fromWkt parse hp
  rw [wktToGeometry, h]
  cases r with
  | none =>
    rw [hr rfl]
    simp [hp]
  | some t => rfl

lemma error_iff {G C : Type} {fromWkt : Text → Option G} {parse : Text → Option C} :
    wktToGeometry fromWkt parse s = .error "Invalid wkt format" ↔
      '\n' ∈ (s.dropWhile isSpace).dropLast := by
  rw [← wktMatch_eq_none, wktToGeometry]
  split
  next h => simp [h]
  next h => simp [h]

lemma notMem_of_hands (h : Hands (tag.referenced crs geometry) geometry d) :
    '\n' ∉ crs ∧ '\n' ∉ geometry := by
  obtain ⟨r, hr⟩ := h.exists_match
  rw [wktMatch_eq, dropWhile_referenced] at hr
  refine ⟨fun hn => ?_, (of_splitReference hr).1⟩
  have hl : '\n' ∈ (tag.text ++ '=' :: crs ++ ';' :: geometry).dropLast := by
    rw [dropLast_append_of_ne_nil (cons_ne_nil _ _)]
    simp [hn]
  have hs : splitReference (tag.referenced crs geometry) = none :=
    splitReference_eq_none.2 (by simpa [Tag.referenced] using hl)
  rw [hs] at hr
  cases hr

theorem hands_iff (tag : Tag) (hc : ';' ∉ crs) (hg : ';' ∉ geometry) :
    (Hands (tag.referenced crs geometry) geometry (some (tag.definition crs)) ↔
        '\n' ∉ crs ∧ '\n' ∉ geometry) ∧ (∀ wkt, (∀ tag crs g, wkt ≠ Tag.referenced tag crs g) →
        (Hands wkt wkt none ↔ '\n' ∉ wkt ∧ wkt.dropWhile isSpace = wkt)) ∧
      ∀ (G C : Type) (fromWkt : Text → Option G) (parse : Text → Option C) (wkt : Text),
        wktToGeometry fromWkt parse wkt = .error "Invalid wkt format" ↔
          '\n' ∈ (wkt.dropWhile isSpace).dropLast := by
  refine ⟨⟨notMem_of_hands, fun ⟨hn, hl⟩ => ?_⟩, fun wkt hw => ⟨fun h => ?_, fun ⟨hn, hd⟩ => ?_⟩,
    fun _ _ _ _ _ => error_iff⟩
  · exact hands_of_match (wktMatch_referenced hc hg hn hl) (by simp)
  · obtain ⟨r, hr⟩ := h.exists_match
    rw [wktMatch_eq] at hr
    obtain ⟨hn, hs⟩ := of_splitReference hr
    exact ⟨hn, (dropWhile_sublist _).antisymm hs⟩
  · exact hands_of_match (wktMatch_plain hw hn hd) fun _ => rfl

theorem hands_point :
    Hands (Tag.srid.referenced "4326".toList "POINT(0 0)".toList) "POINT(0 0)".toList
      (some "POSTGIS:4326".toList) :=
  (hands_iff .srid (by decide) (by decide)).1.2 ⟨by decide, by decide⟩

theorem not_hands :
    ¬ Hands (Tag.crs.referenced "EPSG:4326".toList "POINT(0\n0)".toList) "POINT(0\n0)".toList
        (some "EPSG:4326".toList) ∧ ¬ Hands "POINT(0 0)\n".toList "POINT(0 0)\n".toList none := by
  constructor
  · intro h
    exact absurd (notMem_of_hands h).2 (by decide)
  · intro h
    obtain ⟨r, hr⟩ := h.exists_match
    rw [wktMatch_eq] at hr
    have hn : '\n' ∉ "POINT(0 0)\n".toList := (of_splitReference hr).1
    exact hn (by decide)

end QJazz.Processing
