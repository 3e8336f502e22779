import QJazz.Ogc.Naming
import QJazz.Rpc.Replies.Handlers

/-! A request for a page makes the worker list its storage. If that does not change, it has the same
items for every page, and the pages for a location are cut out of the items under it. -/
namespace QJazz.Map

open Cache Lexical Ogc Rpc Rpc.Worker List Publisher

def shownItem (item : Ogc.CatalogItem) : CollectionsItem :=
  { name := item.publicPath, json := item.coll.catalogJson, endpoints := Context.mapEndpoint.value }

def itemsUnder (catalog : Catalog) (location : Option Text) : List CollectionsItem :=
  (catalog.iter (location.map .ofList)).map shownItem

def Serving (cache : Entries) (start : Catalog) (listing : Option String → Catalog) (s : State) :
    Prop :=
  s.cache = cache ∧ (s.catalog = start ∨ ∃ location, s.catalog = listing location)

/-- The catalog does not change while it is navigated: whatever the worker listed last, it lists the
same again. -/
def Steady (w : Context) (cache : Entries) (start : Catalog) (listing : Option String → Catalog) :
    Prop :=
  ∀ s, Serving cache start listing s → ∀ location,
    w.updateCatalog s.cache s.catalog (!w.loadProjectOnRequest) location = (none, listing location)

def Covers (listing : Option String → Catalog) (location : Option Text) : Prop :=
  ∀ l, location = some l → listing (some (.ofList l)) =
    (listing none).filter fun x => x.2.location.isRelativeTo (.parse l)

variable {w : Context} {s : State} {cache : Entries} {start : Catalog}
  {listing : Option String → Catalog} {location : Option Text}

lemma itemsUnder_sublist (catalog : Catalog) (location : Option Text) :
    (itemsUnder catalog location).Sublist (itemsUnder catalog none) := by
  refine List.Sublist.map _ ?_
  rw [Catalog.iter.eq_def]
  split
  · exact .refl _
  · exact .refl _
  · exact filter_sublist

lemma Covers.iter_listing (h : Covers listing location)
    (ho : ∀ l, location = some l → l.getLast? = some '/') :
    (listing (location.map .ofList)).iter (location.map .ofList) =
        (listing none).iter (location.map .ofList) ∧
      (listing (location.map .ofList)).length = (itemsUnder (listing none) location).length := by
  cases location with
  | none => simp [itemsUnder, Catalog.iter]
  | some l =>
    have hne : String.ofList l ≠ "" := by
      intro hl
      have hn : l = [] := by simpa using congrArg String.toList hl
      simpa [hn] using ho l rfl
    have hi (catalog : Catalog) : catalog.iter (some (.ofList l)) =
        (catalog.map Prod.snd).filter fun i => i.location.isRelativeTo (.parse l) := by
      rw [Catalog.iter.eq_def]
      split
      next heq => cases heq
      next heq => exact absurd (Option.some.inj heq) hne
      next heq =>
        cases heq
        rw [String.toList_ofList]
    simp only [Option.map_some, itemsUnder, hi, h l rfl, List.filter_map, length_map,
      List.filter_filter]
    simp [Function.comp_def]

lemma Steady.handleCollection (h : Steady w cache start listing)
    (hs : Serving cache start listing s)
    (ho : Covers listing location) (hl : ∀ l, location = some l → l.getLast? = some '/') (a b : ℕ) :
    w.handleCollection s
        { location := location.map .ofList, resource := none, start := a, stop := b } =
      .ofReply { cache, catalog := listing (location.map .ofList) }
        (w.page (.ok (((itemsUnder (listing none) location).take b).drop a))
          (b < (itemsUnder (listing none) location).length)) := by
  have hh := hs.1
  obtain ⟨hi, he⟩ := ho.iter_listing hl
  have ht : w.handleCatalog s
      { location := location.map .ofList, resource := none, start := a, stop := b } =
      .ofReply { cache, catalog := listing (location.map .ofList) }
        (w.page (.ok (((itemsUnder (listing none) location).take b).drop a))
          (b < (itemsUnder (listing none) location).length)) := by
    rw [Context.handleCatalog, Option.filter_none, h s hs, hh]
    simp only [hi, he, islice]
    rw [if_neg (by omega)]
    simp only [Except.map, Int.toNat_natCast, Nat.cast_lt, itemsUnder, map_take, map_drop]
    rfl
  rw [Context.handleCollection.eq_def]
  cases location with
  | none => exact ht
  | some l =>
    simp only [Option.map_some, String.toList_ofList, hl l rfl, if_true]
    exact ht
structure Unchanging (w : Context) (cache : Entries) : Prop where
  ends : ∀ location, (w.collectProjectsEx location).2 = none
  pinned : ∀ location, ∀ x ∈ (w.collectProjectsEx location).1, ∃ b, w.isPinned cache x.1 = .ok b
  same : ∀ location, ∀ x ∈ (w.collectProjectsEx location).1,
    ∀ other, ∀ y ∈ (w.collectProjectsEx other).1,
      shownPath x.2.1 = shownPath y.2.1 → x.1 = y.1 ∧ x.2.2 = y.2.2

def Fresh (w : Context) (catalog : Catalog) : Prop :=
  ∀ x ∈ catalog, ∃ location, ∃ y ∈ (w.collectProjectsEx location).1,
    shownPath y.2.1 = x.1 ∧ w.newCatalogItem y.1 x.1 y.2.2 = some x.2

namespace Unchanging

variable {c : Catalog} {place : Option String} {pinned : Bool}

lemma currentItem (h : Unchanging w cache) (hf : Fresh w c)
    {x : ProjectMetadata × String × PosixPath} (hx : x ∈ (w.collectProjectsEx place).1) :
    w.currentItem c x.1 (shownPath x.2.1) x.2.2 =
      w.newCatalogItem x.1 (shownPath x.2.1) x.2.2 := by
  rw [Publisher.currentItem]
  cases hi : List.lookup (shownPath x.2.1) c with
  | none => rfl
  | some i =>
    obtain ⟨o, y, hy, hp, hnew⟩ := hf _ (Json.mem_of_lookup hi)
    dsimp only at hp hnew
    obtain ⟨hmd, hl⟩ := h.same place x hx o y hy hp.symm
    have ho := (newCatalogItem_eq_some hnew).2
    simp only [ho, hmd, hl, lt_irrefl, if_false]
    exact hnew.symm

lemma updateItems (h : Unchanging w cache) (hf : Fresh w c)
    {l : List (ProjectMetadata × String × PosixPath)}
    (hl : ∀ x ∈ l, x ∈ (w.collectProjectsEx place).1) :
    w.updateItems cache c pinned l = w.updateItems cache [] pinned l ∧
      (w.updateItems cache [] pinned l).2 = none := by
  induction l with
  | nil => exact ⟨rfl, rfl⟩
  | cons x l ih =>
    obtain ⟨md, p, location⟩ := x
    obtain ⟨hm, he⟩ := ih fun y hy => hl y (mem_cons_of_mem _ hy)
    have hi := h.currentItem hf (hl _ mem_cons_self)
    obtain ⟨b, hb⟩ := h.pinned place _ (hl _ mem_cons_self)
    rw [shownPath] at hi
    simp only [Publisher.updateItems, hi, hm, hb]
    refine ⟨rfl, ?_⟩
    cases pinned <;> cases b <;> exact he

lemma updateCatalog (h : Unchanging w cache) (hf : Fresh w c) :
    w.updateCatalog cache c pinned place = (none, (w.updateCatalog cache [] pinned place).2) := by
  have hi : w.updateItems cache c pinned (w.collectProjectsEx place).1 = _ ∧ _ :=
    h.updateItems hf fun x hx => hx
  simp only [Publisher.updateCatalog, hi.1, hi.2, h.ends, Option.or_none]

lemma fresh_nil : Fresh w [] := fun _ hx => absurd hx not_mem_nil

lemma fresh_updateCatalog (h : Unchanging w cache) :
    Fresh w (w.updateCatalog cache [] pinned place).2 := by
  have hn : (w.updateCatalog cache [] pinned place).1 = none := by rw [h.updateCatalog fresh_nil]
  obtain ⟨he, ht⟩ := updateCatalog_of_none hn
  rw [ht]
  intro x hx
  rcases mem_foldl_setKey hx with hi | ⟨hm, hk⟩
  · cases hi
  · obtain ⟨y, hy, -, hnew⟩ := (mem_updateItems he).1 hm
    rw [h.currentItem fresh_nil hy] at hnew
    have hp := (newCatalogItem_eq_some hnew).1.symm.trans hk.symm
    exact ⟨place, y, hy, hp, hp ▸ hnew⟩

end Unchanging

lemma steady_of_unchanging (h : Unchanging w cache) : Steady w cache [] fun location =>
      (w.updateCatalog cache [] (!w.loadProjectOnRequest) location).2 := by
  rintro s ⟨rfl, ht⟩ location
  refine h.updateCatalog ?_
  rcases ht with hn | ⟨o, ho⟩
  · rw [hn]
    exact Unchanging.fresh_nil
  · rw [ho]
    exact h.fresh_updateCatalog

end QJazz.Map
