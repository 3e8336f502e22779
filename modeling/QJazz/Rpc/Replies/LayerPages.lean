import QJazz.Paging.Filtered
import QJazz.Rpc.Replies.Layers

/-! The pages are cut out of the valid layers whose published names are in the table of the catalog,
and layers that cannot be described are left out afterwards. -/
namespace QJazz.Rpc.LayerSource

open Cache Ogc Paging Worker List

variable (w : Context) (v : LayerSource) (size : ℕ)

def pageMsg (k : ℕ) : CollectionsMsg where
  location := some v.item.publicPath
  resource := none
  start := k * size
  stop := (k + 1) * size

def layersPage (k : ℕ) : Option (List CollectionsItem × Bool) :=
  (v.reply w (v.pageMsg size k)).map fun page => (page.items, page.next)

def publishedItems : List CollectionsItem :=
  (v.project.layers.filter MapLayer.isValid).filterMap (v.itemOf w)

def listed : List MapLayer := Context.iterLayers v.project v.parent

variable {w v size} {k : ℕ}

lemma selected_pageMsg : v.selected (v.pageMsg size k) = slice size k v.listed := by
  have ht : ((k : ℤ) * size).toNat = k * size := by
    rw [← Int.natCast_mul, Int.toNat_natCast]
  have ho : (((k : ℤ) + 1) * size).toNat = (k + 1) * size := by
    rw [← Int.natCast_succ, ← Int.natCast_mul, Int.toNat_natCast]
  rw [selected, pageMsg]
  simp only [Option.filter_none, ht, ho]
  rfl

lemma layersPage_of_described
    (h : ∀ l ∈ v.listed, ∃ coll, w.fromLayer l v.item.coll = .ok coll) (k : ℕ) :
    v.layersPage w size k = some ((slice size k v.listed).filterMap (v.itemOf w),
      decide ((k + 1) * size < v.project.collectLayers.length)) := by
  have he : ∀ l ∈ v.selected (v.pageMsg size k),
      ∃ coll, w.fromLayer l v.item.coll = .ok coll := by
    intro l hl
    rw [selected_pageMsg] at hl
    exact h l (mem_of_mem_take (mem_of_mem_drop hl))
  have hok : w.layerItems (v.pageMsg size k) v.project v.parent =
      .ok ((v.selected (v.pageMsg size k)).filterMap (v.itemOf w)) :=
    (layerItems_listing rfl).2 ⟨Int.natCast_nonneg (k * size), Int.natCast_nonneg ((k + 1) * size),
      he, rfl⟩
  have hn : ((v.pageMsg size k).stop < v.parent.layers.length) ↔
      (k + 1) * size < v.project.collectLayers.length := by
    rw [← Int.ofNat_lt, Int.natCast_mul, Int.natCast_succ]
    rfl
  rw [layersPage, reply_eq_some.2 ⟨_, hok, rfl⟩, Option.map_some, selected_pageMsg]
  simp only [hn]

lemma described_of_layersPage {x : List CollectionsItem × Bool}
    (h : v.layersPage w size k = some x) :
    ∀ l ∈ slice size k v.listed, ∃ coll, w.fromLayer l v.item.coll = .ok coll := by
  obtain ⟨p, hp, -⟩ := Option.map_eq_some_iff.1 h
  obtain ⟨i, hi, -⟩ := reply_eq_some.1 hp
  rw [← selected_pageMsg]
  exact ((layerItems_listing rfl).1 hi).2.2.1

lemma publishedItems_eq : v.publishedItems w = (v.listed.filter fun l =>
      l.name ∉ v.project.restrictedLayers).filterMap (v.itemOf w) := by
  rw [publishedItems, listed, Context.iterLayers, Project.layers, filter_filter,
    filter_filter, filter_filter]
  congr 1
  refine filter_congr fun l hm => ?_
  by_cases hr : l.name ∈ v.project.restrictedLayers
  · simp [hr]
  · have hl : l ∈ v.project.layers := mem_filter.2 ⟨hm, by simpa using hr⟩
    have ht : (v.parent.layers.lookup (v.project.layerName l)).isSome = true :=
      Project.lookup_collectLayers.2 ⟨l, hl, rfl⟩
    rw [ht]
    simp [hr]

/-- The pages have the items of the published layers, and tell whether there is more, exactly if no
layer raises, no restricted layer with a name of the table can be described, and the size of the table
leads to as many pages as there are layers that can be described. -/
theorem layers_complete_iff (w : Context) (v : LayerSource) (size : ℕ) (hsize : 1 ≤ size) :
    Paging.Complete (v.layersPage w size) (v.publishedItems w) ↔
      (∀ layer ∈ v.listed, ∃ coll, w.fromLayer layer v.item.coll = .ok coll) ∧
      (∀ layer ∈ v.listed, v.Describes w layer → layer.name ∉ v.project.restrictedLayers) ∧
      (v.project.collectLayers.length - 1) / size = (reach (v.itemOf w) v.listed - 1) / size := by
  have hal : v.publishedItems w = v.listed.filterMap (v.itemOf w) ↔
      ∀ layer ∈ v.listed, v.Describes w layer → layer.name ∉ v.project.restrictedLayers := by
    rw [publishedItems_eq, filterMap_filter_eq_iff]
    refine forall₂_congr fun layer hl => ?_
    rw [itemOf_isSome, and_iff_left (mem_iterLayers.1 hl).2.2, decide_eq_true_eq]
  constructor
  · intro h
    have hd : ∀ layer ∈ v.listed, ∃ coll, w.fromLayer layer v.item.coll = .ok coll := by
      intro layer hl
      obtain ⟨i, hi⟩ := mem_iff_getElem?.1 hl
      obtain ⟨x, hx, -⟩ := h.next (i / size)
      refine described_of_layersPage hx layer (mem_slice.2 ⟨i, Nat.div_mul_le_self i size, ?_, hi⟩)
      exact (Nat.div_lt_iff_lt_mul hsize).1 (Nat.lt_succ_self _)
    rw [Paging.complete_iff (layersPage_of_described hd) hsize, hal] at h
    exact ⟨hd, h⟩
  · rintro ⟨hd, h⟩
    rwa [Paging.complete_iff (layersPage_of_described hd) hsize, hal]

def town : LayerSource := ofLayers [vector "a" "roads" "", vector "b" "parks" ""] []

theorem layers_complete_town :
    Paging.Complete (town.layersPage describing 1) (town.publishedItems describing) := by
  refine (layers_complete_iff describing town 1 le_rfl).2 ⟨?_, ?_, by decide +kernel⟩
  · exact fun l _ => ⟨_, rfl⟩
  · exact fun l _ _ => not_mem_nil

def twins : LayerSource := ofLayers [vector "a" "roads" "", vector "b" "roads" ""] []

/-- The first page of one layer has no next one, and the second layer is not seen. -/
theorem not_layers_complete_twins :
    twins.layersPage describing 1 0 = some ([⟨"roads", "a", 1⟩], false) ∧
      twins.publishedItems describing = [⟨"roads", "a", 1⟩, ⟨"roads", "b", 1⟩] ∧
      ¬ Paging.Complete (twins.layersPage describing 1) (twins.publishedItems describing) := by
  have hf : twins.layersPage describing 1 0 = some ([⟨"roads", "a", 1⟩], false) := by
    decide +kernel
  have he : twins.layersPage describing 1 1 = some ([⟨"roads", "b", 1⟩], false) := by
    decide +kernel
  refine ⟨hf, by decide +kernel, fun h => ?_⟩
  obtain ⟨x, hx, hn⟩ := h.next 0
  cases hf.symm.trans hx
  cases hn.2 ⟨1, _, Nat.one_pos, he, cons_ne_nil _ _⟩

end QJazz.Rpc.LayerSource
