import QJazz.Map.Catalog.Listing
import QJazz.Map.Catalog.Model
import QJazz.Rpc.Cache.Refresh

/-! With a location a client sees the items only as long as it needs no second page, and without the
addresses of a proxy the links lead nowhere from the second page on. -/
namespace QJazz.Map

open Cache Lexical Ogc Rpc Rpc.Worker List Option Params

variable {w : Context} {s : State} {cache : Entries} {start : Catalog}
  {listing : Option String → Catalog} {location : Option Text} {server : Server} {t : Target}
  {p : Params}

lemma next_links {u : Text} {next : Bool} {l : List Link} {i : List CollectionsItem}
    (h : p.links u next = some l) : (CatalogPage.mk i l).next =
      if next then (U16.checked (p.page + 1)).map (p.href u) else none := by
  have hp : (if 0 < p.page then [Link.mk (p.href u (p.page - 1)) .prev] else []).find?
      (·.rel = .next) = none := by
    split <;> rfl
  rw [Params.links] at h
  cases next with
  | false =>
    cases h
    simp [CatalogPage.next, hp]
  | true =>
    obtain ⟨a, hg, rfl⟩ := map_eq_some_iff.1 h
    simp [CatalogPage.next, hg]

/-- The catalog is not disabled, and its items have the texts of objects. -/
structure Open (server : Server) (catalog : Catalog) : Prop where
  enabled : server.disableRootCatalog = false
  objects : ∀ x ∈ catalog, server.isObject x.2.coll.catalogJson = true

lemma Open.isObject {c : Catalog} (h : Open server c) {i : CollectionsItem}
    (ht : i ∈ itemsUnder c location) : server.isObject i.json = true := by
  obtain ⟨e, hi, rfl⟩ := List.mem_map.1 ((itemsUnder_sublist c location).subset ht)
  obtain ⟨x, hx, rfl⟩ := List.mem_map.1 hi
  exact h.objects x hx

/-- A request for the page of the parameters, in a catalog that does not change. -/
structure Request (w : Context) (cache : Entries) (start : Catalog)
    (listing : Option String → Catalog) (server : Server) (s : State) (t : Target) (p : Params) :
    Prop where
  steady : Steady w cache start listing
  serving : Serving cache start listing s
  opened : Open server (listing none)
  read : Params.read server.form t.query = some p
  covers : Covers listing p.terminated

namespace Request

lemma catalogHandler (h : Request w cache start listing server s t p) {a b : U16}
    (hr : p.range = some (a, b)) : server.catalogHandler w s t = ((p.links (server.publicUrl t)
          (b.val < (itemsUnder (listing none) p.terminated).length)).elim (.error .overflow)
        fun links => .ok
          { items := ((itemsUnder (listing none) p.terminated).take b).drop a, links },
        { cache, catalog := listing (p.terminated.map .ofList) }) := by
  have ho : (((itemsUnder (listing none) p.terminated).take b).drop a).all
      (fun item => server.isObject item.json) = true :=
    List.all_eq_true.2 fun item hi =>
      h.opened.isObject (mem_of_mem_take (mem_of_mem_drop hi))
  rw [Server.catalogHandler, h.read]
  simp only [h.opened.enabled, Bool.false_eq_true, if_false, hr,
    h.steady.handleCollection h.serving h.covers p.getLast?_terminated a b]
  simp only [Server.respond, Context.page, Except.map, Outcome.ofReply, ho, if_true]
  cases p.links (server.publicUrl t)
    (b.val < (itemsUnder (listing none) p.terminated).length) <;> rfl

lemma navigate_succ (h : Request w cache start listing server s t p) {a b : U16}
    (hr : p.range = some (a, b)) (n : ℕ) : server.navigate w (n + 1) s t =
      let items := itemsUnder (listing none) p.terminated
      if b.val < items.length then
        (U16.checked (p.page + 1)).bind fun page =>
          (server.follow (p.href (server.publicUrl t) page)).bind fun t =>
            (server.navigate w n { cache, catalog := listing (p.terminated.map .ofList) } t).map
              ((items.take b).drop a :: ·)
      else some [(items.take b).drop a] := by
  rw [Server.navigate, h.catalogHandler hr]
  by_cases hn : b.val < (itemsUnder (listing none) p.terminated).length
  · simp only [hn, decide_true, if_true]
    cases hp : U16.checked (p.page + 1) with
    | none => simp [Params.links, hp]
    | some page =>
      obtain ⟨links, hl⟩ : ∃ links, p.links (server.publicUrl t) true = some links := by
        simp [Params.links, hp]
      simp only [hl, elim_some, next_links hl, hp, if_true, map_some, bind_some]
  · simp only [hn, decide_false, if_false]
    obtain ⟨links, hl⟩ : ∃ links, p.links (server.publicUrl t) false = some links :=
      ⟨_, rfl⟩
    simp only [hl, elim_some, next_links hl, Bool.false_eq_true, if_false]

lemma navigate_last (h : Request w cache start listing server s t p) {a b : U16}
    (hr : p.range = some (a, b))
    (hl : (itemsUnder (listing none) p.terminated).length ≤ b) (n : ℕ) :
    server.navigate w (n + 1) s t =
      some [((itemsUnder (listing none) p.terminated).take b).drop a] :=
  (h.navigate_succ hr n).trans (if_neg (Nat.not_lt.2 hl))

lemma navigate_of_overflow (h : Request w cache start listing server s t p)
    (hr : p.range = none) (n : ℕ) : server.navigate w n s t = none := by
  cases n with
  | zero => rfl
  | succ n =>
    have hf : server.catalogHandler w s t = (.error .overflow, s) := by
      simp [Server.catalogHandler, h.read, hr, h.opened.enabled]
    rw [Server.navigate, hf]

lemma navigate_next (h : Request w cache start listing server s t p)
    (ho : server.allow) {a b : U16} (hr : p.range = some (a, b))
    (hn : b.val < (itemsUnder (listing none) p.terminated).length) {g : U16}
    (hp : U16.checked (p.page + 1) = some g) : ∃ t', Request w cache start listing server
        { cache, catalog := listing (p.terminated.map .ofList) } t' ⟨g, p.limit, none⟩ ∧
      ∀ n, server.navigate w (n + 1) s t =
        (server.navigate w n { cache, catalog := listing (p.terminated.map .ofList) } t').map
          (((itemsUnder (listing none) p.terminated).take b).drop a :: ·) := by
  obtain ⟨t', hf, he⟩ := Server.follow_href (t := t) (p := p) ho g
  refine ⟨t', ⟨h.steady, ⟨rfl, .inr ⟨_, rfl⟩⟩, h.opened, he, fun l hl => by cases hl⟩,
    fun n => ?_⟩
  simp only [h.navigate_succ hr, hn, if_true, hp, bind_some, hf]

end Request

namespace Params

lemma slice_append_drop {α : Type} {a b : U16} (hr : p.range = some (a, b)) (i : List α) :
    (i.take b).drop a ++ i.drop ((p.page + 1) * p.size) = i.drop (p.page * p.size) := by
  obtain ⟨ha, hb⟩ := range_eq_some.1 hr
  rw [ha, hb]
  have hle : a.val ≤ b.val := by
    rw [← ha, ← hb]
    exact Nat.mul_le_mul_right _ (Nat.le_succ _)
  have hd : i.drop b = (i.drop a).drop (b - a) := by
    rw [drop_drop, Nat.add_sub_cancel' hle]
  rw [drop_take, hd, take_append_drop]

lemma exists_range (h : (p.page + 1) * p.size < 65536) : ∃ a b, p.range = some (a, b) := by
  cases hr : p.range with
  | none => exact absurd (range_eq_none.1 hr) (by omega)
  | some o => exact ⟨o.1, o.2, rfl⟩

lemma exists_range_first (h : p.page = 0) :
    ∃ a b, p.range = some (a, b) ∧ a.val = 0 ∧ b.val = p.size := by
  obtain ⟨a, b, hr⟩ := exists_range (p := p) (by simpa [h] using p.size_lt)
  obtain ⟨ht, ho⟩ := range_eq_some.1 hr
  refine ⟨a, b, hr, ?_, ?_⟩
  · simpa [h] using ht.symm
  · simpa [h] using ho.symm

end Params

namespace Request

lemma navigate_flatten (h : Request w cache start listing server s t p)
    (ho : server.allow) (hal : p.location = none) {n : ℕ}
    {g : List (List CollectionsItem)} (hp : server.navigate w n s t = some g) :
    g.flatten = (itemsUnder (listing none) none).drop (p.page * p.size) ∧
      ∃ m, (itemsUnder (listing none) none).length ≤ m * p.size ∧ m * p.size < 65536 := by
  induction n generalizing s t p g with
  | zero => cases hp
  | succ n ih =>
    have ht := terminated_of_none hal
    cases hr : p.range with
    | none =>
      rw [h.navigate_of_overflow hr] at hp
      cases hp
    | some o =>
      obtain ⟨a, b⟩ := o
      have hl := slice_append_drop hr (itemsUnder (listing none) p.terminated)
      have hso := (range_eq_some.1 hr).2
      by_cases hn : b.val < (itemsUnder (listing none) p.terminated).length
      · cases hg : U16.checked (p.page + 1) with
        | none => simp [h.navigate_succ hr, hn, hg] at hp
        | some e =>
          obtain ⟨t', hq, hst⟩ := h.navigate_next ho hr hn hg
          rw [hst] at hp
          obtain ⟨r, hre, rfl⟩ := map_eq_some_iff.1 hp
          obtain ⟨hf, hi⟩ := ih hq rfl hre
          refine ⟨?_, hi⟩
          rw [ht] at hl ⊢
          rw [flatten_cons, hf, ← hl, U16.checked_eq_some.1 hg]
          rfl
      · rw [h.navigate_last hr (Nat.not_lt.1 hn)] at hp
        cases hp
        rw [ht] at hn hl ⊢
        have he : (itemsUnder (listing none) none).length ≤ (p.page + 1) * p.size := by omega
        refine ⟨?_, p.page + 1, he, by omega⟩
        rw [← hl, drop_eq_nil_of_le he]
        simp

lemma exists_navigate (h : Request w cache start listing server s t p)
    (ho : server.allow) (hal : p.location = none) {m : ℕ} (hg : p.page < m)
    (hl : (itemsUnder (listing none) none).length ≤ m * p.size)
    (hf : m * p.size < 65536) : ∃ n pages, server.navigate w n s t = some pages := by
  -- by induction on the number of pages that can follow
  obtain ⟨l, ht⟩ := Nat.exists_eq_add_of_lt hg
  induction l generalizing s t p with
  | zero =>
    have hd : (p.page + 1) * p.size < 65536 := by
      rw [← Nat.add_zero p.page, ← ht]
      exact hf
    obtain ⟨a, b, hr⟩ := exists_range hd
    refine ⟨1, _, h.navigate_last hr ?_ 0⟩
    rw [terminated_of_none hal, ← (range_eq_some.1 hr).2, ← Nat.add_zero p.page, ← ht]
    exact hl
  | succ l ih =>
    have hle : (p.page + 1) * p.size ≤ m * p.size := Nat.mul_le_mul_right _ (by omega)
    obtain ⟨a, b, hr⟩ := exists_range (p := p) (by omega)
    by_cases hn : b.val < (itemsUnder (listing none) p.terminated).length
    · have hi : p.size ≠ 0 := by
        intro hz
        rw [hz, Nat.mul_zero] at hl
        rw [terminated_of_none hal] at hn
        omega
      have hu : p.page.val + 1 < 65536 := by
        have hm := Nat.le_mul_of_pos_right (p.page.val + 1) (Nat.pos_of_ne_zero hi)
        omega
      have hh : U16.checked (p.page + 1) = some ⟨p.page + 1, hu⟩ :=
        U16.checked_eq_some.2 rfl
      obtain ⟨t', he, hst⟩ := h.navigate_next ho hr hn hh
      obtain ⟨n, pages, hp⟩ :=
        ih he rfl (by simp only; omega) hl hf (by simp only; omega)
      exact ⟨n + 1, _, (hst n).trans (congrArg _ hp)⟩
    · exact ⟨1, _, h.navigate_last hr (Nat.not_lt.1 hn) 0⟩

end Request

lemma Server.follow_direct (hd : server.allow = false) (a : U16) :
    server.follow (p.href (server.publicUrl t) a) =
      some (.ofText (t.uri ++ '?' :: Params.pageQuery p.limit a)) := by
  simp [follow, publicUrl, hd, href_eq]

namespace Request

end Request

lemma eq_of_drop_eq {α : Type} {l l' : List α} {n : ℕ} (h : l.Sublist l') (hlt : n < l.length)
    (hd : l'.drop n = l.drop n) : l = l' := by
  have hl := congrArg List.length hd
  rw [length_drop, length_drop] at hl
  exact h.eq_of_length (by omega)

namespace Request

lemma complete_of_one_page (h : Request w cache start listing server s t p) (hf : p.page = 0)
    (ho : (itemsUnder (listing none) p.terminated).length ≤ p.size) :
    server.Complete w s t (itemsUnder (listing none) p.terminated) := by
  obtain ⟨a, b, hr, ha, hb⟩ := exists_range_first hf
  refine ⟨1, [itemsUnder (listing none) p.terminated], ?_, by simp⟩
  rw [h.navigate_last hr (by omega), ha, hb, drop_zero, take_of_length_le ho]

lemma complete_iff_of_lt (h : Request w cache start listing server s t p) (hfi : p.page = 0)
    (hl : server.allow) (ho : p.size < (itemsUnder (listing none) p.terminated).length) :
    server.Complete w s t (itemsUnder (listing none) p.terminated) ↔
      itemsUnder (listing none) p.terminated = itemsUnder (listing none) none ∧
      ∃ m, (itemsUnder (listing none) p.terminated).length ≤ m * p.size ∧ m * p.size < 65536 := by
  obtain ⟨a, b, hg, ha, hb⟩ := exists_range_first hfi
  have hn : U16.checked (p.page + 1) = some 1 := by
    rw [hfi]
    decide
  obtain ⟨t', hr, hst⟩ := h.navigate_next hl hg (by omega) hn
  rw [ha, hb, drop_zero] at hst
  have hk : (Params.mk 1 p.limit none).page * (Params.mk 1 p.limit none).size = p.size :=
    one_mul _
  constructor
  · rintro ⟨n, g, hp, hit⟩
    cases n with
    | zero => cases hp
    | succ n =>
      rw [hst] at hp
      obtain ⟨r, ht, rfl⟩ := map_eq_some_iff.1 hp
      obtain ⟨hf, m, he, hi⟩ := hr.navigate_flatten hl rfl ht
      have hsa : (itemsUnder (listing none) none).drop p.size =
          (itemsUnder (listing none) p.terminated).drop p.size := by
        rw [flatten_cons, hf, hk] at hit
        exact append_cancel_left (hit.trans (take_append_drop p.size _).symm)
      have heq := eq_of_drop_eq (itemsUnder_sublist _ _) ho hsa
      exact ⟨heq, m, heq ▸ he, hi⟩
  · rintro ⟨heq, m, he, hi⟩
    have hm : 1 < m := by
      by_contra hm
      have hle : m * p.size ≤ 1 * p.size := Nat.mul_le_mul_right _ (by omega)
      omega
    obtain ⟨n, r, ht⟩ := hr.exists_navigate hl rfl hm (heq ▸ he) hi
    obtain ⟨hf, -⟩ := hr.navigate_flatten hl rfl ht
    refine ⟨n + 1, _, (hst n).trans (congrArg _ ht), ?_⟩
    rw [flatten_cons, hf, hk, heq]
    exact take_append_drop p.size _

end Request

def proxied : Server where
  form := ⟨id, fun _ _ _ => rfl⟩
  disableRootCatalog := false
  allow := true
  front := "http://localhost:9080".toList
  isObject := fun _ => true

def atlas : List (ProjectMetadata × String × PosixPath) :=
  [(⟨"/srv/b/rivers.qgs", "rivers", "file", none, 1⟩, "/b/rivers.qgs", .parse "/b".toList),
    (⟨"/srv/a/coast.qgs", "coast", "file", none, 1⟩, "/a/coast.qgs", .parse "/a".toList),
    (⟨"/srv/a/roads.qgs", "roads", "file", none, 1⟩, "/a/roads.qgs", .parse "/a".toList)]

def atlasUnder (location : Option String) : List (ProjectMetadata × String × PosixPath) :=
  atlas.filter fun x => (location.filter (· ≠ "")).all fun l => x.2.2.isRelativeTo (.parse l.toList)

def atlasWorker : Context :=
  { mapWorker 1 3 with
    collectProjectsEx := fun location => (atlasUnder location, none)
    snapshot := fun _ => some mapProject
    fromProject := fun path _ => some ⟨path, path⟩ }

def atlasCatalog (location : Option String) : Catalog :=
  (atlasWorker.updateCatalog .empty [] false location).2

def catalogTarget (query : String) : Target where
  path := "/catalog".toList
  query := some query.toList
  path_mark := by decide

def atlasItem (path : String) : CollectionsItem := ⟨path, path, Context.mapEndpoint.value⟩

lemma mem_atlas {x : ProjectMetadata × String × PosixPath}
    {l : Option String} (h : x ∈ (atlasWorker.collectProjectsEx l).1) : x ∈ atlas :=
  mem_of_mem_filter (show x ∈ atlasUnder l from h)

lemma unchanging_atlasWorker : Unchanging atlasWorker .empty where
  ends := fun _ => rfl
  pinned := by
    intro location x hx
    have hp : ∀ x ∈ atlas, atlasWorker.isPinned .empty x.1 = .ok false := by decide +kernel
    exact ⟨false, hp x (mem_atlas hx)⟩
  same := by
    intro location x hx o y hy
    have hm : ∀ x ∈ atlas, ∀ y ∈ atlas, shownPath x.2.1 = shownPath y.2.1 →
        x.1 = y.1 ∧ x.2.2 = y.2.2 := by
      decide +kernel
    exact hm x (mem_atlas hx) y (mem_atlas hy)

end QJazz.Map
