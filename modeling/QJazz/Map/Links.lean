import QJazz.Lexical.Reference
import QJazz.Lexical.Unquote
import QJazz.Map.Catalog.Navigation

/-! The links of a page begin with the public url of the request, to which a segment or a query is
added. -/
namespace QJazz.Map

open Lexical List

structure PageTarget extends Target where
  rooted : Rooted path

def Server.behind (server : Server) (o : Origin) : Server := { server with front := o.text }

def itemUrl (name publicUrl : Text) : Text := publicUrl ++ '/' :: percentEncode name

def Rel.page (p : Params) : Rel → ℕ
  | .self => p.page
  | .next => p.page + 1
  | .prev => p.page - 1

def Server.pagePath (server : Server) (o : Origin) (t : Target) : Text :=
  if server.allow then o.path ++ t.path else t.path

variable (server : Server) (o : Origin)

def LeadsToItem (t : Target) (name href : Text) : Prop :=
  unquote (lastSegment (referencePath href)) = name ∧
    trimSlashes (parentPath (referencePath href)) = trimSlashes (server.pagePath o t)

def LeadsToPage (p : Params) (link : Link) : Prop :=
  ∃ t q, (server.behind o).follow link.href = some t ∧ Params.read server.form t.query = some q ∧
    q.page.val = link.rel.page p ∧ q.limit = p.limit

structure Leads (t : PageTarget) : Prop where
  items : ∀ name, LeadsToItem server o t.toTarget name
    (itemUrl name ((server.behind o).publicUrl t.toTarget))
  navigation : ∀ (p : Params) (next : Bool) (links : List Link),
    p.links ((server.behind o).publicUrl t.toTarget) next = some links →
      ∀ link ∈ links, LeadsToPage server o p link

variable {server o} {t : Target} {p : Params} {name path : Text}

lemma leadsToItem_of_path {href : Text} (path : Text)
    (hp : referencePath href = path ++ '/' :: percentEncode name)
    (hg : trimSlashes path = trimSlashes (server.pagePath o t)) :
    LeadsToItem server o t name href := by
  have hl : '/' ∉ percentEncode name := notMem_percentEncode rfl name
  have ho := slashes_nil.cons
  rw [LeadsToItem, hp, lastSegment_append hl, parentPath_append hl, unquote_percentEncode,
    trimSlashes_append_slashes ho]
  exact ⟨rfl, hg⟩

lemma head?_trimSlashes_append (h : path.head? = some '/') (s : Text) :
    (trimSlashes path ++ '/' :: s).head? = some '/' := by
  obtain ⟨u, -, hp⟩ := exists_eq_trimSlashes_append path
  cases ht : trimSlashes path with
  | nil => rfl
  | cons c r =>
    rw [hp, ht] at h
    exact h

lemma leadsToItem_of_allow (hl : server.allow) (ht : Rooted t.path) (name : Text) :
    LeadsToItem server o t name (itemUrl name ((server.behind o).publicUrl t)) := by
  have hr : ∀ c ∈ trimSlashes t.path, c ∈ t.path :=
    fun c hc => ( rdropWhile_prefix _ _).subset hc
  have hurl : itemUrl name ((server.behind o).publicUrl t) =
      o.text ++ (trimSlashes t.path ++ '/' :: percentEncode name) := by
    simp [itemUrl, Server.publicUrl, Server.behind, hl, trimSlashes]
  have hh : t.path.head? = some '/' := by
    obtain ⟨c, r, hp, -⟩ := ht.start
    rw [hp]
    rfl
  have hq : '?' ∉ trimSlashes t.path ++ '/' :: percentEncode name := by
    simpa using ⟨mt (hr _) ht.query, notMem_percentEncode rfl name⟩
  have hf : '#' ∉ trimSlashes t.path ++ '/' :: percentEncode name := by
    simpa using ⟨mt (hr _) ht.fragment, notMem_percentEncode rfl name⟩
  refine leadsToItem_of_path (o.path ++ trimSlashes t.path) ?_ ?_
  · rw [hurl, o.referencePath_text (head?_trimSlashes_append hh _) hq hf, append_assoc]
  · obtain ⟨u, hu, hp⟩ := exists_eq_trimSlashes_append t.path
    rw [Server.pagePath, if_pos hl]
    conv_rhs => rw [hp, ← append_assoc, trimSlashes_append_slashes hu]

lemma leadsToItem_of_direct (hd : server.allow = false) (hq : t.query = none)
    (ht : Rooted t.path) (name : Text) :
    LeadsToItem server o t name (itemUrl name ((server.behind o).publicUrl t)) := by
  have hurl : itemUrl name ((server.behind o).publicUrl t) = t.path ++ '/' :: percentEncode name := by
    simp [itemUrl, Server.publicUrl, Server.behind, hd, Target.uri, hq]
  have hp : '?' ∉ '/' :: percentEncode name ∧ '#' ∉ '/' :: percentEncode name := by
    simpa using ⟨notMem_percentEncode rfl name, notMem_percentEncode rfl name⟩
  refine leadsToItem_of_path t.path ?_ ?_
  · rw [hurl, ht.referencePath_append]
    simpa using takeWhile_path hp.1 hp.2 []
  · simp [Server.pagePath, hd]

lemma referencePath_itemUrl_of_query {q : Text} (hd : server.allow = false)
    (hq : t.query = some q) (ht : Rooted t.path) (name : Text) :
    referencePath (itemUrl name ((server.behind o).publicUrl t)) = t.path := by
  have hurl : itemUrl name ((server.behind o).publicUrl t) =
      t.path ++ '?' :: (q ++ '/' :: percentEncode name) := by
    simp [itemUrl, Server.publicUrl, Server.behind, hd, Target.uri, hq]
  rw [hurl, ht.referencePath_query]

lemma mem_links {u : Text} {next : Bool} {i : List Link} {l : Link}
    (hl : p.links u next = some i) (hi : l ∈ i) :
    ∃ a : U16, l.href = p.href u a ∧ a.val = l.rel.page p := by
  have he : l = ⟨p.href u p.page, .self⟩ →
      ∃ a : U16, l.href = p.href u a ∧ a.val = l.rel.page p := by
    rintro rfl
    exact ⟨p.page, rfl, rfl⟩
  have hp : l ∈ (if 0 < p.page then [⟨p.href u (p.page - 1), .prev⟩] else []) →
      ∃ a : U16, l.href = p.href u a ∧ a.val = l.rel.page p := by
    intro h
    split at h
    next ho =>
      cases mem_singleton.1 h
      exact ⟨p.page - 1, rfl, Fin.sub_val_of_le ho⟩
    · cases h
  rw [Params.links] at hl
  cases next with
  | false =>
    cases hl
    rcases mem_append.1 hi with h | h
    · exact he (mem_singleton.1 h)
    · exact hp h
  | true =>
    obtain ⟨a, hg, rfl⟩ := Option.map_eq_some_iff.1 hl
    rcases mem_append.1 hi with h | h
    · exact he (mem_singleton.1 h)
    · rcases mem_cons.1 h with rfl | h
      · exact ⟨a, rfl, (U16.checked_eq_some.1 hg).symm⟩
      · exact hp h

lemma follow_href_of_direct (hd : server.allow = false) (hq : t.query = none) (page : U16) :
    ∃ t', server.follow (p.href (server.publicUrl t) page) = some t' ∧
      Params.read server.form t'.query = some { page, limit := p.limit, location := none } := by
  refine ⟨_, Server.follow_direct hd page, ?_⟩
  rw [Target.uri, hq, Target.ofText_append t.path_mark, Params.read_pageQuery]

lemma leadsToPage (h : server.allow ∨ t.query = none) {next : Bool} {l : List Link}
    (hi : p.links ((server.behind o).publicUrl t) next = some l) {link : Link}
    (hn : link ∈ l) : LeadsToPage server o p link := by
  obtain ⟨page, hh, hp⟩ := mem_links hi hn
  have hf :
      ∃ t', (server.behind o).follow (p.href ((server.behind o).publicUrl t) page) = some t' ∧
        Params.read server.form t'.query = some { page, limit := p.limit, location := none } := by
    cases hl : server.allow with
    | true =>
      have he : (server.behind o).allow := hl
      exact Server.follow_href he page
    | false =>
      have hq : t.query = none := h.resolve_left (by simp [hl])
      have he : (server.behind o).allow = false := hl
      exact follow_href_of_direct he hq page
  obtain ⟨t', ht', hr⟩ := hf
  exact ⟨t', _, hh ▸ ht', hr, hp, rfl⟩

/-- The links of all pages lead to where they say exactly if the headers of the proxy are used, or the
request has no query. -/
theorem links_lead_iff (server : Server) (o : Origin) (t : PageTarget) :
    Leads server o t ↔ server.allow = true ∨ t.query = none := by
  constructor
  · intro h
    by_contra ht
    obtain ⟨hl, hne⟩ := not_or.1 ht
    obtain ⟨query, hq⟩ := Option.ne_none_iff_exists'.1 hne
    have hp := referencePath_itemUrl_of_query (o := o) (Bool.eq_false_of_not_eq_true hl)
      hq t.rooted
    have hni := (h.items []).1
    have ho := (h.items ['a']).1
    rw [hp] at hni ho
    cases hni.symm.trans ho
  · intro h
    refine ⟨fun name => ?_, fun p next l hi i hn => leadsToPage h hi hn⟩
    cases hl : server.allow with
    | true => exact leadsToItem_of_allow hl t.rooted name
    | false => exact leadsToItem_of_direct hl (h.resolve_left (by simp [hl])) t.rooted name

def localhost : Origin where
  scheme := "http".toList
  host := "localhost:9080".toList
  path := []
  scheme_ne_nil := by decide
  scheme_plain := by decide
  host_plain := by decide
  path_start := rfl
  path_query := List.not_mem_nil
  path_fragment := List.not_mem_nil

lemma notMem_catalog : '?' ∉ "/catalog".toList := by decide

def tenItems : PageTarget where
  path := "/catalog".toList
  query := some "limit=10".toList
  path_mark := notMem_catalog
  rooted := ⟨⟨'c', "atalog".toList, rfl, by decide⟩, notMem_catalog, by decide⟩

def unproxied : Server := { proxied with allow := false }

theorem not_leads_tenItems :
    itemUrl "roads".toList ((unproxied.behind localhost).publicUrl tenItems.toTarget) =
        "/catalog?limit=10/roads".toList ∧
      ((unproxied.behind localhost).follow ((Params.mk 0 10 none).href
        ((unproxied.behind localhost).publicUrl tenItems.toTarget) 0)).bind
          (fun t => Params.read unproxied.form t.query) = none ∧
      ¬ Leads unproxied localhost tenItems := by
  have hi : ¬ LeadsToItem unproxied localhost tenItems.toTarget "roads".toList
      "/catalog?limit=10/roads".toList := by
    rw [LeadsToItem]
    decide +kernel
  have hurl : itemUrl "roads".toList ((unproxied.behind localhost).publicUrl tenItems.toTarget) =
      "/catalog?limit=10/roads".toList := by
    decide +kernel
  refine ⟨hurl, by decide +kernel, fun h => hi ?_⟩
  rw [← hurl]
  exact h.items _

end QJazz.Map
