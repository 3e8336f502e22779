import Mathlib.Data.List.DropRight
import QJazz.Lexical.Form
import QJazz.Rpc.Replies.Handlers

/-! The link to the next page has the public url of the request, the number of the page and the
limit, but not the location. -/
namespace QJazz.Map

open Cache Lexical Ogc Rpc Rpc.Worker List Option

def maxPageLimit : ℕ := 50

/-- The query of a request for a page, whose `prefix` restricts the catalog to a location. -/
structure Params where
  page : U16
  limit : U16
  location : Option Text
deriving DecidableEq

inductive Rel where
  | self
  | next
  | prev
deriving DecidableEq

structure Link where
  href : Text
  rel : Rel
deriving DecidableEq

namespace Params

def value (fields : List (Text × Text)) (key : String) : Option (Option Text) :=
  match fields.filter fun x => x.1 = key.toList with
  | [] => some none
  | [x] => some (some x.2)
  | _ => none

def number (fields : List (Text × Text)) (key : String) (default : U16) : Option U16 :=
  match value fields key with
  | none => none
  | some none => some default
  | some (some s) => U16.fromStr s

def read (f : FormDecoder) (query : Option Text) : Option Params :=
  let fields := f.parse (query.getD [])
  match number fields "page" 0, number fields "limit" 50, value fields "prefix" with
  | some page, some limit, some location => some { page, limit, location }
  | _, _, _ => none

variable (p : Params)

def size : ℕ := min p.limit maxPageLimit

def start : Option U16 := U16.checked (p.page * p.size)

def stop : Option U16 := p.start.bind fun start => U16.checked (start + p.size)

def range : Option (U16 × U16) :=
  match p.start, p.stop with
  | some start, some stop => some (start, stop)
  | _, _ => none

def terminated : Option Text :=
  p.location.map fun s => if s.getLast? = some '/' then s else s ++ ['/']

def href (publicUrl : Text) (page : U16) : Text :=
  publicUrl ++ "?page=".toList ++ page.display ++ "&limit=".toList ++ p.limit.display

/-- The links to this page and to those around it, unless the number of the next one overflows. -/
def links (publicUrl : Text) (next : Bool) : Option (List Link) :=
  let self := [⟨p.href publicUrl p.page, .self⟩]
  let prev := if 0 < p.page then [⟨p.href publicUrl (p.page - 1), .prev⟩] else []
  if next then
    (U16.checked (p.page + 1)).map fun page => self ++ ⟨p.href publicUrl page, .next⟩ :: prev
  else some (self ++ prev)

end Params

structure Target where
  path : Text
  query : Option Text
  path_mark : '?' ∉ path

namespace Target

def uri (t : Target) : Text :=
  match t.query with
  | none => t.path
  | some query => t.path ++ '?' :: query

def ofText (s : Text) : Target where
  path := s.takeWhile (· ≠ '?')
  query := if '?' ∈ s then some (s.dropWhile (· ≠ '?')).tail else none
  path_mark := fun h => by simpa using List.mem_takeWhile_imp h

end Target

structure Server where
  form : FormDecoder
  disableRootCatalog : Bool
  /-- Whether the headers of the proxy are used. -/
  allow : Bool
  /-- The scheme and the host that the client uses, and the path of the proxy. -/
  front : Text
  /-- Whether a text is that of a JSON object. -/
  isObject : String → Bool

inductive Failure where
  | badRequest
  | forbidden
  | overflow
  | backend
  | internal
deriving DecidableEq

structure CatalogPage where
  items : List CollectionsItem
  links : List Link

def CatalogPage.next (page : CatalogPage) : Option Text :=
  (page.links.find? (·.rel = .next)).map Link.href

namespace Server

variable (server : Server) (w : Context)

def publicUrl (t : Target) : Text :=
  if server.allow then server.front ++ t.path.rdropWhile (· = '/') else t.uri

def respond (p : Params) (t : Target) (o : Outcome) : Except Failure CatalogPage :=
  match o.sent with
  | [.answer (.page page)] =>
    if page.items.all fun item => server.isObject item.json then
      match p.links (server.publicUrl t) page.next with
      | some links => .ok { items := page.items, links }
      | none => .error .overflow
    else .error .internal
  | _ => .error .backend

def catalogHandler (s : State) (t : Target) : Except Failure CatalogPage × State :=
  match Params.read server.form t.query with
  | none => (.error .badRequest, s)
  | some p =>
    if server.disableRootCatalog then (.error .forbidden, s)
    else
      match p.range with
      | none => (.error .overflow, s)
      | some (start, stop) =>
        let o := w.handleCollection s
          { location := p.terminated.map .ofList, resource := none
            start := start.val, stop := stop.val }
        (server.respond p t o, o.state)

def follow (href : Text) : Option Target :=
  if server.allow then
    if server.front <+: href then some (.ofText (href.drop server.front.length)) else none
  else some (.ofText href)

/-- The pages a client sees that follows the links, if it comes to the last one within the given
number of requests. -/
def navigate : ℕ → State → Target → Option (List (List CollectionsItem))
  | 0, _, _ => none
  | n + 1, s, t =>
    match server.catalogHandler w s t with
    | (.error _, _) => none
    | (.ok page, s) =>
      match page.next with
      | none => some [page.items]
      | some href => (server.follow href).bind fun t => (navigate n s t).map (page.items :: ·)

/-- The client comes to the last page and has then seen the items, each of them once and in order. -/
def Complete (s : State) (t : Target) (items : List CollectionsItem) : Prop :=
  ∃ n pages, server.navigate w n s t = some pages ∧ pages.flatten = items

end Server

variable {w : Context} {s : State} {server : Server} {t : Target} {p : Params}

namespace Params

lemma size_lt (p : Params) : p.size < 65536 := by
  have hl := p.limit.isLt
  rw [size]
  omega

lemma range_eq_some {a b : U16} :
    p.range = some (a, b) ↔ p.page * p.size = a.val ∧ (p.page + 1) * p.size = b.val := by
  have ht : p.start = some a ↔ p.page * p.size = a.val := U16.checked_eq_some
  have ho (ha : p.start = some a) : p.stop = some b ↔ (p.page + 1) * p.size = b.val := by
    rw [stop, ha, bind_some, U16.checked_eq_some, ← ht.1 ha, add_mul, one_mul]
  rw [range]
  constructor
  · intro h
    split at h
    next a' b' ha hb =>
      cases h
      exact ⟨ht.1 ha, (ho ha).1 hb⟩
    · cases h
  · rintro ⟨ha, hb⟩
    rw [ht.2 ha, (ho (ht.2 ha)).2 hb]

lemma range_eq_none : p.range = none ↔ 65536 ≤ (p.page + 1) * p.size := by
  constructor
  · intro h
    by_contra hlt
    have hle : p.page * p.size ≤ (p.page + 1) * p.size := Nat.mul_le_mul_right _ (Nat.le_succ _)
    have ho := (range_eq_some (a := ⟨p.page * p.size, by omega⟩)
      (b := ⟨(p.page + 1) * p.size, by omega⟩)).2 ⟨rfl, rfl⟩
    rw [h] at ho
    cases ho
  · intro hle
    by_contra h
    obtain ⟨⟨a, b⟩, ho⟩ := Option.ne_none_iff_exists'.1 h
    have hb := (range_eq_some.1 ho).2
    omega

lemma terminated_of_none (h : p.location = none) : p.terminated = none := by
  rw [terminated, h, map_none]

lemma getLast?_terminated (l : Text) (h : p.terminated = some l) : l.getLast? = some '/' := by
  obtain ⟨s, -, rfl⟩ := map_eq_some_iff.1 h
  split
  next hs => exact hs
  · simp

def pageFields (limit page : U16) : List (Text × Text) :=
  [("page".toList, page.display), ("limit".toList, limit.display)]

def pageQuery (limit page : U16) : Text := ['&'].intercalate ((pageFields limit page).map writeField)

lemma plain_display (n : U16) : Plain n.display := by
  intro c hc
  have hd := U16.isDigit_of_mem_display hc
  refine ⟨?_, ?_, ?_, ?_⟩ <;> (rintro rfl; exact absurd hd (by decide))

lemma read_pageQuery (f : FormDecoder) (limit page : U16) :
    read f (some (pageQuery limit page)) = some { page, limit, location := none } := by
  have hp : Plain "page".toList := by decide
  have hl : Plain "limit".toList := by decide
  have hi : ∀ x ∈ pageFields limit page, Plain x.1 ∧ Plain x.2 := by
    intro x hx
    rcases mem_cons.1 hx with rfl | hx
    · exact ⟨hp, plain_display page⟩
    · rw [mem_singleton.1 hx]
      exact ⟨hl, plain_display limit⟩
  have hf : f.parse (pageQuery limit page) = pageFields limit page :=
    FormDecoder.parse_writeField (cons_ne_nil _ _) hi
  have hp : value (pageFields limit page) "page" = some (some page.display) := rfl
  have hl : value (pageFields limit page) "limit" = some (some limit.display) := rfl
  have ho : value (pageFields limit page) "prefix" = some none := rfl
  simp only [read, getD_some, hf, number, hp, hl, ho, U16.fromStr_display]

lemma href_eq (p : Params) (u : Text) (page : U16) :
    p.href u page = u ++ '?' :: pageQuery p.limit page := by
  simp [href, pageQuery, pageFields, writeField, intercalate_cons_cons]

end Params

lemma Target.ofText_append {path query : Text} (h : '?' ∉ path) :
    ofText (path ++ '?' :: query) = { path, query := some query, path_mark := h } := by
  have hne : ∀ c ∈ path, decide (c ≠ '?') := by
    intro c hc
    simp only [decide_eq_true_eq]
    rintro rfl
    exact h hc
  have hp : (path ++ '?' :: query).takeWhile (· ≠ '?') = path := by
    rw [takeWhile_append_of_pos hne]
    simp
  have hq : ((path ++ '?' :: query).dropWhile (· ≠ '?')).tail = query := by
    rw [dropWhile_append_of_pos hne]
    simp
  simp only [ofText, hp, hq, mem_append, mem_cons, true_or, or_true, if_true]

lemma Server.follow_href (hl : server.allow) (page : U16) :
    ∃ t', server.follow (p.href (server.publicUrl t) page) = some t' ∧
      Params.read server.form t'.query = some { page, limit := p.limit, location := none } := by
  have hm : '?' ∉ t.path.rdropWhile (· = '/') :=
    fun h => t.path_mark (( rdropWhile_prefix _ _).subset h)
  refine ⟨.ofText (t.path.rdropWhile (· = '/') ++ '?' :: Params.pageQuery p.limit page), ?_, ?_⟩
  · rw [follow, Params.href_eq, publicUrl, if_pos hl, if_pos hl, append_assoc,
      if_pos (prefix_append _ _), drop_left]
  · rw [Target.ofText_append hm, Params.read_pageQuery]
lemma Server.navigate_unique {n m : ℕ} {a pages' : List (List CollectionsItem)}
    (h : server.navigate w n s t = some a) (h' : server.navigate w m s t = some pages') :
    a = pages' := by
  induction n generalizing m s t a pages' with
  | zero => cases h
  | succ n ih =>
    cases m with
    | zero => cases h'
    | succ m =>
      rw [navigate] at h h'
      rcases hp : server.catalogHandler w s t with ⟨_ | g, next⟩
      · simp [hp] at h
      · simp only [hp] at h h'
        cases hn : g.next with
        | none =>
          simp only [hn, Option.some.injEq] at h h'
          rw [← h, ← h']
        | some href =>
          simp only [hn] at h h'
          obtain ⟨t', ht', h⟩ := bind_eq_some_iff.1 h
          rw [ht', bind_some] at h'
          obtain ⟨e, he, rfl⟩ := map_eq_some_iff.1 h
          obtain ⟨r, hr, rfl⟩ := map_eq_some_iff.1 h'
          rw [ih he hr]

end QJazz.Map
