import QJazz.Lexical.Unquote
import QJazz.Map.Catalog.Navigation

/-! A request for an API endpoint is forwarded with the part of its path behind the scope, as the
router has decoded it, and with the url that is left when that part is taken off from the path as it
was sent. -/
namespace QJazz.Map

open Lexical List

/-- What is read of a configured endpoint. -/
structure ApiEndPoint where
  name : Text
  delegate : Bool

/-- The part of the path that is matched by the scope, and what is behind the slash that follows,
unless the path ends with the scope. -/
structure ApiHttpRequest where
  scope : Text
  rest : Option Text
  query : Option Text
  map : Option Text
  method : Text
  data : List UInt8
  requestId : Option Text
  contentType : Option Text
  scope_mark : '?' ∉ scope
  rest_mark : ∀ rest' ∈ rest, '?' ∉ rest'

structure ApiRequest where
  name : Text
  path : Text
  target : Option Text
  url : Option Text
  direct : Bool
  options : Option Text
  method : Text
  data : Option (List UInt8)
  delegate : Bool
  requestId : Option Text
  contentType : Option Text

def stripSuffix (s suffix : Text) : Option Text :=
  if suffix <:+ s then some (s.take (s.length - suffix.length)) else none

/-- `request::public_url`. Of a server that does not use the headers of the proxy it is the uri of the
request, whatever the path. -/
def Server.publicUrlOf (server : Server) (t : Target) (path : Text) : Text :=
  if server.allow then server.front ++ trimSlashes path else t.uri

namespace ApiHttpRequest

variable (server : Server) (endpoint : ApiEndPoint) (direct : Bool) (r : ApiHttpRequest)

def target : Target where
  path := r.scope ++ (r.rest.elim [] ('/' :: ·))
  query := r.query
  path_mark := by
    cases hrest : r.rest with
    | none => simpa using r.scope_mark
    | some rest => simpa using ⟨r.scope_mark, r.rest_mark rest hrest⟩

/-- The path that the handlers are called with: the decoded one of the router, or none for the scope
itself. -/
def path : Text := r.rest.elim [] unquote

def apiResponse : Option ApiRequest :=
  (stripSuffix r.target.path r.path).map fun base =>
    { name := endpoint.name
      path := r.path
      target := r.map
      url := some (server.publicUrlOf r.target (trimSlashes base))
      direct
      options := some (r.query.getD [])
      method := r.method
      data := if r.data.isEmpty then none else some r.data
      delegate := endpoint.delegate
      requestId := r.requestId
      contentType := r.contentType }

/-- The base joined with the decoded path is the decoded path of the request, but for slashes at the
end. -/
def Denotes (base path whole : Text) : Prop :=
  trimSlashes (unquote (trimSlashes base) ++ '/' :: path) = trimSlashes (unquote whole)

/-- The handler does not panic, and the url and the path are those of the request. -/
def Faithful : Prop :=
  ∃ request url base, r.apiResponse server endpoint direct = some request ∧
    request.url = some url ∧ server.follow url = some base ∧
    Denotes base.path request.path r.target.path

end ApiHttpRequest

variable {s t u v p : Text}

namespace ApiHttpRequest

lemma denotes_slashes (hv : Slashes v) (hp : Slashes p) (hu : Slashes u) :
    Denotes (s ++ v) p (s ++ u) := by
  rw [Denotes, trimSlashes_append_slashes hv, trimSlashes_append_slashes hp.cons,
    unquote_append_slashes hu, trimSlashes_append_slashes hu, trimSlashes_unquote_trimSlashes]

lemma denotes_iff (hp : ¬ Slashes (unquote t)) :
    Denotes (s ++ '/' :: v) (unquote t) (s ++ '/' :: t) ↔ Slashes v ∧ s.getLast? ≠ some '/' := by
  have ho := mt slashes_cons.1 hp
  rw [Denotes, unquote_append separator_slash, trimSlashes_append ho, trimSlashes_append ho,
    append_left_inj]
  by_cases hv : Slashes v
  · rw [trimSlashes_append_slashes hv.cons, unquote_trimSlashes_eq]
    exact (and_iff_right hv).symm
  · have hh := mt slashes_cons.1 hv
    have hl := trimSlashes_append (s := ['/']) hv
    rw [singleton_append] at hl
    rw [trimSlashes_append hh, hl, singleton_append, unquote_append separator_slash,
      append_right_eq_self]
    simp [hv]

end ApiHttpRequest

lemma stripSuffix_eq_some {suffix b : Text} :
    stripSuffix s suffix = some b ↔ s = b ++ suffix := by
  rw [stripSuffix]
  constructor
  · intro h
    split at h
    next hu =>
      obtain ⟨a, rfl⟩ := hu
      cases h
      simp
    · cases h
  · rintro rfl
    rw [if_pos (suffix_append _ _)]
    simp

lemma Target.path_ofText (h : '?' ∉ s) : (ofText s).path = s := by
  refine takeWhile_eq_self_iff.2 fun c hc => decide_eq_true ?_
  rintro rfl
  exact h hc

lemma Target.path_ofText_uri (t : Target) : (ofText t.uri).path = t.path := by
  rw [uri]
  cases t.query with
  | none => exact path_ofText t.path_mark
  | some q => rw [ofText_append t.path_mark]

namespace ApiHttpRequest

variable {server : Server} {endpoint : ApiEndPoint} {direct : Bool} {r : ApiHttpRequest}

lemma denotes_trimSlashes {base : Text} : Denotes (trimSlashes base) p s ↔ Denotes base p s := by
  have hi : trimSlashes (trimSlashes base) = trimSlashes base := rdropWhile_idempotent _ _
  rw [Denotes, Denotes, hi]

lemma exists_follow_publicUrlOf {b : Text} (h : r.target.path = b ++ r.path) :
    ∃ t, server.follow (server.publicUrlOf r.target (trimSlashes b)) = some t ∧
      (Denotes t.path r.path r.target.path ↔
        Denotes (if server.allow then b else r.target.path) r.path r.target.path) := by
  have hm : '?' ∉ trimSlashes (trimSlashes b) := by
    intro hme
    have he := ( rdropWhile_prefix _ _).subset (( rdropWhile_prefix _ _).subset hme)
    exact r.target.path_mark (h ▸ mem_append_left _ he)
  cases hl : server.allow with
  | true =>
    refine ⟨.ofText (trimSlashes (trimSlashes b)), ?_, ?_⟩
    · simp [Server.follow, Server.publicUrlOf, hl]
    · rw [Target.path_ofText hm, denotes_trimSlashes, denotes_trimSlashes]
      rfl
  | false =>
    refine ⟨.ofText r.target.uri, ?_, ?_⟩
    · simp [Server.follow, Server.publicUrlOf, hl]
    · rw [Target.path_ofText_uri]
      rfl

lemma faithful_iff_denotes :
    r.Faithful server endpoint direct ↔ ∃ b, r.target.path = b ++ r.path ∧
      Denotes (if server.allow then b else r.target.path) r.path r.target.path := by
  constructor
  · rintro ⟨e, url, t, hr, hurl, ht, hd⟩
    obtain ⟨b, he, rfl⟩ := Option.map_eq_some_iff.1 hr
    cases hurl
    have hp := stripSuffix_eq_some.1 he
    obtain ⟨t', ht', hi⟩ := exists_follow_publicUrlOf hp
    cases ht.symm.trans ht'
    exact ⟨b, hp, hi.1 hd⟩
  · rintro ⟨b, hp, hd⟩
    obtain ⟨t, ht, hi⟩ := exists_follow_publicUrlOf hp
    exact ⟨_, _, t, Option.map_eq_some_iff.2 ⟨b, stripSuffix_eq_some.2 hp, rfl⟩, rfl, ht, hi.2 hd⟩

lemma exists_of_strip {b : Text} (h : s ++ '/' :: t = b ++ unquote t) :
    ∃ u, t = u ++ unquote t ∧ b = s ++ '/' :: u := by
  have hf : unquote t <:+ s ++ '/' :: t := h ▸ suffix_append _ _
  have hr : t <:+ s ++ '/' :: t := (suffix_cons '/' t).trans (suffix_append _ _)
  obtain ⟨u, hu⟩ := suffix_of_suffix_length_le hf hr (length_unquote_le t)
  refine ⟨u, hu.symm, append_cancel_right (h.symm.trans ?_)⟩
  rw [append_assoc, cons_append, hu]

lemma eq_nil_of_decoded_slashes (h : t = u ++ unquote t) (hl : Slashes (unquote t)) : u = [] := by
  have hd := congrArg unquote h
  rw [unquote_append_slashes hl, eq_comm, append_left_eq_self] at hd
  exact unquote_eq_nil.1 hd

lemma eq_nil_of_taken_slashes (h : t = u ++ unquote t) (hu : Slashes u) : u = [] := by
  refine hu.eq_nil_of_unquote (p := unquote t) ?_
  have hd := congrArg unquote h
  rwa [hu.unquote_append] at hd

lemma denotes_rest_iff (a : Bool) : (∃ b, s ++ '/' :: t = b ++ unquote t ∧
        Denotes (if a then b else s ++ '/' :: t) (unquote t) (s ++ '/' :: t)) ↔
      unquote t = t ∧ (Slashes t ∨ a ∧ s.getLast? ≠ some '/') := by
  constructor
  · rintro ⟨b, he, hd⟩
    obtain ⟨u, hu, rfl⟩ := exists_of_strip he
    by_cases hl : Slashes (unquote t)
    · rw [eq_nil_of_decoded_slashes hu hl, nil_append] at hu
      exact ⟨hu.symm, .inl (hu ▸ hl)⟩
    · cases a with
      | false =>
        have ht := ((denotes_iff hl).1 hd).1
        exact absurd (ht.unquote.symm ▸ ht) hl
      | true =>
        obtain ⟨hh, hs⟩ := (denotes_iff hl).1 hd
        rw [eq_nil_of_taken_slashes hu hh, nil_append] at hu
        exact ⟨hu.symm, .inr ⟨rfl, hs⟩⟩
  · rintro ⟨ht, hca⟩
    refine ⟨s ++ ['/'], by simp [ht], ?_⟩
    by_cases hl : Slashes t
    · cases a with
      | true => exact denotes_slashes slashes_nil.cons (ht.symm ▸ hl) hl.cons
      | false => exact denotes_slashes hl.cons (ht.symm ▸ hl) hl.cons
    · obtain ⟨rfl, hs⟩ := hca.resolve_left hl
      exact (denotes_iff (ht.symm ▸ hl)).2 ⟨slashes_nil, hs⟩

/-- A request is forwarded faithfully exactly if the part behind the scope is not changed by the
decoding, and the headers of the proxy are used, unless it is made of slashes. -/
theorem faithful_iff (server : Server) (endpoint : ApiEndPoint) (direct : Bool) (r : ApiHttpRequest) :
    r.Faithful server endpoint direct ↔ ∀ rest ∈ r.rest, unquote rest = rest ∧
      (Slashes rest ∨ server.allow = true ∧ r.scope.getLast? ≠ some '/') := by
  rw [faithful_iff_denotes]
  cases hr : r.rest with
  | none =>
    have hp : r.target.path = r.scope := by simp [target, hr]
    have he : r.path = [] := by simp [path, hr]
    rw [hp, he]
    refine iff_of_true ⟨r.scope, (append_nil _).symm, ?_⟩ (by simp)
    simpa using denotes_slashes (s := r.scope) slashes_nil slashes_nil slashes_nil
  | some rest =>
    have hp : r.target.path = r.scope ++ '/' :: rest := by simp [target, hr]
    have hd : r.path = unquote rest := by simp [path, hr]
    rw [hp, hd, denotes_rest_iff]
    simp

def apiServer (allow : Bool) : Server := { proxied with allow }

def wfs3 : ApiEndPoint := ⟨"WFS3".toList, false⟩

def roadMap : ApiHttpRequest where
  scope := "/features".toList
  rest := some "collections/road%20map".toList
  query := none
  map := none
  method := "GET".toList
  data := []
  requestId := none
  contentType := none
  scope_mark := by decide
  rest_mark := by decide

def collections : ApiHttpRequest := { roadMap with
  rest := some "collections".toList
  rest_mark := by decide }

/-- The first one panics. The url of the second one has the path that is forwarded in it. -/
theorem not_faithful_roadMap : roadMap.apiResponse (apiServer true) wfs3 false = none ∧
      (collections.apiResponse (apiServer false) wfs3 false).map (fun x => (x.url, x.path)) =
        some (some "/features/collections".toList, "collections".toList) ∧
      ¬ roadMap.Faithful (apiServer true) wfs3 false ∧
      ¬ collections.Faithful (apiServer false) wfs3 false := by
  have hn : roadMap.apiResponse (apiServer true) wfs3 false = none := by
    have hp : stripSuffix roadMap.target.path roadMap.path = none := by decide +kernel
    rw [apiResponse, hp, Option.map_none]
  refine ⟨hn, by decide +kernel, ?_, ?_⟩
  · rintro ⟨e, url, b, hr, -⟩
    rw [hn] at hr
    cases hr
  · have hw : ¬ Denotes collections.target.path collections.path collections.target.path := by
      rw [Denotes]
      decide +kernel
    rw [faithful_iff_denotes]
    rintro ⟨b, -, hd⟩
    exact hw hd

end ApiHttpRequest

end QJazz.Map
