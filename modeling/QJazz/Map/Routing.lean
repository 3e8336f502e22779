import Mathlib.Data.String.Basic
import QJazz.Lexical.PosixPath

/-! A request goes to the backend of the first scope that is registered and whose prefix the path
has. -/
namespace QJazz.Map

open Lexical List

structure Backend where
  name : String
  route : Text
  deriving DecidableEq

def insertSlash : Text → Text
  | [] => []
  | '/' :: route => '/' :: route
  | route => '/' :: route

def Backend.scope (b : Backend) : Text :=
  insertSlash b.route

/-- The backends in the order of their names, as `validate` accepts them. -/
structure Channels where
  entries : List Backend
  sorted : entries.Pairwise fun a b => a.name < b.name
  ne_root : 1 < entries.length → ∀ b ∈ entries, b.route ≠ ['/']

inductive Backends where
  | single (b : Backend)
  | multi (bs : List Backend)

/-- The only backend may have the route `/`, and then gets all requests. -/
def Channels.connect (c : Channels) : Backends :=
  match c.entries with
  | [b] => if b.route = ['/'] then .single b else .multi [b]
  | bs => .multi bs.reverse

def matchesScope (scope path : Text) : Bool :=
  scope.isPrefixOf path &&
    (decide (path.drop scope.length = []) || decide ((path.drop scope.length).head? = some '/'))

def pingPath : Text :=
  "/ping".toList

inductive Served where
  | ping
  | backend (b : Backend)
  /-- The landing page, or no service at all -/
  | app
  deriving DecidableEq

/-- The resource of the health check is registered before all scopes, whatever the method. -/
def Backends.dispatch (bs : Backends) (path : Text) : Served :=
  if path = pingPath then .ping
  else
    match bs with
    | .single b => .backend b
    | .multi bs =>
      match bs.find? fun b => matchesScope b.scope path with
      | some b => .backend b
      | none => .app

def PathPrefix (scope path : Text) : Prop :=
  ∃ rest, path = scope ++ rest ∧ (rest = [] ∨ rest.head? = some '/' ∨ scope = ['/'])

/-- The request is served by a backend with the longest route among those that are prefixes of the
path, if there are any. -/
def Channels.LongestWins (c : Channels) (path : Text) : Prop :=
  ∀ e ∈ c.entries, PathPrefix e.scope path →
    ∃ b ∈ c.entries, c.connect.dispatch path = .backend b ∧ PathPrefix b.scope path ∧
      e.scope.length ≤ b.scope.length

/-- Where the route of one backend extends the route of another one, a backend of the longer route has
the later name. -/
def Channels.NamedInOrder (c : Channels) : Prop :=
  ∀ a ∈ c.entries, ∀ b ∈ c.entries, PathPrefix a.scope b.scope → a.scope ≠ b.scope →
    ∃ b' ∈ c.entries, b'.scope = b.scope ∧ a.name < b'.name

variable {c : Channels} {a b : Backend} {bs : List Backend} {scope path : Text}

lemma matchesScope_iff (ho : scope ≠ ['/']) :
    matchesScope scope path ↔ PathPrefix scope path := by
  simp only [matchesScope, PathPrefix, Bool.and_eq_true, Bool.or_eq_true, decide_eq_true_eq,
    isPrefixOf_iff_prefix, ho, or_false]
  constructor
  · rintro ⟨⟨r, rfl⟩, h⟩
    exact ⟨r, rfl, by simpa using h⟩
  · rintro ⟨r, rfl, h⟩
    exact ⟨prefix_append _ _, by simpa using h⟩

lemma PathPrefix.refl (scope : Text) : PathPrefix scope scope :=
  ⟨[], by simp⟩

lemma insertSlash_eq_slash {r : Text} : insertSlash r = ['/'] ↔ r = ['/'] := by
  rw [insertSlash.eq_def]
  split <;> simp_all

lemma PathPrefix.of_length_lt {other : Text} (h : PathPrefix scope path)
    (h' : PathPrefix other path) (ho : scope ≠ ['/']) (hl : scope.length < other.length) :
    PathPrefix scope other := by
  obtain ⟨rest, rfl, hr⟩ := h
  obtain ⟨r, hp, _⟩ := h'
  have ht : other <+: scope ++ rest := ⟨r, hp.symm⟩
  obtain ⟨mid, rfl⟩ := prefix_of_prefix_length_le (prefix_append _ _) ht hl.le
  have hm : mid ≠ [] := by
    rintro rfl
    simp at hl
  rw [append_assoc, append_cancel_left_eq] at hp
  subst hp
  refine ⟨mid, rfl, ?_⟩
  simpa [ho, List.head?_append_of_ne_nil, hm] using hr

lemma Channels.connect_cases (c : Channels) :
    (∃ b, c.entries = [b] ∧ b.scope = ['/'] ∧ c.connect = .single b) ∨
      (∀ b ∈ c.entries, b.scope ≠ ['/']) ∧ c.connect = .multi c.entries.reverse := by
  have hr (b : Backend) : b.scope = ['/'] ↔ b.route = ['/'] := insertSlash_eq_slash
  rw [connect]
  rcases hn : c.entries with _ | ⟨b, _ | ⟨b', bs⟩⟩
  · simp
  · by_cases hb : b.route = ['/']
    · exact Or.inl ⟨b, rfl, (hr b).2 hb, if_pos hb⟩
    · refine Or.inr ⟨?_, if_neg hb⟩
      simpa [hr] using hb
  · refine Or.inr ⟨fun e he => ?_, rfl⟩
    rw [ne_eq, hr]
    exact c.ne_root (by simp [hn]) e (hn ▸ he)

lemma name_lt_of_find? {p : Backend → Bool} (ho : bs.Pairwise fun a b => a.name < b.name)
    (hf : bs.reverse.find? p = some b) (ha : a ∈ bs) (hp : p a) :
    a = b ∨ a.name < b.name := by
  obtain ⟨_, e, i, hbs, hn⟩ := List.find?_eq_some_iff_append.1 hf
  have hi := pairwise_reverse.2 ho
  rw [hbs] at hi
  rw [← mem_reverse, hbs, mem_append, mem_cons] at ha
  rcases ha with ha | rfl | ha
  · exact absurd hp (by simpa using hn a ha)
  · exact Or.inl rfl
  · exact Or.inr ((pairwise_cons.1 (pairwise_append.1 hi).2.1).1 a ha)

lemma Channels.longestWins_pingPath :
    c.LongestWins pingPath ↔ ∀ e ∈ c.entries, ¬ PathPrefix e.scope pingPath := by
  constructor
  · intro h e he hm
    obtain ⟨b, _, hr, _⟩ := h e he hm
    simp [Backends.dispatch] at hr
  · intro h e he hm
    exact absurd hm (h e he)

lemma Channels.dispatch_of_multi (hr : ∀ b ∈ c.entries, b.scope ≠ ['/'])
    (ho : c.connect = .multi c.entries.reverse) (hp : path ≠ pingPath)
    (ha : a ∈ c.entries) (ht : PathPrefix a.scope path) :
    ∃ b ∈ c.entries, c.connect.dispatch path = .backend b ∧ PathPrefix b.scope path ∧
      ∀ e ∈ c.entries, PathPrefix e.scope path → e = b ∨ e.name < b.name := by
  have hso : (c.entries.reverse.find? fun b => matchesScope b.scope path).isSome := by
    rw [List.find?_isSome]
    exact ⟨a, mem_reverse.2 ha, (matchesScope_iff (hr a ha)).2 ht⟩
  obtain ⟨b, hb⟩ := Option.isSome_iff_exists.1 hso
  have hme := mem_reverse.1 (List.mem_of_find?_eq_some hb)
  have hh : matchesScope b.scope path := by simpa using List.find?_some hb
  refine ⟨b, hme, ?_, (matchesScope_iff (hr b hme)).1 hh, ?_⟩
  · rw [ho, Backends.dispatch, if_neg hp]
    simp only [hb]
  · intro e he hm
    exact name_lt_of_find? c.sorted hb he ((matchesScope_iff (hr e he)).2 hm)

lemma Channels.longestWins_of_namedInOrder (h : c.NamedInOrder) (hh : path ≠ pingPath) :
    c.LongestWins path := by
  intro e he hm
  rcases c.connect_cases with ⟨b, hn, hp, ho⟩ | ⟨hr, ho⟩
  · have heb : e = b := by simpa [hn] using he
    subst heb
    refine ⟨e, he, ?_, hm, le_rfl⟩
    rw [ho, Backends.dispatch, if_neg hh]
  · obtain ⟨b, hb, hv, ht, hl⟩ := dispatch_of_multi hr ho hh he hm
    refine ⟨b, hb, hv, ht, not_lt.1 fun hlt => ?_⟩
    have hd := ht.of_length_lt hm (hr b hb) hlt
    obtain ⟨e', he', hp, hna⟩ := h b hb e he hd fun heq => by simp [heq] at hlt
    rcases hl e' he' (hp ▸ hm) with rfl | hnm
    · exact lt_irrefl _ hna
    · exact lt_asymm hna hnm

lemma PathPrefix.eq_of_length_le (h : PathPrefix scope path) (hl : path.length ≤ scope.length) :
    scope = path := by
  obtain ⟨r, rfl, _⟩ := h
  exact List.IsPrefix.eq_of_length_le (prefix_append _ _) hl

lemma Channels.namedInOrder_of_longestWins (h : ∀ path, c.LongestWins path) : c.NamedInOrder := by
  intro a ha b hb hm hne
  have hi := longestWins_pingPath.1 (h pingPath)
  have ht : b.scope ≠ pingPath := fun heq => hi b hb (heq ▸ PathPrefix.refl _)
  rcases c.connect_cases with ⟨e, he, _⟩ | ⟨hro, hn⟩
  · rw [he, mem_singleton] at ha hb
    exact absurd (by rw [ha, hb]) hne
  · obtain ⟨b', hb', hv, hp, hl⟩ := h b.scope b hb (PathPrefix.refl _)
    have ho := hp.eq_of_length_le hl
    obtain ⟨e, _, hr, _, hla⟩ := dispatch_of_multi hro hn ht ha hm
    obtain rfl : b' = e := Served.backend.inj (hv.symm.trans hr)
    refine ⟨b', hb', ho, (hla a ha hm).resolve_left ?_⟩
    rintro rfl
    exact hne ho

theorem Channels.longestWins_iff (c : Channels) : (∀ path, c.LongestWins path) ↔
      c.NamedInOrder ∧ ∀ e ∈ c.entries, ¬ PathPrefix e.scope pingPath := by
  constructor
  · intro h
    exact ⟨namedInOrder_of_longestWins h, longestWins_pingPath.1 (h pingPath)⟩
  · rintro ⟨hn, hi⟩ path
    by_cases hp : path = pingPath
    · rw [hp]
      exact longestWins_pingPath.2 hi
    · exact longestWins_of_namedInOrder hn hp

/-- The backend `a` has the longer route, and its scope is registered last. -/
def nestedRoutes : Channels where
  entries := [⟨"a", "/maps/world".toList⟩, ⟨"b", "/maps".toList⟩]
  sorted := by decide
  ne_root := by decide

theorem not_longestWins_nestedRoutes : nestedRoutes.connect.dispatch "/maps/world/catalog".toList =
        .backend ⟨"b", "/maps".toList⟩ ∧
      ¬ nestedRoutes.LongestWins "/maps/world/catalog".toList := by
  have he : nestedRoutes.connect.dispatch "/maps/world/catalog".toList =
      .backend ⟨"b", "/maps".toList⟩ := by decide
  refine ⟨he, fun h => ?_⟩
  obtain ⟨b, _, hb, _, hl⟩ := h ⟨"a", "/maps/world".toList⟩ (by decide)
    ⟨"/catalog".toList, by decide, by decide⟩
  rw [he, Served.backend.injEq] at hb
  subst hb
  exact absurd hl (by decide)

end QJazz.Map
