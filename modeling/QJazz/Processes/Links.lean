import QJazz.Lexical.Unquote
import QJazz.Processes.JobPages

/-! `format_path` writes the service and the project of a link as they are, behind parameters that
are encoded. -/
namespace QJazz.Processes

open Lexical List

inductive ServiceError where
  | unavailable
  | required

structure DefaultAccessPolicy where
  serviceOrder : List Text
  services : List Text

def DefaultAccessPolicy.getService (p : DefaultAccessPolicy) (fields : List (String × Text)) :
    Except ServiceError Text :=
  match (getAll "service" fields).head?.filter (· ≠ []) with
  | some service => .ok service
  | none =>
    match p.serviceOrder.find? (· ∈ p.services) with
    | some service => .ok service
    | none =>
      if p.services.length ≤ 1 then
        match p.services.head? with
        | some service => .ok service
        | none => .error .unavailable
      else .error .required

def getProject (fields : List (String × Text)) : Option Text :=
  match (getAll "map" fields).head?.filter (· ≠ []) with
  | some project => some project
  | none => (getAll "MAP" fields).head?

def formatPath (path : Text) (service project query : Option Text) : Text :=
  let service := (service.filter (· ≠ [])).map ("service=".toList ++ ·)
  let project := (project.filter (· ≠ [])).map ("map=".toList ++ ·)
  let query := ['&'].intercalate ([query, service, project].filterMap (·.filter (· ≠ [])))
  if query = [] then path else path ++ '?' :: query

def readLink (decode : Text → Text) (link : Text) : Text × List (String × Text) :=
  let target := link.takeWhile (· ≠ '#')
  (decode (target.takeWhile (· ≠ '?')), parseFields (target.dropWhile (· ≠ '?')).tail)

def part (c : Char) (s : Text) : Text := (s.takeWhile (· ≠ '#')).takeWhile (· ≠ c)

def Plain (c : Char) (s : Text) : Prop := ∀ a ∈ s, a ≠ c ∧ a ≠ '#'

variable {c : Char} {s t key service project path : Text} {d r : List (String × Text)}
  {decode : Text → Text}

lemma part_append (c : Char) (s t : Text) : part c (s ++ c :: t) = part c s := by
  rw [part, part, takeWhile_takeWhile, takeWhile_takeWhile]
  induction s with
  | nil => simp
  | cons a s ih => rw [cons_append, takeWhile_cons, takeWhile_cons, ih]

lemma part_eq_self : part c s = s ↔ Plain c s := by
  rw [part, takeWhile_takeWhile, takeWhile_eq_self_iff]
  simp [Plain]

lemma decode_part (hl : ∀ s, (decode s).length ≤ s.length) :
    decode (part c s) = s ↔ Plain c s ∧ decode s = s := by
  rw [← part_eq_self]
  constructor
  · intro h
    have hp : part c s <+: s := ( takeWhile_prefix _).trans ( takeWhile_prefix _)
    have he : part c s = s := by
      refine hp.eq_of_length (le_antisymm hp.length_le ?_)
      calc
        s.length = (decode (part c s)).length := by rw [h]
        _ ≤ _ := hl _
    rw [he] at h
    exact ⟨he, h⟩
  · rintro ⟨hp, hd⟩
    rw [hp, hd]

lemma takeWhile_append_of_plain (h : Plain c s) :
    (s ++ t).takeWhile (· ≠ '#') = s ++ t.takeWhile (· ≠ '#') :=
  takeWhile_append_of_pos fun a ha => decide_eq_true (h a ha).2

lemma length_le_of_mem_parseFields {x : String × Text} (h : x ∈ parseFields s) :
    x.2.length ≤ s.length := by
  rw [parseFields, List.mem_map] at h
  obtain ⟨p, hp, rfl⟩ := h
  calc
    (readPair p).2.length ≤ (p.dropWhile (· ≠ '=')).tail.length := length_unquotePlus_le _
    _ ≤ p.length := ((tail_sublist _).trans (dropWhile_sublist _)).length_le
    _ ≤ s.length := length_le_of_mem_splitOn (mem_of_mem_filter hp)

lemma parseFields_first (key t : Text) (he : '=' ∉ key) (hk : '&' ∉ key) :
    ∃ r, parseFields (key ++ '=' :: t) =
        (.ofList (unquotePlus key), unquotePlus (t.takeWhile (· ≠ '&'))) :: r ∧
      ∀ x ∈ r, x.2.length < t.length := by
  by_cases ht : '&' ∈ t
  · obtain ⟨a, b, rfl, ha⟩ := eq_append_cons_of_mem ht
    have hc : key ++ '=' :: (a ++ '&' :: b) = (key ++ '=' :: a) ++ '&' :: b := by simp
    have hw : (a ++ '&' :: b).takeWhile (· ≠ '&') = a := by
      rw [takeWhile_append_of_pos fun x hx => decide_eq_true (ne_of_mem_of_not_mem hx ha)]
      simp
    refine ⟨parseFields b, ?_, fun x hx => ?_⟩
    · rw [hc, parseFields_append, parseFields_field he hk ha, hw]
      rfl
    · have hl := length_le_of_mem_parseFields hx
      rw [length_append, length_cons]
      omega
  · refine ⟨[], ?_, by simp⟩
    rw [parseFields_field he hk ht, takeWhile_eq_self_iff.2]
    exact fun a ha => decide_eq_true (ne_of_mem_of_not_mem ha ht)

lemma parseFields_lead : parseFields (lead s ++ t) = parseFields s ++ parseFields t := by
  rw [lead]
  split
  next h =>
    rw [h]
    rfl
  · rw [append_assoc, singleton_append, parseFields_append]

lemma getAll_of_notMem {n : String} (h : ∀ x ∈ d, x.1 ≠ n) : getAll n d = [] :=
  filterMap_eq_nil_iff.2 fun x hx => if_neg (h x hx)

lemma mem_of_mem_getAll {n : String} {v : Text} (h : v ∈ getAll n d) : (n, v) ∈ d := by
  obtain ⟨x, hx, hv⟩ := mem_filterMap.1 h
  split at hv
  next hn =>
    cases hv
    exact hn ▸ hx
  · cases hv

lemma getService_iff (hd : ∀ x ∈ d, x.1 ≠ "service") (hs : service ≠ []) :
    (∀ p : DefaultAccessPolicy, p.getService (d ++ ("service", s) :: r) = .ok service) ↔
      s = service := by
  have hf : (getAll "service" (d ++ ("service", s) :: r)).head? = some s := by
    rw [getAll_append, getAll_of_notMem hd, getAll_cons_self]
    rfl
  constructor
  · intro h
    specialize h ⟨[], []⟩
    rw [DefaultAccessPolicy.getService, hf] at h
    by_cases hn : s = []
    · rw [hn] at h
      cases h
    · rw [Option.filter_some_pos (by simpa using hn)] at h
      cases h
      rfl
  · rintro rfl p
    rw [DefaultAccessPolicy.getService, hf, Option.filter_some_pos (by simpa using hs)]

lemma getProject_iff (hd : ∀ x ∈ d, x.1 ≠ "map" ∧ x.1 ≠ "MAP") (hp : project ≠ [])
    (hr : ∀ x ∈ r, x.2.length < project.length) :
    getProject (d ++ ("map", s) :: r) = some project ↔ s = project := by
  have hf : (getAll "map" (d ++ ("map", s) :: r)).head? = some s := by
    rw [getAll_append, getAll_of_notMem fun x hx => (hd x hx).1, getAll_cons_self]
    rfl
  rw [getProject, hf]
  by_cases hn : s = []
  · subst hn
    refine iff_of_false (fun h => ?_) hp.symm
    have hm := mem_of_mem_head? h
    rw [getAll_append, getAll_of_notMem fun x hx => (hd x hx).2, nil_append,
      getAll_cons_ne (by decide)] at hm
    exact (hr _ (mem_of_mem_getAll hm)).false
  · rw [Option.filter_some_pos (by simpa using hn)]
    exact Option.some_inj

def linkQuery (d : List (String × Text)) (service project : Text) : Text :=
  lead (urlencode d) ++ ("service".toList ++ '=' :: (service ++ '&' :: ("map".toList ++ '=' :: project)))

lemma formatPath_eq (hs : service ≠ []) (hp : project ≠ []) :
    formatPath path (some service) (some project) (some (urlencode d)) =
      path ++ '?' :: linkQuery d service project := by
  by_cases hd : urlencode d = []
  · simp [formatPath, linkQuery, lead, Option.filter, hs, hp, hd, intercalate_cons_cons]
  · simp [formatPath, linkQuery, lead, Option.filter, hs, hp, hd, intercalate_cons_cons]

lemma hash_notMem_lead : '#' ∉ lead (urlencode d) := by
  have hn : '#' ∉ urlencode d := fun h => by
    rcases of_mem_urlencode h with h | h | h
    · revert h
      decide
    · cases h
    · cases h
  rw [lead]
  split <;> simp [hn]

lemma readLink_path : (readLink decode (path ++ '?' :: t)).1 = decode (part '?' path) := by
  rw [← part_append '?' path t]
  rfl

lemma readLink_fields (h : Plain '?' path) :
    (readLink decode (path ++ '?' :: t)).2 = parseFields (t.takeWhile (· ≠ '#')) := by
  rw [readLink, takeWhile_append_of_plain h]
  dsimp only
  rw [dropWhile_append_of_pos fun a ha => decide_eq_true (h a ha).1]
  simp

lemma takeWhile_linkQuery (d : List (String × Text)) (service project : Text) :
    (linkQuery d service project).takeWhile (· ≠ '#') =
      lead (urlencode d) ++ ("service".toList ++ '=' ::
        (service ++ '&' :: ("map".toList ++ '=' :: project)).takeWhile (· ≠ '#')) := by
  rw [linkQuery, takeWhile_append_of_pos fun a ha => decide_eq_true
    (ne_of_mem_of_not_mem ha hash_notMem_lead)]
  rfl

lemma fields_service (d : List (String × Text)) (service project : Text) :
    ∃ r, parseFields ((linkQuery d service project).takeWhile (· ≠ '#')) =
      d ++ ("service", unquotePlus (part '&' service)) :: r := by
  obtain ⟨r, hr, -⟩ := parseFields_first "service".toList
    ((service ++ '&' :: ("map".toList ++ '=' :: project)).takeWhile (· ≠ '#')) (by decide) (by decide)
  refine ⟨r, ?_⟩
  rw [takeWhile_linkQuery, parseFields_lead, parseFields_urlencode, hr, ← part_append '&' service]
  rfl

lemma fields_project (d : List (String × Text)) (project : Text) (h : Plain '&' service)
    (hu : unquotePlus service = service) :
    ∃ r, parseFields ((linkQuery d service project).takeWhile (· ≠ '#')) =
        (d ++ [("service", service)]) ++ ("map", unquotePlus (part '&' project)) :: r ∧
      ∀ x ∈ r, x.2.length < project.length := by
  obtain ⟨r, hr, hl⟩ := parseFields_first "map".toList (project.takeWhile (· ≠ '#')) (by decide)
    (by decide)
  refine ⟨r, ?_, fun x hx => (hl x hx).trans_le ( takeWhile_prefix _).length_le⟩
  have hc : "service".toList ++ '=' :: (service ++ '&' :: ("map".toList ++ '=' ::
      project.takeWhile (· ≠ '#'))) = ("service".toList ++ '=' :: service) ++ '&' ::
        ("map".toList ++ '=' :: project.takeWhile (· ≠ '#')) := by
    simp
  have hn : '&' ∉ service := fun hm => (h _ hm).1 rfl
  have ht : ('&' :: ("map".toList ++ '=' :: project)).takeWhile (· ≠ '#') =
      '&' :: ("map".toList ++ '=' :: project.takeWhile (· ≠ '#')) := rfl
  rw [takeWhile_linkQuery, takeWhile_append_of_plain h, ht, parseFields_lead,
    parseFields_urlencode, hc, parseFields_append, parseFields_field (by decide) (by decide) hn, hr,
    hu, append_assoc]
  rfl

structure Kept (decode : Text → Text) (d : List (String × Text)) (path service project link : Text) :
    Prop where
  path_eq : (readLink decode link).1 = path
  service_eq : ∀ p : DefaultAccessPolicy, p.getService (readLink decode link).2 = .ok service
  project_eq : getProject (readLink decode link).2 = some project
  fields : d <+: (readLink decode link).2

end QJazz.Processes
