import QJazz.Lexical.PosixPath

/-! The handler adds a link to each summary that it returns, which is the one that is kept. -/
namespace QJazz.Processes.ProcessList

open Lexical List

structure LinkHttp where
  href : Text
  rel : Text
  mimeType : Text
  title : Text
  description : Option Text
deriving DecidableEq

structure ProcessSummary (δ : Type*) where
  id : Text
  details : δ
  links : List LinkHttp
deriving DecidableEq

structure ProcessCache (δ : Type*) where
  timestamp : ℕ
  processes : List (ProcessSummary δ)
deriving DecidableEq

/-- A request to the process list of one service, with what the access policy and the presence of the
service say at that time. -/
structure ListRequest where
  publicUrl : Text
  formatPath : Text → Text
  executePermission : Text → Bool
  knownService : Bool
  onlineSince : ℕ
  /-- The worker replies in time if it is asked. -/
  replies : Bool
  now : ℕ

structure Body (δ : Type*) where
  processes : List (ProcessSummary δ)
  links : List LinkHttp
deriving DecidableEq

inductive ListError where
  | serviceNotAvailable
  | timeout
deriving DecidableEq

variable {δ : Type*}

def makeLink (r : ListRequest) (rel path title : Text) : LinkHttp where
  href := r.publicUrl ++ path
  rel := rel
  mimeType := "application/json".toList
  title := title
  description := none

def describeLink (r : ListRequest) (ident : Text) : LinkHttp :=
  makeLink r "http://www.opengis.net/def/rel/ogc/1.0/processes".toList
    (r.formatPath ("/processes/".toList ++ ident)) "Process description".toList

def selfLink (r : ListRequest) : LinkHttp :=
  makeLink r "self".toList (r.formatPath "/processes/".toList) "Processes list".toList

/-- The kept summaries, unless the service went online after they were taken. -/
def current (cache : Option (ProcessCache δ)) (onlineSince : ℕ) : Option (ProcessCache δ) :=
  cache.filter fun cached => !decide (cached.timestamp < onlineSince)

/-- `Executor.processes`: the cache to read from. The worker publishes the same summaries each time. -/
def processes (published : List (ProcessSummary δ)) (cache : Option (ProcessCache δ))
    (r : ListRequest) : Except ListError (ProcessCache δ) :=
  if r.knownService then
    match current cache r.onlineSince with
    | some cached => .ok cached
    | none => if r.replies then .ok ⟨r.now, published⟩ else .error .timeout
  else .error .serviceNotAvailable

def addLink (r : ListRequest) (td : ProcessSummary δ) : ProcessSummary δ :=
  if r.executePermission td.id then { td with links := describeLink r td.id :: td.links } else td

def listProcesses (published : List (ProcessSummary δ)) (cache : Option (ProcessCache δ))
    (r : ListRequest) : Except ListError (Body δ) × Option (ProcessCache δ) :=
  match processes published cache r with
  | .error e => (.error e, cache)
  | .ok cached =>
    let edited := cached.processes.map (addLink r)
    (.ok ⟨edited.filter fun td => r.executePermission td.id, [selfLink r]⟩,
      some { cached with processes := edited })

def track (published : List (ProcessSummary δ)) (state : Option (ProcessCache δ) × List ListRequest)
    (r : ListRequest) : Option (ProcessCache δ) × List ListRequest :=
  ((listProcesses published state.1 r).2,
    match processes published state.1 r with
    | .error _ => state.2
    | .ok _ => if (current state.1 r.onlineSince).isSome then state.2 ++ [r] else [r])

def after (published : List (ProcessSummary δ)) (rs : List ListRequest) :
    Option (ProcessCache δ) × List ListRequest :=
  rs.foldl (track published) (none, [])

/-- The answer a request has to get: one link of its own for each permitted process, before the
published ones. -/
def memoryless (published : List (ProcessSummary δ)) (r : ListRequest) : Body δ where
  processes := (published.filter fun td => r.executePermission td.id).map fun td =>
    { td with links := describeLink r td.id :: td.links }
  links := [selfLink r]

variable {published : List (ProcessSummary δ)} {c : Option (ProcessCache δ)}
  {cached : ProcessCache δ} {r q : ListRequest} {rs : List ListRequest} {body : Body δ}

@[simp] lemma addLink_id (td : ProcessSummary δ) : (addLink r td).id = td.id := by
  unfold addLink
  split <;> rfl

lemma addLink_of_permitted {td : ProcessSummary δ} (h : r.executePermission td.id) :
    addLink r td = { td with links := describeLink r td.id :: td.links } := if_pos h

lemma filter_map_of_id {f : ProcessSummary δ → ProcessSummary δ} (hf : ∀ td, (f td).id = td.id)
    (tds : List (ProcessSummary δ)) (p : Text → Bool) :
    (tds.map f).filter (fun td => p td.id) = (tds.filter fun td => p td.id).map f := by
  rw [List.filter_map]
  congr 2
  funext td
  exact congrArg p (hf td)

def edited (rs : List ListRequest) (td : ProcessSummary δ) : ProcessSummary δ :=
  rs.foldl (fun td r => addLink r td) td

@[simp] lemma edited_cons (td : ProcessSummary δ) :
    edited (r :: rs) td = edited rs (addLink r td) := rfl

lemma edited_concat (td : ProcessSummary δ) : edited (rs ++ [r]) td = addLink r (edited rs td) :=
  foldl_concat ..

@[simp] lemma edited_id (td : ProcessSummary δ) : (edited rs td).id = td.id := by
  induction rs generalizing td with
  | nil => rfl
  | cons r rs ih => rw [edited_cons, ih, addLink_id]

lemma length_links_edited (td : ProcessSummary δ) : (edited rs td).links.length =
    td.links.length + rs.countP (fun r => r.executePermission td.id) := by
  induction rs generalizing td with
  | nil => rfl
  | cons r rs ih =>
    rw [edited_cons, ih, addLink_id, countP_cons]
    by_cases h : r.executePermission td.id = true
    · simp only [addLink_of_permitted h, length_cons, h, if_true]
      omega
    · simp [addLink, h]

lemma edited_eq_self_iff (td : ProcessSummary δ) :
    edited rs td = td ↔ ∀ r ∈ rs, r.executePermission td.id = false := by
  constructor
  · intro h r hr
    have hl : (edited rs td).links.length = _ := length_links_edited td
    rw [h, Nat.left_eq_add, countP_eq_zero] at hl
    exact Bool.eq_false_iff.2 (hl r hr)
  · intro h
    induction rs with
    | nil => rfl
    | cons r rs ih =>
      have he : addLink r td = td := if_neg (by simp [h r mem_cons_self])
      rw [edited_cons, he]
      exact ih fun r' hr' => h r' (mem_cons_of_mem _ hr')

/-- The cache holds the published summaries with the links of the requests answered since. -/
def Remembers (published : List (ProcessSummary δ))
    (state : Option (ProcessCache δ) × List ListRequest) : Prop :=
  ∀ cached, state.1 = some cached → cached.processes = published.map (edited state.2)

variable {s : Option (ProcessCache δ) × List ListRequest}

lemma Remembers.processes (h : Remembers published s)
    (hh : processes published s.1 r = .ok cached) : cached.processes =
      published.map (edited (if (current s.1 r.onlineSince).isSome then s.2 else [])) := by
  unfold ProcessList.processes at hh
  cases hu : current s.1 r.onlineSince with
  | some b =>
    rw [hu] at hh
    split at hh
    · cases hh
      exact h _ (Option.eq_some_of_filter_eq_some hu)
    · cases hh
  | none =>
    rw [hu] at hh
    split_ifs at hh
    cases hh
    exact (List.map_id published).symm

lemma remembers_track (h : Remembers published s) :
    Remembers published (track published s r) := by
  intro cached hh
  unfold track listProcesses at hh ⊢
  cases hp : ProcessList.processes published s.1 r with
  | error e =>
    simp only [hp] at hh ⊢
    exact h cached hh
  | ok b =>
    simp only [hp, Option.some.injEq] at hh ⊢
    subst hh
    rw [h.processes hp, List.map_map]
    refine map_congr_left fun td _ => ?_
    split
    · exact (edited_concat td).symm
    · rfl

lemma remembers_after (rs : List ListRequest) : Remembers published (after published rs) := by
  have hf : ∀ s, Remembers published s →
      Remembers published (rs.foldl (track published) s) := by
    induction rs with
    | nil => exact fun _ h => h
    | cons r rs ih => exact fun _ h => ih _ (remembers_track h)
  exact hf (none, []) nofun

lemma listProcesses_ok (h : (listProcesses published c q).1 = .ok body) :
    ∃ cached, processes published c q = .ok cached ∧
      body = ⟨(cached.processes.map (addLink q)).filter fun td => q.executePermission td.id,
        [selfLink q]⟩ := by
  unfold listProcesses at h
  cases hp : processes published c q with
  | error e => simp [hp] at h
  | ok cached =>
    simp only [hp, Except.ok.injEq] at h
    exact ⟨cached, rfl, h.symm⟩

lemma addLink_injective : Function.Injective (addLink (δ := δ) q) := by
  rintro ⟨id, e, i⟩ ⟨id', d, l⟩ h
  obtain rfl : id = id' := by simpa using congrArg ProcessSummary.id h
  by_cases hq : q.executePermission id = true
  · simpa [addLink, hq] using h
  · simpa [addLink, hq] using h

lemma memoryless_processes : (memoryless published q).processes =
    (published.filter fun td => q.executePermission td.id).map (addLink q) := by
  refine map_congr_left fun td htd => ?_
  rw [addLink_of_permitted (List.mem_filter.1 htd).2]

/-- The kept summaries give the memoryless answer exactly if no permitted one has a link of an earlier
request. -/
lemma answer_eq_memoryless_iff :
    ((published.map (edited rs)).map (addLink q)).filter (fun td => q.executePermission td.id) =
        (memoryless published q).processes ↔
      ∀ r ∈ rs, ∀ td ∈ published, q.executePermission td.id →
        r.executePermission td.id = false := by
  rw [filter_map_of_id addLink_id, filter_map_of_id edited_id, memoryless_processes,
    (map_injective_iff.2 addLink_injective).eq_iff]
  nth_rewrite 2 [← List.map_id (published.filter fun td => q.executePermission td.id)]
  simp only [map_inj_left, id_eq, edited_eq_self_iff, List.mem_filter, and_imp]
  exact ⟨fun h r hr td htd hq => h td htd hq r hr, fun h td htd hq r hr => h r hr td htd hq⟩

/-- The answer to a request is the memoryless one exactly if the worker is asked again or every earlier
request since then was denied each process that this one may execute. -/
theorem listProcesses_memoryless_iff (published : List (ProcessSummary δ)) (rs : List ListRequest)
    (q : ListRequest) (body : Body δ)
    (h : (listProcesses published (after published rs).1 q).1 = .ok body) :
    body = memoryless published q ↔ current (after published rs).1 q.onlineSince = none ∨
      ∀ r ∈ (after published rs).2, ∀ td ∈ published,
        q.executePermission td.id = true → r.executePermission td.id = false := by
  obtain ⟨cached, hh, rfl⟩ := listProcesses_ok h
  have hp := (remembers_after rs).processes hh
  have hl : [selfLink q] = (memoryless published q).links := rfl
  rw [hp, Body.mk.injEq, and_iff_left hl, answer_eq_memoryless_iff]
  cases hu : current (after published rs).1 q.onlineSince with
  | none | some _ => simp

def exampleRequest (publicUrl : Text) : ListRequest where
  publicUrl := publicUrl
  formatPath path := path
  executePermission _ := true
  knownService := true
  onlineSince := 1
  replies := true
  now := 2

theorem listProcesses_memoryless_after_restart :
    (listProcesses [⟨['p'], (), []⟩] (after [⟨['p'], (), []⟩] [exampleRequest ['a']]).1
        { exampleRequest ['b'] with onlineSince := 3 }).1 =
      .ok (memoryless [⟨['p'], (), []⟩] { exampleRequest ['b'] with onlineSince := 3 }) := by
  have hok : (listProcesses [⟨['p'], (), []⟩] (after [⟨['p'], (), []⟩] [exampleRequest ['a']]).1
      { exampleRequest ['b'] with onlineSince := 3 }).1 = .ok _ := rfl
  rw [hok, (listProcesses_memoryless_iff _ _ _ _ hok).2 (.inl rfl)]

/-- The second client gets the link of the first one after its own. -/
theorem listProcesses_keeps_links :
    (listProcesses [⟨['p'], (), []⟩] (after [⟨['p'], (), []⟩] [exampleRequest ['a']]).1
        (exampleRequest ['b'])).1 = .ok ⟨[⟨['p'], (), [describeLink (exampleRequest ['b']) ['p'],
        describeLink (exampleRequest ['a']) ['p']]⟩], [selfLink (exampleRequest ['b'])]⟩ ∧
    (memoryless [⟨['p'], (), []⟩] (exampleRequest ['b'])).processes =
      [⟨['p'], (), [describeLink (exampleRequest ['b']) ['p']]⟩] :=
  ⟨rfl, rfl⟩

end QJazz.Processes.ProcessList
