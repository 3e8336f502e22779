import QJazz.Processes.Executor
import QJazz.Python.Generator

/-! A job is registered under the token of the client that submits it, read from the headers of the
request. -/
namespace QJazz.Processes

open Lexical Glob Python List Registry

def jobRealmHeader : Text := "X-Job-Realm".toList

structure Request where
  headers : Text → Option Text
  /-- The values that the application keeps in the request. -/
  stored : Text → Option Text

inductive HttpError where
  | badRequest
  | unauthorized (message : Text)
  | internal (err : ExecutorError)

def isTokenChar (c : Char) : Bool := c.isAlphanum || decide (c = '_') || decide (c = '-')

def validToken : Text → Bool
  | c :: d :: token =>
    decide (8 ≤ (c :: d :: token).length) && c.isAlphanum && (d :: token).all isTokenChar
  | _ => false

structure JobRealmConfig where
  enabled : Bool
  adminTokens : List Text

namespace JobRealmConfig

variable (c : JobRealmConfig)

def validateRealm (realm : Text) : Except HttpError Text :=
  if validToken realm then .ok realm else .error (.unauthorized "Invalid job realm".toList)

def getJobRealm (request : Request) (uuid4 : Text) : Except HttpError (Option Text) :=
  if c.enabled then
    match request.headers jobRealmHeader with
    | none | some [] => .ok (some uuid4)
    | some realm => (validateRealm realm).map some
  else .ok none

def jobRealm (request : Request) : Except HttpError (Option Text) :=
  if c.enabled then
    match request.stored jobRealmHeader with
    | none | some [] => .error (.unauthorized "Unauthorized".toList)
    | some realm => .ok (if realm ∈ c.adminTokens then none else some realm)
  else .ok none

end JobRealmConfig

namespace Context

variable (w : Context) (r : Registry)

/-- The status of a job from the backend and the workers, or else from its record. -/
def infoStatus (info : TaskInfo) (destinations : List Text) : Except ExecutorError (Option JobStatus) :=
  (w.jobStatus info.jobId destinations false).map fun status => status <|> w.jobStatusPending info

def pull (service : Option Text) : List Text → Except ExecutorError (Option JobStatus)
  | [jobId, _, _] =>
    match r.findJob jobId none with
    | none => .ok none
    | some info =>
      let destinations := match service with
        | none | some [] => w.destinations info.service
        | some service => w.destinations service
      w.infoStatus info destinations
  | _ => .error .invalidKey

def jobs (service realm : Option Text) (cursor limit : ℕ) : Except ExecutorError (List JobStatus) :=
  islice cursor limit ((r.findKeys service realm).map (w.pull r service))

end Context

structure Listing where
  service : Option Text := none
  limit : ℕ
  page : ℕ
  processIds : List Text := []
  statuses : List Text := []

def Listing.keeps (q : Listing) (status : JobStatus) : Bool :=
  (q.processIds.isEmpty || decide (status.processId ∈ q.processIds)) &&
    (q.statuses.isEmpty || decide (status.status.text ∈ q.statuses))

def listJobs (c : JobRealmConfig) (w : Context) (r : Registry) (request : Request) (q : Listing) :
    Except HttpError (List JobStatus) :=
  if 1 ≤ q.limit ∧ q.limit < 1000 ∧ 1 ≤ q.page then
    (c.jobRealm request).bind fun realm =>
      match w.jobs r q.service realm ((q.page - 1) * q.limit) q.limit with
      | .error err => .error (.internal err)
      | .ok jobs => .ok (jobs.filter q.keeps)
  else .error .badRequest

lemma splitSeparator_ne_nil (s : Text) : splitSeparator s ≠ [] := by
  induction s using splitSeparator.induct with
  | case1 | case2 s ih => simp [splitSeparator]
  | case3 c s hc ih =>
    rw [splitSeparator]
    · cases h : splitSeparator s with
      | nil => exact absurd h ih
      | cons p ps => simp
    · exact hc

lemma splitSeparator_append {s t : Text} (hs : ':' ∉ s) :
    splitSeparator (s ++ (separator ++ t)) = s :: splitSeparator t := by
  induction s with
  | nil => rfl
  | cons c s ih =>
    have hc : c ≠ ':' := fun hc => hs (hc ▸ mem_cons_self)
    rw [cons_append, splitSeparator, ih (not_mem_of_not_mem_cons hs)]
    · rfl
    · rintro s' rfl
      exact absurd rfl hc

lemma splitSeparator_cons_cons (s t : Text) :
    ∃ p q ps, splitSeparator (s ++ (separator ++ t)) = p :: q :: ps := by
  induction s with
  | nil =>
    obtain ⟨q, ps, h⟩ := exists_cons_of_ne_nil (splitSeparator_ne_nil t)
    exact ⟨[], q, ps, congrArg _ h⟩
  | cons c s ih =>
    by_cases ht : ∃ u, c = ':' ∧ s ++ (separator ++ t) = ':' :: u
    · obtain ⟨u, rfl, hu⟩ := ht
      obtain ⟨q, ps, h⟩ := exists_cons_of_ne_nil (splitSeparator_ne_nil u)
      exact ⟨[], q, ps, by rw [cons_append, hu, splitSeparator, h]⟩
    · obtain ⟨p, q, ps, h⟩ := ih
      refine ⟨c :: p, q, ps, ?_⟩
      rw [cons_append, splitSeparator, h]
      · rfl
      · intro u hc hu
        exact ht ⟨u, hc, hu⟩

lemma parts_key {e : Record} (h : ':' ∉ e.jobId) :
    ∃ p q, ((splitSeparator e.key).drop 1).take 3 = [e.jobId, p, q] := by
  obtain ⟨p, q, ps, hp⟩ := splitSeparator_cons_cons e.service (e.realm.getD "None".toList)
  have ht : keyStart = "qjazz".toList ++ separator := rfl
  refine ⟨p, q, ?_⟩
  rw [Record.key, ht, append_assoc, splitSeparator_append (by decide), splitSeparator_append h, hp]
  rfl

def Context.recordStatus (w : Context) (e : Record) : Except ExecutorError (Option JobStatus) :=
  w.infoStatus e.decode (w.destinations e.service)

def Context.Live (w : Context) (e : Record) : Prop := ∃ status, w.recordStatus e = .ok (some status)

section Jobs

variable {w : Context} {r : Registry} {realm : Option Text} {cursor limit n : ℕ}

lemma jobs_eq_islice (hr : r.Generated) : w.jobs r none realm cursor limit =
    islice cursor limit ((r.keys (listPattern none realm)).map w.recordStatus) := by
  rw [Context.jobs, Registry.findKeys, List.map_map]
  refine congrArg _ (map_congr_left fun e he => ?_)
  obtain ⟨hm, -⟩ := mem_keys.1 he
  obtain ⟨p, q, hp⟩ := parts_key (hr.plain e hm).notMem
  rw [Function.comp_apply, hp, Context.pull, hr.findJob_jobId hm]
  rfl

lemma jobId_infoStatus {i : TaskInfo} {d : List Text} {s : JobStatus}
    (h : w.infoStatus i d = .ok (some s)) : s.jobId = i.jobId := by
  rw [Context.infoStatus] at h
  cases ht : w.jobStatus i.jobId d false with
  | error err =>
    rw [ht] at h
    cases h
  | ok o =>
    rw [ht] at h
    cases o with
    | some f =>
      cases h
      rw [Context.jobStatus] at ht
      split at ht
      · split at ht <;> cases ht
        rfl
      all_goals
        cases ht
        try rfl
    | none =>
      injection h with hp
      change w.jobStatusPending i = some s at hp
      rw [Context.jobStatusPending] at hp
      split at hp <;> cases hp
      rfl

lemma jobId_recordStatus {e : Record} {s : JobStatus}
    (h : w.recordStatus e = .ok (some s)) : s.jobId = e.jobId :=
  jobId_infoStatus h

lemma sublist_jobId {es : List Record} {l : List (Option JobStatus)}
    (h : es.map w.recordStatus = l.map .ok) :
    (l.reduceOption.map JobStatus.jobId).Sublist (es.map Record.jobId) := by
  induction es generalizing l with
  | nil =>
    rw [map_nil, nil_eq, map_eq_nil_iff] at h
    simp [h]
  | cons e es ih =>
    obtain ⟨o, l, rfl, ho, hl⟩ := map_eq_cons_iff.1 h.symm
    cases o with
    | none => exact (ih hl.symm).cons _
    | some s =>
      rw [reduceOption_cons_of_some, map_cons, map_cons, jobId_recordStatus ho.symm]
      exact (ih hl.symm).cons_cons _

lemma mem_jobId_iff {es : List Record} {l : List (Option JobStatus)} {j : Text}
    (h : es.map w.recordStatus = l.map .ok) :
    j ∈ l.reduceOption.map JobStatus.jobId ↔ ∃ e ∈ es, e.jobId = j ∧ w.Live e := by
  have hm : ∀ s, s ∈ l.reduceOption ↔ ∃ e ∈ es, w.recordStatus e = .ok (some s) := by
    intro s
    rw [reduceOption_mem_iff, ← List.mem_map, h]
    simp
  rw [List.mem_map]
  constructor
  · rintro ⟨s, ht, rfl⟩
    obtain ⟨e, he, hl⟩ := (hm s).1 ht
    exact ⟨e, he, (jobId_recordStatus hl).symm, s, hl⟩
  · rintro ⟨e, he, rfl, s, hl⟩
    exact ⟨s, (hm s).2 ⟨e, he, hl⟩, jobId_recordStatus hl⟩

end Jobs

variable {c : JobRealmConfig} {w : Context} {r : Registry} {request : Request} {token : Text}

def pageOf (limit p : ℕ) : Listing := { limit, page := p + 1 }

def OwnJobs (c : JobRealmConfig) (w : Context) (r : Registry) (request : Request) (token : Text) : Prop :=
  ∀ limit n, 1 ≤ limit → limit < 1000 → r.records.length < n →
    ∃ jobs, pages (fun p => listJobs c w r request (pageOf limit p)) n = .ok jobs ∧
      (jobs.map JobStatus.jobId).Nodup ∧
      ∀ jobId, jobId ∈ jobs.map JobStatus.jobId ↔
        ∃ e ∈ r.records, e.jobId = jobId ∧ e.realm = some token ∧ w.Live e

structure Client (c : JobRealmConfig) (request : Request) (token : Text) : Prop where
  enabled : c.enabled = true
  header : request.headers jobRealmHeader = some token
  valid : validToken token = true
  notAdmin : token ∉ c.adminTokens

def JobRealmConfig.Selects (c : JobRealmConfig) (realm : Text) (e : Record) : Prop :=
  globMatch (listPattern none (if realm ∈ c.adminTokens then none else some realm)) e.key = true

/-- The application has stored a realm in the request, no record that this realm selects has a status
that raises, and the realm selects the live jobs of the client. -/
def StoresRealm (c : JobRealmConfig) (w : Context) (r : Registry) (request : Request) (token : Text) :
    Prop :=
  ∃ realm, request.stored jobRealmHeader = some realm ∧ realm ≠ [] ∧
    (∀ e ∈ r.records, c.Selects realm e → ∃ status, w.recordStatus e = .ok status) ∧
    ∀ e ∈ r.records, w.Live e → (c.Selects realm e ↔ e.realm = some token)

lemma ne_nil_of_validToken (h : validToken token) : token ≠ [] := by
  rintro rfl
  exact absurd h (by decide)

lemma Client.getJobRealm (h : Client c request token) (u : Text) :
    c.getJobRealm request u = .ok (some token) := by
  obtain ⟨d, token, rfl⟩ := exists_cons_of_ne_nil (ne_nil_of_validToken h.valid)
  rw [JobRealmConfig.getJobRealm, if_pos h.enabled, h.header]
  simp only [JobRealmConfig.validateRealm, h.valid]
  rfl

lemma jobRealm_stored {realm : Text} (henabled : c.enabled)
    (ht : request.stored jobRealmHeader = some realm) (hne : realm ≠ []) :
    c.jobRealm request = .ok (if realm ∈ c.adminTokens then none else some realm) := by
  obtain ⟨d, realm, rfl⟩ := exists_cons_of_ne_nil hne
  rw [JobRealmConfig.jobRealm, if_pos henabled, ht]

lemma jobRealm_not_stored (henabled : c.enabled)
    (h : ∀ realm, request.stored jobRealmHeader = some realm → realm = []) :
    c.jobRealm request = .error (.unauthorized "Unauthorized".toList) := by
  rw [JobRealmConfig.jobRealm, if_pos henabled]
  cases ht : request.stored jobRealmHeader with
  | none => rfl
  | some realm =>
    rw [h realm ht]

lemma listJobs_pageOf {realm : Option Text} {limit p : ℕ} (hr : r.Generated)
    (hrealm : c.jobRealm request = .ok realm) (hl : 1 ≤ limit) (hm : limit < 1000) :
    listJobs c w r request (pageOf limit p) =
      match islice (p * limit) limit ((r.keys (listPattern none realm)).map w.recordStatus) with
      | .error err => .error (.internal err)
      | .ok jobs => .ok jobs := by
  have hk : ∀ jobs : List JobStatus, jobs.filter (pageOf limit p).keeps = jobs := fun jobs =>
    filter_eq_self.2 fun _ _ => rfl
  rw [listJobs, if_pos ⟨hl, hm, Nat.le_add_left 1 p⟩, hrealm]
  simp only [Except.bind, pageOf, Nat.add_sub_cancel, jobs_eq_islice hr]
  split
  · rfl
  · exact congrArg _ (hk _)

section Pages

variable {realm : Option Text} {l : List (Option JobStatus)} (hr : r.Generated)
  (hrealm : c.jobRealm request = .ok realm)
include hr hrealm

lemma pages_ok (h : (r.keys (listPattern none realm)).map w.recordStatus = l.map .ok) {limit n : ℕ}
    (hl : 1 ≤ limit) (hm : limit < 1000) (hn : r.records.length < n) :
    pages (fun p => listJobs c w r request (pageOf limit p)) n = .ok l.reduceOption := by
  have hp : (fun p => listJobs c w r request (pageOf limit p)) =
      fun p => islice (p * limit) limit (l.map .ok) := by
    funext p
    rw [listJobs_pageOf hr hrealm hl hm, h, islice_ok, islice_ok]
  have he : l.length ≤ r.records.length := by
    have heq := congrArg List.length h
    rw [length_map, length_map] at heq
    exact heq ▸ length_filter_le _ _
  have hal : l.reduceOption.length ≤ n * limit :=
    calc l.reduceOption.length ≤ l.length := reduceOption_length_le l
      _ ≤ n * 1 := by omega
      _ ≤ n * limit := Nat.mul_le_mul_left n hl
  rw [hp, pages_islice_ok, take_of_length_le hal]

lemma pages_raise {err : ExecutorError} {e : List (Except ExecutorError (Option JobStatus))}
    (h : (r.keys (listPattern none realm)).map w.recordStatus = l.map .ok ++ .error err :: e) :
    ∃ err', pages (fun p => listJobs c w r request (pageOf 1 p)) (r.records.length + 1) =
      .error err' := by
  have hl : l.length < r.records.length := by
    have heq := congrArg List.length h
    rw [length_map, length_append, length_map, length_cons] at heq
    have hle : (r.keys (listPattern none realm)).length ≤ r.records.length := length_filter_le _ _
    omega
  have he : l.reduceOption.length < r.records.length * 1 + 1 := by
    have hle := reduceOption_length_le l
    omega
  have hp : listJobs c w r request (pageOf 1 r.records.length) = .error (.internal err) := by
    rw [listJobs_pageOf hr hrealm le_rfl (by omega), h, islice_error he]
  exact pages_error hp

lemma ownJobs_iff_selected : OwnJobs c w r request token ↔
    (∀ e ∈ r.keys (listPattern none realm), ∃ status, w.recordStatus e = .ok status) ∧
      ∀ e ∈ r.records, w.Live e → (e ∈ r.keys (listPattern none realm) ↔ e.realm = some token) := by
  have hit : ∀ e ∈ r.keys (listPattern none realm),
      w.recordStatus e ∈ (r.keys (listPattern none realm)).map w.recordStatus := fun e he =>
    List.mem_map_of_mem he
  obtain ⟨l, hok⟩ | ⟨l, err, s, ho⟩ :=
    ok_or_error ((r.keys (listPattern none realm)).map w.recordStatus)
  · have hw : ∀ e ∈ r.keys (listPattern none realm), ∃ status, w.recordStatus e = .ok status := by
      intro e he
      obtain ⟨status, -, ht⟩ := List.mem_map.1 (hok ▸ hit e he)
      exact ⟨status, ht.symm⟩
    constructor
    · intro h
      refine ⟨hw, fun e he hl => ?_⟩
      obtain ⟨j, hp, -, hj⟩ := h 1 (r.records.length + 1) le_rfl (by omega) (by omega)
      rw [pages_ok hr hrealm hok le_rfl (by omega) (by omega), Except.ok.injEq] at hp
      have hme := hj e.jobId
      rw [← hp, mem_jobId_iff hok] at hme
      constructor
      · intro hk
        obtain ⟨f, hf, hid, hm, -⟩ := hme.1 ⟨e, hk, rfl, hl⟩
        rwa [← hr.eq_of_jobId hf he hid]
      · intro hm
        obtain ⟨f, hf, hid, -⟩ := hme.2 ⟨e, he, rfl, hm, hl⟩
        rwa [← hr.eq_of_jobId (mem_keys.1 hf).1 he hid]
    · rintro ⟨-, hse⟩ limit n hli hx hn
      refine ⟨_, pages_ok hr hrealm hok hli hx hn, ?_, fun o => ?_⟩
      · exact ((sublist_jobId hok).trans (filter_sublist.map _)).nodup hr.nodup
      · rw [mem_jobId_iff hok]
        constructor
        · rintro ⟨e, he, hid, hl⟩
          have hme := (mem_keys.1 he).1
          exact ⟨e, hme, hid, (hse e hme hl).1 he, hl⟩
        · rintro ⟨e, he, hid, hm, hl⟩
          exact ⟨e, (hse e he hl).2 hm, hid, hl⟩
  · refine iff_of_false (fun h => ?_) fun h => ?_
    · obtain ⟨j, hp, -⟩ := h 1 (r.records.length + 1) le_rfl (by omega) (by omega)
      obtain ⟨err', hi⟩ := pages_raise hr hrealm ho
      rw [hi] at hp
      cases hp
    · have hme : .error err ∈ (r.keys (listPattern none realm)).map w.recordStatus := by
        rw [ho]
        exact mem_append_right _ mem_cons_self
      obtain ⟨e, he, hi⟩ := List.mem_map.1 hme
      obtain ⟨status, ht⟩ := h.1 e he
      rw [hi] at ht
      cases ht

end Pages

/-- A client is listed exactly its own live jobs if the application has stored a realm in the request
that selects them. The headers of the request play no part. -/
theorem ownJobs_iff_storesRealm (hclient : Client c request token) (hr : r.Generated) :
    OwnJobs c w r request token ↔ StoresRealm c w r request token := by
  constructor
  · intro h
    by_cases ht : ∀ realm, request.stored jobRealmHeader = some realm → realm = []
    · -- the listing is refused
      have hg : listJobs c w r request (pageOf 1 r.records.length) =
          .error (.unauthorized "Unauthorized".toList) := by
        rw [listJobs, jobRealm_not_stored hclient.enabled ht, if_pos (by simp [pageOf])]
        rfl
      obtain ⟨j, hp, -⟩ := h 1 (r.records.length + 1) le_rfl (by omega) (by omega)
      obtain ⟨err, hra⟩ : ∃ err,
          pages (fun p => listJobs c w r request (pageOf 1 p)) (r.records.length + 1) = .error err :=
        pages_error hg
      rw [hra] at hp
      cases hp
    · simp only [not_forall] at ht
      obtain ⟨realm, ht, hne⟩ := ht
      obtain ⟨hn, hl⟩ :=
        (ownJobs_iff_selected hr (jobRealm_stored hclient.enabled ht hne)).1 h
      refine ⟨realm, ht, hne, fun e he hse => hn e (Registry.mem_keys.2 ⟨he, hse⟩), ?_⟩
      intro e he hi
      rw [← hl e he hi, Registry.mem_keys, and_iff_right he]
      rfl
  · rintro ⟨realm, ht, hne, hn, hl⟩
    refine (ownJobs_iff_selected hr (jobRealm_stored hclient.enabled ht hne)).2 ⟨?_, ?_⟩
    · intro e he
      obtain ⟨hm, hse⟩ := Registry.mem_keys.1 he
      exact hn e hm hse
    · intro e he hi
      rw [← hl e he hi, Registry.mem_keys, and_iff_right he]
      rfl

lemma plainId_of_validToken (h : validToken token) : PlainId token := by
  have hh : ∀ d, isTokenChar d → isPlain d ∧ d ≠ ':' := by
    intro d hd
    refine ⟨?_, ?_⟩
    · simp only [isPlain, Bool.and_eq_true, decide_eq_true_eq]
      refine ⟨⟨⟨?_, ?_⟩, ?_⟩, ?_⟩ <;>
      · rintro rfl
        exact absurd hd (by decide)
    · rintro rfl
      exact absurd hd (by decide)
  rcases token with _ | ⟨d, _ | ⟨d', token⟩⟩
  · cases h
  · cases h
  · simp only [validToken, Bool.and_eq_true, List.all_eq_true] at h
    intro x hx
    refine hh x ?_
    obtain rfl | hx := mem_cons.1 hx
    · simp [isTokenChar, h.1.2]
    · exact h.2 x hx

lemma append_separator_inj_right {s t x y : Text} (hx : ':' ∉ x) (hy : ':' ∉ y)
    (h : s ++ (separator ++ x) = t ++ (separator ++ y)) : x = y := by
  have he : x.reverse ++ (separator ++ s.reverse) = y.reverse ++ (separator ++ t.reverse) := by
    have heq := congrArg List.reverse h
    simpa [separator] using heq
  have hx' : ':' ∉ x.reverse := by simpa using hx
  have hy' : ':' ∉ y.reverse := by simpa using hy
  exact reverse_injective ((append_separator_inj hx' hy').1 he).1

lemma globMatch_listPattern {e : Record} {t : Text} (ho : PlainId token) (hne : token ≠ [])
    (hrealm : e.realm = some t) (ht : ':' ∉ t) :
    globMatch (listPattern none (some token)) e.key ↔ t = token := by
  obtain ⟨d, token, rfl⟩ := exists_cons_of_ne_nil hne
  have he : listPattern none (some (d :: token)) =
      keyStart ++ ('*' :: (separator ++ ('*' :: (separator ++ (d :: token ++ []))))) := by
    simp [listPattern, orStar]
  have hp : ∀ x ∈ d :: token, isPlain x := fun x hx => (ho x hx).1
  have hk : e.key = keyStart ++ (e.jobId ++ (separator ++ (e.service ++ (separator ++ t)))) := by
    rw [Record.key, hrealm, Option.getD_some]
  rw [he, globMatch_plain_append isPlain_keyStart]
  constructor
  · rintro ⟨a, hi, hm⟩
    obtain ⟨f, rest₁, htail₁, hmatch₁⟩ := globMatch_star_cons.1 hm
    obtain ⟨rest₂, hrest₁, hmatch₂⟩ := (globMatch_plain_append isPlain_separator).1 hmatch₁
    obtain ⟨m, rest₃, hrest₂, hmatch₃⟩ := globMatch_star_cons.1 hmatch₂
    obtain ⟨rest₄, hrest₃, hmatch₄⟩ := (globMatch_plain_append isPlain_separator).1 hmatch₃
    obtain ⟨rest₅, hrest₄, hmatch₅⟩ := (globMatch_plain_append hp).1 hmatch₄
    rw [globMatch_nil] at hmatch₅
    subst hmatch₅ hrest₄ hrest₃ hrest₂ hrest₁ htail₁
    rw [hk] at hi
    refine append_separator_inj_right (s := e.jobId ++ (separator ++ e.service))
      (t := f ++ (separator ++ m)) ht ho.notMem ?_
    simpa [append_assoc] using append_cancel_left hi
  · rintro rfl
    refine ⟨_, hk, globMatch_star_cons.2 ⟨e.jobId, _, rfl, ?_⟩⟩
    refine (globMatch_plain_append isPlain_separator).2 ⟨_, rfl, ?_⟩
    refine globMatch_star_cons.2 ⟨e.service, _, rfl, ?_⟩
    refine (globMatch_plain_append isPlain_separator).2 ⟨_, rfl, ?_⟩
    exact (globMatch_plain_append hp).2 ⟨[], (append_nil _).symm, globMatch_nil.2 rfl⟩

lemma storesRealm_of_token (hl : Client c request token)
    (ho : request.stored jobRealmHeader = request.headers jobRealmHeader)
    (hi : ∀ e ∈ r.records, ∃ t, e.realm = some t ∧ validToken t)
    (hn : ∀ e ∈ r.records, ∃ s, w.recordStatus e = .ok s) : StoresRealm c w r request token := by
  have hne := ne_nil_of_validToken hl.valid
  refine ⟨token, ho.trans hl.header, hne, fun e he _ => hn e he, fun e he _ => ?_⟩
  obtain ⟨t, ht, hv⟩ := hi e he
  rw [JobRealmConfig.Selects, if_neg hl.notAdmin,
    globMatch_listPattern (plainId_of_validToken hl.valid) hne ht
      (plainId_of_validToken hv).notMem, ht, Option.some.injEq]

def realmConfig : JobRealmConfig where
  enabled := true
  adminTokens := []

def clientRequest (stored : Option Text) : Request where
  headers name := if name = jobRealmHeader then some "client-1".toList else none
  stored name := if name = jobRealmHeader then stored else none

def clientJob : Registry where
  records :=
    [{ jobId := "3f2a".toList, service := "qgis".toList, realm := some "client-1".toList
       processId := "buffer".toList, created := 0, expires := 86400, pendingTimeout := 600
       tag := none, dismissed := false }]
  nodup := List.nodup_singleton _

def waiting : Context where
  destinations _ := []
  taskMeta _ := .pending
  queryReplies _ _ := []
  now := 1000
  lockAcquired := true
  revokeFails := false

theorem ownJobs_stored_token :
    OwnJobs realmConfig waiting clientJob (clientRequest (some "client-1".toList)) "client-1".toList :=
  (ownJobs_iff_storesRealm ⟨rfl, rfl, by decide, by decide⟩ ⟨by decide, by decide⟩).2
    (storesRealm_of_token ⟨rfl, rfl, by decide, by decide⟩ rfl
      (List.forall_mem_singleton.2 ⟨_, rfl, by decide⟩) (List.forall_mem_singleton.2 ⟨_, rfl⟩))

/-- The application stores no realm, so the listing of the client is refused. -/
theorem not_ownJobs_header_only :
    ¬ OwnJobs realmConfig waiting clientJob (clientRequest none) "client-1".toList := by
  intro h
  obtain ⟨j, hp, -⟩ := h 10 2 (by decide) (by decide) (by decide)
  cases hp

end QJazz.Processes
