import QJazz.Lexical.QueryString
import QJazz.Paging.Follow
import QJazz.Processes.Realms

/-! A page is cut out of the jobs first and filtered then, and it has a next one only if the filters
leave as many jobs as it can have. -/
namespace QJazz.Processes

open Lexical Python Paging List

/-- The reading of an integer parameter. What Python writes for a number is read back. -/
structure IntParam where
  parse : Text → Option ℕ
  parse_digits : ∀ n, parse (Nat.toDigits 10 n) = some n

def getAll (name : String) (fields : List (String × Text)) : List Text :=
  fields.filterMap fun x => if x.1 = name then some x.2 else none

def IntParam.validate (int : IntParam) (fields : List (String × Text)) (name : String)
    (default : ℕ) : Except HttpError ℕ :=
  match (getAll name fields).head? with
  | none => .ok default
  | some text =>
    match int.parse text with
    | none => .error .badRequest
    | some n => .ok n

def readListing (int : IntParam) (fields : List (String × Text)) : Except HttpError Listing :=
  (int.validate fields "limit" 10).bind fun limit =>
    (int.validate fields "page" 1).map fun page =>
      { service := (getAll "service" fields).head?
        limit := limit
        page := page
        processIds := getAll "processID" fields
        statuses := getAll "status" fields }

namespace Listing

/-- The parameters of a link, with those that are empty left out. -/
def params (q : Listing) (page : ℕ) : List (String × Text) :=
  q.processIds.map ("processID", ·) ++ (q.statuses.map ("status", ·) ++
    (("limit", Nat.toDigits 10 q.limit) ::
      ((q.service.filter (· ≠ [])).toList.map ("service", ·) ++ [("page", Nat.toDigits 10 page)])))

def atPage (q : Listing) (page : ℕ) : Listing := { q with page }

/-- The listing as its links are read: an empty service is none. -/
def canonical (q : Listing) : Listing := { q with service := q.service.filter (· ≠ []) }

end Listing

structure JobList where
  jobs : List JobStatus
  self : Text
  next : Option Text
  prev : Option Text

def jobList (q : Listing) (jobs : List JobStatus) : JobList where
  jobs := jobs
  self := urlencode (q.params q.page)
  next := if q.limit ≤ jobs.length then some (urlencode (q.params (q.page + 1))) else none
  prev := if 1 < q.page then some (urlencode (q.params (q.page - 1))) else none

def getJobs (int : IntParam) (c : JobRealmConfig) (w : Context) (r : Registry) (request : Request)
    (query : Text) : Except HttpError JobList :=
  (readListing int (parseFields query)).bind fun q => (listJobs c w r request q).map (jobList q)

/-- What a client that goes from page to page needs of a response. -/
def getPage (int : IntParam) (c : JobRealmConfig) (w : Context) (r : Registry) (request : Request)
    (query : Text) : Except HttpError (List JobStatus × Option Text) :=
  (getJobs int c w r request query).map fun x => (x.jobs, x.next)

section Links

variable {name : String} {f d : List (String × Text)}

@[simp] lemma getAll_nil : getAll name [] = [] := rfl

lemma getAll_append : getAll name (f ++ d) = getAll name f ++ getAll name d :=
  filterMap_append

lemma getAll_cons_self {v : Text} : getAll name ((name, v) :: d) = v :: getAll name d := by
  simp [getAll]

lemma getAll_cons_ne {x : String × Text} (h : x.1 ≠ name) : getAll name (x :: d) = getAll name d := by
  simp [getAll, h]

lemma getAll_map_self (vs : List Text) : getAll name (vs.map (name, ·)) = vs := by
  simp [getAll, filterMap_map]

lemma getAll_map_ne {o : String} (vs : List Text) (h : o ≠ name) :
    getAll name (vs.map (o, ·)) = [] := by
  simp [getAll, filterMap_map, h]

lemma readListing_params (int : IntParam) (q : Listing) (page : ℕ) :
    readListing int (parseFields (urlencode (q.params page))) = .ok (q.atPage page).canonical := by
  have hv {name : String} {e n : ℕ} (h : getAll name (q.params page) =
      [Nat.toDigits 10 n]) : int.validate (q.params page) name e = .ok n := by
    simp [IntParam.validate, h, int.parse_digits]
  have hlimit : getAll "limit" (q.params page) = [Nat.toDigits 10 q.limit] := by
    simp [Listing.params, getAll_append, getAll_cons_self, getAll_cons_ne, getAll_map_ne]
  have hpage : getAll "page" (q.params page) = [Nat.toDigits 10 page] := by
    simp [Listing.params, getAll_append, getAll_cons_self, getAll_cons_ne, getAll_map_ne]
  have he : getAll "service" (q.params page) = (q.service.filter (· ≠ [])).toList := by
    simp [Listing.params, getAll_append, getAll_cons_ne, getAll_map_ne, getAll_map_self]
  have hp : getAll "processID" (q.params page) = q.processIds := by
    simp [Listing.params, getAll_append, getAll_cons_ne, getAll_map_ne, getAll_map_self]
  have ht : getAll "status" (q.params page) = q.statuses := by
    simp [Listing.params, getAll_append, getAll_cons_ne, getAll_map_ne, getAll_map_self]
  rw [parseFields_urlencode, readListing, hv hlimit, hv hpage, he, hp, ht, Option.head?_toList]
  rfl

end Links

/-- A missing or empty filter selects everything. -/
def selectedBy : Option Text → Option Text → Prop
  | none, _ | some [], _ => True
  | some text, value => value = some text

def Matches (w : Context) (q : Listing) (realm : Option Text) (e : Record) : Prop :=
  selectedBy q.service (some e.service) ∧ selectedBy realm e.realm ∧
    ∃ status, w.recordStatus e = .ok (some status) ∧ q.keeps status = true

def Context.listedStatus (w : Context) (service : Option Text) (e : Record) :
    Except ExecutorError (Option JobStatus) :=
  w.infoStatus e.decode
    (match service with
    | none | some [] => w.destinations e.service
    | some service => w.destinations service)

def Context.statuses (w : Context) (r : Registry) (service realm : Option Text) :
    List (Except ExecutorError (Option JobStatus)) :=
  (r.keys (listPattern service realm)).map (w.listedStatus service)

def CompleteJobs (int : IntParam) (c : JobRealmConfig) (w : Context) (r : Registry)
    (request : Request) (q : Listing) (realm : Option Text) (query : Text) : Prop :=
  ∃ n jobs, follow (getPage int c w r request) n query = some (.ok jobs) ∧
    (jobs.map JobStatus.jobId).Nodup ∧
    ∀ jobId, jobId ∈ jobs.map JobStatus.jobId ↔
      ∃ e ∈ r.records, e.jobId = jobId ∧ Matches w q realm e

section Pages

variable {int : IntParam} {c : JobRealmConfig} {w : Context} {r : Registry} {request : Request}
  {q : Listing} {realm service : Option Text} {query : Text}

lemma jobs_eq_islice_statuses (hr : r.Generated) {u limit : ℕ} :
    w.jobs r service realm u limit = islice u limit (w.statuses r service realm) := by
  rw [Context.jobs, Registry.findKeys, List.map_map, Context.statuses]
  refine congrArg _ (map_congr_left fun e he => ?_)
  obtain ⟨hm, -⟩ := Registry.mem_keys.1 he
  obtain ⟨p, p', hp⟩ := parts_key (hr.plain e hm).notMem
  rw [Function.comp_apply, hp, Context.pull, hr.findJob_jobId hm]
  rfl

lemma listJobs_canonical : listJobs c w r request q.canonical = listJobs c w r request q := by
  obtain ⟨_ | (_ | ⟨d, service⟩), limit, page, p, s⟩ := q
  · rfl
  · rfl
  · rfl

lemma params_canonical (page : ℕ) : q.canonical.params page = q.params page := by
  simp [Listing.params, Listing.canonical, Option.filter_filter]

lemma jobList_canonical (jobs : List JobStatus) : jobList q.canonical jobs = jobList q jobs := by
  simp only [jobList, params_canonical]
  rfl

/-- The query of a page: that of the first request, and then those of the links. -/
def pageQuery (q : Listing) (query : Text) : ℕ → Text
  | 0 => query
  | k + 1 => urlencode (q.params (k + 2))

section Listed

variable (hr : r.Generated) (hrealm : c.jobRealm request = .ok realm)
  (hlimit : 1 ≤ q.limit ∧ q.limit < 1000)
include hr hrealm hlimit

lemma listJobs_page (k : ℕ) : (listJobs c w r request (q.atPage (k + 1))).map (fun j =>
        (j, (jobList (q.atPage (k + 1)) j).next)) =
      ((slicePage q.keeps q.limit (w.statuses r q.service realm) k).map fun x =>
        (x.1, x.2.map (pageQuery q query))).mapError .internal := by
  have hv : 1 ≤ (q.atPage (k + 1)).limit ∧ (q.atPage (k + 1)).limit < 1000 ∧
      1 ≤ (q.atPage (k + 1)).page := ⟨hlimit.1, hlimit.2, Nat.le_add_left 1 k⟩
  have hj : w.jobs r (q.atPage (k + 1)).service realm
      (((q.atPage (k + 1)).page - 1) * (q.atPage (k + 1)).limit) (q.atPage (k + 1)).limit =
        islice (k * q.limit) q.limit (w.statuses r q.service realm) :=
    jobs_eq_islice_statuses hr
  rw [listJobs, if_pos hv, hrealm, Except.bind, hj, slicePage]
  cases islice (k * q.limit) q.limit (w.statuses r q.service realm) with
  | error err => rfl
  | ok j =>
    simp only [Except.map, Except.mapError, jobList]
    rw [apply_ite (Option.map (pageQuery q query))]
    rfl

variable (hread : readListing int (parseFields query) = .ok q) (hpage : q.page = 1)
include hread hpage

lemma getPage_pageQuery (k : ℕ) : getPage int c w r request (pageQuery q query k) =
      ((slicePage q.keeps q.limit (w.statuses r q.service realm) k).map fun x =>
        (x.1, x.2.map (pageQuery q query))).mapError .internal := by
  have hg : ∃ p, readListing int (parseFields (pageQuery q query k)) = .ok p ∧
      listJobs c w r request p = listJobs c w r request (q.atPage (k + 1)) ∧
      jobList p = jobList (q.atPage (k + 1)) := by
    cases k with
    | zero =>
      have hq : q.atPage (0 + 1) = q := by rw [Listing.atPage, Nat.zero_add, ← hpage]
      exact ⟨q, hread, by rw [hq], by rw [hq]⟩
    | succ k => exact ⟨_, readListing_params int q (k + 2), listJobs_canonical, funext jobList_canonical⟩
  obtain ⟨p, hp, hl, hj⟩ := hg
  rw [← listJobs_page hr hrealm hlimit, getPage, getJobs, hp, Except.bind, hl, hj]
  cases listJobs c w r request (q.atPage (k + 1)) <;> rfl

lemma follow_getPage (n : ℕ) : follow (getPage int c w r request) n query =
    (follow (slicePage q.keeps q.limit (w.statuses r q.service realm)) n 0).map
      (Except.mapError .internal) :=
  follow_map (getPage_pageQuery hr hrealm hlimit hread hpage) n 0

lemma exists_follow_getPage_iff {j : List JobStatus} :
    (∃ n, follow (getPage int c w r request) n query = some (.ok j)) ↔
      ∃ m, StopsAt q.keeps q.limit (w.statuses r q.service realm) m ∧
        j = ((yielded (w.statuses r q.service realm)).take ((m + 1) * q.limit)).filter q.keeps := by
  have hp := hlimit.1
  rw [← exists_follow_ok_iff hp]
  refine exists_congr fun n => ?_
  rw [follow_getPage hr hrealm hlimit hread hpage]
  rcases follow (slicePage q.keeps q.limit (w.statuses r q.service realm)) n 0 with
    _ | (err | jobs') <;> simp [Except.mapError]

lemma exists_follow_getPage :
    ∃ n result, follow (getPage int c w r request) n query = some result := by
  have hp := hlimit.1
  obtain ⟨n, out, hn⟩ : ∃ n out,
      follow (slicePage q.keeps q.limit (w.statuses r q.service realm)) n 0 = some out :=
    exists_follow hp 0
  exact ⟨n, _, by rw [follow_getPage hr hrealm hlimit hread hpage, hn]; rfl⟩

end Listed

lemma follow_getPage_badRequest (hread : readListing int (parseFields query) = .ok q)
    (hlimit : ¬ (1 ≤ q.limit ∧ q.limit < 1000)) (n : ℕ) :
    follow (getPage int c w r request) (n + 1) query = some (.error .badRequest) := by
  have he : listJobs c w r request q = .error .badRequest :=
    if_neg fun h => hlimit ⟨h.1, h.2.1⟩
  rw [follow, getPage, getJobs, hread, Except.bind, he]
  rfl

lemma sublist_jobId_yielded (es : List Record) :
    ((yielded (es.map (w.listedStatus service))).map JobStatus.jobId).Sublist
      (es.map Record.jobId) := by
  induction es with
  | nil => exact List.Sublist.refl _
  | cons e es ih =>
    rw [map_cons, map_cons]
    cases ht : w.listedStatus service e with
    | error err => exact nil_sublist _
    | ok o =>
      cases o with
      | none => exact ih.cons _
      | some s =>
        have hid := jobId_infoStatus ht
        rw [yielded, map_cons, hid]
        exact ih.cons_cons _

lemma completeJobs_iff_collected (hr : r.Generated) (hrealm : c.jobRealm request = .ok realm)
    (hlimit : 1 ≤ q.limit ∧ q.limit < 1000)
    (hread : readListing int (parseFields query) = .ok q) (hpage : q.page = 1) :
    CompleteJobs int c w r request q realm query ↔
      ∃ m, StopsAt q.keeps q.limit (w.statuses r q.service realm) m ∧
        ∀ j, j ∈ (((yielded (w.statuses r q.service realm)).take
            ((m + 1) * q.limit)).filter q.keeps).map JobStatus.jobId ↔
          ∃ e ∈ r.records, e.jobId = j ∧ Matches w q realm e := by
  constructor
  · rintro ⟨n, o, hn, -, hi⟩
    obtain ⟨m, hm, rfl⟩ := (exists_follow_getPage_iff hr hrealm hlimit hread hpage).1 ⟨n, hn⟩
    exact ⟨m, hm, hi⟩
  · rintro ⟨m, hm, hi⟩
    obtain ⟨n, hn⟩ := (exists_follow_getPage_iff hr hrealm hlimit hread hpage).2 ⟨m, hm, rfl⟩
    refine ⟨n, _, hn, ?_, hi⟩
    exact ((sublist_jobId_yielded _).nodup (hr.nodup.sublist (filter_sublist.map _))).sublist
      ((filter_sublist.trans (take_sublist _ _)).map _)

end Pages

/-- The client always comes to an end. It has every matching job once exactly if the limit is one that
is taken and it stops at a page, with nothing raised before, up to which the kept jobs are the matching
ones; it stops at the first page that is not full of kept jobs. -/
theorem completeJobs_iff_stopsAt (int : IntParam) (c : JobRealmConfig) (w : Context) (r : Registry)
    (request : Request) (q : Listing) (realm : Option Text) (query : Text) (hr : r.Generated)
    (hrealm : c.jobRealm request = .ok realm)
    (hread : readListing int (parseFields query) = .ok q) (hpage : q.page = 1) :
    (∃ n result, follow (getPage int c w r request) n query = some result) ∧
      (CompleteJobs int c w r request q realm query ↔ (1 ≤ q.limit ∧ q.limit < 1000) ∧
        ∃ m, StopsAt q.keeps q.limit (w.statuses r q.service realm) m ∧
          ∀ jobId, jobId ∈ (((yielded (w.statuses r q.service realm)).take
              ((m + 1) * q.limit)).filter q.keeps).map JobStatus.jobId ↔
            ∃ e ∈ r.records, e.jobId = jobId ∧ Matches w q realm e) := by
  by_cases hlimit : 1 ≤ q.limit ∧ q.limit < 1000
  · rw [completeJobs_iff_collected hr hrealm hlimit hread hpage, and_iff_right hlimit]
    exact ⟨exists_follow_getPage hr hrealm hlimit hread hpage, Iff.rfl⟩
  · refine ⟨⟨1, _, follow_getPage_badRequest hread hlimit 0⟩, iff_of_false ?_ fun h => hlimit h.1⟩
    rintro ⟨n, j, hn, -⟩
    cases n with
    | zero => cases hn
    | succ n =>
      rw [follow_getPage_badRequest hread hlimit] at hn
      cases hn

def decimal : IntParam where
  parse text :=
    if text ≠ [] ∧ text.all Char.isDigit = true then some (Nat.ofDigitChars 10 text 0) else none
  parse_digits n := by
    have hall : (Nat.toDigits 10 n).all Char.isDigit = true :=
      List.all_eq_true.2 fun c hc => Nat.isDigit_of_mem_toDigits (by decide) (by decide) hc
    rw [if_pos ⟨Nat.toDigits_ne_nil, hall⟩, Nat.ofDigitChars_toDigits (by decide) (by decide)]

def pendingJob (jobId processId : Text) : Record where
  jobId := jobId
  service := "qgis".toList
  realm := none
  processId := processId
  created := 0
  expires := 86400
  pendingTimeout := 600
  tag := none
  dismissed := false

def twoJobs : Registry where
  records := [pendingJob "1a".toList "buffer".toList, pendingJob "2b".toList "clip".toList]
  nodup := by decide

lemma generated_twoJobs : twoJobs.Generated where
  plain := by
    simp only [twoJobs, forall_mem_cons]
    decide
  nodup := by decide

def openRealm : JobRealmConfig where
  enabled := false
  adminTokens := []

def onePerPage (processIds : List Text) : Listing := { limit := 1, page := 1, processIds }

theorem completeJobs_without_filters :
    CompleteJobs decimal openRealm waiting twoJobs (clientRequest none) (onePerPage []) none
      (urlencode ((onePerPage []).params 1)) := by
  have h := completeJobs_iff_stopsAt decimal openRealm waiting twoJobs (clientRequest none)
    (onePerPage []) none (urlencode ((onePerPage []).params 1)) generated_twoJobs rfl
    (readListing_params decimal (onePerPage []) 1) rfl
  refine h.2.2 ⟨⟨by decide, by decide⟩, 2, ⟨?_, ?_, ?_⟩, fun j => ?_⟩
  · intro k hk
    obtain rfl | rfl : k = 0 ∨ k = 1 := by omega
    · exact Nat.le_refl 1
    · exact Nat.le_refl 1
  · exact Nat.not_succ_le_zero 0
  · exact fun h => absurd h (by decide)
  · have hi : (((yielded (waiting.statuses twoJobs none none)).take ((2 + 1) * 1)).filter
        (onePerPage []).keeps).map JobStatus.jobId = twoJobs.records.map Record.jobId := rfl
    have hm : ∀ e ∈ twoJobs.records, Matches waiting (onePerPage []) none e := by
      refine forall_mem_cons.2 ⟨?_, forall_mem_singleton.2 ?_⟩ <;>
        exact ⟨trivial, trivial, _, rfl, rfl⟩
    refine (Eq.to_iff (congrArg (j ∈ ·) hi)).trans ?_
    rw [List.mem_map]
    exact exists_congr fun e => and_congr_right fun he => (and_iff_left (hm e he)).symm

/-- The first page has a job that the filter leaves out, so the matching job on the second page is
never listed. -/
theorem not_completeJobs_with_filter :
    readListing decimal (parseFields (urlencode ((onePerPage ["clip".toList]).params 1))) =
        .ok (onePerPage ["clip".toList]) ∧
      getPage decimal openRealm waiting twoJobs (clientRequest none)
        (urlencode ((onePerPage ["clip".toList]).params 1)) = .ok ([], none) ∧
      (∃ e ∈ twoJobs.records, Matches waiting (onePerPage ["clip".toList]) none e) ∧
      ¬ CompleteJobs decimal openRealm waiting twoJobs (clientRequest none)
        (onePerPage ["clip".toList]) none (urlencode ((onePerPage ["clip".toList]).params 1)) := by
  have hread := readListing_params decimal (onePerPage ["clip".toList]) 1
  have hrealm : openRealm.jobRealm (clientRequest none) = .ok none := rfl
  have hget : getPage decimal openRealm waiting twoJobs (clientRequest none)
      (urlencode ((onePerPage ["clip".toList]).params 1)) = .ok ([], none) :=
    getPage_pageQuery generated_twoJobs hrealm ⟨by decide, by decide⟩ hread rfl 0
  have hm : Matches waiting (onePerPage ["clip".toList]) none
      (pendingJob "2b".toList "clip".toList) := ⟨trivial, trivial, _, rfl, rfl⟩
  have he : pendingJob "2b".toList "clip".toList ∈ twoJobs.records := by simp [twoJobs]
  refine ⟨hread, hget, ⟨_, he, hm⟩, ?_⟩
  rintro ⟨n, j, hf, -, hi⟩
  cases n with
  | zero => cases hf
  | succ n =>
    rw [follow, hget] at hf
    cases hf
    exact absurd ((hi _).2 ⟨_, he, rfl, hm⟩) not_mem_nil

end QJazz.Processes
