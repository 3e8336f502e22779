import Mathlib.Data.List.Nodup
import QJazz.Lexical.PosixPath
import QJazz.Transition.Run

/-! The process cache asks a child process through a pipe without any identification: a call takes
what it reads within a time as its reply. -/
namespace QJazz.Processes.DescriptionCache

open Lexical Transition List

inductive Query where
  | ready
  | update
  | describe (ident : Text) (project : Option Text)
  deriving DecidableEq

structure Ticket where
  number : ℕ
  query : Query
  deriving DecidableEq

inductive Answer (σ δ : Type*) where
  | ready
  | processes (summaries : List σ)
  | description (d : δ)
  deriving DecidableEq

structure Reply (σ δ : Type*) where
  ticket : Ticket
  answer : Answer σ δ
  deriving DecidableEq

inductive Outcome (σ δ : Type*) where
  | nothing
  | processes (summaries : List σ)
  | description (reply : Reply σ δ)
  | raised
  deriving DecidableEq

def descriptionKey (ident : Text) (project : Option Text) : Text :=
  ident ++ '@' :: project.getD "None".toList

structure State (σ δ : Type*) where
  started : Bool := false
  alive : Bool := false
  next : ℕ := 0
  /-- The requests that the child has not taken yet. -/
  requests : List Ticket := []
  /-- The replies that were not read yet. -/
  replies : List (Reply σ δ) := []
  /-- The call that waits for data. -/
  waiting : Option Ticket := none
  processes : Answer σ δ := .processes []
  knownProcesses : List Text := []
  descriptions : List (Text × Reply σ δ) := []
  /-- The replies that were read, each with the request of the call that read it. -/
  received : List (Ticket × Reply σ δ) := []
  returned : List (Query × Outcome σ δ) := []

inductive Event (σ δ : Type*) where
  | call (query : Query)
  | answer (a : Answer σ δ)
  | fail
  | receive
  | timeout
  | exit

variable {σ δ : Type*}

/-- The child answers a request with a value of its kind. -/
def Answer.fits : Answer σ δ → Query → Bool
  | ready, .ready => true
  | processes _, .update => true
  | description _, .describe .. => true
  | _, _ => false

/-- An empty list counts as no description. -/
def Answer.truthy : Answer σ δ → Bool
  | processes [] => false
  | _ => true

def Reply.outcome (r : Reply σ δ) : Outcome σ δ :=
  match r.answer with
  | .description _ => .description r
  | _ => .raised

namespace State

variable (idOf : σ → Text) (s : State σ δ)

def send (query : Query) : State σ δ :=
  { s with
    next := s.next + 1
    requests := s.requests ++ [⟨s.next, query⟩]
    waiting := some ⟨s.next, query⟩ }

def finish (query : Query) (outcome : Outcome σ δ) : State σ δ :=
  { s with returned := (query, outcome) :: s.returned }

/-- A call begins: it returns at once or sends its request and waits. -/
def call : Query → Option (State σ δ)
  | .ready => if s.started then none else some (send { s with started := true, alive := true } .ready)
  | .update => some (if s.alive then s.send .update else s.finish .update (.processes []))
  | .describe ident project =>
    some <|
      if s.alive = false ∨ ident ∉ s.knownProcesses then s.finish (.describe ident project) .nothing
      else
        match s.descriptions.lookup (descriptionKey ident project) with
        | some r =>
          if r.answer.truthy then s.finish (.describe ident project) r.outcome
          else s.send (.describe ident project)
        | none => s.send (.describe ident project)

/-- A call takes what it has read as its reply. A list of processes that is none raises after the
descriptions were cleared. -/
def accept (query : Query) (r : Reply σ δ) : State σ δ :=
  match query with
  | .ready => s.finish .ready .nothing
  | .update =>
    match r.answer with
    | .processes summaries =>
      finish { s with
        processes := r.answer, descriptions := [], knownProcesses := summaries.map idOf }
        .update (.processes summaries)
    | _ => finish { s with processes := r.answer, descriptions := [] } .update .raised
  | .describe ident project =>
    finish { s with
      descriptions := (descriptionKey ident project, r) ::
        s.descriptions.filter fun d => decide (d.1 ≠ descriptionKey ident project) }
      (.describe ident project) r.outcome

def step (s : State σ δ) : Event σ δ → Option (State σ δ)
  | .call query =>
    match s.waiting with
    | none => s.call query
    | some _ => none
  | .answer a =>
    match s.requests with
    | p :: requests =>
      if s.alive ∧ a.fits p.query then some { s with requests, replies := s.replies ++ [⟨p, a⟩] }
      else none
    | [] => none
  | .fail =>
    match s.requests with
    | _ :: requests => if s.alive then some { s with requests } else none
    | [] => none
  | .receive =>
    match s.waiting, s.replies with
    | some p, r :: replies =>
      some (accept idOf { s with replies, waiting := none, received := (p, r) :: s.received } p.query r)
    | _, _ => none
  | .timeout =>
    match s.waiting, s.replies with
    | some p, [] => some (finish { s with waiting := none } p.query .raised)
    | _, _ => none
  | .exit => some { s with alive := false }

def Describes (key : Text) (r : Reply σ δ) : Prop :=
  ∃ ident project, r.ticket.query = .describe ident project ∧ descriptionKey ident project = key

/-- Every reply was read by the call that it answers, is kept under the key of that call and returned
to calls with this key. -/
structure Matched (s : State σ δ) : Prop where
  received : ∀ x ∈ s.received, x.2.ticket = x.1
  descriptions : ∀ d ∈ s.descriptions, Describes d.1 d.2
  returned : ∀ ident project r, (.describe ident project, .description r) ∈ s.returned →
    Describes (descriptionKey ident project) r

/-- The child answers a request only while its call waits: a request whose call has given up is failed
or stays unanswered. -/
def Prompt (s : State σ δ) : Event σ δ → Prop
  | .answer _ => s.waiting = s.requests.head?
  | _ => True

instance : (ev : Event σ δ) → Decidable (Prompt s ev)
  | .answer _ => inferInstanceAs (Decidable (s.waiting = s.requests.head?))
  | .call _ | .fail | .receive | .timeout | .exit => isTrue trivial

/-- The pipe has no reply, or that of the call that waits, and requests are not numbered twice. -/
structure Clean (s : State σ δ) : Prop where
  lt : ∀ p ∈ s.requests, p.number < s.next
  nodup : s.requests.Nodup
  idle : s.waiting = none → s.replies = []
  reply : ∀ p, s.waiting = some p → s.replies = [] ∨
    ∃ r, s.replies = [r] ∧ r.ticket = p ∧ p ∉ s.requests

section Steps

variable {idOf} {s} {t : State σ δ} {query : Query} {r : Reply σ δ} {o : Outcome σ δ}

lemma outcome_eq_description {r' : Reply σ δ} (h : r.outcome = .description r') : r = r' := by
  rw [Reply.outcome] at h
  split at h <;> cases h
  rfl

lemma Clean.send (h : Clean s) (hi : s.waiting = none) : Clean (s.send query) where
  lt p hp := by
    obtain hp | hp := mem_append.1 hp
    · exact (h.lt p hp).trans (Nat.lt_succ_self _)
    · rw [mem_singleton.1 hp]
      exact Nat.lt_succ_self _
  nodup := by
    refine nodup_append.2 ⟨h.nodup, nodup_singleton _, fun p hp q hq hpq => ?_⟩
    have hlt := h.lt p hp
    rw [hpq, mem_singleton.1 hq] at hlt
    exact lt_irrefl _ hlt
  idle := nofun
  reply _ _ := Or.inl (h.idle hi)

lemma Clean.finish (h : Clean s) : Clean (s.finish query o) := { h with }

lemma Matched.send (h : Matched s) : Matched (s.send query) := { h with }

lemma Matched.finish (h : Matched s)
    (ho : ∀ i p r, query = .describe i p → o = .description r →
      Describes (descriptionKey i p) r) : Matched (s.finish query o) := by
  refine { h with returned := fun i p r hm => ?_ }
  obtain heq | hm := mem_cons.1 hm
  · obtain ⟨hq, hr⟩ := Prod.mk.inj heq
    exact ho i p r hq.symm hr.symm
  · exact h.returned i p r hm

lemma Clean.call (h : Clean s) (hi : s.waiting = none) (hl : s.call query = some t) :
    Clean t := by
  cases query with
  | ready =>
    simp only [State.call, Option.ite_none_left_eq_some, Option.some.injEq] at hl
    obtain ⟨-, rfl⟩ := hl
    have ht : Clean { s with started := true, alive := true } := { h with }
    exact ht.send hi
  | update =>
    cases hl
    split
    · exact h.send hi
    · exact h.finish
  | describe i p =>
    cases hl
    split
    · exact h.finish
    · split
      · split
        · exact h.finish
        · exact h.send hi
      · exact h.send hi

lemma Matched.call (h : Matched s) (hl : s.call query = some t) : Matched t := by
  cases query with
  | ready =>
    simp only [State.call, Option.ite_none_left_eq_some, Option.some.injEq] at hl
    obtain ⟨-, rfl⟩ := hl
    have ht : Matched { s with started := true, alive := true } := { h with }
    exact ht.send
  | update =>
    cases hl
    split
    · exact h.send
    · exact h.finish nofun
  | describe i p =>
    cases hl
    split
    · exact h.finish nofun
    · split
      · next r ho =>
        split
        · refine h.finish fun d o r' hq hr => ?_
          cases hq
          obtain ⟨f, a, hp, -⟩ := lookup_eq_some_iff.1 ho
          have hm : (descriptionKey i p, r) ∈ s.descriptions :=
            hp ▸ mem_append_right _ mem_cons_self
          exact outcome_eq_description hr ▸ h.descriptions _ hm
        · exact h.send
      · exact h.send

lemma Clean.accept (h : Clean s) : Clean (s.accept idOf query r) := by
  cases query with
  | ready => exact { h with }
  | update =>
    rw [State.accept]
    split <;> exact { h with }
  | describe i p => exact { h with }

lemma Matched.accept (h : Matched s) (hr : r.ticket.query = query) :
    Matched (s.accept idOf query r) := by
  cases query with
  | ready => exact h.finish nofun
  | update =>
    have hl : ∀ processes knownProcesses,
        Matched { s with processes, descriptions := [], knownProcesses } := fun _ _ =>
      { h with descriptions := nofun }
    rw [State.accept]
    split
    · exact (hl _ _).finish nofun
    · exact (hl _ _).finish nofun
  | describe ident project =>
    have he : Describes (descriptionKey ident project) r := ⟨ident, project, hr, rfl⟩
    refine Matched.finish { h with descriptions := fun d hd => ?_ } fun ident' project' r' hq hp => ?_
    · obtain rfl | hd := mem_cons.1 hd
      · exact he
      · exact h.descriptions d (mem_of_mem_filter hd)
    · cases hq
      exact outcome_eq_description hp ▸ he

lemma matched_step {ev : Event σ δ} (hl : Clean s) (hm : Matched s) (ho : Prompt s ev)
    (ht : step idOf s ev = some t) : Clean t ∧ Matched t := by
  cases ev with
  | call query =>
    simp only [step] at ht
    split at ht
    · next hd => exact ⟨hl.call hd ht, hm.call ht⟩
    · cases ht
  | answer a =>
    simp only [step] at ht
    split at ht
    · next p e he =>
      simp only [Option.ite_none_right_eq_some, Option.some.injEq] at ht
      obtain ⟨-, rfl⟩ := ht
      have hw := ho.trans (congrArg List.head? he)
      have hn := hl.nodup
      rw [he, nodup_cons] at hn
      have hp : s.replies = [] := by
        obtain hp | ⟨r, -, -, hno⟩ := hl.reply p hw
        · exact hp
        · exact absurd (he ▸ mem_cons_self) hno
      refine ⟨⟨fun q hq => hl.lt q (he ▸ mem_cons_of_mem _ hq), hn.2, ?_, ?_⟩, { hm with }⟩
      · intro hd
        exact absurd (hd.symm.trans hw) nofun
      · intro q hq
        obtain rfl : p = q := Option.some.inj (hw.symm.trans hq)
        exact Or.inr ⟨⟨p, a⟩, by rw [hp]; rfl, rfl, hn.1⟩
    · cases ht
  | fail =>
    simp only [step] at ht
    split at ht
    · next p e he =>
      simp only [Option.ite_none_right_eq_some, Option.some.injEq] at ht
      obtain ⟨-, rfl⟩ := ht
      have hn := hl.nodup
      rw [he, nodup_cons] at hn
      refine ⟨⟨fun q hq => hl.lt q (he ▸ mem_cons_of_mem _ hq), hn.2, hl.idle, ?_⟩, { hm with }⟩
      intro q hq
      obtain hp | ⟨r, hr, hk, hno⟩ := hl.reply q hq
      · exact Or.inl hp
      · exact Or.inr ⟨r, hr, hk, fun hme => hno (he ▸ mem_cons_of_mem _ hme)⟩
    · cases ht
  | receive =>
    simp only [step] at ht
    split at ht
    · next p r replies hw hi =>
      cases ht
      obtain hp | ⟨r', hr', hk, -⟩ := hl.reply p hw
      · exact absurd (hp.symm.trans hi) nofun
      · obtain ⟨rfl, rfl⟩ := List.cons.inj (hr'.symm.trans hi)
        have hcl : Clean { s with
            replies := [], waiting := none, received := (p, r') :: s.received } :=
          ⟨hl.lt, hl.nodup, fun _ => rfl, nofun⟩
        have hh : Matched { s with
            replies := [], waiting := none, received := (p, r') :: s.received } :=
          { hm with received := forall_mem_cons.2 ⟨hk, hm.received⟩ }
        exact ⟨hcl.accept, hh.accept (congrArg Ticket.query hk)⟩
    · cases ht
  | timeout =>
    simp only [step] at ht
    split at ht
    · next p hw hi =>
      cases ht
      have hcl : Clean { s with waiting := none } :=
        ⟨hl.lt, hl.nodup, fun _ => hi, nofun⟩
      have hh : Matched { s with waiting := none } := { hm with }
      exact ⟨hcl.finish, hh.finish nofun⟩
    · cases ht
  | exit =>
    cases ht
    exact ⟨{ hl with }, { hm with }⟩

end Steps

/-- As long as the child answers no request whose call has given up, every reply is read by the call that
it answers. -/
theorem always_matched_of_prompt (idOf : σ → Text) (es : List (Event σ δ))
    (h : Along (step idOf) Prompt ({} : State σ δ) es) : Always (step idOf) Matched {} es := by
  have he : Clean ({} : State σ δ) := ⟨nofun, nodup_nil, fun _ => rfl, nofun⟩
  have hm : Matched ({} : State σ δ) := ⟨nofun, nofun, nofun⟩
  have hl : Always (step idOf) (fun s => Clean s ∧ Matched s) ({} : State σ δ) es :=
    always_of_along (fun _ _ _ hs hp ht => matched_step hs.1 hs.2 hp ht)
      ⟨he, hm⟩ h
  exact hl.imp fun _ hs => hs.2

def twoProcesses : List (Event Text ℕ) :=
  [.call .ready, .answer .ready, .receive,
    .call .update, .answer (.processes ["a".toList, "b".toList]), .receive]

theorem always_matched_failed_request :
    Always (step id) Matched ({} : State Text ℕ) (twoProcesses ++
      [.call (.describe "a".toList none), .fail, .timeout,
        .call (.describe "b".toList none), .answer (.description 2), .receive]) :=
  always_matched_of_prompt id _ (by decide)

/-- The description of one process comes late and is taken for that of another. -/
theorem not_always_matched_late_answer :
    ¬ Always (step id) Matched ({} : State Text ℕ) (twoProcesses ++
      [.call (.describe "a".toList none), .timeout,
        .call (.describe "b".toList none), .answer (.description 1), .receive]) := by
  intro h
  have hm : Matched _ := always_iff_segments.1 h _ _ prefix_rfl rfl
  exact absurd (hm.received _ mem_cons_self) (by decide)

end State

end QJazz.Processes.DescriptionCache
