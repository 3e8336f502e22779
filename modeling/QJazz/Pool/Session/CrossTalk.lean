import QJazz.Pool.Session.Model

/-! A recycled worker must come back with empty pipes and a child that waits. The recycling decides
that on the flag, after a last drain. -/
namespace QJazz.Pool.Session
open Transition List

def Loop.Waits : Loop → Prop
  | .announce | .entering | .receiving => True
  | .received _ | .answering _ => False

def Loop.byte : Loop → Byte
  | .announce | .answering _ => .busy
  | .entering | .receiving | .received _ => .ready

instance : (c : Loop) → Decidable c.Waits
  | .announce | .entering | .receiving => isTrue trivial
  | .received _ | .answering _ => isFalse id

namespace State

structure Quiet (s : State) : Prop where
  stdin : s.stdin = []
  stdout : s.stdout = []
  child : s.child.Waits

def CleanIdle (s : State) : Prop :=
  s.handle = .idle → s.stdout = [] ∧ s.stdin = [] ∧ s.child.Waits

/-- Every frame was read by the request it answers. -/
def NoCrossTalk (s : State) : Prop := ∀ p ∈ s.served, p.1 = p.2

/-- The flag tells the state of the child: no message waits, the child has announced the one it
received, and no such announcement is under way. -/
def CaughtUp (s : State) : Prop :=
  s.stdin = [] ∧ .busy ∉ s.rdv ∧ (s.child.Waits ∨ s.child.byte = .busy)

/-- The flag is up to date when it ends a drain, and no frame is written between the drain and the
look at the flag. -/
def Prompt (s : State) : Event → Prop
  | .proceed => s.handle = .checking → s.flag = .ready → s.CaughtUp
  | .write _ => s.handle = .checking → s.cancelled = true
  | _ => True

instance (s : State) : Decidable s.CaughtUp := inferInstanceAs (Decidable (_ ∧ _ ∧ _))

instance (s : State) : (e : Event) → Decidable (s.Prompt e)
  | .proceed => inferInstanceAs (Decidable (s.handle = .checking → s.flag = .ready → s.CaughtUp))
  | .write _ => inferInstanceAs (Decidable (s.handle = .checking → s.cancelled = true))
  | .child | .finish | .signal | .deliver | .timeout | .fail | .acquire | .request _ | .read | .done
  | .drop | .outdated | .requeue => isTrue trivial

/-- Where the only message and reply under way are, and that they belong to request `req`. -/
inductive Owned (req : ℕ) (single : Bool) : Loop → List Message → List Frame → Prop
  | sent {c : Loop} (hc : c.Waits) : Owned req single c [⟨req, single⟩] []
  | received : Owned req single (.received ⟨req, single⟩) [] []
  | answering {fs : List Frame} (hfs : ∀ f ∈ fs, f = ⟨req, false⟩) (hs : single = true → fs = []) :
      Owned req single (.answering ⟨req, single⟩) [] fs
  | answered {c : Loop} {fs : List Frame} (hc : c.Waits) (hfs : ∀ f ∈ fs, f = ⟨req, false⟩)
      (hs : single = true → fs = []) : Owned req single c [] (fs ++ [⟨req, true⟩])
  | unfinished {c : Loop} {fs : List Frame} (hc : c.Waits) (hfs : ∀ f ∈ fs, f = ⟨req, false⟩)
      (hs : single = true → fs = []) : Owned req single c [] fs

def Phase (s : State) : Handle → Prop
  | .waitLoad p | .waitCreate p | .waiting p _ => p ≠ .recycle false → s.Quiet
  | .idle | .holding _ | .restoring => s.Quiet
  | .reading req => ∃ single, Owned req single s.child s.stdin s.stdout
  | .restoreReading req => Owned req true s.child s.stdin s.stdout
  | .recycling done => done = true → s.Quiet
  | .checking => s.stdout = []
  | .hup | .draining | .terminated => True

def lastByte (s : State) : Byte := s.rdv.getLast?.getD s.flag

structure Clean (s : State) : Prop where
  byte : s.lastByte = s.child.byte
  phase : s.Phase s.handle
  served : s.NoCrossTalk

variable {s t : State} {req : ℕ} {single l : Bool}

lemma Clean.cleanIdle (h : s.Clean) : s.CleanIdle := by
  intro hi
  have hp := h.phase
  rw [hi] at hp
  exact ⟨hp.stdout, hp.stdin, hp.child⟩

lemma start_clean : ({} : State).Clean :=
  ⟨rfl, fun _ => ⟨rfl, rfl, trivial⟩, fun _ hp => absurd hp not_mem_nil⟩

structure Passes (s t : State) : Prop where
  handle : t.handle = s.handle
  served : t.served = s.served
  quiet : s.Quiet → t.Quiet
  owned : ∀ req single, Owned req single s.child s.stdin s.stdout →
    Owned req single t.child t.stdin t.stdout
  byte : s.lastByte = s.child.byte → t.lastByte = t.child.byte

lemma Clean.passes (h : s.Clean) (hp : Passes s t)
    (hk : s.handle = .checking → s.stdout = [] → t.stdout = []) : t.Clean := by
  refine ⟨hp.byte h.byte, ?_, ?_⟩
  · have he := h.phase
    rw [hp.handle]
    cases hh : s.handle with
    | waitLoad p | waitCreate p | waiting p w =>
      rw [hh] at he
      exact fun hne => hp.quiet (he hne)
    | idle | holding d | restoring =>
      rw [hh] at he
      exact hp.quiet he
    | reading req =>
      rw [hh] at he
      obtain ⟨single, ho⟩ := he
      exact ⟨single, hp.owned req single ho⟩
    | restoreReading req =>
      rw [hh] at he
      exact hp.owned req true he
    | recycling d =>
      rw [hh] at he
      exact fun hd => hp.quiet (he hd)
    | checking =>
      rw [hh] at he
      exact hk hh he
    | hup | draining | terminated => trivial
  · unfold NoCrossTalk
    rw [hp.served]
    exact h.served

lemma lastByte_concat (b : Byte) (h : t.rdv = s.rdv ++ [b]) : t.lastByte = b := by
  simp [lastByte, h]

lemma Owned.waits_of_waits {c c' : Loop} {m : List Message} {fs : List Frame}
    (h : Owned req single c m fs) (hc : c.Waits) (hc' : c'.Waits) : Owned req single c' m fs := by
  cases h with
  | sent _ => exact .sent hc'
  | received | answering _ _ => cases hc
  | answered _ hfs hs => exact .answered hc' hfs hs
  | unfinished _ hfs hs => exact .unfinished hc' hfs hs

lemma childStep_passes (ht : s.childStep = some t) : Passes s t ∧ t.stdout = s.stdout := by
  unfold childStep at ht
  split at ht
  next hc =>
    cases ht
    refine ⟨⟨rfl, rfl, fun hq => ⟨hq.stdin, hq.stdout, trivial⟩, fun req single ho => ?_, fun _ => ?_⟩, rfl⟩
    · rw [hc] at ho
      exact ho.waits_of_waits trivial trivial
    · exact lastByte_concat .ready rfl
  next hc =>
    cases ht
    refine ⟨⟨rfl, rfl, fun hq => ⟨hq.stdin, hq.stdout, trivial⟩, fun req single ho => ?_, fun hb => ?_⟩, rfl⟩
    · rw [hc] at ho
      exact ho.waits_of_waits trivial trivial
    · rw [hc] at hb
      exact hb
  next hc =>
    split at ht
    next m d hin =>
      cases ht
      refine ⟨⟨rfl, rfl, fun hq => ?_, fun req single ho => ?_, fun hb => ?_⟩, rfl⟩
      · rw [hq.stdin] at hin
        cases hin
      · rw [hc, hin] at ho
        generalize hu : s.stdout = fs at ho
        cases ho with
        | sent _ => simpa [hu] using Owned.received
      · rw [hc] at hb
        exact hb
    · cases ht
  next m hc =>
    cases ht
    refine ⟨⟨rfl, rfl, fun hq => ?_, fun req single ho => ?_, fun _ => ?_⟩, rfl⟩
    · have hi := hq.child
      rw [hc] at hi
      cases hi
    · rw [hc] at ho
      generalize hin : s.stdin = msgs at ho
      generalize hu : s.stdout = fs at ho
      cases ho with
      | received =>
        have hn : Owned req single (.answering ⟨req, single⟩) [] [] := .answering nofun fun _ => rfl
        simpa [hin, hu] using hn
      | answered hw _ _ | unfinished hw _ _ | sent hw => cases hw
    · exact lastByte_concat .busy rfl
  · cases ht

lemma write_passes (ht : s.write l = some t) :
    Passes s t ∧ (s.cancelled → t.stdout = s.stdout) := by
  unfold write at ht
  split at ht
  next m hc =>
    split at ht
    · cases ht
    rename_i hr
    cases ht
    refine ⟨⟨rfl, rfl, fun hq => ?_, fun req single ho => ?_, fun hb => ?_⟩, fun hn => ?_⟩
    · have hi := hq.child
      rw [hc] at hi
      cases hi
    · rw [hc] at ho
      generalize s.stdin = msgs at ho ⊢
      generalize s.stdout = fs at ho ⊢
      cases ho with
      | answering hfs hs =>
        cases hn : s.cancelled <;> cases l
        · refine .answering (fun f hf => ?_) fun hg => ?_
          · rcases mem_append.1 hf with hf | hf
            exacts [hfs f hf, mem_singleton.1 hf]
          · simp [hg] at hr
        · exact .answered trivial hfs hs
        · exact .answering hfs hs
        · exact .unfinished trivial hfs hs
      | sent hw | answered hw _ _ | unfinished hw _ _ => cases hw
    · rw [hc] at hb
      cases l <;> exact hb
    · simp [hn]
  · cases ht

lemma finish_passes (ht : s.step .finish = some t) : Passes s t ∧ t.stdout = s.stdout := by
  simp only [step] at ht
  split at ht
  next m hc =>
    cases ht
    refine ⟨⟨rfl, rfl, fun hq => ⟨hq.stdin, hq.stdout, trivial⟩, fun req single ho => ?_, fun hb => ?_⟩, rfl⟩
    · rw [hc] at ho
      generalize s.stdin = msgs at ho ⊢
      generalize s.stdout = fs at ho ⊢
      cases ho with
      | answering hfs hs => exact .unfinished trivial hfs hs
      | sent hw | answered hw _ _ | unfinished hw _ _ => cases hw
    · rw [hc] at hb
      exact hb
  · cases ht

lemma signal_passes (ht : s.step .signal = some t) : Passes s t ∧ t.stdout = s.stdout := by
  simp only [step] at ht
  split_ifs at ht
  cases ht
  exact ⟨⟨rfl, rfl, fun hq => ⟨hq.stdin, hq.stdout, hq.child⟩, fun _ _ ho => ho, fun hb => hb⟩, rfl⟩

lemma Phase.wake {h : Handle} (hp : s.Phase h) : s.Phase h.wake := by
  cases h <;> exact hp

lemma Phase.congr {h : Handle} (hp : s.Phase h) (hh : t.child = s.child)
    (hin : t.stdin = s.stdin) (ho : t.stdout = s.stdout) : t.Phase h := by
  have hu : s.Quiet → t.Quiet := fun hq =>
    ⟨hin.trans hq.stdin, ho.trans hq.stdout, hh ▸ hq.child⟩
  cases h with
  | waitLoad p | waitCreate p | waiting p w => exact fun hne => hu (hp hne)
  | idle | holding d | restoring => exact hu hp
  | reading req | restoreReading req => simpa [Phase, hh, hin, ho] using hp
  | recycling d => exact fun hd => hu (hp hd)
  | checking => exact ho.trans hp
  | hup | draining | terminated => trivial

lemma Clean.deliver (h : s.Clean) (ht : s.step .deliver = some t) : t.Clean := by
  simp only [step] at ht
  split at ht
  next b rdv hr =>
    cases ht
    refine ⟨?_, ?_, h.served⟩
    · have hy := h.byte
      rw [lastByte, hr, List.getLast?_cons] at hy
      exact hy
    · have hp : s.Phase (if b = .ready then s.handle.wake else s.handle) := by
        split_ifs
        exacts [Phase.wake h.phase, h.phase]
      exact hp.congr rfl rfl rfl
  · cases ht

lemma Clean.goto (h : s.Clean) (handle : Handle) (hp : s.Phase handle) {hups : ℕ} :
    ({ s with handle, hups } : State).Clean :=
  ⟨h.byte, hp.congr rfl rfl rfl, h.served⟩

lemma phase_ready {p : Purpose} (h : p ≠ .recycle false → s.Quiet) : s.Phase p.ready := by
  rcases p with _ | ⟨_ | _⟩
  · exact h nofun
  · trivial
  · exact h nofun

lemma phase_late (p : Purpose) : s.Phase p.late := by
  cases p <;> trivial

lemma CaughtUp.waits (h : s.CaughtUp) (hy : s.lastByte = s.child.byte) (hf : s.flag = .ready) :
    s.child.Waits := by
  have hl : s.lastByte = .ready := by
    unfold lastByte
    cases hr : s.rdv.getLast? with
    | none => exact hf
    | some b =>
      cases b with
      | ready => rfl
      | busy => exact absurd (mem_of_getLast? hr) h.2.1
  rcases h.2.2 with hw | hu
  · exact hw
  · rw [← hy, hl] at hu
    cases hu

lemma Clean.proceed (h : s.Clean) (hg : s.Prompt .proceed) (ht : s.proceed = some t) :
    t.Clean := by
  have hp := h.phase
  unfold State.proceed at ht
  split at ht
  next p hh =>
    rw [hh] at hp
    cases ht
    split_ifs
    · exact h.goto p.ready (phase_ready hp)
    · exact h.goto (.waitCreate p) hp
  next p hh =>
    rw [hh] at hp
    cases ht
    exact h.goto (.waiting p false) hp
  next p hh =>
    rw [hh] at hp
    cases ht
    exact h.goto p.ready (phase_ready hp)
  next d hh =>
    rw [hh] at hp
    cases ht
    refine h.goto (.waitLoad (.recycle d)) fun hne => hp ?_
    cases d with
    | false => exact absurd rfl hne
    | true => rfl
  next hh =>
    cases ht
    exact h.goto .draining trivial
  next hh =>
    cases ht
    exact ⟨h.byte, rfl, h.served⟩
  next hh =>
    rw [hh] at hp
    cases ht
    split_ifs with hf
    · have hu := hg hh hf
      exact h.goto .restoring ⟨hu.1, hp, hu.waits h.byte hf⟩
    · exact h.goto .draining trivial
  · cases ht

lemma NoCrossTalk.concat {p : ℕ × ℕ} (h : s.NoCrossTalk) (hp : p.1 = p.2) :
    ∀ q ∈ s.served ++ [p], q.1 = q.2 := by
  intro q hq
  rcases mem_append.1 hq with hq | hq
  · exact h q hq
  · rw [mem_singleton.1 hq]
    exact hp

lemma Owned.read {c : Loop} {m : List Message} {f : Frame} {fs : List Frame}
    (h : Owned req single c m (f :: fs)) : f.req = req ∧ (if f.last then m = [] ∧ fs = [] ∧ c.Waits
        else single = false ∧ Owned req single c m fs) := by
  have hm : ∀ {l : List Frame}, (single → l = []) → l ≠ [] → single = false := by
    intro l hs hne
    cases single with
    | false => rfl
    | true => exact absurd (hs rfl) hne
  generalize ho : f :: fs = out at h
  cases h with
  | sent hc | received => cases ho
  | answering hfs hs =>
    subst out
    obtain rfl := hfs f mem_cons_self
    have hi := hm hs (cons_ne_nil _ _)
    exact ⟨rfl, hi, .answering (fun g hg => hfs g (mem_cons_of_mem _ hg))
      fun ht => by rw [hi] at ht; cases ht⟩
  | @answered _ l hc hfs hs =>
    cases l with
    | nil =>
      cases ho
      exact ⟨rfl, rfl, rfl, hc⟩
    | cons g l =>
      cases ho
      obtain rfl := hfs f mem_cons_self
      have hi := hm hs (cons_ne_nil _ _)
      exact ⟨rfl, hi, .answered hc (fun g hg => hfs g (mem_cons_of_mem _ hg))
        fun ht => by rw [hi] at ht; cases ht⟩
  | unfinished hc hfs hs =>
    subst out
    obtain rfl := hfs f mem_cons_self
    have hi := hm hs (cons_ne_nil _ _)
    exact ⟨rfl, hi, .unfinished hc (fun g hg => hfs g (mem_cons_of_mem _ hg))
      fun ht => by rw [hi] at ht; cases ht⟩

lemma Clean.read (h : s.Clean) (ht : s.read = some t) : t.Clean := by
  have hp := h.phase
  unfold State.read at ht
  split at ht
  next req f d hh hu =>
    rw [hh] at hp
    obtain ⟨single, ho⟩ := hp
    rw [hu] at ho
    obtain ⟨he, hr⟩ := ho.read
    cases ht
    refine ⟨h.byte, ?_, h.served.concat he.symm⟩
    split_ifs at hr ⊢ with hl
    · exact ⟨hr.1, hr.2.1, hr.2.2⟩
    · exact ⟨single, hr.2⟩
  next req f d hh hu =>
    rw [hh] at hp
    have ho : Owned req true s.child s.stdin s.stdout := hp
    rw [hu] at ho
    obtain ⟨he, hr⟩ := ho.read
    cases ht
    refine ⟨h.byte, ?_, h.served.concat he.symm⟩
    split_ifs at hr with hl
    · exact ⟨hr.1, hr.2.1, hr.2.2⟩
    · cases hr.1
  · cases ht

lemma Quiet.request (h : s.Quiet) : Owned req single s.child (s.stdin ++ [⟨req, single⟩]) s.stdout := by
  rw [h.stdin, h.stdout]
  exact .sent h.child

lemma Clean.request (h : s.Clean) (ht : s.request single = some t) : t.Clean := by
  have hp := h.phase
  unfold State.request at ht
  split at ht
  next hh =>
    rw [hh] at hp
    cases ht
    exact ⟨h.byte, ⟨single, Quiet.request hp⟩, h.served⟩
  next hh =>
    rw [hh] at hp
    cases ht
    exact ⟨h.byte, Quiet.request hp, h.served⟩
  · cases ht

lemma Clean.step (h : s.Clean) {e : Event} (hg : s.Prompt e) (ht : s.step e = some t) :
    t.Clean := by
  have he := h.phase
  cases e with
  | child =>
    obtain ⟨hp, ho⟩ := childStep_passes ht
    exact h.passes hp fun _ hm => ho.trans hm
  | write l =>
    obtain ⟨hp, ho⟩ := write_passes ht
    exact h.passes hp fun hh hm => (ho (hg hh)).trans hm
  | finish =>
    obtain ⟨hp, ho⟩ := finish_passes ht
    exact h.passes hp fun _ hm => ho.trans hm
  | signal =>
    obtain ⟨hp, ho⟩ := signal_passes ht
    exact h.passes hp fun _ hm => ho.trans hm
  | deliver => exact h.deliver ht
  | proceed => exact h.proceed hg ht
  | timeout =>
    simp only [State.step, State.timeout] at ht
    split at ht
    all_goals cases ht
    all_goals exact h.goto _ (phase_late _)
  | fail =>
    simp only [State.step, State.fail] at ht
    split at ht
    all_goals cases ht
    exact h.goto .terminated trivial
  | acquire =>
    simp only [State.step] at ht
    split at ht
    next hh =>
      rw [hh] at he
      cases ht
      exact h.goto (.holding false) he
    · cases ht
  | requeue =>
    simp only [State.step] at ht
    split at ht
    next hh =>
      rw [hh] at he
      cases ht
      exact h.goto .idle he
    · cases ht
  | request single => exact h.request ht
  | read => exact h.read ht
  | done =>
    simp only [State.step] at ht
    split at ht
    next done hh =>
      rw [hh] at he
      cases ht
      exact h.goto (.holding true) he
    · cases ht
  | drop =>
    simp only [State.step] at ht
    split at ht
    next done hh =>
      rw [hh] at he
      cases ht
      exact h.goto (.recycling done) fun _ => he
    next req hh =>
      cases ht
      exact h.goto (.recycling false) nofun
    · cases ht
  | outdated =>
    simp only [State.step] at ht
    split at ht
    next done hh =>
      cases ht
      exact h.goto .terminated trivial
    · cases ht

/-- Replies reach the request they answer, and idle workers are clean, in every run where the flag is
up to date when it ends a drain and the child writes nothing between the drain and that look. -/
theorem noCrossTalk_of_prompt (es : List Event) (t : State) (hgood : Along step Prompt {} es)
    (hrun : run step {} es = some t) : t.CleanIdle ∧ t.NoCrossTalk := by
  have hl : t.Clean := run_invariant (fun _ _ _ h hg hs => h.step hg hs) start_clean hgood hrun
  exact ⟨hl.cleanIdle, hl.served⟩

def requested : List Event := [.child, .deliver, .proceed, .requeue, .acquire, .request false]

def taken : List Event := [.child, .child, .child, .deliver]

theorem noCrossTalk_of_prompt_dropped : ∃ t,
    run step {} (requested ++ taken ++ [.drop, .proceed, .proceed, .proceed, .write true, .child,
      .deliver, .proceed, .proceed, .proceed, .requeue]) = some t ∧
      t.handle = .idle ∧ t.CleanIdle ∧ t.NoCrossTalk := by
  obtain ⟨t, hr, hi⟩ : ∃ t, run step {} (requested ++ taken ++ ([.drop, .proceed, .proceed,
      .proceed, .write true, .child, .deliver, .proceed, .proceed, .proceed, .requeue] : List Event)) =
      some t ∧ t.handle = .idle := ⟨_, rfl, rfl⟩
  exact ⟨t, hr, hi, noCrossTalk_of_prompt _ t (by decide) hr⟩

/-- The client goes away before the child has taken the message: the flag still says ready, the worker
is queued with the message in its pipe, and the next request reads the reply to the first one. And a
reply that falls between the drain and the look at the flag stays in the pipe of an idle worker. -/
theorem not_noCrossTalk_stale_flag :
    (∃ t, run step {} (requested ++ [.drop, .proceed, .proceed, .proceed, .proceed, .requeue]) = some t ∧
      ¬ t.CleanIdle) ∧
    (∃ t, run step {} (requested ++ [.drop, .proceed, .proceed, .proceed, .proceed, .requeue, .acquire,
        .request false, .child, .child, .child, .write true, .read]) = some t ∧ ¬ t.NoCrossTalk) ∧
    (∃ t, run step {} (requested ++ taken ++ [.drop, .proceed, .proceed, .timeout, .proceed, .proceed,
        .write true, .child, .deliver, .proceed, .requeue]) = some t ∧ ¬ t.CleanIdle) := by
  refine ⟨⟨_, rfl, fun h => ?_⟩, ⟨_, rfl, fun h => ?_⟩, ⟨_, rfl, fun h => ?_⟩⟩
  · cases (h rfl).2.1
  · cases h (1, 0) (by decide)
  · cases (h rfl).1

end State

end QJazz.Pool.Session
