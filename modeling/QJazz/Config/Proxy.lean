import Mathlib.Data.Int.Order.Basic
import QJazz.Transition.Run

/-! A `ConfigProxy` keeps the part of the configuration under its path, and fetches it again when
the time stamp of the builder is later than its own. -/
namespace QJazz.Config

open Transition

structure ConfigProxy (γ : Type) where
  timestamp : ℤ := -1
  configpath : List String
  conf : γ

/-- The values of a configuration: their attributes, and which of them are configurations. -/
structure Attributes (γ : Type) where
  getattr : γ → String → γ
  isConfig : γ → Bool

structure Service (γ : Type) where
  conf : γ
  timestamp : ℤ := 0
  proxies : List (ConfigProxy γ) := []

inductive ProxyEvent (γ : Type) where
  /-- A successful update, at a time of the clock -/
  | update (conf : γ) (now : ℤ)
  /-- A proxy without a default -/
  | proxy (configpath : List String)
  /-- An attribute of a proxy is read. -/
  | read (i : ℕ) (name : String)

namespace Service

variable {γ : Type} (a : Attributes γ) (s : Service γ)

def value (configpath : List String) : γ := configpath.foldl a.getattr s.conf

def refresh (p : ConfigProxy γ) : ConfigProxy γ :=
  if p.timestamp < s.timestamp then
    { p with timestamp := s.timestamp, conf := s.value a p.configpath }
  else p

def step : ProxyEvent γ → Option (Service γ)
  | .update conf now =>
    if s.timestamp ≤ now then some { s with conf := conf, timestamp := now } else none
  | .proxy configpath =>
    some { s with proxies := s.proxies ++ [s.refresh a { configpath := configpath, conf := s.conf }] }
  | .read i name =>
    s.proxies[i]?.map fun p =>
      let p := s.refresh a p
      let attr := a.getattr p.conf name
      { s with proxies := s.proxies.set i p ++ if a.isConfig attr then
          [{ configpath := p.configpath ++ [name], conf := attr }] else [] }

/-- What is read through a proxy now is what the present configuration has there. -/
def Current (p : ConfigProxy γ) : Prop :=
  ∀ name, a.getattr (s.refresh a p).conf name = a.getattr (s.value a p.configpath) name

def Fresh : Prop := ∀ p ∈ s.proxies, s.Current a p

/-- An update at the time of the last refresh of a proxy leaves what the proxy has. -/
def Harmless : ProxyEvent γ → Prop
  | .update conf now => ∀ p ∈ s.proxies, p.timestamp = now →
      ∀ name, a.getattr p.conf name = a.getattr ({ s with conf := conf }.value a p.configpath) name
  | _ => True

/-- No proxy is ahead of the builder. -/
structure Ordered : Prop where
  nonneg : 0 ≤ s.timestamp
  le : ∀ p ∈ s.proxies, p.timestamp ≤ s.timestamp

variable {a s} {p : ConfigProxy γ}

lemma refresh_of_lt (h : p.timestamp < s.timestamp) :
    s.refresh a p = ⟨s.timestamp, p.configpath, s.value a p.configpath⟩ := if_pos h

lemma current_of_lt (h : p.timestamp < s.timestamp) : s.Current a p := by
  intro n
  rw [refresh_of_lt h]

lemma refresh_refresh (p : ConfigProxy γ) : s.refresh a (s.refresh a p) = s.refresh a p := by
  by_cases h : p.timestamp < s.timestamp
  · rw [refresh_of_lt h]
    exact if_neg (lt_irrefl _)
  · rw [show s.refresh a p = p from if_neg h]
    exact if_neg h

lemma configpath_refresh (p : ConfigProxy γ) : (s.refresh a p).configpath = p.configpath := by
  unfold refresh
  split <;> rfl

lemma Current.refresh (h : s.Current a p) : s.Current a (s.refresh a p) := by
  intro n
  rw [refresh_refresh, configpath_refresh]
  exact h n

lemma timestamp_refresh_le (h : p.timestamp ≤ s.timestamp) :
    (s.refresh a p).timestamp ≤ s.timestamp := by
  unfold Service.refresh
  split
  · exact le_rfl
  · exact h

lemma forall_proxies {P : ConfigProxy γ → Prop} {e : ProxyEvent γ} {t : Service γ}
    (hu : ∀ c now, e ≠ .update c now) (ht : s.step a e = some t) (h : ∀ p ∈ s.proxies, P p)
    (hr : ∀ p ∈ s.proxies, P (s.refresh a p))
    (hn : ∀ path c, P ⟨-1, path, c⟩ ∧ P (s.refresh a ⟨-1, path, c⟩)) :
    t.conf = s.conf ∧ t.timestamp = s.timestamp ∧ ∀ p ∈ t.proxies, P p := by
  cases e with
  | update c now => exact absurd rfl (hu c now)
  | proxy path =>
    cases ht
    refine ⟨rfl, rfl, fun p hp => ?_⟩
    rcases List.mem_append.1 hp with hp | hp
    · exact h p hp
    · rw [List.mem_singleton.1 hp]
      exact (hn _ _).2
  | read i n =>
    obtain ⟨p, hp, rfl⟩ := Option.map_eq_some_iff.1 ht
    refine ⟨rfl, rfl, fun q hq => ?_⟩
    rcases List.mem_append.1 hq with hq | hq
    · rcases List.mem_or_eq_of_mem_set hq with hq | rfl
      · exact h q hq
      · exact hr p (List.mem_of_getElem? hp)
    · split at hq
      · rw [List.mem_singleton.1 hq]
        exact (hn _ _).1
      · cases hq

lemma ordered_step {e : ProxyEvent γ} {t : Service γ} (h : s.Ordered) (ht : s.step a e = some t) :
    t.Ordered := by
  by_cases hu : ∃ c now, e = .update c now
  · obtain ⟨c, now, rfl⟩ := hu
    obtain ⟨hle, ht⟩ := Option.ite_none_right_eq_some.1 ht
    cases ht
    exact ⟨h.nonneg.trans hle, fun p hp => (h.le p hp).trans hle⟩
  · have hn := h.nonneg
    obtain ⟨-, hs, hp⟩ := forall_proxies (P := fun p => p.timestamp ≤ s.timestamp)
      (fun c now he => hu ⟨c, now, he⟩) ht h.le (fun p hp => timestamp_refresh_le (h.le p hp))
      fun path c => ⟨by dsimp only; omega, timestamp_refresh_le (by dsimp only; omega)⟩
    exact ⟨hs ▸ hn, hs ▸ hp⟩

lemma fresh_step {e : ProxyEvent γ} {t : Service γ} (h : s.Ordered) (hf : s.Fresh a)
    (ht : s.step a e = some t) : t.Fresh a ↔ s.Harmless a e := by
  by_cases hu : ∃ conf now, e = .update conf now
  · obtain ⟨conf, now, rfl⟩ := hu
    obtain ⟨hle, ht⟩ := Option.ite_none_right_eq_some.1 ht
    cases ht
    refine forall₂_congr fun p hp => ?_
    rcases ((h.le p hp).trans hle).lt_or_eq with hlt | heq
    · exact iff_of_true (current_of_lt hlt) fun he => absurd he hlt.ne
    · have hr : ({ s with conf := conf, timestamp := now } : Service γ).refresh a p = p :=
        if_neg heq.not_lt
      unfold Current
      rw [hr]
      exact ⟨fun hc _ => hc, fun hc => hc heq⟩
  · have hn := h.nonneg
    have hl : ∀ path conf, s.Current a ⟨-1, path, conf⟩ := fun path conf =>
      current_of_lt (by dsimp only; omega)
    obtain ⟨hc, hs, hp⟩ := forall_proxies (P := s.Current a)
      (fun conf now he => hu ⟨conf, now, he⟩) ht hf (fun p hp => (hf p hp).refresh)
      fun path conf => ⟨hl path conf, (hl path conf).refresh⟩
    refine iff_of_true (fun p hm => ?_) ?_
    · have hcur := hp p hm
      unfold Current Service.refresh value at hcur ⊢
      rw [hc, hs]
      exact hcur
    · cases e with
      | update conf now => exact absurd ⟨conf, now, rfl⟩ hu
      | proxy path | read i n => trivial

/-- Reads give the present values throughout a history exactly if no update at the time of the last
refresh of a proxy changes what the proxy has. -/
theorem fresh_iff_harmless (a : Attributes γ) (conf : γ) (es : List (ProxyEvent γ)) :
    Always (step a) (Fresh a) { conf := conf } es ↔ Along (step a) (Harmless a) { conf := conf } es :=
  always_iff_along (fun _ _ _ => ordered_step) (fun _ _ _ => fresh_step) ⟨le_rfl, by simp⟩ (by simp [Fresh])

/-- A second update at the same time is not seen. -/
theorem stale_of_tie : let a : Attributes ℕ := ⟨fun c _ => c, fun _ => false⟩
    ∃ s, run (step a) { conf := 0 } [.update 1 5, .proxy [], .update 2 5, .read 0 "x"] = some s ∧
      s.conf = 2 ∧ s.proxies.map (fun p => a.getattr (s.refresh a p).conf "x") = [1] ∧ ¬ s.Fresh a := by
  refine ⟨_, rfl, rfl, rfl, fun h => ?_⟩
  exact absurd (h _ (List.mem_singleton_self _) "x") (by decide)

end Service
end QJazz.Config
