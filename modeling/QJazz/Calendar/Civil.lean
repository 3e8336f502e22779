import Mathlib.Data.Nat.Find
import Mathlib.Order.Monotone.Basic

/-! The days of the proleptic Gregorian calendar are numbered from the first day of year 1, and a
second of Unix time is a date and a time of day. -/
namespace QJazz.Calendar

lemma findGreatest_eq_iff {f : ℕ → ℕ} (hf : Monotone f) {n b k : ℕ} (h0 : f 0 ≤ n)
    (hb : n < f (b + 1)) : Nat.findGreatest (f · ≤ n) b = k ↔ f k ≤ n ∧ n < f (k + 1) := by
  have hs := Nat.findGreatest_spec (P := (f · ≤ n)) (Nat.zero_le b) h0
  have hl : n < f (Nat.findGreatest (f · ≤ n) b + 1) := by
    rcases (Nat.findGreatest_le (P := (f · ≤ n)) b).lt_or_eq with hlt | heq
    · exact not_le.1 (Nat.findGreatest_is_greatest (P := (f · ≤ n)) (Nat.lt_succ_self _) hlt)
    · rwa [heq]
  constructor
  · rintro rfl
    exact ⟨hs, hl⟩
  · rintro ⟨hk, hk'⟩
    refine le_antisymm (not_lt.1 fun h => ?_) (not_lt.1 fun h => ?_)
    · exact absurd ((hf (Nat.succ_le_of_lt h)).trans hs) (not_le.2 hk')
    · exact absurd ((hf (Nat.succ_le_of_lt h)).trans hk) (not_le.2 hl)

def isLeap (y : ℕ) : Prop := y % 4 = 0 ∧ (y % 100 ≠ 0 ∨ y % 400 = 0)

instance : DecidablePred isLeap := fun _ => inferInstanceAs (Decidable (_ ∧ _))

def daysBeforeYear (y : ℕ) : ℕ := (y - 1) * 365 + (y - 1) / 4 - (y - 1) / 100 + (y - 1) / 400

def daysInMonth (y m : ℕ) : ℕ :=
  if m = 0 then 0 else if m = 2 then if isLeap y then 29 else 28
  else if m = 4 ∨ m = 6 ∨ m = 9 ∨ m = 11 then 30 else 31

def daysBeforeMonth (y : ℕ) : ℕ → ℕ
  | 0 => 0
  | m + 1 => daysBeforeMonth y m + daysInMonth y m

@[ext] structure DateTime where
  year : ℕ
  month : ℕ
  day : ℕ
  hour : ℕ
  minute : ℕ
  second : ℕ
deriving DecidableEq

namespace DateTime

structure Valid (d : DateTime) : Prop where
  year : 1970 ≤ d.year
  month : 1 ≤ d.month ∧ d.month ≤ 12
  day : 1 ≤ d.day ∧ d.day ≤ daysInMonth d.year d.month
  hour : d.hour < 24
  minute : d.minute < 60
  second : d.second < 60

def toOrdinal (d : DateTime) : ℕ :=
  daysBeforeYear d.year + daysBeforeMonth d.year d.month + d.day

def weekday (d : DateTime) : ℕ := (d.toOrdinal + 6) % 7

def timestamp (d : DateTime) : ℕ :=
  (d.toOrdinal - 1 - daysBeforeYear 1970) * 86400 + d.hour * 3600 + d.minute * 60 + d.second

def utc (t : ℕ) : DateTime :=
  let n := daysBeforeYear 1970 + t / 86400
  let y := Nat.findGreatest (daysBeforeYear · ≤ n) (n / 365 + 1)
  let r := n - daysBeforeYear y
  let m := Nat.findGreatest (daysBeforeMonth y · ≤ r) 12
  { year := y, month := m, day := r - daysBeforeMonth y m + 1,
    hour := t % 86400 / 3600, minute := t % 3600 / 60, second := t % 60 }

end DateTime

lemma daysBeforeMonth_thirteen (y : ℕ) :
    daysBeforeMonth y 13 = if isLeap y then 366 else 365 := by
  by_cases hl : isLeap y <;> simp [daysBeforeMonth, daysInMonth, hl]

lemma daysBeforeYear_succ {y : ℕ} (h : 1 ≤ y) :
    daysBeforeYear (y + 1) = daysBeforeYear y + daysBeforeMonth y 13 := by
  obtain ⟨k, rfl⟩ := Nat.exists_eq_add_of_le' h
  have hle : k / 100 ≤ k / 4 := Nat.div_le_div_left (by decide) (by decide)
  have h100 : (k + 1) % 100 = 0 → (k + 1) % 4 = 0 := by omega
  have h400 : (k + 1) % 400 = 0 → (k + 1) % 100 = 0 := by omega
  simp only [daysBeforeMonth_thirteen, daysBeforeYear, Nat.add_sub_cancel, Nat.succ_div,
    Nat.dvd_iff_mod_eq_zero, isLeap]
  by_cases ha : (k + 1) % 4 = 0
  · by_cases hb : (k + 1) % 100 = 0 <;> by_cases hc : (k + 1) % 400 = 0 <;> simp [ha, hb, hc] <;> omega
  · simp [ha, mt h100 ha, mt h400 (mt h100 ha)]
    omega

lemma daysBeforeYear_mono : Monotone daysBeforeYear := by
  refine monotone_nat_of_le_succ fun y => ?_
  rcases Nat.eq_zero_or_pos y with rfl | h
  · exact Nat.zero_le _
  · rw [daysBeforeYear_succ h]
    exact Nat.le_add_right _ _

lemma daysBeforeMonth_mono (y : ℕ) : Monotone (daysBeforeMonth y) :=
  monotone_nat_of_le_succ fun _ => Nat.le_add_right _ _

lemma year_eq_iff {n y : ℕ} : Nat.findGreatest (daysBeforeYear · ≤ n) (n / 365 + 1) = y ↔
    daysBeforeYear y ≤ n ∧ n < daysBeforeYear (y + 1) := by
  refine findGreatest_eq_iff daysBeforeYear_mono (Nat.zero_le n) ?_
  unfold daysBeforeYear
  omega

lemma month_eq_iff {y r m : ℕ} (h : r < daysBeforeMonth y 13) :
    Nat.findGreatest (daysBeforeMonth y · ≤ r) 12 = m ↔
      daysBeforeMonth y m ≤ r ∧ r < daysBeforeMonth y (m + 1) :=
  findGreatest_eq_iff (daysBeforeMonth_mono y) (Nat.zero_le r) h

namespace DateTime

variable {d : DateTime} {t : ℕ}

lemma Valid.toOrdinal_bounds (h : d.Valid) : daysBeforeYear 1970 < d.toOrdinal ∧
    daysBeforeYear d.year < d.toOrdinal ∧
    d.toOrdinal ≤ daysBeforeYear d.year + daysBeforeMonth d.year 13 := by
  have hd := h.day
  have hs := daysBeforeYear_mono h.year
  have hm : daysBeforeMonth d.year d.month + daysInMonth d.year d.month ≤ daysBeforeMonth d.year 13 :=
    daysBeforeMonth_mono d.year (Nat.succ_le_succ h.month.2)
  unfold toOrdinal
  omega

lemma utc_timestamp (h : d.Valid) : utc d.timestamp = d := by
  obtain ⟨ho, hy, hm⟩ := h.toOrdinal_bounds
  have hh := h.hour
  have hi := h.minute
  have hs := h.second
  have hd := h.day
  have ht : d.timestamp / 86400 = d.toOrdinal - 1 - daysBeforeYear 1970 := by
    unfold timestamp
    omega
  have hn : daysBeforeYear 1970 + d.timestamp / 86400 = d.toOrdinal - 1 := by omega
  have hyear : Nat.findGreatest (daysBeforeYear · ≤ d.toOrdinal - 1)
      ((d.toOrdinal - 1) / 365 + 1) = d.year := by
    rw [year_eq_iff, daysBeforeYear_succ (by have := h.year; omega)]
    omega
  have hmonth : Nat.findGreatest (daysBeforeMonth d.year · ≤ d.toOrdinal - 1 - daysBeforeYear d.year) 12 =
      d.month := by
    rw [month_eq_iff (by omega), daysBeforeMonth]
    unfold toOrdinal
    omega
  simp only [DateTime.ext_iff, utc, hn, hyear, hmonth, true_and]
  unfold timestamp toOrdinal
  omega

lemma timestamp_utc (t : ℕ) : (utc t).Valid ∧ (utc t).timestamp = t := by
  obtain ⟨n, hn⟩ : ∃ n, daysBeforeYear 1970 + t / 86400 = n := ⟨_, rfl⟩
  obtain ⟨y, hy⟩ : ∃ y, Nat.findGreatest (daysBeforeYear · ≤ n) (n / 365 + 1) = y := ⟨_, rfl⟩
  obtain ⟨m, hm⟩ : ∃ m, Nat.findGreatest (daysBeforeMonth y · ≤ n - daysBeforeYear y) 12 = m :=
    ⟨_, rfl⟩
  have hu : utc t = ⟨y, m, n - daysBeforeYear y - daysBeforeMonth y m + 1, t % 86400 / 3600,
      t % 3600 / 60, t % 60⟩ := by
    simp only [utc, hn, hy, hm]
  obtain ⟨hl, hr⟩ := year_eq_iff.1 hy
  have hs : 1970 ≤ y := by
    by_contra h
    have hle : daysBeforeYear (y + 1) ≤ daysBeforeYear 1970 := daysBeforeYear_mono (by omega)
    omega
  rw [daysBeforeYear_succ (by omega)] at hr
  have h12 : m ≤ 12 := hm ▸ Nat.findGreatest_le 12
  obtain ⟨hl', hr'⟩ := (month_eq_iff (by omega)).1 hm
  have h1 : 1 ≤ m := by
    by_contra h
    obtain rfl : m = 0 := by omega
    exact absurd hr' (Nat.not_lt_zero _)
  rw [daysBeforeMonth] at hr'
  rw [hu]
  refine ⟨⟨hs, ⟨h1, h12⟩, ?_, ?_, ?_, ?_⟩, ?_⟩
  all_goals simp only [timestamp, toOrdinal]
  all_goals omega

end DateTime
end QJazz.Calendar
