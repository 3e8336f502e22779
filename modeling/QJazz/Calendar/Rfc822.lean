import Mathlib.Algebra.Group.Nat.Defs
import QJazz.Calendar.Civil
import QJazz.Lexical.Utf8

/-! `to_rfc822` writes the date of a time stamp. A date of RFC 822 names the day of the week and the
month. -/
namespace QJazz.Calendar

open Lexical List

/-- The last `w` decimal digits, which are all of them for a number below `10 ^ w`. -/
def digits : ℕ → ℕ → Text
  | 0, _ => []
  | w + 1, n => digits w (n / 10) ++ [Nat.digitChar (n % 10)]

def weekdays : List Text :=
  ["Mon".toList, "Tue".toList, "Wed".toList, "Thu".toList, "Fri".toList, "Sat".toList, "Sun".toList]

def months : List Text :=
  ["Jan".toList, "Feb".toList, "Mar".toList, "Apr".toList, "May".toList, "Jun".toList, "Jul".toList,
    "Aug".toList, "Sep".toList, "Oct".toList, "Nov".toList, "Dec".toList]

namespace DateTime

def yearAndTime (d : DateTime) : Text :=
  " ".toList ++ (digits 4 d.year ++ (" ".toList ++ (digits 2 d.hour ++ (":".toList ++
    (digits 2 d.minute ++ (":".toList ++ (digits 2 d.second ++ " GMT".toList)))))))

def text (d : DateTime) (month : Text) : Text :=
  weekdays.getD d.weekday [] ++ (", ".toList ++ (digits 2 d.day ++ (" ".toList ++
    (month ++ d.yearAndTime))))

def rfc822 (d : DateTime) : Text := d.text (months.getD (d.month - 1) [])

end DateTime

def toRfc822 (timestamp : ℕ) : Text :=
  (DateTime.utc timestamp).text (digits 2 (DateTime.utc timestamp).month)

@[simp] lemma length_digits (w n : ℕ) : (digits w n).length = w := by
  induction w generalizing n with
  | zero => rfl
  | succ w ih => rw [digits, length_append, ih, length_singleton]

lemma digitChar_inj : ∀ a < 10, ∀ b < 10, Nat.digitChar a = Nat.digitChar b → a = b := by
  decide

lemma digits_inj {w m n : ℕ} (hm : m < 10 ^ w) (hn : n < 10 ^ w) (h : digits w m = digits w n) :
    m = n := by
  induction w generalizing m n with
  | zero => omega
  | succ w ih =>
    obtain ⟨hl, hr⟩ := List.append_inj' h rfl
    rw [Nat.pow_succ] at hm hn
    have hq := ih (m := m / 10) (n := n / 10) (by omega) (by omega) hl
    have hd := digitChar_inj _ (Nat.mod_lt m (by decide)) _ (Nat.mod_lt n (by decide))
      (singleton_inj.1 hr)
    omega

namespace DateTime

variable {d e : DateTime} {a b : Text}

lemma length_dayName (d : DateTime) : (weekdays.getD d.weekday []).length = 3 := by
  have h : ∀ k < 7, (weekdays.getD k []).length = 3 := by decide
  exact h _ (Nat.mod_lt _ (by decide))

lemma text_inj (h : d.text a = e.text b) :
    digits 2 d.day = digits 2 e.day ∧ a ++ d.yearAndTime = b ++ e.yearAndTime := by
  have h1 := (append_inj h (by rw [length_dayName, length_dayName])).2
  obtain ⟨hd, h2⟩ := append_inj (append_cancel_left h1) (by simp)
  exact ⟨hd, append_cancel_left h2⟩

lemma yearAndTime_inj (h : d.yearAndTime = e.yearAndTime) :
    digits 4 d.year = digits 4 e.year ∧ digits 2 d.hour = digits 2 e.hour ∧
      digits 2 d.minute = digits 2 e.minute ∧ digits 2 d.second = digits 2 e.second := by
  obtain ⟨hy, h1⟩ := append_inj (append_cancel_left h) (by simp)
  obtain ⟨hh, h2⟩ := append_inj (append_cancel_left h1) (by simp)
  obtain ⟨hm, h3⟩ := append_inj (append_cancel_left h2) (by simp)
  exact ⟨hy, hh, hm, append_cancel_right (append_cancel_left h3)⟩

lemma Valid.lt (h : d.Valid) : d.month < 10 ^ 2 ∧ d.day < 10 ^ 2 ∧ d.hour < 10 ^ 2 ∧
    d.minute < 10 ^ 2 ∧ d.second < 10 ^ 2 := by
  have hd := h.day.2
  unfold daysInMonth at hd
  have := h.month
  have := h.hour
  have := h.minute
  have := h.second
  split_ifs at hd <;> omega

lemma eq_of_text (hd : d.Valid) (he : e.Valid) (hy : d.year < 10 ^ 4) (hy' : e.year < 10 ^ 4)
    (h : d.text (digits 2 d.month) = e.text (digits 2 e.month)) : d = e := by
  obtain ⟨hday, h1⟩ := text_inj h
  obtain ⟨hmonth, h2⟩ := append_inj h1 (by simp)
  obtain ⟨hyear, hhour, hminute, hsecond⟩ := yearAndTime_inj h2
  obtain ⟨l1, l2, l3, l4, l5⟩ := hd.lt
  obtain ⟨r1, r2, r3, r4, r5⟩ := he.lt
  exact DateTime.ext (digits_inj hy hy' hyear) (digits_inj l1 r1 hmonth) (digits_inj l2 r2 hday)
    (digits_inj l3 r3 hhour) (digits_inj l4 r4 hminute) (digits_inj l5 r5 hsecond)

lemma text_ne_rfc822 (hd : d.Valid) (e : DateTime) : e.text (digits 2 e.month) ≠ d.rfc822 := by
  intro h
  obtain ⟨-, hm⟩ := text_inj h
  have hn : ∀ n < 12, ∀ k < 10, months.getD n [] ≠ [] ∧
      (months.getD n []).head? ≠ some (Nat.digitChar k) := by
    decide
  have hmonth := hd.month
  obtain ⟨hne, hk⟩ := hn (d.month - 1) (by omega) _ (Nat.mod_lt (e.month / 10) (by decide))
  have hh := congrArg List.head? hm
  rw [List.head?_append_of_ne_nil _ hne] at hh
  exact hk hh.symm

end DateTime

open DateTime

/-- The month is not named, so the text is no date of RFC 822. With the month as a number it is the
text of exactly the date at that second, and of its day of the week. -/
theorem toRfc822_ne_and_iff (t : ℕ) (ht : (utc t).year < 10000) :
    (∀ d : DateTime, d.Valid → toRfc822 t ≠ d.rfc822) ∧ ∀ d : DateTime, d.Valid → d.year < 10000 →
        (toRfc822 t = d.text (digits 2 d.month) ↔ d.timestamp = t) := by
  obtain ⟨hv, hu⟩ := timestamp_utc t
  refine ⟨fun d hd => text_ne_rfc822 hd _, fun d hd hy => ⟨fun h => ?_, ?_⟩⟩
  · rw [← eq_of_text hv hd ht hy h, hu]
  · rintro rfl
    rw [toRfc822, utc_timestamp hd]

lemma valid_epoch : Valid ⟨1970, 1, 1, 0, 0, 0⟩ :=
  ⟨le_rfl, by decide, by decide, by decide, by decide, by decide⟩

lemma utc_zero : utc 0 = ⟨1970, 1, 1, 0, 0, 0⟩ := by
  have ht : timestamp ⟨1970, 1, 1, 0, 0, 0⟩ = 0 := by decide
  rw [← ht]
  exact utc_timestamp valid_epoch

theorem toRfc822_iff_epoch :
    (utc 0).year < 10000 ∧ toRfc822 0 = text ⟨1970, 1, 1, 0, 0, 0⟩ (digits 2 1) := by
  have hy : (utc 0).year < 10000 := by
    rw [utc_zero]
    decide
  exact ⟨hy, ((toRfc822_ne_and_iff 0 hy).2 _ valid_epoch (by decide)).2 (by decide)⟩

theorem toRfc822_epoch : toRfc822 0 = "Thu, 01 01 1970 00:00:00 GMT".toList ∧
    rfc822 (utc 0) = "Thu, 01 Jan 1970 00:00:00 GMT".toList := by
  rw [toRfc822, utc_zero]
  decide

end QJazz.Calendar
