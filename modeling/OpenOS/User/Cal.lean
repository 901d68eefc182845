/-
  OpenOS.User.Cal

  The calendar of cal (user/cal/src/main.rs): the days since 0001-01-01 by a formula over
  eras of 400 years, and the date reached month by month from the boot.

  The u32 numbers are natural numbers here.  Where a difference of the code would wrap, the
  one here would be 0 on two days in a row, so the law of consecutive days excludes it.
-/

import Mathlib.Tactic.IntervalCases
import Mathlib.Tactic.SplitIfs

namespace OpenOS.User.Cal

def isLeapYear (year : Nat) : Prop := year % 4 = 0 ∧ year % 100 ≠ 0 ∨ year % 400 = 0
deriving Decidable

def daysInMonth (year month : Nat) : Nat :=
  if month = 2 ∧ isLeapYear year then 29
  else [31, 28, 31, 30, 31, 30, 31, 31, 30, 31, 30, 31].getD (month - 1) 0

structure Date where
  year : Nat
  month : Nat
  day : Nat

namespace Date

/-- The dates of the Gregorian calendar. -/
structure Valid (t : Date) : Prop where
  one_le_year : 1 ≤ t.year
  one_le_month : 1 ≤ t.month
  month_le : t.month ≤ 12
  one_le_day : 1 ≤ t.day
  day_le : t.day ≤ daysInMonth t.year t.month

def daysFromEpoch (t : Date) : Nat :=
  let m := if t.month ≤ 2 then t.month + 12 else t.month
  let y := if t.month ≤ 2 then t.year - 1 else t.year
  let era := y / 400
  let yoe := y - era * 400
  let doy := (153 * (m - 3) + 2) / 5 + t.day - 1
  era * 146097 + (yoe * 365 + yoe / 4 - yoe / 100) + doy - 306

def dayOfWeek (t : Date) : Nat := (t.daysFromEpoch + 1) % 7

/-- The first day of the month after, in the next year behind December. -/
def nextMonth (t : Date) : Date :=
  if 12 < t.month + 1 then ⟨t.year + 1, 1, 1⟩ else ⟨t.year, t.month + 1, 1⟩

/-- The loop of `boot_time_to_date`. -/
def advance (t : Date) (daysLeft : Nat) : Date :=
  if daysLeft = 0 then t
  else
    let remaining := daysInMonth t.year t.month - t.day + 1
    if daysLeft < remaining then { t with day := t.day + daysLeft }
    else t.nextMonth.advance (daysLeft - remaining)
termination_by daysLeft

def tomorrow (t : Date) : Date :=
  if t.day < daysInMonth t.year t.month then { t with day := t.day + 1 } else t.nextMonth

/-- Eras and years of an era together count the leap days before the first of March. -/
theorem Valid.daysFromEpoch_add (h : Valid t) (n : Nat) :
    daysFromEpoch { t with day := t.day + n } + 307 =
      if t.month ≤ 2 then 365 * (t.year - 1) + (t.year - 1) / 4 - (t.year - 1) / 100 +
        (t.year - 1) / 400 + (153 * (t.month + 9) + 2) / 5 + (t.day + n)
      else 365 * t.year + t.year / 4 - t.year / 100 + t.year / 400 +
        (153 * (t.month - 3) + 2) / 5 + (t.day + n) := by
  obtain ⟨hyear, hlo, -, hday, -⟩ := h
  unfold daysFromEpoch
  split_ifs <;> dsimp only <;> omega

theorem Valid.daysFromEpoch_day (h : Valid t) (n : Nat) :
    daysFromEpoch { t with day := t.day + n } = t.daysFromEpoch + n := by
  have hfrom : t.daysFromEpoch + 307 = _ := h.daysFromEpoch_add 0
  have hto := h.daysFromEpoch_add n
  split_ifs at hfrom hto <;> omega

theorem Valid.nextMonth (h : Valid t) : t.nextMonth.Valid := by
  obtain ⟨year, month, day⟩ := t
  obtain ⟨hyear, hlo, hhi, -, -⟩ := h
  dsimp only at hyear hlo hhi
  unfold Date.nextMonth
  interval_cases month <;> constructor <;> simp [daysInMonth] <;> first | omega | split_ifs <;> omega

/-- The next month begins as many days later as remain in this one. -/
theorem Valid.daysFromEpoch_nextMonth (h : Valid t) :
    t.nextMonth.daysFromEpoch = t.daysFromEpoch + (daysInMonth t.year t.month - t.day + 1) := by
  have hfrom := h.daysFromEpoch_add 0
  have hto := h.nextMonth.daysFromEpoch_add 0
  obtain ⟨year, month, day⟩ := t
  obtain ⟨hyear, hlo, hhi, hday, hlast⟩ := h
  unfold daysInMonth isLeapYear Date.nextMonth at *
  dsimp only at *
  interval_cases month <;> simp at * <;> first | omega | (split_ifs at * <;> omega)

theorem Valid.daysFromEpoch_tomorrow (h : Valid t) :
    t.tomorrow.daysFromEpoch = t.daysFromEpoch + 1 := by
  have hlast := h.day_le
  unfold tomorrow
  split_ifs with hday
  · exact h.daysFromEpoch_day 1
  · rw [h.daysFromEpoch_nextMonth]
    omega

/-- Whole months are taken from the days left until the rest stays within one. -/
theorem Valid.advance (h : Valid t) (daysLeft : Nat) : (t.advance daysLeft).Valid ∧
    (t.advance daysLeft).daysFromEpoch = t.daysFromEpoch + daysLeft := by
  fun_induction Date.advance t daysLeft with
  | case1 t => exact ⟨h, (Nat.add_zero _).symm⟩
  | case2 t daysLeft _ remaining hdays =>
    have hlast : t.day + daysLeft ≤ daysInMonth t.year t.month := by
      have := h.day_le
      omega
    have hday := Nat.le_add_right_of_le (k := daysLeft) h.one_le_day
    exact ⟨⟨h.one_le_year, h.one_le_month, h.month_le, hday, hlast⟩, h.daysFromEpoch_day daysLeft⟩
  | case3 t daysLeft _ remaining hdays ih =>
    obtain ⟨hdate, hnumber⟩ := ih h.nextMonth
    refine ⟨hdate, ?_⟩
    rw [hnumber, h.daysFromEpoch_nextMonth]
    omega

end Date

def bootTimeToDate (ticks : Nat) : Date := .advance ⟨2026, 1, 1⟩ (ticks / 100 / 86400 % 2 ^ 32)

/-- Each day has the number behind the day before, the first one was a Monday, and the date
    shown is as many days after the boot as have passed. -/
theorem calendar_exact :
    (∀ t : Date, t.Valid → t.tomorrow.daysFromEpoch = t.daysFromEpoch + 1 ∧
      t.tomorrow.dayOfWeek = (t.dayOfWeek + 1) % 7) ∧
    Date.daysFromEpoch ⟨1, 1, 1⟩ = 0 ∧ Date.dayOfWeek ⟨1, 1, 1⟩ = 1 ∧
    ∀ ticks, ticks / 100 / 86400 < 2 ^ 32 → (bootTimeToDate ticks).Valid ∧
      (bootTimeToDate ticks).daysFromEpoch =
        Date.daysFromEpoch ⟨2026, 1, 1⟩ + ticks / 100 / 86400 := by
  refine ⟨fun t h => ⟨h.daysFromEpoch_tomorrow, ?_⟩, by decide, by decide, fun ticks hdays => ?_⟩
  · unfold Date.dayOfWeek
    rw [h.daysFromEpoch_tomorrow]
    omega
  · have hboot : Date.Valid ⟨2026, 1, 1⟩ := by constructor <;> decide
    have hdate := hboot.advance (ticks / 100 / 86400)
    rwa [← Nat.mod_eq_of_lt hdays] at hdate ⊢

/-- A leap day is the day after, and the 59 days behind the boot are over. -/
theorem calendar_exact_leapDay :
    Date.tomorrow ⟨2028, 2, 28⟩ = ⟨2028, 2, 29⟩ ∧
    Date.daysFromEpoch ⟨2028, 2, 29⟩ = Date.daysFromEpoch ⟨2028, 2, 28⟩ + 1 ∧
    (bootTimeToDate 509760000).daysFromEpoch = Date.daysFromEpoch ⟨2026, 1, 1⟩ + 59 := by
  have hvalid : Date.Valid ⟨2028, 2, 28⟩ := by constructor <;> decide
  obtain ⟨hnext, -, -, hboot⟩ := calendar_exact
  exact ⟨rfl, (hnext _ hvalid).1, (hboot 509760000 (by decide)).2⟩

end OpenOS.User.Cal
