import Mathlib.Algebra.Group.Nat.Defs
import Mathlib.Data.List.Lex
import Mathlib.Order.Monotone.Basic

/-! # Times in the Gregorian calendar

A moment as the calendar and the clock name it, of a year from 0 on, and as the nanoseconds since the beginning of the
year 0. There are no leap seconds.

* `Moment.nanos_lt_iff`: moments are ordered as their fields, the year first. -/

namespace Notely.Lib.Calendar

def leap (year : ℕ) : Bool := year % 4 = 0 ∧ (year % 100 ≠ 0 ∨ year % 400 = 0)

/-- The days of a month, counted from 1. -/
def monthLength (year : ℕ) : ℕ → ℕ
  | 2 => if leap year then 29 else 28
  | 1 | 3 | 5 | 7 | 8 | 10 | 12 => 31
  | 4 | 6 | 9 | 11 => 30
  | _ => 0

def yearLength (year : ℕ) : ℕ := if leap year then 366 else 365

/-- The days before a month, in its year. -/
def daysBeforeMonth (year : ℕ) : ℕ → ℕ
  | 0 => 0
  | month + 1 => daysBeforeMonth year month + monthLength year month

/-- The days before a year. -/
def daysBeforeYear : ℕ → ℕ
  | 0 => 0
  | year + 1 => daysBeforeYear year + yearLength year

/-- A date and a time of day. -/
structure Moment where
  year : ℕ
  month : ℕ
  day : ℕ
  hour : ℕ
  minute : ℕ
  second : ℕ
  nano : ℕ
  one_le_month : 1 ≤ month
  month_le : month ≤ 12
  one_le_day : 1 ≤ day
  day_le : day ≤ monthLength year month
  hour_lt : hour < 24
  minute_lt : minute < 60
  second_lt : second < 60
  nano_lt : nano < 10 ^ 9

/-- The days up to that of the moment. -/
def Moment.days (u : Moment) : ℕ := daysBeforeYear u.year + daysBeforeMonth u.year u.month + u.day

/-- The nanoseconds since the beginning. -/
def Moment.nanos (u : Moment) : ℕ :=
  (((u.days * 24 + u.hour) * 60 + u.minute) * 60 + u.second) * 10 ^ 9 + u.nano

/-- The fields, the most significant first. -/
def Moment.fields (u : Moment) : List ℕ := [u.year, u.month, u.day, u.hour, u.minute, u.second, u.nano]

section Order
variable {u v : Moment}

theorem daysBeforeMonth_mono (year : ℕ) : Monotone (daysBeforeMonth year) :=
  monotone_nat_of_le_succ fun month => Nat.le_add_right _ (monthLength year month)

theorem daysBeforeYear_mono : Monotone daysBeforeYear :=
  monotone_nat_of_le_succ fun year => Nat.le_add_right _ (yearLength year)

/-- The months make up the year. -/
theorem daysBeforeMonth_thirteen (year : ℕ) : daysBeforeMonth year 13 = yearLength year := by
  simp only [daysBeforeMonth, monthLength, yearLength]
  split_ifs <;> rfl

theorem monthLength_le (year month : ℕ) : monthLength year month ≤ 31 := by
  unfold monthLength
  split
  case h_1 => split_ifs <;> decide
  all_goals decide

/-- A date is within its year. -/
theorem Moment.days_le (u : Moment) : u.days ≤ daysBeforeYear (u.year + 1) := by
  have hday := u.day_le
  have hmonth : daysBeforeMonth u.year (u.month + 1) ≤ daysBeforeMonth u.year 13 :=
    daysBeforeMonth_mono u.year (by have h := u.month_le; omega)
  rw [daysBeforeMonth_thirteen, daysBeforeMonth] at hmonth
  rw [Moment.days, daysBeforeYear]
  omega

theorem Moment.days_lt (h : [u.year, u.month, u.day] < [v.year, v.month, v.day]) : u.days < v.days := by
  have hv := v.one_le_day
  simp only [List.cons_lt_cons_iff, List.not_lt_nil, and_false, or_false] at h
  rcases h with hyear | ⟨hyear, hmonth | ⟨hmonth, hday⟩⟩
  · have hle := u.days_le
    have hmono : daysBeforeYear (u.year + 1) ≤ daysBeforeYear v.year := daysBeforeYear_mono hyear
    have hdays : v.days = daysBeforeYear v.year + daysBeforeMonth v.year v.month + v.day := rfl
    omega
  · have hle := u.day_le
    have hmono := daysBeforeMonth_mono v.year (Nat.succ_le_of_lt hmonth)
    rw [Nat.succ_eq_add_one, daysBeforeMonth, ← hyear] at hmono
    rw [Moment.days, Moment.days, ← hyear]
    omega
  · rw [Moment.days, Moment.days, hyear, hmonth]
    omega

theorem Moment.nanos_lt (h : u.fields < v.fields) : u.nanos < v.nanos := by
  have hu := u.nano_lt
  have hsecond := u.second_lt
  have hminute := u.minute_lt
  have hhour := u.hour_lt
  have hdate : u.days < v.days ∨ u.days = v.days ∧
      [u.hour, u.minute, u.second, u.nano] < [v.hour, v.minute, v.second, v.nano] := by
    simp only [Moment.fields, List.cons_lt_cons_iff] at h ⊢
    rcases h with hyear | ⟨hyear, hmonth | ⟨hmonth, hday | ⟨hday, htime⟩⟩⟩
    · exact Or.inl (Moment.days_lt (List.cons_lt_cons_iff.mpr (Or.inl hyear)))
    · exact Or.inl (Moment.days_lt (by simp [List.cons_lt_cons_iff, hyear, hmonth]))
    · exact Or.inl (Moment.days_lt (by simp [List.cons_lt_cons_iff, hyear, hmonth, hday]))
    · refine Or.inr ⟨?_, htime⟩
      rw [Moment.days, Moment.days, hyear, hmonth, hday]
  simp only [List.cons_lt_cons_iff, List.not_lt_nil, and_false, or_false] at hdate
  unfold Moment.nanos
  omega

/-- **Moments are ordered as their fields.** -/
theorem Moment.nanos_lt_iff : u.nanos < v.nanos ↔ u.fields < v.fields := by
  constructor
  · intro h
    rcases lt_trichotomy u.fields v.fields with hlt | heq | hgt
    · exact hlt
    · simp only [Moment.fields, List.cons.injEq, and_true] at heq
      obtain ⟨h₁, h₂, h₃, h₄, h₅, h₆, h₇⟩ := heq
      simp only [Moment.nanos, Moment.days, h₁, h₂, h₃, h₄, h₅, h₆, h₇] at h
      omega
    · have hnanos := Moment.nanos_lt hgt
      omega
  · exact Moment.nanos_lt

end Order

end Notely.Lib.Calendar
