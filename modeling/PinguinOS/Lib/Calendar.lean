import Mathlib.Algebra.BigOperators.Intervals
import Mathlib.Algebra.Order.BigOperators.Group.Finset
import Mathlib.Tactic.Common

/-! Dates and times of the Gregorian calendar, and the seconds between them. -/
namespace Calendar

def Leap (year : Nat) : Prop := year % 4 = 0 ∧ (year % 100 ≠ 0 ∨ year % 400 = 0)

instance {year : Nat} : Decidable (Leap year) := inferInstanceAs (Decidable (_ ∧ _))

def yearLength (year : Nat) : Nat := if Leap year then 366 else 365

def monthLength (year : Nat) : (month : Nat) → Nat
  | 2 => if Leap year then 29 else 28
  | 4 | 6 | 9 | 11 => 30
  | _ => 31

structure DateTime where
  year : Nat
  month : Nat
  day : Nat
  hour : Nat
  minute : Nat
  second : Nat

structure DateTime.Valid (t : DateTime) : Prop where
  month : 1 ≤ t.month ∧ t.month ≤ 12
  day : 1 ≤ t.day ∧ t.day ≤ monthLength t.year t.month
  hour : t.hour < 24
  minute : t.minute < 60
  second : t.second < 60

/-- The days of the years from `epoch` on before `year`. -/
def daysToYear (epoch year : Nat) : Nat := ∑ i ∈ Finset.range (year - epoch), yearLength (epoch + i)

/-- The days of a year before the end of month `n`. -/
def daysOfMonths (year n : Nat) : Nat := ∑ i ∈ Finset.range n, monthLength year (i + 1)

def DateTime.dayOfYear (t : DateTime) : Nat := daysOfMonths t.year (t.month - 1) + (t.day - 1)

def DateTime.days (epoch : Nat) (t : DateTime) : Nat := daysToYear epoch t.year + t.dayOfYear

def DateTime.timeOfDay (t : DateTime) : Nat := t.hour * 3600 + t.minute * 60 + t.second

/-- The seconds since the beginning of the year `epoch`. -/
def DateTime.seconds (epoch : Nat) (t : DateTime) : Nat := t.days epoch * 86400 + t.timeOfDay

/-- The year counts first, then the month, and so on. -/
def DateTime.Before (t u : DateTime) : Prop :=
  t.year < u.year ∨ t.year = u.year ∧
    (t.month < u.month ∨ t.month = u.month ∧
      (t.day < u.day ∨ t.day = u.day ∧
        (t.hour < u.hour ∨ t.hour = u.hour ∧
          (t.minute < u.minute ∨ t.minute = u.minute ∧ t.second < u.second))))

instance {t u : DateTime} : Decidable (t.Before u) := inferInstanceAs (Decidable (_ ∨ _))

variable {t u : DateTime} {epoch year year' m n : Nat}

/-! Years and months. -/

theorem yearLength_le : yearLength year ≤ 366 := by
  unfold yearLength
  split
  · exact Nat.le_refl _
  · exact Nat.le_succ _

theorem daysToYear_succ (h : epoch ≤ year) :
    daysToYear epoch (year + 1) = daysToYear epoch year + yearLength year := by
  unfold daysToYear
  rw [Nat.succ_sub h, Finset.sum_range_succ, Nat.add_sub_cancel' h]

theorem daysToYear_mono (h : year ≤ year') : daysToYear epoch year ≤ daysToYear epoch year' :=
  Finset.sum_le_sum_of_subset (Finset.range_subset_range.mpr (Nat.sub_le_sub_right h epoch))

theorem daysOfMonths_mono (h : m ≤ n) : daysOfMonths year m ≤ daysOfMonths year n :=
  Finset.sum_le_sum_of_subset (Finset.range_subset_range.mpr h)

theorem daysOfMonths_succ :
    daysOfMonths year (n + 1) = daysOfMonths year n + monthLength year (n + 1) :=
  Finset.sum_range_succ _ _

theorem daysOfMonths_twelve : daysOfMonths year 12 = yearLength year := by
  unfold daysOfMonths yearLength
  simp only [Finset.sum_range_succ, Finset.sum_range_zero, monthLength]
  split
  · rfl
  · rfl

/-- A day comes before the end of its month. -/
theorem DateTime.Valid.dayOfYear_lt (h : t.Valid) : t.dayOfYear < daysOfMonths t.year t.month := by
  obtain ⟨hmonth, -⟩ := h.month
  obtain ⟨hday, hlast⟩ := h.day
  have hsucc := @daysOfMonths_succ t.year (t.month - 1)
  rw [Nat.sub_add_cancel hmonth] at hsucc
  unfold DateTime.dayOfYear
  omega

theorem DateTime.Valid.dayOfYear_lt_year (h : t.Valid) : t.dayOfYear < yearLength t.year := by
  have hlt := h.dayOfYear_lt
  have hmono := @daysOfMonths_mono t.year _ _ h.month.2
  rw [daysOfMonths_twelve] at hmono
  omega

theorem DateTime.Valid.timeOfDay_lt (h : t.Valid) : t.timeOfDay < 86400 := by
  have hhour := h.hour
  have hminute := h.minute
  have hsecond := h.second
  unfold DateTime.timeOfDay
  omega

/-! The order. -/

/-- Of two dates the earlier one has the smaller number, or they are on the same day. -/
theorem days_of_before (ht : t.Valid) (hepoch : epoch ≤ t.year) (h : t.Before u) :
    t.days epoch < u.days epoch ∨ t.days epoch = u.days epoch ∧ t.timeOfDay < u.timeOfDay := by
  unfold DateTime.days
  rcases h with hyear | ⟨hyear, h⟩
  · have hlt := ht.dayOfYear_lt_year
    have hsucc := daysToYear_succ hepoch
    have hmono := @daysToYear_mono epoch (t.year + 1) u.year hyear
    omega
  rw [hyear]
  rcases h with hmonth | ⟨hmonth, h⟩
  · have hlt := ht.dayOfYear_lt
    have hmono := @daysOfMonths_mono t.year t.month (u.month - 1) (by omega)
    have hlate : u.dayOfYear = daysOfMonths t.year (u.month - 1) + (u.day - 1) := by
      rw [hyear]
      rfl
    omega
  have hsame : t.dayOfYear + (u.day - 1) = u.dayOfYear + (t.day - 1) := by
    unfold DateTime.dayOfYear
    rw [hyear, hmonth]
    omega
  have hday := ht.day.1
  rcases h with hless | ⟨heq, h⟩
  · omega
  refine Or.inr ⟨by omega, ?_⟩
  have hminute := ht.minute
  have hsecond := ht.second
  unfold DateTime.timeOfDay
  omega

theorem seconds_lt_of_before (ht : t.Valid) (hepoch : epoch ≤ t.year)
    (h : t.Before u) : t.seconds epoch < u.seconds epoch := by
  have htime := ht.timeOfDay_lt
  have hdays := days_of_before ht hepoch h
  unfold DateTime.seconds
  omega

/-- One of two dates comes first, or they are the same. -/
theorem eq_or_before : t = u ∨ t.Before u ∨ u.Before t := by
  obtain ⟨year, month, day, hour, minute, second⟩ := t
  obtain ⟨year', month', day', hour', minute', second'⟩ := u
  simp only [DateTime.mk.injEq, DateTime.Before]
  omega

theorem seconds_injective (ht : t.Valid) (hu : u.Valid) (hepoch : epoch ≤ t.year)
    (hepoch' : epoch ≤ u.year) (h : t.seconds epoch = u.seconds epoch) : t = u := by
  rcases @eq_or_before t u with heq | hbefore | hafter
  · exact heq
  · have := seconds_lt_of_before ht hepoch hbefore
    omega
  · have := seconds_lt_of_before hu hepoch' hafter
    omega

/-- Times less than a minute apart that show the same second are the same. -/
theorem eq_of_second (ht : t.Valid) (hu : u.Valid) (hepoch : epoch ≤ t.year)
    (hepoch' : epoch ≤ u.year) (hle : t.seconds epoch ≤ u.seconds epoch)
    (hlt : u.seconds epoch < t.seconds epoch + 60) (h : t.second = u.second) : t = u := by
  have hsecond := ht.second
  have hsecond' := hu.second
  refine seconds_injective ht hu hepoch hepoch' ?_
  unfold DateTime.seconds DateTime.timeOfDay at hle hlt ⊢
  omega

end Calendar
