import Mathlib.Data.BitVec
import Mathlib.Tactic.IntervalCases
import PinguinOS.Lib.Calendar

/-! The time of the clock as seconds since 1970: `rtc_to_unix`. -/
namespace PinguinOS.Drivers

open Calendar (DateTime Leap)

/-- `rtc_time_t`, without the day of the week. -/
structure RtcTime where
  year : BitVec 16
  month : BitVec 8
  day : BitVec 8
  hour : BitVec 8
  minute : BitVec 8
  second : BitVec 8

/-- The days of a common year before each month. -/
def daysInMonth : List (BitVec 32) := [0, 31, 59, 90, 120, 151, 181, 212, 243, 273, 304, 334]

def rtcToUnix (t : RtcTime) : BitVec 32 :=
  let year : BitVec 32 := t.year.setWidth 32 - 1970
  let leaps := (year + 2) / 4
  let days := year * 365 + leaps
  let days := days + daysInMonth.getD (t.month.toNat - 1) 0
  let days :=
    if t.month > 2 ∧ ((t.year % 4 = 0 ∧ t.year % 100 ≠ 0) ∨ t.year % 400 = 0) then days + 1
    else days
  let days := days + (t.day.setWidth 32 - 1)
  days * 86400 + t.hour.setWidth 32 * 3600 + t.minute.setWidth 32 * 60 + t.second.setWidth 32

def RtcTime.dateTime (t : RtcTime) : DateTime where
  year := t.year.toNat
  month := t.month.toNat
  day := t.day.toNat
  hour := t.hour.toNat
  minute := t.minute.toNat
  second := t.second.toNat

/-- A date and time of the years 1970 to 2099. -/
structure RtcTime.Valid (t : RtcTime) : Prop where
  dateTime : t.dateTime.Valid
  first : 1970 ≤ t.year.toNat
  last : t.year.toNat ≤ 2099

/-- The times are the seconds since 1970, and the earlier one is the smaller. -/
structure UnixTime (t u : RtcTime) : Prop where
  left : (rtcToUnix t).toNat = t.dateTime.seconds 1970
  right : (rtcToUnix u).toNat = u.dateTime.seconds 1970
  before : t.dateTime.Before u.dateTime → rtcToUnix t < rtcToUnix u
  after : u.dateTime.Before t.dateTime → rtcToUnix u < rtcToUnix t

variable {t u : RtcTime} {year month n : Nat}

/-! The days. -/

theorem leap_iff (hfirst : 1970 ≤ year) (hlast : year ≤ 2099) : Leap year ↔ year % 4 = 0 := by
  unfold Leap
  omega

theorem daysToYear_eq (h : n ≤ 130) :
    Calendar.daysToYear 1970 (1970 + n) = n * 365 + (n + 1) / 4 := by
  induction n with
  | zero => rfl
  | succ n ih =>
    have hleap := @leap_iff (1970 + n) (by omega) (by omega)
    rw [← Nat.add_assoc, Calendar.daysToYear_succ (by omega), ih (by omega)]
    unfold Calendar.yearLength
    split
    case isTrue hyes =>
      rw [hleap] at hyes
      omega
    case isFalse hno =>
      rw [hleap] at hno
      omega

/-- `leaps` has the leap day of the year itself. -/
theorem leaps_eq (h : n ≤ 129) :
    (n + 2) / 4 = (n + 1) / 4 + if Leap (1970 + n) then 1 else 0 := by
  have hleap := @leap_iff (1970 + n) (by omega) (by omega)
  split
  case isTrue hyes =>
    rw [hleap] at hyes
    omega
  case isFalse hno =>
    rw [hleap] at hno
    omega

/-- The table, and the day that a leap year has more from March on. -/
theorem daysOfMonths_eq (h : n < 12) : Calendar.daysOfMonths year n =
    (daysInMonth.getD n 0).toNat + if 1 < n ∧ Leap year then 1 else 0 := by
  induction n with
  | zero => rfl
  | succ n ih =>
    have hn : n < 11 := Nat.lt_of_succ_lt_succ h
    rw [Calendar.daysOfMonths_succ, ih (Nat.lt_of_succ_lt h)]
    unfold Calendar.monthLength
    by_cases hleap : Leap year
    · simp only [hleap, and_true, if_true]
      clear ih h
      revert n
      decide
    · simp only [hleap, and_false, if_false]
      clear ih h
      revert n
      decide

theorem rtc_leap_iff (hfirst : 1970 ≤ t.year.toNat) (hlast : t.year.toNat ≤ 2099) :
    ((t.year % 4 = 0 ∧ t.year % 100 ≠ 0) ∨ t.year % 400 = 0) ↔ Leap t.year.toNat := by
  have hmod : ∀ n : Nat, n < 2 ^ 16 → (t.year % BitVec.ofNat 16 n = 0 ↔ t.year.toNat % n = 0) := by
    intro n hn
    rw [← BitVec.toNat_inj, BitVec.toNat_umod, BitVec.toNat_ofNat, Nat.mod_eq_of_lt hn]
    rfl
  have h4 := hmod 4 (by decide)
  have h100 := hmod 100 (by decide)
  have h400 := hmod 400 (by decide)
  rw [leap_iff hfirst hlast]
  constructor
  · rintro (⟨hfour, -⟩ | hfour)
    · exact h4.mp hfour
    · have := h400.mp hfour
      omega
  · intro hfour
    by_cases hhundred : t.year % 100 = 0
    · refine Or.inr (h400.mpr ?_)
      have := h100.mp hhundred
      omega
    · exact Or.inl ⟨h4.mpr hfour, hhundred⟩

/-- The days that `rtc_to_unix` counts, where nothing wraps. -/
theorem toNat_of_days {days : BitVec 32} (hdays : days.toNat < 48000) (ht : t.dateTime.Valid) :
    (days * 86400 + t.hour.setWidth 32 * 3600 + t.minute.setWidth 32 * 60 +
      t.second.setWidth 32).toNat = days.toNat * 86400 + t.dateTime.timeOfDay := by
  have hhour : t.hour.toNat < 24 := ht.hour
  have hminute : t.minute.toNat < 60 := ht.minute
  have hsecond : t.second.toNat < 60 := ht.second
  have hseconds : (days * 86400).toNat = days.toNat * 86400 := by
    have hday : (86400 : BitVec 32).toNat = 86400 := by decide
    rw [BitVec.toNat_mul, hday]
    omega
  have hofHour : (t.hour.setWidth 32 * 3600 : BitVec 32).toNat = t.hour.toNat * 3600 := by
    simp only [BitVec.ofNat_eq_ofNat, BitVec.toNat_mul, BitVec.toNat_setWidth, BitVec.toNat_ofNat]
    omega
  have hofMinute : (t.minute.setWidth 32 * 60 : BitVec 32).toNat = t.minute.toNat * 60 := by
    simp only [BitVec.ofNat_eq_ofNat, BitVec.toNat_mul, BitVec.toNat_setWidth, BitVec.toNat_ofNat]
    omega
  have hofSecond : (t.second.setWidth 32).toNat = t.second.toNat :=
    BitVec.toNat_setWidth_of_le (by decide)
  rw [BitVec.toNat_add, BitVec.toNat_add, BitVec.toNat_add, hseconds, hofHour, hofMinute, hofSecond]
  change _ = days.toNat * 86400 + (t.hour.toNat * 3600 + t.minute.toNat * 60 + t.second.toNat)
  omega

/-- The days that `rtc_to_unix` counts. -/
theorem rtcToUnix_days (ht : t.Valid) : ∃ days : BitVec 32,
    rtcToUnix t = days * 86400 + t.hour.setWidth 32 * 3600 + t.minute.setWidth 32 * 60 +
      t.second.setWidth 32 ∧
    days.toNat = (t.year.toNat - 1970) * 365 + (t.year.toNat - 1970 + 2) / 4 +
      t.dateTime.dayOfYear := by
  have hfirst := ht.first
  have hlast := ht.last
  have hmonth : 1 ≤ t.month.toNat ∧ t.month.toNat ≤ 12 := ht.dateTime.month
  have hday : 1 ≤ t.day.toNat := ht.dateTime.day.1
  have hmonths := @daysOfMonths_eq t.year.toNat (t.month.toNat - 1) (by omega)
  have hofYear := ht.dateTime.dayOfYear_lt_year
  have hlength := @Calendar.yearLength_le t.dateTime.year
  have hdayOf : t.dateTime.dayOfYear =
      Calendar.daysOfMonths t.year.toNat (t.month.toNat - 1) + (t.day.toNat - 1) := rfl
  have hyear : (t.year.setWidth 32 - 1970 : BitVec 32).toNat = t.year.toNat - 1970 := by
    simp only [BitVec.ofNat_eq_ofNat, BitVec.toNat_sub, BitVec.toNat_setWidth, BitVec.toNat_ofNat]
    omega
  have hdays : (t.day.setWidth 32 - 1 : BitVec 32).toNat = t.day.toNat - 1 := by
    simp only [BitVec.ofNat_eq_ofNat, BitVec.toNat_sub, BitVec.toNat_setWidth, BitVec.toNat_ofNat]
    omega
  have hmarch : t.month > 2 ↔ 1 < t.month.toNat - 1 := by
    rw [gt_iff_lt, BitVec.lt_def, show (2 : BitVec 8).toNat = 2 from rfl]
    omega
  have hleap := rtc_leap_iff hfirst hlast
  unfold rtcToUnix
  refine ⟨_, rfl, ?_⟩
  generalize t.year.setWidth 32 - 1970 = year at hyear ⊢
  generalize t.day.setWidth 32 - 1 = day at hdays ⊢
  have hquarter : ((year + 2) / 4).toNat = (t.year.toNat - 1970 + 2) / 4 := by
    have hsmall : (t.year.toNat - 1970 + 2) % 2 ^ 32 = t.year.toNat - 1970 + 2 :=
      Nat.mod_eq_of_lt (by omega)
    rw [BitVec.toNat_udiv, BitVec.toNat_add, hyear]
    exact congrArg (· / 4) hsmall
  generalize (year + 2) / 4 = leaps at hquarter ⊢
  generalize daysInMonth.getD (t.month.toNat - 1) 0 = table at hmonths ⊢
  rw [hmonths] at hdayOf
  split
  case isTrue hmore =>
    rw [hleap, hmarch] at hmore
    rw [if_pos hmore] at hdayOf
    simp only [BitVec.ofNat_eq_ofNat, BitVec.toNat_add, BitVec.toNat_mul, BitVec.toNat_ofNat, hyear,
      hdays, hquarter]
    omega
  case isFalse hless =>
    rw [hleap, hmarch] at hless
    rw [if_neg hless] at hdayOf
    simp only [BitVec.ofNat_eq_ofNat, BitVec.toNat_add, BitVec.toNat_mul, BitVec.toNat_ofNat, hyear,
      hdays, hquarter]
    omega

/-- In a leap year the result is a day ahead: its leap day is in `leaps` already. -/
theorem rtcToUnix_eq (ht : t.Valid) : (rtcToUnix t).toNat =
    t.dateTime.seconds 1970 + if Leap t.year.toNat then 86400 else 0 := by
  obtain ⟨n, hn⟩ := Nat.exists_eq_add_of_le ht.first
  have hlast := ht.last
  have hyears := @daysToYear_eq n (by omega)
  have hleaps := @leaps_eq n (by omega)
  have hofYear := ht.dateTime.dayOfYear_lt_year
  have hlength := @Calendar.yearLength_le t.dateTime.year
  have hsum : t.dateTime.seconds 1970 =
      (Calendar.daysToYear 1970 t.year.toNat + t.dateTime.dayOfYear) * 86400 +
        t.dateTime.timeOfDay := rfl
  obtain ⟨days, hunix, hdays⟩ := rtcToUnix_days ht
  rw [hunix, toNat_of_days (by omega) ht.dateTime, hdays, hsum, hn, Nat.add_sub_cancel_left, hyears,
    hleaps]
  split
  · omega
  · omega

/-- The time is right exactly for the years that are no leap years, and with two right times the
order is right as well. -/
theorem unixTime_iff (ht : t.Valid) (hu : u.Valid) :
    UnixTime t u ↔ ¬ Leap t.year.toNat ∧ ¬ Leap u.year.toNat := by
  have hleft := rtcToUnix_eq ht
  have hright := rtcToUnix_eq hu
  constructor
  · intro h
    refine ⟨fun hleap => ?_, fun hleap => ?_⟩
    · rw [if_pos hleap] at hleft
      have := h.left
      omega
    · rw [if_pos hleap] at hright
      have := h.right
      omega
  · rintro ⟨hno, hno'⟩
    rw [if_neg hno, Nat.add_zero] at hleft
    rw [if_neg hno', Nat.add_zero] at hright
    refine ⟨hleft, hright, fun hbefore => ?_, fun hafter => ?_⟩
    · rw [BitVec.lt_def, hleft, hright]
      exact Calendar.seconds_lt_of_before ht.dateTime ht.first hbefore
    · rw [BitVec.lt_def, hleft, hright]
      exact Calendar.seconds_lt_of_before hu.dateTime hu.first hafter

/-- The last day of a leap year, and the next one. -/
def newYearsEve : RtcTime := ⟨1972, 12, 31, 0, 0, 0⟩
def newYear : RtcTime := ⟨1973, 1, 1, 0, 0, 0⟩

theorem newYear_valid : newYear.Valid := by
  refine ⟨⟨?_, ?_, ?_, ?_, ?_⟩, ?_, ?_⟩
  all_goals decide

theorem unixTime_newYear : UnixTime newYear newYear :=
  (unixTime_iff newYear_valid newYear_valid).mpr ⟨by decide, by decide⟩

/-- They have the same time. -/
theorem not_forall_unixTime : ¬ ∀ t u : RtcTime, t.Valid → u.Valid → UnixTime t u := by
  intro h
  have hvalid : newYearsEve.Valid := by
    refine ⟨⟨?_, ?_, ?_, ?_, ?_⟩, ?_, ?_⟩
    all_goals decide
  have hlt := (h newYearsEve newYear hvalid newYear_valid).before (by decide)
  exact absurd hlt (by decide)

end PinguinOS.Drivers
