import PinguinOS.Drivers.Rtc

/-! `rtc_read` against a clock that goes on while it reads. -/
namespace PinguinOS.Drivers

open Calendar (DateTime)

def rtcRegSec : BitVec 8 := 0x00
def rtcRegMin : BitVec 8 := 0x02
def rtcRegHour : BitVec 8 := 0x04
def rtcRegWday : BitVec 8 := 0x06
def rtcRegMday : BitVec 8 := 0x07
def rtcRegMonth : BitVec 8 := 0x08
def rtcRegYear : BitVec 8 := 0x09
def rtcRegStatusA : BitVec 8 := 0x0A
def rtcRegStatusB : BitVec 8 := 0x0B

/-- What the port answers: the number of the access, and the register that it selects. -/
abbrev RtcBus := Nat → BitVec 8 → BitVec 8

/-- `cmos_read` as the access number `k`. -/
def cmosRead (bus : RtcBus) (k : Nat) (reg : BitVec 8) : BitVec 8 := bus k (reg &&& 0x7F)

def cmosUpdating (bus : RtcBus) (k : Nat) : Bool := cmosRead bus k rtcRegStatusA &&& 0x80 ≠ 0

/-- `while (cmos_updating());` from the access `k` on, and the number of the next access. -/
def awaitUpdate (bus : RtcBus) : (fuel : Nat) → (k : Nat) → Option Nat
  | 0, _ => none
  | fuel + 1, k => if cmosUpdating bus k then awaitUpdate bus fuel (k + 1) else some (k + 1)

/-- The registers in the order in which they are read. -/
structure RtcRegisters where
  sec : BitVec 8
  min : BitVec 8
  hour : BitVec 8
  day : BitVec 8
  month : BitVec 8
  year : BitVec 8
  wday : BitVec 8

def rtcPass (bus : RtcBus) (k : Nat) : RtcRegisters where
  sec := cmosRead bus k rtcRegSec
  min := cmosRead bus (k + 1) rtcRegMin
  hour := cmosRead bus (k + 2) rtcRegHour
  day := cmosRead bus (k + 3) rtcRegMday
  month := cmosRead bus (k + 4) rtcRegMonth
  year := cmosRead bus (k + 5) rtcRegYear
  wday := cmosRead bus (k + 6) rtcRegWday

/-- The `do` loop. -/
def rtcLoop (bus : RtcBus) : (fuel : Nat) → (k : Nat) → Option (RtcRegisters × Nat)
  | 0, _ => none
  | fuel + 1, k =>
    (awaitUpdate bus fuel (k + 7)).bind fun j =>
      if (rtcPass bus k).sec ≠ cmosRead bus j rtcRegSec then rtcLoop bus fuel (j + 1)
      else some (rtcPass bus k, j + 1)

def bcdToBin (bcd : BitVec 8) : BitVec 8 := (bcd >>> 4) * 10 + (bcd &&& 0x0F)

/-- A register as a number: in BCD unless status B says otherwise. -/
def rtcNumber (statusb v : BitVec 8) : BitVec 8 :=
  if statusb &&& 0x04 = 0 then bcdToBin v else v

/-- `12h → 24h` -/
def rtcHour24 (statusb hour : BitVec 8) : BitVec 8 :=
  if statusb &&& 0x02 = 0 ∧ hour &&& 0x80 ≠ 0 then ((hour &&& 0x7F) + 12) % 24 else hour

def rtcConvert (statusb : BitVec 8) (r : RtcRegisters) : RtcTime where
  year := 2000 + (rtcNumber statusb r.year).setWidth 16
  month := rtcNumber statusb r.month
  day := rtcNumber statusb r.day
  hour := rtcHour24 statusb (rtcNumber statusb r.hour)
  minute := rtcNumber statusb r.min
  second := rtcNumber statusb r.sec

/-- What `rtc_read` returns: the time, the day of the week, and the number of accesses. -/
structure RtcResult where
  time : RtcTime
  weekday : BitVec 8
  accesses : Nat

def rtcRead (bus : RtcBus) (fuel : Nat) : Option RtcResult :=
  (awaitUpdate bus fuel 0).bind fun k =>
    (rtcLoop bus fuel k).map fun r =>
      let statusb := cmosRead bus r.2 rtcRegStatusB
      ⟨rtcConvert statusb r.1, rtcNumber statusb r.1.wday, r.2 + 1⟩

/-! The clock. -/

/-- A number in a register. -/
def rtcEncode (statusb : BitVec 8) (n : Nat) : BitVec 8 :=
  if statusb &&& 0x04 = 0 then BitVec.ofNat 8 (n / 10 * 16 + n % 10) else BitVec.ofNat 8 n

/-- The hour, which has the bit of the afternoon when it goes from 1 to 12. -/
def rtcEncodeHour (statusb : BitVec 8) (hour : Nat) : BitVec 8 :=
  if statusb &&& 0x02 = 0 then
    rtcEncode statusb (if hour % 12 = 0 then 12 else hour % 12) ||| if hour < 12 then 0 else 0x80
  else rtcEncode statusb hour

/-- The registers of a date and its day of the week. -/
def rtcRegisters (statusb : BitVec 8) (t : DateTime) (wday : Nat) : RtcRegisters where
  sec := rtcEncode statusb t.second
  min := rtcEncode statusb t.minute
  hour := rtcEncodeHour statusb t.hour
  day := rtcEncode statusb t.day
  month := rtcEncode statusb t.month
  year := rtcEncode statusb (t.year % 100)
  wday := rtcEncode statusb wday

/-- What register shows which of them. -/
structure RtcRegisters.Shown (r : RtcRegisters) (regs : BitVec 8 → BitVec 8) : Prop where
  sec : regs rtcRegSec = r.sec
  min : regs rtcRegMin = r.min
  hour : regs rtcRegHour = r.hour
  day : regs rtcRegMday = r.day
  month : regs rtcRegMonth = r.month
  year : regs rtcRegYear = r.year
  wday : regs rtcRegWday = r.wday

/-- A clock whose time at the access `k` is `clock k`. During its update cycles (`busy`) the
registers have any values; a cycle moves the time on, and is announced, so that it does not begin
within two accesses of a clear `UIP` bit. -/
structure RtcClock (bus : RtcBus) (statusb : BitVec 8) (clock : Nat → DateTime)
    (weekday : DateTime → Nat) (busy : Nat → Prop) : Prop where
  valid : ∀ k, (clock k).Valid ∧ 2000 ≤ (clock k).year ∧ (clock k).year ≤ 2099
  wday : ∀ t, weekday t ≤ 7
  shows : ∀ k, ¬ busy k → (rtcRegisters statusb (clock k) (weekday (clock k))).Shown (bus k)
  statusB : ∀ k, bus k rtcRegStatusB = statusb
  announced : ∀ k, cmosUpdating bus k = false → ¬ busy (k + 1) ∧ ¬ busy (k + 2)
  forward : ∀ j k, j ≤ k → (clock j).seconds 2000 ≤ (clock k).seconds 2000
  updated : ∀ i j k, i < j → j < k → ¬ busy i → busy j → ¬ busy k →
    (clock i).seconds 2000 < (clock k).seconds 2000

/-- The hours that `rtc_read` gets right: with a clock that counts to 12 not the ones that begin
with 12, and in BCD none of the afternoon. -/
def RtcHourRead (statusb : BitVec 8) (hour : Nat) : Prop :=
  statusb &&& 0x02 ≠ 0 ∨ (0 < hour ∧ hour < 12) ∨ (statusb &&& 0x04 ≠ 0 ∧ 12 < hour)

/-- The result is the time `t`, but for the hour. -/
structure RtcResult.Shows (r : RtcResult) (statusb : BitVec 8) (t : DateTime) (wday : Nat) :
    Prop where
  year : r.time.year.toNat = t.year
  month : r.time.month.toNat = t.month
  day : r.time.day.toNat = t.day
  hour : r.time.hour.toNat = t.hour ↔ RtcHourRead statusb t.hour
  minute : r.time.minute.toNat = t.minute
  second : r.time.second.toNat = t.second
  weekday : r.weekday.toNat = wday

variable {bus : RtcBus} {statusb : BitVec 8} {clock : Nat → DateTime} {weekday : DateTime → Nat}
  {busy : Nat → Prop} {t : DateTime} {fuel i j k n : Nat} {r : RtcRegisters}

/-! Numbers in registers. -/

theorem bcdToBin_encode : ∀ n < 100, bcdToBin (BitVec.ofNat 8 (n / 10 * 16 + n % 10)) =
    BitVec.ofNat 8 n := by
  decide

theorem rtcNumber_encode (h : n < 100) :
    rtcNumber statusb (rtcEncode statusb n) = BitVec.ofNat 8 n := by
  unfold rtcNumber rtcEncode
  split_ifs
  · exact bcdToBin_encode n h
  · rfl

theorem toNat_rtcNumber (h : n < 100) :
    (rtcNumber statusb (rtcEncode statusb n)).toNat = n := by
  rw [rtcNumber_encode h, BitVec.toNat_ofNat]
  exact Nat.mod_eq_of_lt (by omega)

theorem rtcEncode_injective {m : Nat} (hm : m < 100) (hn : n < 100)
    (h : rtcEncode statusb m = rtcEncode statusb n) : m = n := by
  rw [← @toNat_rtcNumber statusb m hm, h, toNat_rtcNumber hn]

/-- The hour in the four formats. -/
theorem rtcHour24_iff (h : n < 24) :
    (rtcHour24 statusb (rtcNumber statusb (rtcEncodeHour statusb n))).toNat = n ↔
      RtcHourRead statusb n := by
  unfold rtcHour24 rtcNumber rtcEncodeHour rtcEncode RtcHourRead
  by_cases hbcd : statusb &&& 0x04 = 0
  · by_cases htwelve : statusb &&& 0x02 = 0
    · simp only [hbcd, htwelve, if_true, true_and, ne_eq, not_true_eq_false, false_or, or_false,
        false_and]
      revert n
      decide
    · simp only [hbcd, htwelve, if_true, if_false, false_and, ne_eq, not_false_eq_true, true_or,
        iff_true]
      revert n
      decide
  · by_cases htwelve : statusb &&& 0x02 = 0
    · simp only [hbcd, htwelve, if_true, if_false, true_and, ne_eq, not_true_eq_false,
        not_false_eq_true, false_or]
      revert n
      decide
    · simp only [hbcd, htwelve, if_false, false_and, ne_eq, not_false_eq_true, true_or, iff_true]
      revert n
      decide

/-- The registers of a time of this century, read. -/
theorem rtcConvert_shows {wday accesses : Nat} (ht : t.Valid) (hfirst : 2000 ≤ t.year)
    (hlast : t.year ≤ 2099) (hwday : wday ≤ 7) :
    RtcResult.Shows ⟨rtcConvert statusb (rtcRegisters statusb t wday),
      rtcNumber statusb (rtcRegisters statusb t wday).wday, accesses⟩ statusb t wday := by
  have hmonth := ht.month.2
  have hday := ht.day.2
  have hlength : Calendar.monthLength t.year t.month ≤ 31 := by
    unfold Calendar.monthLength
    split
    · split_ifs <;> omega
    all_goals omega
  have hminute := ht.minute
  have hsecond := ht.second
  constructor
  case year =>
    have hyear := @toNat_rtcNumber statusb (t.year % 100) (Nat.mod_lt _ (by decide))
    have htwo : (2000 : BitVec 16).toNat = 2000 := rfl
    dsimp only [rtcConvert, rtcRegisters]
    rw [BitVec.toNat_add, BitVec.toNat_setWidth, hyear, htwo]
    omega
  case month => exact toNat_rtcNumber (by omega)
  case day => exact toNat_rtcNumber (by omega)
  case hour => exact rtcHour24_iff ht.hour
  case minute => exact toNat_rtcNumber (by omega)
  case second => exact toNat_rtcNumber (by omega)
  case weekday => exact toNat_rtcNumber (by omega)

/-! The loops. -/

theorem awaitUpdate_some (h : awaitUpdate bus fuel k = some j) :
    ∃ i, k ≤ i ∧ j = i + 1 ∧ cmosUpdating bus i = false := by
  induction fuel generalizing k with
  | zero => cases h
  | succ fuel ih =>
    unfold awaitUpdate at h
    split_ifs at h with hbusy
    · obtain ⟨i, hki, hj, hclear⟩ := ih h
      exact ⟨i, by omega, hj, hclear⟩
    · cases h
      exact ⟨k, le_rfl, rfl, Bool.eq_false_of_not_eq_true hbusy⟩

/-- Time does not go on between two accesses outside the update cycles that show the same
second, within a minute. -/
theorem RtcClock.stands (h : RtcClock bus statusb clock weekday busy) (hi : ¬ busy i)
    (hj : ¬ busy j) (hminute : (clock j).seconds 2000 < (clock i).seconds 2000 + 60)
    (hsecond : (clock i).second = (clock j).second) (hk : i ≤ k ∧ k ≤ j) :
    ¬ busy k ∧ clock k = clock i := by
  obtain ⟨hvalid, hfirst, -⟩ := h.valid i
  obtain ⟨hvalid', hfirst', -⟩ := h.valid j
  have hle := h.forward i k hk.1
  have hle' := h.forward k j hk.2
  have hsame := Calendar.eq_of_second hvalid hvalid' hfirst hfirst' (by omega) hminute hsecond
  rw [← hsame] at hle'
  refine ⟨fun hbusy => ?_, ?_⟩
  · have hik : i < k := by
      refine lt_of_le_of_ne hk.1 ?_
      rintro rfl
      exact hi hbusy
    have hkj : k < j := by
      refine lt_of_le_of_ne hk.2 ?_
      rintro rfl
      exact hj hbusy
    have hlt := h.updated i k j hik hkj hi hbusy hj
    rw [← hsame] at hlt
    exact lt_irrefl _ hlt
  · obtain ⟨hvalidk, hfirstk, -⟩ := h.valid k
    exact Calendar.seconds_injective hvalidk hvalid hfirstk hfirst (by omega)

/-- The registers of a pass during which time stands still. -/
theorem RtcClock.pass (h : RtcClock bus statusb clock weekday busy)
    (hstands : ∀ i, k ≤ i → i ≤ k + 6 → ¬ busy i ∧ clock i = clock k) :
    rtcPass bus k = rtcRegisters statusb (clock k) (weekday (clock k)) := by
  have hshown : ∀ i, k ≤ i → i ≤ k + 6 →
      (rtcRegisters statusb (clock k) (weekday (clock k))).Shown (bus i) := by
    intro i hlo hhi
    obtain ⟨hnot, heq⟩ := hstands i hlo hhi
    exact heq ▸ h.shows i hnot
  have hsec := (hshown k (by omega) (by omega)).sec
  have hmin := (hshown (k + 1) (by omega) (by omega)).min
  have hhour := (hshown (k + 2) (by omega) (by omega)).hour
  have hday := (hshown (k + 3) (by omega) (by omega)).day
  have hmonth := (hshown (k + 4) (by omega) (by omega)).month
  have hyear := (hshown (k + 5) (by omega) (by omega)).year
  have hwday := (hshown (k + 6) (by omega) (by omega)).wday
  rcases hregs : rtcRegisters statusb (clock k) (weekday (clock k)) with
    ⟨sec, min, hour, day, month, year, wday⟩
  rw [hregs] at hsec hmin hhour hday hmonth hyear hwday
  exact RtcRegisters.mk.injEq .. ▸ ⟨hsec, hmin, hhour, hday, hmonth, hyear, hwday⟩

/-- The second that an access shows. -/
theorem RtcClock.read_sec (h : RtcClock bus statusb clock weekday busy) (hk : ¬ busy k) :
    cmosRead bus k rtcRegSec = rtcEncode statusb (clock k).second := (h.shows k hk).sec

/-- The pass that the loop ends with has the registers of the time at its beginning. -/
theorem RtcClock.loop_some (h : RtcClock bus statusb clock weekday busy)
    (hminute : ∀ k, (clock k).seconds 2000 < (clock 0).seconds 2000 + 60) (hk : ¬ busy k)
    (hloop : rtcLoop bus fuel k = some (r, j)) :
    ∃ i, k ≤ i ∧ i < j ∧ r = rtcRegisters statusb (clock i) (weekday (clock i)) := by
  induction fuel generalizing k with
  | zero => cases hloop
  | succ fuel ih =>
    unfold rtcLoop at hloop
    obtain ⟨m, hm, hrest⟩ := Option.bind_eq_some_iff.mp hloop
    obtain ⟨i, hki, rfl, hclear⟩ := awaitUpdate_some hm
    obtain ⟨hnext, hnext'⟩ := h.announced i hclear
    split_ifs at hrest with hne
    · obtain ⟨i', hle, hlt, hr⟩ := ih hnext' hrest
      exact ⟨i', by omega, hlt, hr⟩
    · cases hrest
      refine ⟨k, le_rfl, by omega, ?_⟩
      have hsecond : (clock k).second = (clock (i + 1)).second := by
        have hbound := (h.valid k).1.second
        have hbound' := (h.valid (i + 1)).1.second
        refine @rtcEncode_injective statusb _ _ (by omega) (by omega) ?_
        rw [← h.read_sec hk, ← h.read_sec hnext]
        exact not_not.mp hne
      have hlast : (clock (i + 1)).seconds 2000 < (clock k).seconds 2000 + 60 := by
        have hstart := hminute (i + 1)
        have hfirst := h.forward 0 k (Nat.zero_le k)
        omega
      exact h.pass fun i' hlo hhi => h.stands hk hnext hlast hsecond ⟨hlo, by omega⟩

/-- A clear `UIP` bit ends the wait. -/
theorem awaitUpdate_of_clear (hclear : cmosUpdating bus n = false) (hk : k ≤ n)
    (hfuel : n - k < fuel) : ∃ j, awaitUpdate bus fuel k = some j ∧ k < j ∧ j ≤ n + 1 := by
  induction fuel generalizing k with
  | zero => omega
  | succ fuel ih =>
    unfold awaitUpdate
    split_ifs with hbusy
    · have hne : k ≠ n := by
        rintro rfl
        rw [hclear] at hbusy
        cases hbusy
      obtain ⟨j, hj, hlt, hle⟩ := ih (k := k + 1) (by omega) (by omega)
      exact ⟨j, hj, by omega, hle⟩
    · exact ⟨k + 1, rfl, by omega, by omega⟩

/-- During 18 accesses from `n` on no update is announced, and time stands still. -/
def Calm (bus : RtcBus) (clock : Nat → DateTime) (n : Nat) : Prop :=
  ∀ k, n ≤ k → k < n + 18 → cmosUpdating bus k = false ∧ clock k = clock n

/-- The pass that begins after `n` is the last. -/
theorem RtcClock.loop_of_calm (h : RtcClock bus statusb clock weekday busy)
    (hcalm : Calm bus clock n) (hk : k ≤ n + 9) (hfuel : n + 11 - k ≤ fuel) :
    ∃ x, rtcLoop bus fuel k = some x := by
  induction fuel generalizing k with
  | zero => omega
  | succ fuel ih =>
    have hawait : ∃ j, awaitUpdate bus fuel (k + 7) = some j ∧ k + 7 < j ∧
        (n < k → j = k + 8) ∧ j ≤ max n (k + 7) + 1 := by
      by_cases hearly : k + 7 ≤ n
      · obtain ⟨j, hj, hlt, hle⟩ := @awaitUpdate_of_clear bus fuel _ _
          (hcalm n le_rfl (by omega)).1 hearly (by omega)
        exact ⟨j, hj, hlt, fun hn => by omega, by omega⟩
      · obtain ⟨j, hj, hlt, hle⟩ := @awaitUpdate_of_clear bus fuel _ _
          (hcalm (k + 7) (by omega) (by omega)).1 le_rfl (by omega)
        exact ⟨j, hj, hlt, fun _ => by omega, by omega⟩
    obtain ⟨j, hj, hlt, hlate, hle⟩ := hawait
    unfold rtcLoop
    rw [hj, Option.bind_some]
    split_ifs with hne
    · have hbefore : k ≤ n := by
        by_contra hafter
        obtain rfl := hlate (by omega)
        have hnot := (h.announced (k - 1) (hcalm (k - 1) (by omega) (by omega)).1).1
        rw [Nat.sub_add_cancel (by omega)] at hnot
        have hnot' := (h.announced (k + 7) (hcalm (k + 7) (by omega) (by omega)).1).1
        refine hne ?_
        change cmosRead bus k rtcRegSec = _
        rw [h.read_sec hnot, h.read_sec hnot', (hcalm k (by omega) (by omega)).2,
          (hcalm (k + 7 + 1) (by omega) (by omega)).2]
      exact ih (by omega) (by omega)
    · exact ⟨_, rfl⟩

/-- A clock that stands at 15:09:26 on 14 March 2025, a Friday. -/
def stillBus : RtcBus := fun _ reg =>
  if reg = rtcRegSec then 0x26
  else if reg = rtcRegMin then 0x09
  else if reg = rtcRegHour then 0x15
  else if reg = rtcRegWday then 0x06
  else if reg = rtcRegMday then 0x14
  else if reg = rtcRegMonth then 0x03
  else if reg = rtcRegYear then 0x25
  else if reg = rtcRegStatusB then 0x02
  else 0

theorem rtcClock_still :
    RtcClock stillBus 0x02 (fun _ => ⟨2025, 3, 14, 15, 9, 26⟩) (fun _ => 6) fun _ => False where
  valid _ := by
    refine ⟨⟨?_, ?_, ?_, ?_, ?_⟩, ?_, ?_⟩
    all_goals decide
  wday _ := by decide
  shows k _ := by
    constructor
    all_goals
      change stillBus 0 _ = _
      decide
  statusB k := by
    change stillBus 0 _ = _
    decide
  announced _ _ := ⟨id, id⟩
  forward _ _ _ := le_rfl
  updated _ _ _ _ _ _ hbusy _ := hbusy.elim

end PinguinOS.Drivers
