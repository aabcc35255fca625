import Mathlib.Data.BitVec
import Mathlib.Data.List.Basic
import Mathlib.Tactic.Common
import PinguinOS.Lib.Run

/-! The watchdog of `watchdog.c`, on the periodic interrupt of the RTC. -/
namespace PinguinOS.Drivers

def cmosRegA : BitVec 8 := 0x0A
def cmosRegB : BitVec 8 := 0x0B
def wdtRate : BitVec 8 := 6
def wdtTicksPerS : BitVec 32 := 1024

structure Watchdog where
  wdtTicks : BitVec 32
  wdtPetTicks : BitVec 32
  wdtTimeoutTicks : BitVec 32
  wdtActive : Bool
  /-- The registers of the RTC. -/
  cmos : BitVec 8 → BitVec 8

/-- `watchdog_init`, up to its `irq_register`. -/
def watchdogInit (w : Watchdog) (timeoutSeconds : BitVec 32) : Watchdog :=
  let timeoutSeconds := if timeoutSeconds = 0 then 5 else timeoutSeconds
  let timeoutSeconds := if timeoutSeconds > 60 then 60 else timeoutSeconds
  let regA := (w.cmos cmosRegA &&& 0xF0) ||| wdtRate
  let cmos := Function.update w.cmos cmosRegA regA
  { w with
    wdtTimeoutTicks := timeoutSeconds * wdtTicksPerS
    cmos := Function.update cmos cmosRegB (cmos cmosRegB ||| 0x40) }

def watchdogPet (w : Watchdog) : Watchdog := { w with wdtPetTicks := w.wdtTicks }

def watchdogEnable (w : Watchdog) : Watchdog :=
  { w with wdtPetTicks := w.wdtTicks, wdtActive := true }

def watchdogDisable (w : Watchdog) : Watchdog := { w with wdtActive := false }

/-- `rtc_wdt_handler`; `none` is the reset of `watchdog_fire`. -/
def rtcWdtHandler (w : Watchdog) : Option Watchdog :=
  if w.wdtActive = false then some w
  else
    let w := { w with wdtTicks := w.wdtTicks + 1 }
    let elapsed := w.wdtTicks - w.wdtPetTicks
    if elapsed ≥ w.wdtTimeoutTicks then none else some w

inductive WdtEvent
  /-- The periodic interrupt. -/
  | rtc
  | pet
  | enable
  | disable
  deriving DecidableEq

def wdtStep (w : Watchdog) : WdtEvent → Option Watchdog
  | .rtc => rtcWdtHandler w
  | .pet => some (watchdogPet w)
  | .enable => some (watchdogEnable w)
  | .disable => some (watchdogDisable w)

/-- Whether the last `watchdog_enable` comes after the last `watchdog_disable`. -/
def armed (events : List WdtEvent) : Bool :=
  events.foldl (fun active e => e = .enable ∨ (active ∧ e ≠ .disable)) false

/-- How many interrupts the events end with. -/
def streak (events : List WdtEvent) : Nat :=
  events.foldl (fun n e => if e = .rtc then n + 1 else 0) 0

/-- The seconds that `watchdog_init` takes. -/
def wdtSeconds (timeoutSeconds : BitVec 32) : Nat :=
  if timeoutSeconds = 0 then 5 else min timeoutSeconds.toNat 60

variable {w w' : Watchdog} {events earlier : List WdtEvent} {e : WdtEvent} {n limit : Nat}
  {timeoutSeconds : BitVec 32}

theorem armed_concat : armed (earlier ++ [e]) =
    decide (e = .enable ∨ (armed earlier ∧ e ≠ .disable)) := by
  unfold armed
  rw [List.foldl_append, List.foldl_cons, List.foldl_nil]

theorem streak_concat : streak (earlier ++ [e]) = if e = .rtc then streak earlier + 1 else 0 := by
  unfold streak
  rw [List.foldl_append, List.foldl_cons, List.foldl_nil]

theorem armed_append_rtc : armed (earlier ++ List.replicate n .rtc) = armed earlier := by
  induction n with
  | zero => rw [List.replicate_zero, List.append_nil]
  | succ n ih =>
    rw [List.replicate_succ', ← List.append_assoc, armed_concat, ih]
    simp

theorem streak_append_rtc : streak (earlier ++ List.replicate n .rtc) = streak earlier + n := by
  induction n with
  | zero => rw [List.replicate_zero, List.append_nil, Nat.add_zero]
  | succ n ih =>
    rw [List.replicate_succ', ← List.append_assoc, streak_concat, ih, if_pos rfl]
    omega

/-- Events that end with at least `n` interrupts. -/
theorem exists_of_le_streak (h : n ≤ streak earlier) :
    ∃ first, earlier = first ++ List.replicate n .rtc := by
  induction n generalizing earlier with
  | zero => exact ⟨earlier, by rw [List.replicate_zero, List.append_nil]⟩
  | succ n ih =>
    rcases List.eq_nil_or_concat earlier with rfl | ⟨init, e, rfl⟩
    · cases h
    · rw [List.concat_eq_append] at h ⊢
      rw [streak_concat] at h
      split_ifs at h with he
      · have hle : n ≤ streak init := by omega
        obtain ⟨first, rfl⟩ := ih hle
        exact ⟨first, by rw [he, List.replicate_succ', List.append_assoc]⟩
      · cases h

/-- The watchdog after `earlier`, if it has not reset the machine. -/
structure Counted (limit : Nat) (earlier : List WdtEvent) (w : Watchdog) : Prop where
  active : w.wdtActive = armed earlier
  timeout : w.wdtTimeoutTicks.toNat = limit
  elapsed : armed earlier = true →
    (w.wdtTicks - w.wdtPetTicks).toNat = streak earlier ∧ streak earlier < limit

/-- The interrupt resets the machine, or is counted. -/
theorem Counted.rtc (h : Counted limit earlier w) :
    (rtcWdtHandler w = none ∧ armed earlier = true ∧ limit ≤ streak earlier + 1) ∨
      ∃ w', rtcWdtHandler w = some w' ∧ Counted limit (earlier ++ [.rtc]) w' := by
  have hactive := h.active
  have htimeout := h.timeout
  have harmed : armed (earlier ++ [.rtc]) = armed earlier := armed_append_rtc (n := 1)
  have hstreak : streak (earlier ++ [.rtc]) = streak earlier + 1 := streak_append_rtc (n := 1)
  unfold rtcWdtHandler
  cases harm : armed earlier with
  | false =>
    rw [harm] at hactive harmed
    rw [if_pos hactive]
    refine Or.inr ⟨w, rfl, hactive.trans harmed.symm, htimeout, fun hon => ?_⟩
    rw [harmed] at hon
    cases hon
  | true =>
    obtain ⟨helapsed, hlt⟩ := h.elapsed harm
    have hnext : (w.wdtTicks + 1 - w.wdtPetTicks).toNat = streak earlier + 1 := by
      have hbound := w.wdtTimeoutTicks.isLt
      bv_omega
    rw [if_neg (by rw [hactive, harm]; exact nofun)]
    dsimp only
    split_ifs with hfire
    · rw [ge_iff_le, BitVec.le_def, hnext, htimeout] at hfire
      exact Or.inl ⟨rfl, rfl, hfire⟩
    · rw [ge_iff_le, BitVec.le_def, hnext, htimeout] at hfire
      refine Or.inr ⟨_, rfl, hactive.trans harmed.symm, htimeout, fun _ => ?_⟩
      rw [hstreak]
      exact ⟨hnext, by omega⟩

/-- The calls. -/
theorem Counted.call (h : Counted limit earlier w) (hlimit : 0 < limit) (he : e ≠ .rtc) :
    ∃ w', wdtStep w e = some w' ∧ Counted limit (earlier ++ [e]) w' := by
  have hstreak : streak (earlier ++ [e]) = 0 := by rw [streak_concat, if_neg he]
  have hzero : (w.wdtTicks - w.wdtTicks).toNat = 0 := by simp
  cases e with
  | rtc => exact absurd rfl he
  | pet =>
    refine ⟨_, rfl, ?_, h.timeout, fun _ => hstreak ▸ ⟨hzero, hlimit⟩⟩
    rw [armed_concat]
    simpa [watchdogPet] using h.active
  | enable =>
    refine ⟨_, rfl, ?_, h.timeout, fun _ => hstreak ▸ ⟨hzero, hlimit⟩⟩
    rw [armed_concat]
    simp [watchdogEnable]
  | disable =>
    have hoff : armed (earlier ++ [.disable]) = false := by
      rw [armed_concat]
      simp
    refine ⟨_, rfl, hoff.symm, h.timeout, fun hon => ?_⟩
    rw [hoff] at hon
    cases hon

/-- A run that the watchdog does not end. -/
theorem Counted.run_some (h : Counted limit earlier w) (hlimit : 0 < limit)
    (hrun : Run.run wdtStep w events = some w') : Counted limit (earlier ++ events) w' := by
  induction events generalizing earlier w with
  | nil =>
    cases hrun
    rwa [List.append_nil]
  | cons e events ih =>
    obtain ⟨v, hv, hrest⟩ := Option.bind_eq_some_iff.mp (Run.run_cons ▸ hrun)
    have hnext : Counted limit (earlier ++ [e]) v := by
      by_cases he : e = .rtc
      · subst he
        rcases h.rtc with ⟨hnone, -⟩ | ⟨v', hv', hcounted⟩
        · exact absurd (hnone.symm.trans hv) nofun
        · exact Option.some.inj (hv'.symm.trans hv) ▸ hcounted
      · obtain ⟨v', hv', hcounted⟩ := h.call hlimit he
        exact Option.some.inj (hv'.symm.trans hv) ▸ hcounted
    have hlast := ih hnext hrest
    rwa [List.append_assoc, List.singleton_append] at hlast

/-- A run that it ends. -/
theorem Counted.run_none (h : Counted limit earlier w) (hlimit : 0 < limit)
    (hrun : Run.run wdtStep w events = none) :
    ∃ first later, earlier ++ events = first ++ List.replicate limit .rtc ++ later ∧
      armed first = true := by
  induction events generalizing earlier w with
  | nil => cases hrun
  | cons e events ih =>
    have hgo : ∀ v, wdtStep w e = some v → Counted limit (earlier ++ [e]) v →
        ∃ first later, earlier ++ e :: events = first ++ List.replicate limit .rtc ++ later ∧
          armed first = true := by
      intro v hv hcounted
      rw [Run.run_cons, hv, Option.bind_some] at hrun
      obtain ⟨first, later, heq, hfirst⟩ := ih hcounted hrun
      exact ⟨first, later, by rw [← heq, List.append_assoc, List.singleton_append], hfirst⟩
    by_cases he : e = .rtc
    · subst he
      rcases h.rtc with ⟨-, harmed, hle⟩ | ⟨v, hv, hcounted⟩
      · rw [← streak_append_rtc (n := 1)] at hle
        obtain ⟨first, hfirst⟩ := exists_of_le_streak hle
        refine ⟨first, events, ?_, ?_⟩
        · rw [← hfirst, List.append_assoc]
          rfl
        · have harm := congrArg armed hfirst
          rw [armed_append_rtc, armed_append_rtc, harmed] at harm
          exact harm.symm
      · exact hgo v hv hcounted
    · obtain ⟨v, hv, hcounted⟩ := h.call hlimit he
      exact hgo v hv hcounted

theorem wdtTimeoutTicks_init : (watchdogInit w timeoutSeconds).wdtTimeoutTicks.toNat =
    wdtSeconds timeoutSeconds * 1024 := by
  unfold watchdogInit wdtSeconds wdtTicksPerS
  dsimp only
  by_cases hzero : timeoutSeconds = 0
  · subst hzero
    rfl
  · rw [if_neg hzero, if_neg hzero]
    split_ifs with hlong
    · have hgt : 60 < timeoutSeconds.toNat := BitVec.lt_def.mp hlong
      rw [min_eq_right hgt.le]
      rfl
    · have hle : timeoutSeconds.toNat ≤ 60 := by
        have := mt BitVec.lt_def.mpr hlong
        simpa using this
      rw [min_eq_left hle, BitVec.toNat_mul]
      have hk : (1024 : BitVec 32).toNat = 1024 := rfl
      rw [hk]
      omega

theorem wdtSeconds_pos : 0 < wdtSeconds timeoutSeconds := by
  unfold wdtSeconds
  split_ifs with hzero
  · omega
  · have : timeoutSeconds.toNat ≠ 0 := fun h => hzero (BitVec.eq_of_toNat_eq h)
    omega

theorem counted_init (hactive : w.wdtActive = false) :
    Counted (wdtSeconds timeoutSeconds * 1024) [] (watchdogInit w timeoutSeconds) :=
  ⟨hactive, wdtTimeoutTicks_init, nofun⟩

/-- The watchdog resets the machine if and only if some stretch of the set length has interrupts
only, and begins with the watchdog enabled: whatever the counters were, and also when they wrap. -/
theorem watchdog_resets_iff (hactive : w.wdtActive = false) :
    Run.run wdtStep (watchdogInit w timeoutSeconds) events = none ↔
      ∃ first later, events =
          first ++ List.replicate (wdtSeconds timeoutSeconds * 1024) .rtc ++ later ∧
        armed first = true := by
  have hstart := @counted_init w timeoutSeconds hactive
  have hlimit : 0 < wdtSeconds timeoutSeconds * 1024 := by
    have := @wdtSeconds_pos timeoutSeconds
    omega
  constructor
  · exact hstart.run_none hlimit
  · rintro ⟨first, later, rfl, hfirst⟩
    by_contra hsome
    obtain ⟨v, hv⟩ := Option.ne_none_iff_exists'.mp hsome
    rw [Run.run_append] at hv
    obtain ⟨u, hu, -⟩ := Option.bind_eq_some_iff.mp hv
    have hcounted := hstart.run_some hlimit hu
    rw [List.nil_append] at hcounted
    have hlt := (hcounted.elapsed (armed_append_rtc.trans hfirst)).2
    rw [streak_append_rtc] at hlt
    omega

theorem watchdog_resets_iff_second :
    Run.run wdtStep (watchdogInit ⟨0, 0, 0, false, fun _ => 0⟩ 1)
      (.enable :: List.replicate 1024 .rtc) = none := by
  have hlen : wdtSeconds 1 * 1024 = 1024 := by decide
  refine (watchdog_resets_iff rfl).mpr ⟨[.enable], [], ?_, by decide⟩
  rw [hlen, List.append_nil, List.singleton_append]

end PinguinOS.Drivers
