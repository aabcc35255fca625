import PinguinOS.Drivers.Watchdog
import PinguinOS.Sched.HandOver

/-! The end of `cmain`: the scheduler, the watchdog, and the task that is to pet it. -/
namespace PinguinOS.Os

open Drivers (Watchdog WdtEvent watchdogInit watchdogPet watchdogEnable rtcWdtHandler Counted)
open Sched

def taskPrioLow : Prio := 64
def taskPrioHigh : Prio := 192

structure Kernel where
  sched : State
  wdt : Watchdog

inductive KernelEvent
  /-- A call of the task that executes, or a run of `timer_handler`. -/
  | sched (a : Action)
  /-- The periodic interrupt of the RTC. -/
  | rtc
  /-- `watchdog_pet`, which only `watchdog_task` calls. -/
  | pet

def KernelEvent.isRtc : KernelEvent → Bool
  | .rtc => true
  | _ => false

/-- A step while the slot `watchdog` has `watchdog_task`; none after the reset. -/
def Kernel.step (watchdog : Slot) (k : Kernel) : KernelEvent → Option Kernel
  | .sched a => some { k with sched := act k.sched a }
  | .rtc => (rtcWdtHandler k.wdt).map fun w => { k with wdt := w }
  | .pet =>
    if k.sched.currentTask = some watchdog then some { k with wdt := watchdogPet k.wdt } else none

/-- The entry function of a task, and the stack that `pmm_alloc_pages` returns for it. -/
structure TaskStart where
  fn : UInt32
  sp : UInt32

/-- `cmain` from `sched_init` on; also the slot of `watchdog_task`. -/
def cmain (cmos : BitVec 8 → BitVec 8) (idle watchdog netInit debugShell demo : TaskStart) :
    Option (Kernel × Option Slot) :=
  (schedInit State.zero idle.fn idle.sp).map fun s =>
    let wdt := watchdogInit ⟨0, 0, 0, false, cmos⟩ 10
    let task := taskCreatePrio s watchdog.fn (some "watchdog".toList) taskPrioRt watchdog.sp
    let s := task.1
    let s := (taskCreatePrio s netInit.fn (some "net_init".toList) taskPrioHigh netInit.sp).1
    let s := (taskCreatePrio s debugShell.fn (some "debug_shell".toList) taskPrioNormal
      debugShell.sp).1
    let s := (taskCreatePrio s demo.fn (some "demo".toList) taskPrioLow demo.sp).1
    (⟨s, watchdogEnable wdt⟩, task.2)

/-- The kernel that the run below begins with. -/
def bootedKernel : Kernel :=
  ((cmain (fun _ => 0) ⟨0x101000, 0x201000⟩ ⟨0x102000, 0x203000⟩ ⟨0x103000, 0x205000⟩
    ⟨0x104000, 0x207000⟩ ⟨0x105000, 0x209000⟩).map Prod.fst).getD
      ⟨State.zero, ⟨0, 0, 0, false, fun _ => 0⟩⟩

theorem cmain_booted : cmain (fun _ => 0) ⟨0x101000, 0x201000⟩ ⟨0x102000, 0x203000⟩
    ⟨0x103000, 0x205000⟩ ⟨0x104000, 0x207000⟩ ⟨0x105000, 0x209000⟩ =
      some (bootedKernel, some 1) := rfl

/-- The task in the slot `watchdog` waits while `c` executes, and the watchdog has counted `n`
interrupts. -/
structure Unpetted (watchdog c : Slot) (n : Nat) (k : Kernel) : Prop where
  waits : RtWaits k.sched c
  rt : (k.sched.tasks watchdog).priority = taskPrioRt
  counted : Counted 10240 (.enable :: List.replicate n .rtc) k.wdt

variable {watchdog c : Slot} {n : Nat} {k k' : Kernel} {events : List KernelEvent}
  {e : KernelEvent} {cmos : BitVec 8 → BitVec 8} {t₀ t₁ t₂ t₃ t₄ : TaskStart}

theorem Unpetted.armed : Drivers.armed (.enable :: List.replicate n .rtc) = true :=
  (@Drivers.armed_append_rtc [.enable] n).trans (by decide)

theorem Unpetted.streak : Drivers.streak (.enable :: List.replicate n .rtc) = n :=
  (@Drivers.streak_append_rtc [.enable] n).trans (Nat.zero_add n)

theorem Unpetted.lt (h : Unpetted watchdog c n k) : n < 10240 := by
  have hlt := (h.counted.elapsed Unpetted.armed).2
  rwa [Unpetted.streak] at hlt

/-- The interrupt that resets the machine is the last of the ten seconds. -/
theorem Unpetted.rtc (h : Unpetted watchdog c n k) :
    (k.step watchdog .rtc = none ∧ n = 10239) ∨
      ∃ k', k.step watchdog .rtc = some k' ∧ Unpetted watchdog c (n + 1) k' := by
  have hlt := h.lt
  unfold Kernel.step
  dsimp only
  rcases h.counted.rtc with ⟨hnone, -, hle⟩ | ⟨w, hw, hcounted⟩
  · rw [Unpetted.streak] at hle
    rw [hnone]
    exact Or.inl ⟨rfl, by omega⟩
  · rw [hw]
    refine Or.inr ⟨_, rfl, h.waits, h.rt, ?_⟩
    rwa [List.cons_append, ← List.replicate_succ'] at hcounted

/-- The scheduler. -/
theorem Unpetted.act (h : Unpetted watchdog c n k) {a : Action} (hspare : SparesRt k.sched a) :
    Unpetted watchdog c n { k with sched := Sched.act k.sched a } := by
  have hstep : ∃ c', RtStep k.sched c (Sched.act k.sched a) c' := by
    by_cases htick : a = .tick
    · rw [htick]
      exact h.waits.tick
    · exact ⟨c, h.waits.call htick hspare⟩
  obtain ⟨c', hc'⟩ := hstep
  obtain ⟨hrt, rfl⟩ := hc'.stays watchdog h.rt
  exact ⟨hc'.waits, hrt, h.counted⟩

/-- The watchdog is not petted. -/
theorem Unpetted.no_pet (h : Unpetted watchdog c n k) : k.step watchdog .pet = none := by
  unfold Kernel.step
  dsimp only
  rw [if_neg]
  intro hcurrent
  have hc := Option.some.inj (h.waits.timely.current.symm.trans hcurrent)
  exact h.waits.below (hc ▸ h.rt)

theorem Unpetted.run (h : Unpetted watchdog c n k)
    (hspare : Run.EveryStep (Kernel.step watchdog)
      (fun k e _ => ∀ a, e = .sched a → SparesRt k.sched a) k events)
    (hrun : Run.run (Kernel.step watchdog) k events = some k') :
    Unpetted watchdog c (n + events.countP KernelEvent.isRtc) k' ∧ KernelEvent.pet ∉ events := by
  induction events generalizing k n with
  | nil =>
    cases hrun
    exact ⟨h, List.not_mem_nil⟩
  | cons e events ih =>
    obtain ⟨u, hu, hrest⟩ := Option.bind_eq_some_iff.mp (Run.run_cons ▸ hrun)
    obtain ⟨ha, hspare⟩ := hspare u hu
    rw [List.mem_cons, not_or]
    cases e with
    | sched a =>
      cases hu
      obtain ⟨hlast, hpet⟩ := ih (h.act (ha a rfl)) hspare hrest
      have hno : ¬ (KernelEvent.sched a).isRtc = true := Bool.false_ne_true
      rw [List.countP_cons_of_neg hno]
      exact ⟨hlast, nofun, hpet⟩
    | rtc =>
      rcases h.rtc with ⟨hnone, -⟩ | ⟨v, hv, hnext⟩
      · exact absurd (hnone.symm.trans hu) nofun
      · obtain rfl := Option.some.inj (hv.symm.trans hu)
        obtain ⟨hlast, hpet⟩ := ih hnext hspare hrest
        refine ⟨?_, nofun, hpet⟩
        rwa [List.countP_cons_of_pos rfl, Nat.add_comm _ 1, ← Nat.add_assoc]
    | pet => exact absurd (h.no_pet.symm.trans hu) nofun

/-- What `cmain` leaves. -/
theorem unpetted_cmain (hboot : cmain cmos t₀ t₁ t₂ t₃ t₄ = some (k, some watchdog)) :
    ∃ c, Unpetted watchdog c 0 k := by
  obtain ⟨s, hs, hk⟩ := Option.map_eq_some_iff.mp hboot
  obtain ⟨hk, hslot⟩ := Prod.mk.inj hk
  obtain ⟨c, hstart⟩ := rtWaits_init hs
  have hcreated := allocTask_allocated (Prod.ext rfl hslot :
    allocTask s t₁.fn (some "watchdog".toList) taskPrioRt t₁.sp = (_, some watchdog))
  have h₁ := hstart.call (a := .createPrio t₁.fn (some "watchdog".toList) taskPrioRt t₁.sp)
    nofun trivial
  have h₂ := h₁.waits.call (a := .createPrio t₂.fn (some "net_init".toList) taskPrioHigh t₂.sp)
    nofun trivial
  have h₃ := h₂.waits.call
    (a := .createPrio t₃.fn (some "debug_shell".toList) taskPrioNormal t₃.sp) nofun trivial
  have h₄ := h₃.waits.call (a := .createPrio t₄.fn (some "demo".toList) taskPrioLow t₄.sp)
    nofun trivial
  have hrt := ((h₂.trans h₃).trans h₄).stays watchdog hcreated.priority
  obtain ⟨w, hw, hcounted⟩ := (@Drivers.counted_init ⟨0, 0, 0, false, cmos⟩ 10 rfl).call
    (e := .enable) (by decide) nofun
  cases hw
  rw [← hk]
  exact ⟨c, h₄.waits, hrt.1, hcounted⟩

end PinguinOS.Os
