import PinguinOS.Sched.Machine

/-! `isr_dispatch` on the timer line: where the end of interrupt stands relative to the switch. -/
namespace PinguinOS.Sched

/-- The two sources of vector 0x20. -/
inductive Line
  | pit
  | apicTimer
  deriving DecidableEq, Repr

/-- What happens between the entry of an interrupt and the task code after it, in order. -/
inductive Moment
  /-- `sched_switch_context` hands the CPU to a task. -/
  | switchContext (n : Slot)
  | apicEoi
  | picSendEoi
  /-- A task executes its own code. -/
  | runs (n : Slot)
  deriving DecidableEq, Repr

/-- `isr_dispatch` for `int_no` 32, given what `timer_handler` did. The task it switched to goes
on in the `isr_dispatch` in which it was suspended, or starts in its entry function. -/
def isrDispatch (c : Slot) : Option (Slot × ResumePoint) → List Moment
  | none => [.apicEoi, .picSendEoi, .runs c]
  | some (n, .timerHandler) => [.switchContext n, .apicEoi, .picSendEoi, .runs n]
  | some (n, .entry _) => [.switchContext n, .runs n]

/-- For each line, the task in whose context its interrupt in service was taken. -/
abbrev InService := Line → Option Slot

/-- `apic_eoi` does nothing while `apic` is `NULL`; IRQ 0 is the first that `PIC_EOI` ends. -/
def Moment.ack (apic : Bool) (b : InService) : Moment → InService
  | .apicEoi => if apic then Function.update b .apicTimer none else b
  | .picSendEoi => Function.update b .pit none
  | _ => b

/-- At a switch the end of interrupt has been issued, and no task executes its own code while an
interrupt taken in another task's context is in service. -/
def Acknowledged (apic : Bool) : InService → List Moment → Prop
  | _, [] => True
  | b, moment :: rest =>
    (match moment with
      | .switchContext _ => ∀ line, b line = none
      | .runs n => ∀ line c, b line = some c → c = n
      | _ => True) ∧
    Acknowledged apic (moment.ack apic b) rest

structure Cpu where
  machine : Machine
  /-- `apic` is not `NULL`. -/
  apic : Bool
  inService : InService

inductive Cause
  | irq (line : Line)
  /-- Anything a task does by itself. -/
  | call (e : Event)

/-- What the interrupt or yield that starts now leads through. -/
def Cpu.moments (c : Cpu) : List Moment :=
  isrDispatch c.machine.cpu (timerHandler c.machine.sched).2

/-- The in-service bits after these moments. -/
def Cpu.settle (c : Cpu) (b : InService) : InService := c.moments.foldl (Moment.ack c.apic) b

/-- The in-service bits as the interrupt on `line` is delivered. -/
def Cpu.deliver (c : Cpu) (line : Line) : InService :=
  Function.update c.inService line (some c.machine.cpu)

/-- A line whose interrupt is in service delivers no other. -/
def Cpu.step (c : Cpu) : Cause → Option Cpu
  | .irq line =>
    if c.inService line = none ∧ (line = .apicTimer → c.apic = true) then
      some { c with machine := c.machine.timer, inService := c.settle (c.deliver line) }
    else none
  | .call .interrupt => none
  | .call .yield =>
    (c.machine.step .yield).map fun m =>
      { c with machine := m, inService := c.settle c.inService }
  | .call e => (c.machine.step e).map fun m => { c with machine := m }

/-- The step keeps the order that is asked for. -/
def Acknowledges (c : Cpu) : Cause → Prop
  | .irq line => Acknowledged c.apic (c.deliver line) c.moments
  | .call .yield => Acknowledged c.apic c.inService c.moments
  | .call _ => True

/-- The interrupt does not end in a switch. -/
def StaysOn (c : Cpu) : Cause → Prop
  | .irq _ => ∀ i, c.machine.sched.currentTask = some i → ¬ Switches c.machine.sched i
  | .call _ => True

/-- No interrupt is in service. -/
def Cpu.Idle (c : Cpu) : Prop := ∀ line, c.inService line = none

def Cpu.start (m : Machine) (apic : Bool) : Cpu where
  machine := m
  apic := apic
  inService := fun _ => none

variable {c c' : Cpu} {cause : Cause} {line : Line} {apic : Bool} {b : InService}

theorem handed_iff {s : State} :
    (timerHandler s).2.isSome ↔ ∃ i, s.currentTask = some i ∧ Switches s i := by
  cases hc : s.currentTask with
  | none => simp [timerHandler_idle hc]
  | some i => simp [timerHandler_transfer_iff hc]

/-- While nothing is in service, the acknowledgements change nothing. -/
theorem ack_none (hb : ∀ line, b line = none) (moments : List Moment) (line : Line) :
    moments.foldl (Moment.ack apic) b line = none := by
  induction moments generalizing b with
  | nil => exact hb line
  | cons moment rest ih =>
    apply ih
    intro line
    cases moment with
    | apicEoi =>
      unfold Moment.ack
      split_ifs
      · by_cases hl : line = .apicTimer
        · simp [hl]
        · simp [hl, hb]
      · exact hb line
    | picSendEoi =>
      by_cases hl : line = .pit
      · simp [Moment.ack, hl]
      · simp [Moment.ack, hl, hb]
    | switchContext n => exact hb line
    | runs n => exact hb line

theorem acknowledged_none (hb : ∀ line, b line = none) (moments : List Moment) :
    Acknowledged apic b moments := by
  induction moments generalizing b with
  | nil => trivial
  | cons moment rest ih =>
    refine ⟨?_, ih fun line => @ack_none apic b hb [moment] line⟩
    cases moment with
    | switchContext n => exact hb
    | runs n => simp [hb]
    | apicEoi => trivial
    | picSendEoi => trivial

/-- The two acknowledgements at the end of `isr_dispatch` end every interrupt. -/
theorem ack_delivered (hb : c.Idle) (hl : line = .apicTimer → c.apic = true) (line' : Line) :
    (Moment.picSendEoi.ack c.apic (Moment.apicEoi.ack c.apic (c.deliver line))) line' = none := by
  cases line with
  | pit =>
    cases line' with
    | pit => simp [Moment.ack]
    | apicTimer =>
      have := hb .apicTimer
      cases hapic : c.apic <;> simp [Moment.ack, Cpu.deliver, this]
  | apicTimer =>
    rw [hl rfl]
    cases line' with
    | pit => simp [Moment.ack]
    | apicTimer => simp [Moment.ack]

theorem settle_stay (hb : c.Idle) (hl : line = .apicTimer → c.apic = true)
    (hstay : (timerHandler c.machine.sched).2 = none) :
    Acknowledged c.apic (c.deliver line) c.moments ∧
      ∀ line', c.settle (c.deliver line) line' = none := by
  have hnone := ack_delivered hb hl
  rw [Cpu.settle, Cpu.moments, hstay]
  refine ⟨⟨trivial, trivial, ?_, trivial⟩, hnone⟩
  intro line' i hi
  exact absurd (hi.symm.trans (hnone line')) (by simp)

/-- At a switch the interrupt has not been acknowledged. -/
theorem not_acknowledged_switch (hswitch : (timerHandler c.machine.sched).2.isSome) :
    ¬ Acknowledged c.apic (c.deliver line) c.moments := by
  obtain ⟨⟨n, resume⟩, hn⟩ := Option.isSome_iff_exists.mp hswitch
  have hfirst : ¬ ∀ line', c.deliver line line' = none := by
    intro h
    simpa [Cpu.deliver] using h line
  rw [Cpu.moments, hn]
  cases resume with
  | entry fn => exact fun h => hfirst h.1
  | timerHandler => exact fun h => hfirst h.1

theorem acknowledges_step (h : c.Idle) (hstep : c.step cause = some c') :
    (Acknowledges c cause ↔ StaysOn c cause) ∧ (StaysOn c cause → c'.Idle) := by
  cases cause with
  | irq line =>
    simp only [Cpu.step] at hstep
    split_ifs at hstep with hline
    cases hstep
    have hstay : StaysOn c (.irq line) ↔ (timerHandler c.machine.sched).2 = none := by
      rw [← Option.not_isSome_iff_eq_none, handed_iff]
      simp [StaysOn]
    rw [hstay]
    constructor
    · constructor
      · intro hack
        by_contra hsome
        exact not_acknowledged_switch (Option.isSome_iff_ne_none.mpr hsome) hack
      · intro hnone
        exact (settle_stay h hline.2 hnone).1
    · intro hnone
      exact (settle_stay h hline.2 hnone).2
  | call e =>
    cases e with
    | interrupt => cases hstep
    | yield =>
      obtain ⟨m, -, rfl⟩ := Option.map_eq_some_iff.mp hstep
      constructor
      · exact iff_of_true (acknowledged_none h _) trivial
      · intro _ line
        exact ack_none h _ line
    | sleep _ | exit _ | wake _ | create _ _ _ | createPrio _ _ _ _ | setPriority _ _ =>
      simp only [Cpu.step, Option.map_eq_some_iff] at hstep
      obtain ⟨m, -, rfl⟩ := hstep
      exact ⟨Iff.rfl, fun _ => h⟩

/-- A run keeps the order exactly when none of its interrupts switches tasks. -/
theorem acknowledges_iff (m : Machine) (apic : Bool) (causes : List Cause) :
    Run.EveryStep Cpu.step (fun c cause _ => Acknowledges c cause) (Cpu.start m apic) causes ↔
      Run.EveryStep Cpu.step (fun c cause _ => StaysOn c cause) (Cpu.start m apic) causes := by
  refine Run.everyStep_iff (I := Cpu.Idle) ?_ fun _ => rfl
  intro c cause c' h hstep
  exact acknowledges_step h hstep

/-- Ten ticks after a task was created, the boot task's quantum ends. -/
def tenTicks : List Cause :=
  .call (.create 0x102000 none 0x202000) :: List.replicate 9 (.irq .pit)

/-- The new task starts in its entry function, with the interrupt unacknowledged. -/
theorem not_acknowledges_tenTicks :
    ¬ ∀ (s₀ s : State) (fn sp : UInt32) (apic : Bool) (causes : List Cause),
      schedInit s₀ fn sp = some s →
      Run.EveryStep Cpu.step (fun c cause _ => Acknowledges c cause)
        (Cpu.start (Machine.start s) apic) causes := by
  intro h
  have hrun := h _ _ _ _ false (tenTicks ++ [.irq .pit]) schedInit_zero
  have hreach : ((Run.run Cpu.step (Cpu.start (Machine.start booted) false) tenTicks).map
      fun c => (c.inService .pit, c.moments)) = some (none, [.switchContext 1, .runs 1]) := by
    decide +kernel
  obtain ⟨c, hc, hm⟩ := Option.map_eq_some_iff.mp hreach
  obtain ⟨hfree, hm⟩ := Prod.mk.inj hm
  have hlast := hrun.last hc (if_pos ⟨hfree, by simp⟩)
  rw [Acknowledges, hm] at hlast
  simpa [Cpu.deliver] using hlast.1 .pit

end PinguinOS.Sched
