import PinguinOS.Lib.Run
import PinguinOS.Sched.Tick

/-! The CPU under the scheduler: which task it executes, and where each task is in its code. -/
namespace PinguinOS.Sched

/-- Where a task is, as far as `task_sleep` and `task_exit` are concerned. -/
inductive Position
  | code
  /-- In `task_sleep`, before its `int $0x20`. -/
  | sleepCall
  /-- Off the CPU inside that `int $0x20`. -/
  | sleepYield
  /-- In `task_exit`, before its `int $0x20`. -/
  | exitCall
  /-- Off the CPU inside that `int $0x20`. -/
  | exitYield
  /-- In the `hlt` loop at the end of `task_exit`. -/
  | halted
  deriving DecidableEq, Repr

/-- `int $0x20`; the `hlt` loop executes none. -/
def Position.enterYield : Position → Option Position
  | .code => some .code
  | .sleepCall => some .sleepYield
  | .exitCall => some .exitYield
  | _ => none

/-- The `iret` that ends it. -/
def Position.leaveYield : Position → Position
  | .sleepYield => .code
  | .exitYield => .halted
  | p => p

structure Machine where
  sched : State
  /-- The task the CPU executes. -/
  cpu : Slot
  position : Slot → Position
  /-- The task has called `task_sleep`, and nothing has made it READY since. -/
  asleep : Slot → Bool

inductive Event
  /-- A timer interrupt. -/
  | interrupt
  /-- `task_yield`, also the one at the end of `task_sleep` and `task_exit`. -/
  | yield
  | sleep (ms : UInt32)
  | exit (exitCode : Int32)
  | wake (t : Option Slot)
  | create (fn : UInt32) (name : Option (List Char)) (sp : UInt32)
  | createPrio (fn : UInt32) (name : Option (List Char)) (prio : Prio) (sp : UInt32)
  | setPriority (t : Option Slot) (prio : Prio)

/-- The `iret` or `ret` after the handler: into the task it handed the CPU to, or else back into
the interrupted one. -/
def Machine.afterHandler (m : Machine) (r : State × Option (Slot × ResumePoint)) : Machine :=
  let asleep := fun i => m.asleep i && !decide (Due (m.sched.uptimeMs + 1) (m.sched.tasks i))
  match r.2 with
  | none =>
    { sched := r.1, cpu := m.cpu, asleep := asleep
      position := Function.update m.position m.cpu (m.position m.cpu).leaveYield }
  | some (n, .entry _) =>
    { sched := r.1, cpu := n, asleep := asleep
      position := Function.update m.position n .code }
  | some (n, .timerHandler) =>
    { sched := r.1, cpu := n, asleep := asleep
      position := Function.update m.position n (m.position n).leaveYield }

/-- `timer_handler` on the stack of the executing task. -/
def Machine.timer (m : Machine) : Machine := m.afterHandler (timerHandler m.sched)

/-- The bookkeeping for a new task. -/
def Machine.created (m : Machine) : State × Option Slot → Machine
  | (s, none) => { m with sched := s }
  | (s, some i) =>
    { m with
      sched := s
      position := Function.update m.position i .code
      asleep := Function.update m.asleep i false }

/-- `task_sleep` and `task_exit` are calls of the executing task. -/
def Machine.step (m : Machine) : Event → Option Machine
  | .interrupt => some m.timer
  | .yield =>
    (m.position m.cpu).enterYield.map fun p =>
      Machine.timer { m with position := Function.update m.position m.cpu p }
  | .sleep ms =>
    if m.position m.cpu ≠ .code then none
    else if m.sched.currentTask = none ∨ ms = 0 then some m
    else some { m with
      sched := taskSleep m.sched ms
      position := Function.update m.position m.cpu .sleepCall
      asleep := Function.update m.asleep m.cpu true }
  | .exit exitCode =>
    if m.position m.cpu ≠ .code then none
    else some { m with
      sched := taskExit m.sched exitCode
      position := Function.update m.position m.cpu .exitCall }
  | .wake t =>
    some { m with
      sched := taskWake m.sched t
      asleep := fun i => m.asleep i && !decide (t = some i ∧
        ((m.sched.tasks i).state = .sleeping ∨ (m.sched.tasks i).state = .blocked)) }
  | .create fn name sp => some (m.created (taskCreate m.sched fn name sp))
  | .createPrio fn name prio sp => some (m.created (taskCreatePrio m.sched fn name prio sp))
  | .setPriority t prio => some { m with sched := taskSetPriority m.sched t prio }

/-- The code that called `sched_init` goes on as the task that it made current. -/
def Machine.start (s : State) : Machine where
  sched := s
  cpu := s.currentTask.getD 0
  position := fun _ => .code
  asleep := fun _ => false

end PinguinOS.Sched
