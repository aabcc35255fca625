import Mathlib.Algebra.Ring.Nat
import PinguinOS.Lib.BitTable
import PinguinOS.Lib.Sweep

/-! The scheduler's module state, and its operations on one task. -/
namespace PinguinOS.Sched

abbrev schedMaxTasks : Nat := 64
def schedStackSize : UInt32 := 8192
def pageSize : UInt32 := 4096
def schedQuantumTicks : UInt32 := 10
def zombieReapTicks : UInt32 := 200
def agingThreshold : UInt32 := 500

/-- A `uint8_t` priority. -/
abbrev Prio := Fin 256

scoped instance prioNeZero : NeZero 256 := ⟨by decide⟩

def taskPrioIdle : Prio := 0
def taskPrioNormal : Prio := 128
def taskPrioRt : Prio := 255

/-- An index into `tasks`; a `task_t *` of the source. -/
abbrev Slot := Fin schedMaxTasks

scoped instance slotNeZero : NeZero schedMaxTasks := ⟨by decide⟩

inductive TaskState
  | unused | ready | running | blocked | zombie | sleeping
  deriving DecidableEq, Repr

/-- Where the `ret` of `sched_switch_context` lands: a stack prepared by `alloc_task` returns
into the entry function, a stack saved by an earlier switch into `timer_handler`. -/
inductive ResumePoint
  | entry (fn : UInt32)
  | timerHandler
  deriving DecidableEq, Repr

structure Task where
  id : UInt32
  name : List Char
  state : TaskState
  ctx : ResumePoint
  stackTop : UInt32
  stackPhys : UInt32
  priority : Prio
  basePriority : Prio
  quantumTicks : UInt32
  waitTicks : UInt32
  runTicks : UInt32
  sleepUntilMs : UInt32
  totalTicks : UInt64
  contextSwitches : UInt32
  lastRunMs : UInt32
  createdMs : UInt32
  exitCode : Int32
  zombieTicks : UInt32

/-- What `memset(t, 0, sizeof(*t))` leaves. -/
def Task.zero : Task where
  id := 0
  name := []
  state := .unused
  ctx := .entry 0
  stackTop := 0
  stackPhys := 0
  priority := 0
  basePriority := 0
  quantumTicks := 0
  waitTicks := 0
  runTicks := 0
  sleepUntilMs := 0
  totalTicks := 0
  contextSwitches := 0
  lastRunMs := 0
  createdMs := 0
  exitCode := 0
  zombieTicks := 0

abbrev PrioBitmap := Fin 8 → BitVec 32

structure State where
  tasks : Slot → Task
  currentTask : Option Slot
  nextId : UInt32
  uptimeMs : UInt32
  prioBitmap : PrioBitmap
  /-- The stack pointer `tss_set_kernel_stack` stored last. -/
  tssEsp0 : UInt32
  /-- The calls of `pmm_free_pages` made so far, newest first. -/
  freedStacks : List (UInt32 × UInt32)

/-- The statics as the image is loaded. -/
def State.zero : State where
  tasks := fun _ => Task.zero
  currentTask := none
  nextId := 1
  uptimeMs := 0
  prioBitmap := fun _ => 0
  tssEsp0 := 0
  freedStacks := []

/-- `prio >> 5` -/
def prioWord (prio : Prio) : Fin 8 := ⟨prio.val / 32, by omega⟩

/-- `prio & 31` -/
def prioBit (prio : Prio) : Nat := prio.val % 32

/-- Whether the bit of `prio` is set. -/
def bitmapTest (s : State) (prio : Prio) : Bool :=
  BitTable.test s.prioBitmap (prioWord prio) (prioBit prio)

def bitmapSet (s : State) (prio : Prio) : State :=
  { s with prioBitmap := BitTable.set s.prioBitmap (prioWord prio) (prioBit prio) }

def bitmapClear (s : State) (prio : Prio) : State :=
  { s with prioBitmap := BitTable.clear s.prioBitmap (prioWord prio) (prioBit prio) }

/-- The task a `task_t *` points to, rewritten in place. -/
def State.modify (s : State) (i : Slot) (f : Task → Task) : State :=
  { s with tasks := Function.update s.tasks i (f (s.tasks i)) }

theorem prioBit_lt (p : Prio) : prioBit p < 32 := Nat.mod_lt _ (by decide)

theorem prioWord_prioBit_eq {p q : Prio} :
    prioWord p = prioWord q ∧ prioBit p = prioBit q ↔ p = q := by
  constructor
  · rintro ⟨hw, hb⟩
    have hw := congrArg Fin.val hw
    simp only [prioWord, prioBit] at hw hb
    exact Fin.ext (by omega)
  · rintro rfl
    exact ⟨rfl, rfl⟩

section frame

variable (s : State) (i j : Slot) (f : Task → Task) (p q : Prio)

@[simp] theorem bitmapTest_set :
    bitmapTest (bitmapSet s p) q = (decide (p = q) || bitmapTest s q) := by
  simp only [bitmapTest, bitmapSet, BitTable.test_set (prioBit_lt q), prioWord_prioBit_eq]

@[simp] theorem bitmapTest_clear :
    bitmapTest (bitmapClear s p) q = (!decide (p = q) && bitmapTest s q) := by
  simp only [bitmapTest, bitmapClear, BitTable.test_clear (prioBit_lt q), prioWord_prioBit_eq]

@[simp] theorem bitmapTest_modify : bitmapTest (s.modify i f) q = bitmapTest s q := rfl

@[simp] theorem bitmapSet_tasks : (bitmapSet s p).tasks = s.tasks := rfl
@[simp] theorem bitmapSet_currentTask : (bitmapSet s p).currentTask = s.currentTask := rfl
@[simp] theorem bitmapSet_uptimeMs : (bitmapSet s p).uptimeMs = s.uptimeMs := rfl

@[simp] theorem bitmapClear_tasks : (bitmapClear s p).tasks = s.tasks := rfl
@[simp] theorem bitmapClear_currentTask : (bitmapClear s p).currentTask = s.currentTask := rfl
@[simp] theorem bitmapClear_uptimeMs : (bitmapClear s p).uptimeMs = s.uptimeMs := rfl

@[simp] theorem modify_currentTask : (s.modify i f).currentTask = s.currentTask := rfl
@[simp] theorem modify_uptimeMs : (s.modify i f).uptimeMs = s.uptimeMs := rfl

@[simp] theorem modify_same : (s.modify i f).tasks i = f (s.tasks i) := by simp [State.modify]

theorem modify_tasks : (s.modify i f).tasks j = if j = i then f (s.tasks j) else s.tasks j := by
  by_cases h : j = i
  · subst h
    simp
  · simp [State.modify, h]

@[simp] theorem modify_of_ne {j : Slot} (h : j ≠ i) : (s.modify i f).tasks j = s.tasks j := by
  simp [modify_tasks, h]

end frame

/-- `alloc_task`; `sp` is what its call of `pmm_alloc_pages` returns, 0 when that fails. -/
def allocTask (s : State) (fn : UInt32) (name : Option (List Char)) (prio : Prio) (sp : UInt32) :
    State × Option Slot :=
  match (List.finRange schedMaxTasks).find? fun i => (s.tasks i).state = .unused with
  | none => (s, none)
  | some i =>
    if sp = 0 then (s, none)
    else
      let s := s.modify i fun _ =>
        { Task.zero with
          id := s.nextId
          state := .ready
          priority := prio
          basePriority := prio
          quantumTicks := schedQuantumTicks
          stackPhys := sp
          stackTop := sp + schedStackSize
          createdMs := s.uptimeMs
          name := (name.getD "unnamed".toList).take 31
          ctx := .entry fn }
      (bitmapSet { s with nextId := s.nextId + 1 } prio, some i)

/-- What a successful `alloc_task` does to the state `s` it finds. -/
structure Allocated (s u : State) (i : Slot) (fn : UInt32) (prio : Prio) : Prop where
  unused : (s.tasks i).state = .unused
  state : (u.tasks i).state = .ready
  priority : (u.tasks i).priority = prio
  ctx : (u.tasks i).ctx = .entry fn
  others : ∀ j, j ≠ i → u.tasks j = s.tasks j
  currentTask : u.currentTask = s.currentTask
  bitmap : ∀ q, bitmapTest u q = (decide (prio = q) || bitmapTest s q)

theorem allocTask_result (s : State) (fn : UInt32) (name : Option (List Char)) (prio : Prio)
    (sp : UInt32) :
    allocTask s fn name prio sp = (s, none) ∨
      ∃ u i, allocTask s fn name prio sp = (u, some i) ∧ Allocated s u i fn prio := by
  unfold allocTask
  cases hfind : (List.finRange schedMaxTasks).find? fun i => (s.tasks i).state = .unused with
  | none => exact Or.inl rfl
  | some i =>
    have hun : (s.tasks i).state = .unused := by simpa using List.find?_some hfind
    simp only
    split_ifs with hsp
    · exact Or.inl rfl
    · refine Or.inr ⟨_, i, rfl, ?_⟩
      constructor
      · exact hun
      · simp
      · simp
      · simp
      · intro j hj
        simp [hj]
      · simp
      · intro q
        rw [bitmapTest_set]
        rfl

def taskCreate (s : State) (fn : UInt32) (name : Option (List Char)) (sp : UInt32) :
    State × Option Slot := allocTask s fn name taskPrioNormal sp

def taskCreatePrio (s : State) (fn : UInt32) (name : Option (List Char)) (prio : Prio)
    (sp : UInt32) : State × Option Slot := allocTask s fn name prio sp

def taskSetPriority (s : State) (t : Option Slot) (prio : Prio) : State :=
  match t with
  | none => s
  | some t =>
    let s := if (s.tasks t).state = .ready then bitmapClear s (s.tasks t).priority else s
    let s := s.modify t fun t => { t with priority := prio, basePriority := prio }
    if (s.tasks t).state = .ready then bitmapSet s prio else s

/-- `task_exit` up to its `task_yield`. -/
def taskExit (s : State) (exitCode : Int32) : State :=
  match s.currentTask with
  | none => s
  | some c => s.modify c fun t => { t with exitCode := exitCode, state := .zombie, zombieTicks := 0 }

/-- `task_sleep` up to its `task_yield`. -/
def taskSleep (s : State) (ms : UInt32) : State :=
  match s.currentTask with
  | none => s
  | some c =>
    if ms = 0 then s
    else
      let s := s.modify c fun t => { t with sleepUntilMs := s.uptimeMs + ms, state := .sleeping }
      bitmapClear s (s.tasks c).priority

def taskWake (s : State) (t : Option Slot) : State :=
  match t with
  | none => s
  | some t =>
    if (s.tasks t).state = .sleeping ∨ (s.tasks t).state = .blocked then
      let s := s.modify t fun t => { t with sleepUntilMs := 0, state := .ready }
      bitmapSet s (s.tasks t).priority
    else s

section calls

variable {s : State} {c j : Slot} {t : Option Slot} {prio : Prio} {ms : UInt32} {e : Int32}

@[simp] theorem taskSetPriority_currentTask :
    (taskSetPriority s t prio).currentTask = s.currentTask := by
  cases t with
  | none => rfl
  | some i =>
    unfold taskSetPriority
    by_cases h : (s.tasks i).state = .ready
    · simp [h]
    · simp [h]

@[simp] theorem taskSetPriority_state :
    ((taskSetPriority s t prio).tasks j).state = (s.tasks j).state := by
  cases t with
  | none => rfl
  | some i =>
    unfold taskSetPriority
    by_cases hj : j = i
    · subst hj
      by_cases h : (s.tasks j).state = .ready
      · simp [h]
      · simp [h]
    · by_cases h : (s.tasks i).state = .ready
      · simp [h, hj]
      · simp [h, hj]

theorem taskExit_currentTask : (taskExit s e).currentTask = s.currentTask := by
  unfold taskExit
  cases h : s.currentTask with
  | none => exact h
  | some c => exact h

theorem taskExit_state (hc : s.currentTask = some c) :
    ((taskExit s e).tasks j).state = if j = c then .zombie else (s.tasks j).state := by
  simp only [taskExit, hc, modify_tasks]
  split_ifs with hj
  · rfl
  · rfl

theorem taskSleep_currentTask : (taskSleep s ms).currentTask = s.currentTask := by
  unfold taskSleep
  cases h : s.currentTask with
  | none => exact h
  | some c =>
    simp only
    split_ifs
    · exact h
    · exact h

theorem taskSleep_state (hc : s.currentTask = some c) (hms : ms ≠ 0) :
    ((taskSleep s ms).tasks j).state = if j = c then .sleeping else (s.tasks j).state := by
  simp only [taskSleep, hc, hms, if_false, bitmapClear_tasks, modify_tasks]
  split_ifs with hj
  · rfl
  · rfl

theorem taskWake_currentTask : (taskWake s t).currentTask = s.currentTask := by
  cases t with
  | none => rfl
  | some i =>
    unfold taskWake
    simp only
    split_ifs
    · rfl
    · rfl

theorem taskWake_state :
    ((taskWake s t).tasks j).state =
      if t = some j ∧ ((s.tasks j).state = .sleeping ∨ (s.tasks j).state = .blocked) then .ready
      else (s.tasks j).state := by
  cases t with
  | none => simp [taskWake]
  | some i =>
    unfold taskWake
    by_cases hj : j = i
    · subst hj
      by_cases h : (s.tasks j).state = .sleeping ∨ (s.tasks j).state = .blocked
      · simp [h]
      · simp [h]
    · by_cases h : (s.tasks i).state = .sleeping ∨ (s.tasks i).state = .blocked
      · simp [h, hj, Ne.symm hj]
      · simp [h, Ne.symm hj]

end calls

/-- `sched_init`; `none` is its `kpanic`. -/
def schedInit (s : State) (idleTaskFn : UInt32) (sp : UInt32) : Option State :=
  let s := { s with tasks := fun _ => Task.zero, prioBitmap := fun _ => 0 }
  match taskCreatePrio s idleTaskFn (some "idle".toList) taskPrioIdle sp with
  | (_, none) => none
  | (s, some idle) =>
    let s := s.modify idle fun t => { t with state := .running }
    let s := bitmapClear { s with currentTask := some idle } taskPrioIdle
    some { s with tssEsp0 := (s.tasks idle).stackTop }

/-- What `sched_init` leaves: the idle task running, no other task, and an empty bitmap. -/
structure Initial (s : State) (idle : Slot) : Prop where
  currentTask : s.currentTask = some idle
  running : (s.tasks idle).state = .running
  others : ∀ j, j ≠ idle → s.tasks j = Task.zero
  bitmap : ∀ p, bitmapTest s p = false

theorem schedInit_result {s₀ s : State} {idleTaskFn sp : UInt32}
    (h : schedInit s₀ idleTaskFn sp = some s) : ∃ idle, Initial s idle := by
  unfold schedInit taskCreatePrio at h
  have hres := allocTask_result { s₀ with tasks := fun _ => Task.zero, prioBitmap := fun _ => 0 }
    idleTaskFn (some "idle".toList) taskPrioIdle sp
  have hempty : ∀ p, bitmapTest
      { s₀ with tasks := fun _ => Task.zero, prioBitmap := fun _ => 0 } p = false := by
    intro p
    simp [bitmapTest, BitTable.test]
  have hzero : ∀ j, State.tasks
      { s₀ with tasks := fun _ => Task.zero, prioBitmap := fun _ => 0 } j = Task.zero :=
    fun _ => rfl
  generalize { s₀ with tasks := fun _ => Task.zero, prioBitmap := fun _ => 0 } = b at *
  dsimp only at h
  rcases hres with hnone | ⟨u, idle, hsome, hu⟩
  · rw [hnone] at h
    cases h
  · rw [hsome] at h
    cases h
    constructor
    · constructor
      · rfl
      · simp
      · intro j hj
        simp [hj, hu.others, hzero]
      · intro p
        calc bitmapTest (bitmapClear u taskPrioIdle) p
            = (!decide (taskPrioIdle = p) && bitmapTest u p) := bitmapTest_clear u taskPrioIdle p
          _ = false := by simp [hu.bitmap, hempty]

/-- The first state of the runs that are written out below. -/
def booted : State := (schedInit State.zero 0x00101000 0x00200000).getD State.zero

theorem schedInit_zero : schedInit State.zero 0x00101000 0x00200000 = some booted := rfl

end PinguinOS.Sched
