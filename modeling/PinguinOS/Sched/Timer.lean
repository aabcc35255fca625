import PinguinOS.Sched.PickNext
import Mathlib.Data.List.FinRange

/-! `timer_handler` and the sweeps over the task table that it runs. -/
namespace PinguinOS.Sched

/-- The body of the loop of `wake_sleepers`. -/
def wakeSleeper (s : State) (i : Slot) : State :=
  if (s.tasks i).state = .sleeping ∧ s.uptimeMs ≥ (s.tasks i).sleepUntilMs then
    let s := s.modify i fun t => { t with state := .ready }
    bitmapSet s (s.tasks i).priority
  else s

def wakeSleepers (s : State) : State := (List.finRange schedMaxTasks).foldl wakeSleeper s

/-- The body of the loop of `age_tasks`. -/
def ageTask (s : State) (i : Slot) : State :=
  if (s.tasks i).state ≠ .ready then s
  else
    let s := s.modify i fun t => { t with waitTicks := t.waitTicks + 1 }
    if (s.tasks i).waitTicks ≥ agingThreshold ∧ (s.tasks i).priority < 254 then
      let s := bitmapClear s (s.tasks i).priority
      let s := s.modify i fun t => { t with priority := t.priority + 1, waitTicks := 0 }
      bitmapSet s (s.tasks i).priority
    else s

def ageTasks (s : State) : State := (List.finRange schedMaxTasks).foldl ageTask s

/-- The body of the loop of `reap_zombies`. -/
def reapZombie (s : State) (i : Slot) : State :=
  if (s.tasks i).state ≠ .zombie then s
  else
    let s := s.modify i fun t => { t with zombieTicks := t.zombieTicks + 1 }
    if (s.tasks i).zombieTicks ≥ zombieReapTicks ∧ (s.tasks i).stackPhys ≠ 0 then
      let s := { s with
        freedStacks := ((s.tasks i).stackPhys, schedStackSize / pageSize) :: s.freedStacks }
      s.modify i fun t => { t with stackPhys := 0, state := .unused }
    else s

def reapZombies (s : State) : State := (List.finRange schedMaxTasks).foldl reapZombie s

/-- `if ((uptime_ms % 50) == 0) { age_tasks(); reap_zombies(); }` -/
def ageAndReap (s : State) : State :=
  if s.uptimeMs % 50 = 0 then reapZombies (ageTasks s) else s

def mlfqDemote (s : State) (c : Slot) : State :=
  if (s.tasks c).priority ≤ taskPrioIdle then s
  else if (s.tasks c).basePriority ≥ taskPrioRt then s
  else if (s.tasks c).priority > 1 then
    let s := bitmapClear s (s.tasks c).priority
    let s := s.modify c fun t => { t with priority := t.priority - 1 }
    if (s.tasks c).state = .ready then
      bitmapSet s (s.tasks c).priority
    else s
  else s

/-- From the expired quantum to the call of `sched_pick_next`. -/
def requeue (s : State) (c : Slot) : State :=
  let s := mlfqDemote s c
  let s := s.modify c fun t => { t with runTicks := 0 }
  if (s.tasks c).state = .running then
    let s := s.modify c fun t => { t with state := .ready }
    bitmapSet s (s.tasks c).priority
  else s

/-- The branch `!next || next == current_task`. -/
def keepCurrent (s : State) (c : Slot) : State :=
  let s := s.modify c fun t => { t with state := .running }
  bitmapClear s (s.tasks c).priority

/-- `sched_switch_context(&old->ctx, &next->ctx)`: the old task is left suspended inside
`timer_handler`, and control goes to where `next` was suspended. -/
def schedSwitchContext (s : State) (old next : Slot) : State × ResumePoint :=
  (s.modify old fun t => { t with ctx := .timerHandler }, (s.tasks next).ctx)

/-- The rest of `timer_handler`, up to and including the switch. -/
def switchTo (s : State) (old next : Slot) : State × ResumePoint :=
  let s := { s with currentTask := some next }
  let s := bitmapClear s (s.tasks next).priority
  let s := s.modify next fun t =>
    { t with
      state := .running
      waitTicks := 0
      contextSwitches := t.contextSwitches + 1
      lastRunMs := s.uptimeMs }
  let s := { s with tssEsp0 := (s.tasks next).stackTop }
  schedSwitchContext s old next

/-- The head of `timer_handler`. -/
def tickClock (s : State) : State := wakeSleepers { s with uptimeMs := s.uptimeMs + 1 }

def chargeTick (s : State) (c : Slot) : State :=
  s.modify c fun t => { t with totalTicks := t.totalTicks + 1, runTicks := t.runTicks + 1 }

/-- `timer_handler`. The second component is the task the CPU was handed to and where it
resumes, when that is not the interrupted one. A task suspended in the handler first runs the
handler's last line, on the state as it is then. -/
def timerHandler (s : State) : State × Option (Slot × ResumePoint) :=
  let s := tickClock s
  match s.currentTask with
  | none => (s, none)
  | some c =>
    let s := chargeTick s c
    if (s.tasks c).runTicks < schedQuantumTicks then (ageAndReap s, none)
    else
      let s := requeue s c
      match schedPickNext s with
      | none => (keepCurrent s c, none)
      | some next =>
        if next = c then (keepCurrent s c, none)
        else
          let r := switchTo s c next
          match r.2 with
          | .entry fn => (r.1, some (next, .entry fn))
          | .timerHandler => (ageAndReap r.1, some (next, .timerHandler))

theorem prio_succ_ne (p : Prio) : p + 1 ≠ p := by
  intro h
  have := congrArg Fin.val h
  rw [Fin.val_add] at this
  simp only [Fin.val_one] at this
  omega

/-! The sweeps, entry by entry. -/

/-- A sleeper whose deadline has come. -/
def Due (now : UInt32) (t : Task) : Prop := t.state = .sleeping ∧ now ≥ t.sleepUntilMs

instance (now : UInt32) (t : Task) : Decidable (Due now t) := by unfold Due; infer_instance

def wokenTask (now : UInt32) (t : Task) : Task :=
  if Due now t then { t with state := .ready } else t

/-- A READY task that this aging sweep moves one priority up. -/
def Promoted (t : Task) : Prop :=
  t.state = .ready ∧ t.waitTicks + 1 ≥ agingThreshold ∧ t.priority < 254

instance (t : Task) : Decidable (Promoted t) := by unfold Promoted; infer_instance

def agedTask (t : Task) : Task :=
  if Promoted t then { t with priority := t.priority + 1, waitTicks := 0 }
  else if t.state = .ready then { t with waitTicks := t.waitTicks + 1 }
  else t

def reapedTask (t : Task) : Task :=
  if t.state ≠ .zombie then t
  else if t.zombieTicks + 1 ≥ zombieReapTicks ∧ t.stackPhys ≠ 0 then
    { t with zombieTicks := t.zombieTicks + 1, stackPhys := 0, state := .unused }
  else { t with zombieTicks := t.zombieTicks + 1 }

theorem wake_sweep (now : UInt32) :
    Sweep (fun s : State => s.uptimeMs = now) State.tasks wakeSleeper (wokenTask now) where
  keep s i hs := by
    unfold wakeSleeper
    split_ifs <;> exact hs
  own s i hs := by
    subst hs
    by_cases h : (s.tasks i).state = .sleeping ∧ s.uptimeMs ≥ (s.tasks i).sleepUntilMs
    · simp [wakeSleeper, wokenTask, Due, h]
    · simp only [wakeSleeper, wokenTask, Due, h, if_false]
  other s i j hj := by
    unfold wakeSleeper
    split_ifs <;> simp [hj]

theorem age_sweep : Sweep (fun _ : State => True) State.tasks ageTask agedTask where
  keep _ _ _ := trivial
  own s i _ := by
    by_cases hr : (s.tasks i).state = .ready
    · by_cases hp : (s.tasks i).waitTicks + 1 ≥ agingThreshold ∧ (s.tasks i).priority < 254
      · simp [ageTask, agedTask, Promoted, hr, hp]
      · simp [ageTask, agedTask, Promoted, hr, hp]
    · simp [ageTask, agedTask, Promoted, hr]
  other s i j hj := by
    by_cases hr : (s.tasks i).state = .ready
    · by_cases hp : (s.tasks i).waitTicks + 1 ≥ agingThreshold ∧ (s.tasks i).priority < 254
      · simp [ageTask, hr, hp, hj]
      · simp [ageTask, hr, hp, hj]
    · simp [ageTask, hr]

theorem reap_sweep : Sweep (fun _ : State => True) State.tasks reapZombie reapedTask where
  keep _ _ _ := trivial
  own s i _ := by
    by_cases hz : (s.tasks i).state = .zombie
    · by_cases hp : (s.tasks i).zombieTicks + 1 ≥ zombieReapTicks ∧ (s.tasks i).stackPhys ≠ 0
      · simp [reapZombie, reapedTask, hz, hp]
      · simp [reapZombie, reapedTask, hz, hp]
    · simp [reapZombie, reapedTask, hz]
  other s i j hj := by
    by_cases hz : (s.tasks i).state = .zombie
    · by_cases hp : (s.tasks i).zombieTicks + 1 ≥ zombieReapTicks ∧ (s.tasks i).stackPhys ≠ 0
      · simp [reapZombie, hz, hp, hj]
      · simp [reapZombie, hz, hp, hj]
    · simp [reapZombie, hz]

variable {s : State} {i j : Slot} {p : Prio}

@[simp] theorem wakeSleepers_tasks :
    (wakeSleepers s).tasks j = wokenTask s.uptimeMs (s.tasks j) := by
  rw [wakeSleepers]
  exact (wake_sweep _).foldl_of_mem rfl (List.nodup_finRange _) (List.mem_finRange j)

@[simp] theorem ageTasks_tasks : (ageTasks s).tasks j = agedTask (s.tasks j) := by
  rw [ageTasks]
  exact age_sweep.foldl_of_mem trivial (List.nodup_finRange _) (List.mem_finRange j)

@[simp] theorem reapZombies_tasks : (reapZombies s).tasks j = reapedTask (s.tasks j) := by
  rw [reapZombies]
  exact reap_sweep.foldl_of_mem trivial (List.nodup_finRange _) (List.mem_finRange j)

/-- A component of the state no visit writes survives the sweep. -/
theorem foldl_frame {β : Type*} (read : State → β) {visit : State → Slot → State}
    (h : ∀ s i, read (visit s i) = read s) (l : List Slot) : read (l.foldl visit s) = read s := by
  induction l generalizing s with
  | nil => rfl
  | cons i l ih => rw [List.foldl_cons, ih, h]

@[simp] theorem wakeSleepers_currentTask : (wakeSleepers s).currentTask = s.currentTask := by
  apply foldl_frame State.currentTask
  intro s i
  simp only [wakeSleeper]
  split_ifs <;> simp

@[simp] theorem wakeSleepers_uptimeMs : (wakeSleepers s).uptimeMs = s.uptimeMs := by
  rw [wakeSleepers]
  exact (wake_sweep _).foldl_keep rfl

@[simp] theorem ageTasks_currentTask : (ageTasks s).currentTask = s.currentTask := by
  apply foldl_frame State.currentTask
  intro s i
  simp only [ageTask]
  split_ifs <;> simp

@[simp] theorem ageTasks_uptimeMs : (ageTasks s).uptimeMs = s.uptimeMs := by
  apply foldl_frame State.uptimeMs
  intro s i
  simp only [ageTask]
  split_ifs <;> simp

@[simp] theorem reapZombies_currentTask : (reapZombies s).currentTask = s.currentTask := by
  apply foldl_frame State.currentTask
  intro s i
  simp only [reapZombie]
  split_ifs <;> simp

@[simp] theorem reapZombies_uptimeMs : (reapZombies s).uptimeMs = s.uptimeMs := by
  apply foldl_frame State.uptimeMs
  intro s i
  simp only [reapZombie]
  split_ifs <;> simp

@[simp] theorem reapZombies_bitmapTest : bitmapTest (reapZombies s) p = bitmapTest s p := by
  apply foldl_frame fun s => bitmapTest s p
  intro s i
  simp only [reapZombie]
  split_ifs <;> rfl

/-- After waking, a bit is set if it was before or a woken task has that priority. -/
theorem wakeSleepers_bitmapTest :
    bitmapTest (wakeSleepers s) p = true ↔
      bitmapTest s p = true ∨
        ∃ i, Due s.uptimeMs (s.tasks i) ∧ (s.tasks i).priority = p := by
  have h := (wake_sweep s.uptimeMs).foldl_register (s := s)
    (fun s => bitmapTest s p)
    (w := fun t => if Due s.uptimeMs t ∧ t.priority = p then some true else none)
    (l := List.finRange schedMaxTasks) ?_ rfl (List.nodup_finRange _)
  · simp only [wakeSleepers, h]
    rw [foldl_lastWrite (List.pairwise_lt_finRange _)]
    simp only [List.mem_finRange, true_and, true_implies]
    grind
  · intro u i hu
    rw [← hu]
    by_cases h : (u.tasks i).state = .sleeping ∧ u.uptimeMs ≥ (u.tasks i).sleepUntilMs
    · by_cases hp : (u.tasks i).priority = p <;> simp [wakeSleeper, Due, h, hp]
    · simp only [wakeSleeper, Due, h, if_false, false_and, Option.getD_none]

/-- After aging, the last write to a bit decides: a promotion into that priority sets it, a
promotion out of it clears it. -/
theorem ageTasks_bitmapTest :
    bitmapTest (ageTasks s) p = true ↔
      (∃ i, Promoted (s.tasks i) ∧ (s.tasks i).priority + 1 = p ∧
        ∀ j, i < j → ¬ (Promoted (s.tasks j) ∧ (s.tasks j).priority = p)) ∨
      (bitmapTest s p = true ∧
        ∀ j, ¬ (Promoted (s.tasks j) ∧ (s.tasks j).priority = p)) := by
  have h := age_sweep.foldl_register (s := s)
    (fun s => bitmapTest s p)
    (w := fun t => if Promoted t then
        if t.priority + 1 = p then some true else if t.priority = p then some false else none
      else none)
    (l := List.finRange schedMaxTasks) ?_ trivial (List.nodup_finRange _)
  · simp only [ageTasks, h]
    rw [foldl_lastWrite (List.pairwise_lt_finRange _)]
    simp only [List.mem_finRange, true_and, true_implies]
    grind [prio_succ_ne]
  · intro u i _
    by_cases hr : (u.tasks i).state = .ready
    · by_cases hp : (u.tasks i).waitTicks + 1 ≥ agingThreshold ∧ (u.tasks i).priority < 254
      · simp only [ageTask, Promoted, hr, hp]
        split_ifs <;> simp_all
      · simp [ageTask, Promoted, hr, hp]
    · simp [ageTask, Promoted, hr]

attribute [irreducible] wakeSleepers ageTasks reapZombies

end PinguinOS.Sched
