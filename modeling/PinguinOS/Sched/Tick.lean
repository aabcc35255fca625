import PinguinOS.Sched.Timer

/-! One timer tick, as a function of the state it finds. -/
namespace PinguinOS.Sched

/-- READY once this tick has woken the sleepers that are due. -/
def ReadyAt (s : State) (i : Slot) : Prop := Ready s i ∨ Due (s.uptimeMs + 1) (s.tasks i)

/-- The running task has used up its quantum with this tick. -/
def Expired (s : State) (c : Slot) : Prop := schedQuantumTicks ≤ (s.tasks c).runTicks + 1

instance (s : State) (c : Slot) : Decidable (Expired s c) := by unfold Expired; infer_instance

/-- `mlfq_demote` takes such a task one priority down. -/
def Demoted (t : Task) : Prop := 1 < t.priority ∧ t.basePriority < taskPrioRt

/-- READY when this tick calls `sched_pick_next`: the current task `c` has been put back. -/
def Queued (s : State) (c i : Slot) : Prop :=
  ReadyAt s i ∨ (i = c ∧ (s.tasks c).state = .running)

instance (t : Task) : Decidable (Demoted t) := by unfold Demoted; infer_instance

/-- The priority at that point. -/
def queuedPrio (s : State) (c i : Slot) : Prio :=
  if i = c ∧ Demoted (s.tasks c) then (s.tasks c).priority - 1 else (s.tasks i).priority

/-- The bitmap at that point. -/
def QueuedBit (s : State) (c : Slot) (p : Prio) : Prop :=
  ((bitmapTest s p = true ∨ ∃ i, Due (s.uptimeMs + 1) (s.tasks i) ∧ (s.tasks i).priority = p) ∧
      ¬ (Demoted (s.tasks c) ∧ (s.tasks c).priority = p)) ∨
    (Queued s c c ∧ (Demoted (s.tasks c) ∨ (s.tasks c).state = .running) ∧ queuedPrio s c c = p)

/-- The state this tick hands to `sched_pick_next`. -/
def atPick (s : State) (c : Slot) : State := requeue (chargeTick (tickClock s) c) c

variable {s : State} {c i j n : Slot} {p : Prio} {t : Task} {now : UInt32}

/-! Waking, aging and reaping only touch what their names say. -/

@[simp] theorem wokenTask_priority : (wokenTask now t).priority = t.priority := by
  unfold wokenTask; split_ifs <;> rfl

@[simp] theorem wokenTask_basePriority : (wokenTask now t).basePriority = t.basePriority := by
  unfold wokenTask; split_ifs <;> rfl

@[simp] theorem wokenTask_waitTicks : (wokenTask now t).waitTicks = t.waitTicks := by
  unfold wokenTask; split_ifs <;> rfl

@[simp] theorem wokenTask_runTicks : (wokenTask now t).runTicks = t.runTicks := by
  unfold wokenTask; split_ifs <;> rfl

@[simp] theorem wokenTask_ctx : (wokenTask now t).ctx = t.ctx := by
  unfold wokenTask; split_ifs <;> rfl

theorem wokenTask_state :
    (wokenTask now t).state = if Due now t then .ready else t.state := by
  unfold wokenTask; split_ifs <;> rfl

@[simp] theorem wokenTask_ready :
    (wokenTask now t).state = .ready ↔ t.state = .ready ∨ Due now t := by
  rw [wokenTask_state]
  split_ifs with h <;> simp [h]

@[simp] theorem wokenTask_running : (wokenTask now t).state = .running ↔ t.state = .running := by
  rw [wokenTask_state]
  split_ifs with h
  · simp [h.1]
  · rfl

theorem agedTask_state : (agedTask t).state = t.state := by
  unfold agedTask; split_ifs <;> rfl

theorem agedTask_priority :
    (agedTask t).priority = if Promoted t then t.priority + 1 else t.priority := by
  unfold agedTask; split_ifs <;> rfl

theorem reapedTask_priority : (reapedTask t).priority = t.priority := by
  unfold reapedTask; split_ifs <;> rfl

/-- Reaping takes a zombie to UNUSED, or leaves the state alone. -/
theorem reapedTask_state :
    (reapedTask t).state = t.state ∨ (t.state = .zombie ∧ (reapedTask t).state = .unused) := by
  unfold reapedTask
  split_ifs with hz hp
  · exact Or.inl rfl
  · exact Or.inr ⟨not_not.mp hz, rfl⟩
  · exact Or.inl rfl

theorem reapedTask_state_eq {st : TaskState} (hz : st ≠ .zombie) (hu : st ≠ .unused) :
    (reapedTask t).state = st ↔ t.state = st := by
  rcases reapedTask_state (t := t) with h | ⟨ht, h⟩
  · rw [h]
  · rw [h, ht]
    exact ⟨fun he => absurd he.symm hu, fun he => absurd he.symm hz⟩

theorem ageAndReap_tasks :
    (ageAndReap s).tasks j =
      if s.uptimeMs % 50 = 0 then reapedTask (agedTask (s.tasks j)) else s.tasks j := by
  unfold ageAndReap
  split_ifs <;> simp

@[simp] theorem ageAndReap_currentTask : (ageAndReap s).currentTask = s.currentTask := by
  unfold ageAndReap
  split_ifs <;> simp

/-- States other than ZOMBIE and UNUSED survive the periodic sweep. -/
theorem ageAndReap_state_eq {st : TaskState} (hz : st ≠ .zombie) (hu : st ≠ .unused) :
    ((ageAndReap s).tasks j).state = st ↔ (s.tasks j).state = st := by
  rw [ageAndReap_tasks]
  split_ifs
  · rw [reapedTask_state_eq hz hu, agedTask_state]
  · rfl

/-! The stages up to `sched_pick_next`. -/

@[simp] theorem tickClock_tasks :
    (tickClock s).tasks j = wokenTask (s.uptimeMs + 1) (s.tasks j) := by simp [tickClock]

@[simp] theorem tickClock_currentTask : (tickClock s).currentTask = s.currentTask := by
  simp [tickClock]

@[simp] theorem tickClock_uptimeMs : (tickClock s).uptimeMs = s.uptimeMs + 1 := by
  simp [tickClock]

theorem tickClock_bitmapTest :
    bitmapTest (tickClock s) p = true ↔
      bitmapTest s p = true ∨
        ∃ i, Due (s.uptimeMs + 1) (s.tasks i) ∧ (s.tasks i).priority = p :=
  wakeSleepers_bitmapTest

@[simp] theorem tickClock_ready : Ready (tickClock s) i ↔ ReadyAt s i := by
  simp [Ready, ReadyAt]

@[simp] theorem chargeTick_currentTask : (chargeTick s c).currentTask = s.currentTask := rfl
@[simp] theorem chargeTick_uptimeMs : (chargeTick s c).uptimeMs = s.uptimeMs := rfl

@[simp] theorem chargeTick_bitmapTest : bitmapTest (chargeTick s c) p = bitmapTest s p := rfl

theorem chargeTick_tasks :
    (chargeTick s c).tasks j =
      if j = c then { s.tasks c with
        totalTicks := (s.tasks c).totalTicks + 1, runTicks := (s.tasks c).runTicks + 1 }
      else s.tasks j := by
  rw [chargeTick, modify_tasks]
  split_ifs with h
  · rw [h]
  · rfl

@[simp] theorem chargeTick_state : ((chargeTick s c).tasks j).state = (s.tasks j).state := by
  rw [chargeTick_tasks]
  split_ifs with h
  · rw [h]
  · rfl

@[simp] theorem chargeTick_priority :
    ((chargeTick s c).tasks j).priority = (s.tasks j).priority := by
  rw [chargeTick_tasks]
  split_ifs with h
  · rw [h]
  · rfl

@[simp] theorem chargeTick_basePriority :
    ((chargeTick s c).tasks j).basePriority = (s.tasks j).basePriority := by
  rw [chargeTick_tasks]
  split_ifs with h
  · rw [h]
  · rfl

@[simp] theorem chargeTick_waitTicks :
    ((chargeTick s c).tasks j).waitTicks = (s.tasks j).waitTicks := by
  rw [chargeTick_tasks]
  split_ifs with h
  · rw [h]
  · rfl

@[simp] theorem chargeTick_ctx : ((chargeTick s c).tasks j).ctx = (s.tasks j).ctx := by
  rw [chargeTick_tasks]
  split_ifs with h
  · rw [h]
  · rfl

/-- What `mlfq_demote` and the lines after it make of the current task. -/
def requeuedTask (t : Task) : Task :=
  { t with
    priority := if Demoted t then t.priority - 1 else t.priority
    runTicks := 0
    state := if t.state = .running then .ready else t.state }

theorem demoted_iff :
    (¬ t.priority ≤ taskPrioIdle ∧ ¬ t.basePriority ≥ taskPrioRt ∧ t.priority > 1) ↔
      Demoted t := by
  simp only [Demoted, taskPrioIdle, not_le]
  constructor
  · rintro ⟨-, hb, hp⟩
    exact ⟨hp, hb⟩
  · rintro ⟨hp, hb⟩
    exact ⟨lt_trans (by decide) hp, hb, hp⟩

/-- `mlfq_demote`, with its three guards gathered. -/
theorem mlfqDemote_eq :
    mlfqDemote s c =
      if Demoted (s.tasks c) then
        let s' := (bitmapClear s (s.tasks c).priority).modify c fun t =>
          { t with priority := t.priority - 1 }
        if (s.tasks c).state = .ready then bitmapSet s' ((s.tasks c).priority - 1) else s'
      else s := by
  have hd := demoted_iff (t := s.tasks c)
  by_cases h1 : (s.tasks c).priority ≤ taskPrioIdle
  · have hn : ¬ Demoted (s.tasks c) := fun h => (hd.mpr h).1 h1
    simp [mlfqDemote, h1, hn]
  · by_cases h2 : (s.tasks c).basePriority ≥ taskPrioRt
    · have hn : ¬ Demoted (s.tasks c) := fun h => (hd.mpr h).2.1 h2
      simp [mlfqDemote, h1, h2, hn]
    · by_cases h3 : (s.tasks c).priority > 1
      · simp [mlfqDemote, h1, h2, h3, hd.mp ⟨h1, h2, h3⟩]
      · have hn : ¬ Demoted (s.tasks c) := fun h => h3 (hd.mpr h).2.2
        simp [mlfqDemote, h1, h2, h3, hn]

theorem mlfqDemote_of_ne (hj : j ≠ c) : (mlfqDemote s c).tasks j = s.tasks j := by
  rw [mlfqDemote_eq]
  split_ifs
  · simp [hj]
  · simp [hj]
  · rfl

theorem mlfqDemote_same :
    (mlfqDemote s c).tasks c = { s.tasks c with
      priority := if Demoted (s.tasks c) then (s.tasks c).priority - 1
        else (s.tasks c).priority } := by
  rw [mlfqDemote_eq]
  by_cases hd : Demoted (s.tasks c)
  · rw [if_pos hd, if_pos hd]
    dsimp only
    split_ifs
    · simp
    · simp
  · rw [if_neg hd, if_neg hd]

theorem mlfqDemote_bitmapTest :
    bitmapTest (mlfqDemote s c) p = true ↔
      (bitmapTest s p = true ∧ ¬ (Demoted (s.tasks c) ∧ (s.tasks c).priority = p)) ∨
        (s.tasks c).state = .ready ∧ Demoted (s.tasks c) ∧ (s.tasks c).priority - 1 = p := by
  rw [mlfqDemote_eq]
  by_cases hd : Demoted (s.tasks c)
  · rw [if_pos hd]
    dsimp only
    by_cases hr : (s.tasks c).state = .ready
    · rw [if_pos hr]
      simp [hd, hr, and_comm, or_comm]
    · rw [if_neg hr]
      simp [hd, hr, and_comm]
  · rw [if_neg hd]
    simp [hd]

theorem requeue_tasks :
    (requeue s c).tasks j = if j = c then requeuedTask (s.tasks c) else s.tasks j := by
  unfold requeue
  by_cases hj : j = c
  · subst hj
    by_cases hx : (s.tasks j).state = .running
    · simp [mlfqDemote_same, requeuedTask, hx]
    · simp [mlfqDemote_same, requeuedTask, hx]
  · by_cases hx : (s.tasks c).state = .running
    · simp [mlfqDemote_same, mlfqDemote_of_ne hj, hj, hx]
    · simp [mlfqDemote_same, mlfqDemote_of_ne hj, hj, hx]

@[simp] theorem requeue_currentTask : (requeue s c).currentTask = s.currentTask := by
  simp only [requeue, mlfqDemote_eq]
  split_ifs <;> simp

@[simp] theorem requeue_uptimeMs : (requeue s c).uptimeMs = s.uptimeMs := by
  simp only [requeue, mlfqDemote_eq]
  split_ifs <;> simp

theorem requeue_bitmapTest :
    bitmapTest (requeue s c) p = true ↔
      (bitmapTest s p = true ∧ ¬ (Demoted (s.tasks c) ∧ (s.tasks c).priority = p)) ∨
        (((s.tasks c).state = .ready ∧ Demoted (s.tasks c) ∨ (s.tasks c).state = .running) ∧
          (requeuedTask (s.tasks c)).priority = p) := by
  unfold requeue requeuedTask
  dsimp only
  by_cases hx : (s.tasks c).state = .running
  · simp [mlfqDemote_same, mlfqDemote_bitmapTest, hx, or_comm]
  · by_cases hd : Demoted (s.tasks c)
    · simp [mlfqDemote_same, mlfqDemote_bitmapTest, hx, hd]
    · simp [mlfqDemote_same, mlfqDemote_bitmapTest, hx, hd]

theorem atPick_tasks :
    (atPick s c).tasks j =
      if j = c then requeuedTask ((chargeTick (tickClock s) c).tasks c)
      else wokenTask (s.uptimeMs + 1) (s.tasks j) := by
  rw [atPick, requeue_tasks]
  split_ifs with h
  · rfl
  · rw [chargeTick_tasks, if_neg h, tickClock_tasks]

theorem atPick_demoted : Demoted ((chargeTick (tickClock s) c).tasks c) ↔ Demoted (s.tasks c) := by
  simp [Demoted]

@[simp] theorem atPick_currentTask : (atPick s c).currentTask = s.currentTask := by simp [atPick]

@[simp] theorem atPick_uptimeMs : (atPick s c).uptimeMs = s.uptimeMs + 1 := by simp [atPick]

theorem atPick_state :
    ((atPick s c).tasks j).state =
      if j = c ∧ (s.tasks c).state = .running then .ready
      else (wokenTask (s.uptimeMs + 1) (s.tasks j)).state := by
  rw [atPick_tasks]
  by_cases hj : j = c
  · subst hj
    simp [requeuedTask]
  · simp [hj]

@[simp] theorem atPick_ready : Ready (atPick s c) j ↔ Queued s c j := by
  rw [Ready, atPick_state, Queued, ReadyAt, Ready]
  split_ifs with h
  · simp [h]
  · rw [wokenTask_ready]
    tauto

@[simp] theorem atPick_priority : ((atPick s c).tasks j).priority = queuedPrio s c j := by
  rw [atPick_tasks, queuedPrio]
  by_cases hj : j = c
  · subst hj
    simp [requeuedTask, atPick_demoted]
  · simp [hj]

@[simp] theorem atPick_waitTicks :
    ((atPick s c).tasks j).waitTicks = (s.tasks j).waitTicks := by
  rw [atPick_tasks]
  split_ifs with h
  · simp [requeuedTask, h]
  · simp

@[simp] theorem atPick_ctx : ((atPick s c).tasks j).ctx = (s.tasks j).ctx := by
  rw [atPick_tasks]
  split_ifs with h
  · simp [requeuedTask, h]
  · simp

@[simp] theorem atPick_bitmapTest : bitmapTest (atPick s c) p = true ↔ QueuedBit s c p := by
  have hprio : (requeuedTask ((chargeTick (tickClock s) c).tasks c)).priority =
      queuedPrio s c c := by
    rw [← atPick_priority, atPick_tasks, if_pos rfl]
  rw [atPick, requeue_bitmapTest, hprio, atPick_demoted, QueuedBit]
  simp only [chargeTick_bitmapTest, tickClock_bitmapTest, chargeTick_state, chargeTick_priority,
    tickClock_tasks, wokenTask_priority, wokenTask_ready, wokenTask_running, Queued, ReadyAt, Ready]
  have hdue : Due (s.uptimeMs + 1) (s.tasks c) → (s.tasks c).state ≠ .running := by
    rintro ⟨hs, -⟩
    simp [hs]
  by_cases hx : (s.tasks c).state = .running
  · simp [hx]
  · simp [hx, and_assoc]

/-! The branches of `timer_handler`. -/

/-- The task that was not the current one when it was picked is now running. -/
def dispatchedTask (now : UInt32) (t : Task) : Task :=
  { t with
    state := .running
    waitTicks := 0
    contextSwitches := t.contextSwitches + 1
    lastRunMs := now }

theorem switchTo_tasks (hn : n ≠ c) :
    (switchTo s c n).1.tasks j =
      if j = n then dispatchedTask s.uptimeMs (s.tasks n)
      else if j = c then { s.tasks c with ctx := .timerHandler }
      else s.tasks j := by
  by_cases hjn : j = n
  · subst hjn
    simp [switchTo, schedSwitchContext, hn, dispatchedTask]
  · by_cases hjc : j = c
    · subst hjc
      simp [switchTo, schedSwitchContext, hjn]
    · simp [switchTo, schedSwitchContext, hjn, hjc]

theorem switchTo_resume : (switchTo s c n).2 = (s.tasks n).ctx := by
  simp [switchTo, schedSwitchContext]

@[simp] theorem switchTo_currentTask : (switchTo s c n).1.currentTask = some n := rfl
@[simp] theorem switchTo_uptimeMs : (switchTo s c n).1.uptimeMs = s.uptimeMs := rfl

theorem switchTo_bitmapTest :
    bitmapTest (switchTo s c n).1 p =
      (!decide ((s.tasks n).priority = p) && bitmapTest s p) := by
  have h : bitmapTest (switchTo s c n).1 p =
      bitmapTest (bitmapClear s (s.tasks n).priority) p := rfl
  rw [h, bitmapTest_clear]

theorem keepCurrent_tasks :
    (keepCurrent s c).tasks j =
      if j = c then { s.tasks c with state := .running } else s.tasks j := by
  by_cases h : j = c
  · subst h
    simp [keepCurrent]
  · simp [keepCurrent, h]

@[simp] theorem keepCurrent_currentTask : (keepCurrent s c).currentTask = s.currentTask := rfl

theorem keepCurrent_bitmapTest :
    bitmapTest (keepCurrent s c) p =
      (!decide ((s.tasks c).priority = p) && bitmapTest s p) := by
  simp [keepCurrent]

/-- The four ways `timer_handler` ends when there is a current task. -/
inductive TickResult (s : State) (c : Slot) : State × Option (Slot × ResumePoint) → Prop
  | early : ¬ Expired s c → TickResult s c (ageAndReap (chargeTick (tickClock s) c), none)
  | keep : Expired s c → (schedPickNext (atPick s c) = none ∨ schedPickNext (atPick s c) = some c) →
      TickResult s c (keepCurrent (atPick s c) c, none)
  | enter (n : Slot) (fn : UInt32) : Expired s c → n ≠ c →
      schedPickNext (atPick s c) = some n → (s.tasks n).ctx = .entry fn →
      TickResult s c ((switchTo (atPick s c) c n).1, some (n, .entry fn))
  | resume (n : Slot) : Expired s c → n ≠ c →
      schedPickNext (atPick s c) = some n → (s.tasks n).ctx = .timerHandler →
      TickResult s c (ageAndReap (switchTo (atPick s c) c n).1, some (n, .timerHandler))

theorem expired_iff :
    ¬ ((chargeTick (tickClock s) c).tasks c).runTicks < schedQuantumTicks ↔ Expired s c := by
  rw [chargeTick_tasks, if_pos rfl]
  simp [Expired, UInt32.not_lt]

theorem timerHandler_result (hc : s.currentTask = some c) : TickResult s c (timerHandler s) := by
  have hcur : (tickClock s).currentTask = some c := by rw [tickClock_currentTask, hc]
  have hxq := expired_iff (s := s) (c := c)
  have hpq : requeue (chargeTick (tickClock s) c) c = atPick s c := rfl
  have hearly := TickResult.early (s := s) (c := c)
  unfold timerHandler
  generalize tickClock s = u at hcur hxq hpq hearly
  simp only [hcur]
  split_ifs with hq
  · exact hearly fun h => hxq.mpr h hq
  · have hx := hxq.mp hq
    rw [hpq]
    cases hpick : schedPickNext (atPick s c) with
    | none => exact .keep hx (Or.inl hpick)
    | some n =>
      simp only
      split_ifs with hn
      · exact .keep hx (Or.inr (hn ▸ hpick))
      · have hr : (switchTo (atPick s c) c n).2 = (s.tasks n).ctx := by
          rw [switchTo_resume, atPick_ctx]
        rw [hr]
        cases hctx : (s.tasks n).ctx with
        | entry fn => exact .enter n fn hx hn hpick hctx
        | timerHandler => exact .resume n hx hn hpick hctx

theorem timerHandler_idle (hc : s.currentTask = none) : timerHandler s = (tickClock s, none) := by
  have hcur : (tickClock s).currentTask = none := by rw [tickClock_currentTask, hc]
  unfold timerHandler
  generalize tickClock s = u at hcur
  simp only [hcur]

/-- This tick hands the CPU to another task: the quantum is used up, and among the queued tasks
whose bit is set the highest priority is below the sentinel and held by another task. -/
def Switches (s : State) (c : Slot) : Prop :=
  Expired s c ∧ ∃ n, n ≠ c ∧ Queued s c n ∧ QueuedBit s c (queuedPrio s c n) ∧
    queuedPrio s c n ≠ 0xFF ∧ ∀ p, QueuedBit s c p → p ≤ queuedPrio s c n

theorem exists_pick_iff (hc : s.currentTask = some c) :
    (∃ n, n ≠ c ∧ schedPickNext (atPick s c) = some n) ↔
      ∃ n, n ≠ c ∧ Queued s c n ∧ QueuedBit s c (queuedPrio s c n) ∧
        queuedPrio s c n ≠ 0xFF ∧ ∀ p, QueuedBit s c p → p ≤ queuedPrio s c n := by
  have hcur : (atPick s c).currentTask = some c := by rw [atPick_currentTask, hc]
  have hready := fun j => atPick_ready (s := s) (c := c) (j := j)
  have hprio := fun j => atPick_priority (s := s) (c := c) (j := j)
  have hbits := fun p => atPick_bitmapTest (s := s) (c := c) (p := p)
  generalize atPick s c = q at hcur hready hprio hbits
  constructor
  · rintro ⟨n, hn, hpick⟩
    obtain ⟨htop, hr, hp, -⟩ := schedPickNext_eq_some.mp hpick
    obtain ⟨hset, hmax⟩ := bitmapTop_isGreatest_of_ne htop
    rw [← hp, hprio] at htop hset hmax
    refine ⟨n, hn, (hready n).mp hr, (hbits _).mp hset, htop, ?_⟩
    intro p hbit
    exact hmax ((hbits p).mpr hbit)
  · rintro ⟨n, hn, hq, hbit, hne, hmax⟩
    have htop : bitmapTop q = queuedPrio s c n := by
      apply (bitmapTop_isGreatest ((hbits _).mpr hbit)).unique
      exact ⟨(hbits _).mpr hbit, fun p hp => hmax p ((hbits p).mp hp)⟩
    have hr := (hready n).mpr hq
    cases hpick : schedPickNext q with
    | none =>
      rcases schedPickNext_eq_none.mp hpick with h | h
      · exact absurd (htop ▸ h) hne
      · exact absurd ((hprio n).trans htop.symm) (h n hr)
    | some m =>
      refine ⟨m, ?_, rfl⟩
      rintro rfl
      -- The current task is looked at last, so `n` would have been found before it.
      obtain ⟨-, -, -, hfirst⟩ := schedPickNext_eq_some.mp hpick
      have hle := hfirst n hr ((hprio n).trans htop.symm)
      exact hn (cyclicRank_injective (le_antisymm (cyclicRank_current hcur) hle))

/-- The handler reports a transfer exactly when the state before the tick calls for one. -/
theorem timerHandler_transfer_iff (hc : s.currentTask = some c) :
    (timerHandler s).2.isSome ↔ Switches s c := by
  have hres := timerHandler_result hc
  generalize timerHandler s = r at hres
  cases hres with
  | early hx => simp [Switches, hx]
  | keep hx hpick =>
    simp only [Option.isSome_none, Bool.false_eq_true, false_iff]
    rintro ⟨-, hex⟩
    obtain ⟨n, hn, hsome⟩ := (exists_pick_iff hc).mpr hex
    rcases hpick with h | h
    · simp [h] at hsome
    · exact hn (Option.some.inj (hsome.symm.trans h))
  | enter n fn hx hn hpick hctx =>
    simpa using ⟨hx, (exists_pick_iff hc).mp ⟨n, hn, hpick⟩⟩
  | resume n hx hn hpick hctx =>
    simpa using ⟨hx, (exists_pick_iff hc).mp ⟨n, hn, hpick⟩⟩

end PinguinOS.Sched
