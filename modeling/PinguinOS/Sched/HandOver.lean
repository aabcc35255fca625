import PinguinOS.Sched.ReadyBitmap
import PinguinOS.Sched.Stacks

/-! When `timer_handler` hands the CPU over: every tenth time at most, and never again once a task
has `TASK_PRIO_RT`. -/
namespace PinguinOS.Sched

/-- Runs of `timer_handler`: timer interrupts, and the `int $0x20` of `task_yield`. -/
def Action.ticks : Action → Nat
  | .tick => 1
  | _ => 0

/-- The call does not give or take away `TASK_PRIO_RT` by `task_set_priority`. -/
def SparesRt (s : State) : Action → Prop
  | .setPriority (some t) prio => (s.tasks t).priority ≠ taskPrioRt ∧ prio ≠ taskPrioRt
  | _ => True

/-- No task was aged, and no zombie. -/
structure Unswept (s u : State) : Prop where
  freed : u.freedStacks = s.freedStacks
  zombieTicks : ∀ j, (u.tasks j).zombieTicks = (s.tasks j).zombieTicks
  waitTicks : ∀ j, (u.tasks j).waitTicks = (s.tasks j).waitTicks
  priority : ∀ j, (u.tasks j).priority ≤ (s.tasks j).priority

variable {s u : State} {c i j n : Slot} {a : Action} {actions later : List Action} {k : Nat}
  {r : State × Option (Slot × ResumePoint)} {t : Option Slot} {prio : Prio} {ms : UInt32}

/-! The calls. -/

theorem taskSetPriority_tasks : (taskSetPriority s t prio).tasks j =
    if t = some j then { s.tasks j with priority := prio, basePriority := prio }
    else s.tasks j := by
  cases t with
  | none => simp [taskSetPriority]
  | some i =>
    unfold taskSetPriority
    by_cases hj : j = i
    · subst hj
      by_cases h : (s.tasks j).state = .ready
      · simp [h]
      · simp [h]
    · have hij : ¬ (some i = some j) := fun h => hj (Option.some.inj h).symm
      by_cases h : (s.tasks i).state = .ready
      · simp [h, hj, hij]
      · simp [h, hj, hij]

theorem taskSleep_tasks (hc : s.currentTask = some c) (hms : ms ≠ 0) :
    (taskSleep s ms).tasks j =
      if j = c then { s.tasks c with sleepUntilMs := s.uptimeMs + ms, state := .sleeping }
      else s.tasks j := by
  simp only [taskSleep, hc, hms, if_false, bitmapClear_tasks, modify_tasks]
  split_ifs with hj
  · rw [hj]
  · rfl

theorem taskSleep_zero : taskSleep s 0 = s := by
  unfold taskSleep
  cases s.currentTask with
  | none => rfl
  | some c => rfl

theorem taskWake_tasks : (taskWake s t).tasks j =
    if t = some j ∧ ((s.tasks j).state = .sleeping ∨ (s.tasks j).state = .blocked) then
      { s.tasks j with sleepUntilMs := 0, state := .ready }
    else s.tasks j := by
  cases t with
  | none => simp [taskWake]
  | some i =>
    unfold taskWake
    by_cases hj : j = i
    · subst hj
      by_cases h : (s.tasks j).state = .sleeping ∨ (s.tasks j).state = .blocked
      · simp [h]
      · simp [h]
    · have hij : ¬ (some i = some j) := fun h => hj (Option.some.inj h).symm
      by_cases h : (s.tasks i).state = .sleeping ∨ (s.tasks i).state = .blocked
      · simp [h, hj, hij]
      · simp [h, hij]

theorem act_uptimeMs (ha : a ≠ .tick) : (act s a).uptimeMs = s.uptimeMs := by
  have halloc : ∀ fn name prio sp, (allocTask s fn name prio sp).1.uptimeMs = s.uptimeMs := by
    intro fn name prio sp
    unfold allocTask
    split
    · rfl
    · split_ifs <;> rfl
  cases a with
  | create fn name sp => exact halloc fn name _ sp
  | createPrio fn name prio sp => exact halloc fn name prio sp
  | setPriority t prio => exact (spares_taskSetPriority (c := 0)).clock
  | sleep ms =>
    dsimp only [act]
    unfold taskSleep
    split
    · rfl
    · dsimp only
      split_ifs <;> rfl
  | wake t =>
    dsimp only [act]
    unfold taskWake
    split
    · rfl
    · split_ifs <;> rfl
  | exit exitCode =>
    dsimp only [act]
    unfold taskExit
    split <;> rfl
  | tick => exact absurd rfl ha

/-- What every call leaves: who is current, and how long each task has had the CPU. -/
structure Called (s u : State) (c : Slot) : Prop where
  currentTask : u.currentTask = s.currentTask
  runTicks : ∀ j, (u.tasks j).runTicks = (s.tasks j).runTicks ∨
    ¬ s.Used j ∧ (u.tasks j).runTicks = 0
  used : u.Used c
  zombie : (u.tasks c).state = .zombie → (u.tasks c).zombieTicks = 0 ∨
    (s.tasks c).state = .zombie ∧ (u.tasks c).zombieTicks = (s.tasks c).zombieTicks

theorem Called.refl (hused : s.Used c) : Called s s c :=
  ⟨rfl, fun _ => Or.inl rfl, hused, fun hz => Or.inr ⟨hz, rfl⟩⟩

/-- The call rewrites one task, and not its times. -/
theorem called_of_task (hcurrent : u.currentTask = s.currentTask)
    (hticks : ∀ j, (u.tasks j).runTicks = (s.tasks j).runTicks ∧
      (u.tasks j).zombieTicks = (s.tasks j).zombieTicks)
    (hstate : (u.tasks c).state = (s.tasks c).state ∨
      (u.tasks c).state = .sleeping ∨ (u.tasks c).state = .ready)
    (hused : s.Used c) : Called s u c := by
  refine ⟨hcurrent, fun j => Or.inl (hticks j).1, ?_, ?_⟩
  · unfold State.Used
    rcases hstate with h | h | h
    · rw [h]
      exact hused
    · simp [h]
    · simp [h]
  · intro hz
    rcases hstate with h | h | h
    · exact Or.inr ⟨h ▸ hz, (hticks c).2⟩
    · rw [h] at hz
      cases hz
    · rw [h] at hz
      cases hz

theorem called_allocTask (hused : s.Used c) {fn sp : UInt32} {name : Option (List Char)} :
    Called s (allocTask s fn name prio sp).1 c := by
  rcases hres : allocTask s fn name prio sp with ⟨v, - | i⟩
  · rcases allocTask_result s fn name prio sp with hnone | ⟨v, i, hsome, -⟩
    · rw [hnone] at hres
      cases hres
      exact .refl hused
    · rw [hsome] at hres
      cases hres
  · have hv := allocTask_allocated hres
    obtain ⟨-, -, hruns, -⟩ := allocTask_stack hres
    have hci := hv.used_ne hused
    refine ⟨hv.currentTask, ?_, (hv.other hci).1.mpr hused, ?_⟩
    · intro j
      by_cases hj : j = i
      · rw [hj]
        exact Or.inr ⟨not_not.mpr hv.unused, hruns⟩
      · rw [hv.others j hj]
        exact Or.inl rfl
    · rw [hv.others c hci]
      exact fun hz => Or.inr ⟨hz, rfl⟩

theorem called_act (hc : s.currentTask = some c) (hused : s.Used c) (ha : a ≠ .tick) :
    Called s (act s a) c := by
  cases a with
  | create fn name sp => exact called_allocTask hused
  | createPrio fn name prio sp => exact called_allocTask hused
  | setPriority t prio =>
    refine called_of_task taskSetPriority_currentTask ?_
      (Or.inl taskSetPriority_state) hused
    intro j
    dsimp only [act]
    rw [taskSetPriority_tasks]
    split_ifs <;> exact ⟨rfl, rfl⟩
  | sleep ms =>
    dsimp only [act]
    by_cases hms : ms = 0
    · rw [hms, taskSleep_zero]
      exact .refl hused
    · refine called_of_task taskSleep_currentTask ?_ (Or.inr (Or.inl ?_)) hused
      · intro j
        rw [taskSleep_tasks hc hms]
        split_ifs with hj
        · rw [hj]
          exact ⟨rfl, rfl⟩
        · exact ⟨rfl, rfl⟩
      · rw [taskSleep_tasks hc hms, if_pos rfl]
  | wake t =>
    refine called_of_task taskWake_currentTask ?_ ?_ hused
    · intro j
      dsimp only [act]
      rw [taskWake_tasks]
      split_ifs <;> exact ⟨rfl, rfl⟩
    · dsimp only [act]
      rw [taskWake_tasks]
      split_ifs
      · exact Or.inr (Or.inr rfl)
      · exact Or.inl rfl
  | exit exitCode =>
    dsimp only [act]
    refine ⟨taskExit_currentTask, ?_, ?_, ?_⟩
    · intro j
      rw [taskExit_tasks hc]
      split_ifs with hj
      · rw [hj]
        exact Or.inl rfl
      · exact Or.inl rfl
    · unfold State.Used
      rw [taskExit_tasks hc, if_pos rfl]
      exact nofun
    · intro _
      rw [taskExit_tasks hc, if_pos rfl]
      exact Or.inl rfl
  | tick => exact absurd rfl ha

theorem Timely.called (h : Timely s c) (hu : Called s u c) : Timely u c where
  current := hu.currentTask.trans h.current
  used := hu.used
  ticks j := by
    rcases hu.runTicks j with hsame | ⟨-, hzero⟩
    · exact hsame ▸ h.ticks j
    · rw [hzero]
      decide
  zombie hz := by
    have hticks := (hu.runTicks c).resolve_right fun hnew => hnew.1 h.used
    rcases hu.zombie hz with hzero | ⟨hz, hsame⟩
    · rw [hzero]
      exact UInt32.le_iff_toNat_le.mpr (Nat.zero_le _)
    · rw [hticks, hsame]
      exact h.zombie hz

/-! The quantum. -/

/-- After `k` runs of the handler: `task_yield` does not shorten a quantum, and no task waits with
one begun. -/
structure Phased (s : State) (c : Slot) (k : Nat) : Prop where
  timely : Timely s c
  running : (s.tasks c).runTicks.toNat = k % 10
  waiting : ∀ i, i ≠ c → (s.tasks i).runTicks = 0

theorem Phased.called (h : Phased s c k) (hu : Called s u c) : Phased u c k where
  timely := h.timely.called hu
  running := by
    rw [(hu.runTicks c).resolve_right fun hnew => hnew.1 h.timely.used]
    exact h.running
  waiting i hi := by
    rcases hu.runTicks i with hsame | ⟨-, hzero⟩
    · exact hsame.trans (h.waiting i hi)
    · exact hzero

theorem Phased.expired_iff (h : Phased s c k) : Expired s c ↔ (k + 1) % 10 = 0 := by
  have hlt := UInt32.lt_iff_toNat_lt.mp (h.timely.ticks c)
  have hrunning := h.running
  have hquantum : schedQuantumTicks.toNat = 10 := rfl
  have hone : (1 : UInt32).toNat = 1 := rfl
  unfold Expired
  rw [UInt32.le_iff_toNat_le, UInt32.toNat_add]
  omega

theorem queuedPrio_le : queuedPrio s c j ≤ (s.tasks j).priority := by
  unfold queuedPrio
  split_ifs with hd
  · obtain ⟨rfl, hlt, -⟩ := hd
    rw [Fin.lt_def] at hlt
    rw [Fin.le_def, Fin.sub_def]
    simp only [Fin.val_one] at hlt ⊢
    omega
  · exact le_rfl

/-- The quantum goes on, at a time when nothing is swept. -/
theorem unswept_early (hnow : (s.uptimeMs + 1) % 50 ≠ 0) :
    Unswept s (ageAndReap (chargeTick (tickClock s) c)) := by
  have hsame : ageAndReap (chargeTick (tickClock s) c) = chargeTick (tickClock s) c := by
    unfold ageAndReap
    rw [if_neg]
    simpa using hnow
  have hstacks := (sameStacks_tickClock (s := s)).trans (sameStacks_chargeTick (c := c))
  rw [hsame]
  refine ⟨hstacks.freed, fun j => (hstacks.owner j).zombieTicks, ?_, ?_⟩
  · simp
  · simp

theorem unswept_keep (hused : s.Used c) : Unswept s (keepCurrent (atPick s c) c) := by
  have hused' : (atPick s c).Used c := fun hu => hused ((sameStacks_atPick.owner c).used.mp hu)
  have hstacks := sameStacks_atPick.trans (sameStacks_keepCurrent hused')
  refine ⟨hstacks.freed, fun j => (hstacks.owner j).zombieTicks, ?_, ?_⟩
  · intro j
    rw [keepCurrent_tasks]
    split_ifs with hj
    · rw [hj]
      exact atPick_waitTicks
    · exact atPick_waitTicks
  · intro j
    have hprio : ((keepCurrent (atPick s c) c).tasks j).priority = queuedPrio s c j := by
      rw [keepCurrent_tasks]
      split_ifs with hj
      · rw [hj]
        exact atPick_priority
      · exact atPick_priority
    rw [hprio]
    exact queuedPrio_le

/-- One run of the handler. -/
theorem Phased.tick (h : Phased s c k) :
    ∃ c', Phased (timerHandler s).1 c' (k + 1) ∧ (c' ≠ c → (k + 1) % 10 = 0) ∧
      (((s.uptimeMs + 1) % 50 = 0 → (k + 1) % 10 = 0) → c' = c → Unswept s (timerHandler s).1) := by
  have hres := timerHandler_result h.timely.current
  obtain ⟨slots, hr⟩ := hres.reaps h.timely.used
  obtain ⟨c', htimely⟩ := h.timely.timer hr
  have hexpired := h.expired_iff
  have hrunning := h.running
  have hten : ∀ i, ((atPick s c).tasks i).runTicks = 0 := by
    intro i
    rw [atPick_runTicks]
    split_ifs with hi
    · rfl
    · exact h.waiting i hi
  generalize timerHandler s = r at hres hr htimely ⊢
  have hcurrent := htimely.current
  refine ⟨c', ?_⟩
  cases hres with
  | early hx =>
    have hc : c' = c := by simpa [h.timely.current, eq_comm] using hcurrent
    subst hc
    have hticks : (k + 1) % 10 = k % 10 + 1 := by
      have := mt hexpired.mpr hx
      omega
    refine ⟨⟨htimely, ?_, ?_⟩, fun hne => absurd rfl hne, ?_⟩
    · dsimp only
      have hone : (1 : UInt32).toNat = 1 := rfl
      rw [ageAndReap_runTicks, chargeTick_runTicks, if_pos rfl, UInt32.toNat_add, hticks]
      omega
    · intro i hi
      dsimp only
      rw [ageAndReap_runTicks, chargeTick_runTicks, if_neg hi]
      exact h.waiting i hi
    · intro hnow _
      exact unswept_early fun hz => hx (hexpired.mpr (hnow hz))
  | keep hx hpick =>
    have hc : c' = c := by simpa [h.timely.current, eq_comm] using hcurrent
    subst hc
    have hzero : ∀ i, ((keepCurrent (atPick s c') c').tasks i).runTicks = 0 :=
      fun i => keepCurrent_runTicks.trans (hten i)
    refine ⟨⟨htimely, ?_, fun i _ => hzero i⟩, fun hne => absurd rfl hne, ?_⟩
    · rw [hexpired.mp hx]
      exact congrArg UInt32.toNat (hzero c')
    · intro _ _
      exact unswept_keep h.timely.used
  | enter n fn hx hn hpick hctx =>
    have hc : c' = n := by simpa [eq_comm] using hcurrent
    subst hc
    have hzero : ∀ i, ((switchTo (atPick s c) c c').1.tasks i).runTicks = 0 :=
      fun i => (switchTo_runTicks hn).trans (hten i)
    refine ⟨⟨htimely, ?_, fun i _ => hzero i⟩, fun _ => hexpired.mp hx, ?_⟩
    · rw [hexpired.mp hx]
      exact congrArg UInt32.toNat (hzero c')
    · exact fun _ heq => absurd heq hn
  | resume n hx hn hpick hctx =>
    have hc : c' = n := by simpa [eq_comm] using hcurrent
    subst hc
    have hzero : ∀ i, ((ageAndReap (switchTo (atPick s c) c c').1).tasks i).runTicks = 0 :=
      fun i => ageAndReap_runTicks.trans ((switchTo_runTicks hn).trans (hten i))
    refine ⟨⟨htimely, ?_, fun i _ => hzero i⟩, fun _ => hexpired.mp hx, ?_⟩
    · rw [hexpired.mp hx]
      exact congrArg UInt32.toNat (hzero c')
    · exact fun _ heq => absurd heq hn

theorem schedInit_uptimeMs {s₀ : State} {fn sp : UInt32} (hinit : schedInit s₀ fn sp = some s) :
    s.uptimeMs = s₀.uptimeMs := by
  unfold schedInit at hinit
  dsimp only at hinit
  have hclock := act_uptimeMs (a := .createPrio fn (some "idle".toList) taskPrioIdle sp)
    (s := { s₀ with tasks := fun _ => Task.zero, prioBitmap := fun _ => 0 }) nofun
  dsimp only [act] at hclock
  rcases hres : taskCreatePrio { s₀ with tasks := fun _ => Task.zero, prioBitmap := fun _ => 0 } fn
    (some "idle".toList) taskPrioIdle sp with ⟨u, - | i⟩
  · rw [hres] at hinit
    cases hinit
  · rw [hres] at hinit hclock
    cases hinit
    exact hclock

theorem phased_init {s₀ : State} {fn sp : UInt32} (hinit : schedInit s₀ fn sp = some s) :
    ∃ idle, Phased s idle 0 := by
  obtain ⟨idle, hs, -, -, hruns⟩ := schedInit_stack hinit
  have hzero : ∀ i, (s.tasks i).runTicks = 0 := by
    intro i
    by_cases hi : i = idle
    · rw [hi, hruns]
    · rw [hs.others i hi]
      rfl
  refine ⟨idle, timely_running hs.currentTask hs.running ?_, ?_, fun i _ => hzero i⟩
  · intro i
    rw [hzero]
    decide
  · rw [hruns]
    rfl

/-- As long as the clock counts the runs of the handler. -/
theorem Phased.everyStep (h : Phased s c k) (hclock : s.uptimeMs.toNat = k)
    (hlen : k + (actions.map Action.ticks).sum < 2 ^ 32) :
    Run.EveryStep step (fun s a u => (u.currentTask ≠ s.currentTask → 10 ∣ u.uptimeMs.toNat) ∧
      (a = .tick → u.currentTask = s.currentTask → Unswept s u)) s actions := by
  induction actions generalizing s c k with
  | nil => trivial
  | cons a actions ih =>
    rintro u hu
    obtain rfl : act s a = u := Option.some.inj hu
    rw [List.map_cons, List.sum_cons] at hlen
    by_cases ha : a = .tick
    · subst ha
      have hone : (1 : UInt32).toNat = 1 := rfl
      have hticks : Action.ticks .tick = 1 := rfl
      have hnext : (s.uptimeMs + 1).toNat = k + 1 := by
        rw [UInt32.toNat_add]
        omega
      obtain ⟨c', hp, hten, hswept⟩ := h.tick
      have hclock' : (timerHandler s).1.uptimeMs.toNat = k + 1 := by
        rw [(timerHandler_result h.timely.current).clock.1, hnext]
      have hcurrent := hp.timely.current
      refine ⟨⟨?_, ?_⟩, ih hp hclock' (by omega)⟩
      · intro hne
        dsimp only [act] at hne ⊢
        rw [hclock']
        refine Nat.dvd_of_mod_eq_zero (hten ?_)
        rintro rfl
        exact hne (hcurrent.trans h.timely.current.symm)
      · intro _ heq
        dsimp only [act] at heq ⊢
        rw [hcurrent, h.timely.current] at heq
        refine hswept ?_ (Option.some.inj heq)
        intro hfifty
        have hmod : (k + 1) % 50 = 0 := by
          rw [← hnext]
          exact (UInt32.toNat_mod (s.uptimeMs + 1) 50).symm.trans (congrArg UInt32.toNat hfifty)
        omega
    · have hcalled := called_act h.timely.current h.timely.used ha
      have hzero : a.ticks = 0 := by
        cases a <;> first | rfl | exact absurd rfl ha
      refine ⟨⟨?_, fun htick => absurd htick ha⟩, ih (h.called hcalled) ?_ (by omega)⟩
      · exact fun hne => absurd hcalled.currentTask hne
      · rw [act_uptimeMs ha]
        exact hclock

/-- In the first 2^32 milliseconds, `timer_handler` hands the CPU over only when `uptime_ms` is a
multiple of ten, whatever the tasks call; and when it does not, no task is aged, and no stack
is given back. -/
theorem handsOver_on_tens {fn sp : UInt32} (hinit : schedInit State.zero fn sp = some s)
    (hlen : (actions.map Action.ticks).sum < 2 ^ 32) :
    Run.EveryStep step (fun s a u => (u.currentTask ≠ s.currentTask → 10 ∣ u.uptimeMs.toNat) ∧
      (a = .tick → u.currentTask = s.currentTask → Unswept s u)) s actions := by
  obtain ⟨idle, hp⟩ := phased_init hinit
  refine hp.everyStep ?_ (by omega)
  rw [schedInit_uptimeMs hinit]
  rfl

theorem handsOver_on_tens_tick :
    Run.EveryStep step (fun s a u => (u.currentTask ≠ s.currentTask → 10 ∣ u.uptimeMs.toNat) ∧
      (a = .tick → u.currentTask = s.currentTask → Unswept s u)) booted
      [.create 0x102000 none 0x202000, .tick] :=
  handsOver_on_tens schedInit_zero (by decide)

/-! The real-time priority. -/

/-- Tasks with `TASK_PRIO_RT` are READY and in the bitmap, and none of them executes. -/
structure RtWaits (s : State) (c : Slot) : Prop where
  timely : Timely s c
  below : (s.tasks c).priority ≠ taskPrioRt
  waits : ∀ i, (s.tasks i).priority = taskPrioRt → Ready s i ∧ bitmapTest s taskPrioRt = true

/-- From `s` to `u` the tasks with `TASK_PRIO_RT` keep it, and keep the CPU from being handed
over. -/
structure RtStep (s : State) (c : Slot) (u : State) (c' : Slot) : Prop where
  waits : RtWaits u c'
  stays : ∀ i, (s.tasks i).priority = taskPrioRt →
    (u.tasks i).priority = taskPrioRt ∧ c' = c

theorem RtStep.trans {v : State} {c' c'' : Slot} (h : RtStep s c u c') (h' : RtStep u c' v c'') :
    RtStep s c v c'' := by
  refine ⟨h'.waits, ?_⟩
  intro i hi
  obtain ⟨hi', hc⟩ := h.stays i hi
  obtain ⟨hi'', hc'⟩ := h'.stays i hi'
  exact ⟨hi'', hc'.trans hc⟩

/-- The tasks that have `TASK_PRIO_RT` are the same, as READY as before, and so is its bit. -/
theorem RtWaits.kept (h : RtWaits s c) (htimely : Timely u c)
    (hprio : ∀ j, (u.tasks j).priority = taskPrioRt ↔ (s.tasks j).priority = taskPrioRt)
    (hready : ∀ j, (s.tasks j).priority = taskPrioRt → Ready s j → Ready u j)
    (hbit : bitmapTest s taskPrioRt = true → bitmapTest u taskPrioRt = true) :
    RtStep s c u c where
  waits := by
    refine ⟨htimely, fun hc => h.below ((hprio c).mp hc), ?_⟩
    intro j hj
    have hj := (hprio j).mp hj
    obtain ⟨hr, hb⟩ := h.waits j hj
    exact ⟨hready j hj hr, hbit hb⟩
  stays j hj := ⟨(hprio j).mpr hj, rfl⟩

theorem RtWaits.allocTask (h : RtWaits s c) {fn sp : UInt32} {name : Option (List Char)}
    (htimely : Timely (allocTask s fn name prio sp).1 c) :
    RtStep s c (allocTask s fn name prio sp).1 c := by
  rcases allocTask_result s fn name prio sp with hnone | ⟨v, i, hsome, hv⟩
  · rw [hnone]
    exact ⟨h, fun j hj => ⟨hj, rfl⟩⟩
  · rw [hsome] at htimely ⊢
    have hci := hv.used_ne h.timely.used
    refine ⟨⟨htimely, ?_, ?_⟩, ?_⟩
    · dsimp only
      rw [hv.others c hci]
      exact h.below
    · intro j hj
      dsimp only at hj ⊢
      rw [hv.bitmap]
      by_cases hji : j = i
      · subst hji
        rw [hv.priority] at hj
        exact ⟨hv.state, by simp [hj]⟩
      · rw [hv.others j hji] at hj
        obtain ⟨hr, hb⟩ := h.waits j hj
        refine ⟨?_, by simp [hb]⟩
        unfold Ready
        rw [hv.others j hji]
        exact hr
    · intro j hj
      have hji : j ≠ i := by
        rintro rfl
        have hr := (h.waits j hj).1
        unfold Ready at hr
        rw [hv.unused] at hr
        cases hr
      dsimp only
      rw [hv.others j hji]
      exact ⟨hj, rfl⟩

theorem taskSetPriority_rt (hold : (s.tasks i).priority ≠ taskPrioRt) (hnew : prio ≠ taskPrioRt) :
    bitmapTest (taskSetPriority s (some i) prio) taskPrioRt = bitmapTest s taskPrioRt := by
  unfold taskSetPriority
  by_cases hr : (s.tasks i).state = .ready
  · simp [hr, hold, hnew]
  · simp [hr]

theorem taskSleep_rt (hc : s.currentTask = some c) (hbelow : (s.tasks c).priority ≠ taskPrioRt) :
    bitmapTest (taskSleep s ms) taskPrioRt = bitmapTest s taskPrioRt := by
  simp only [taskSleep, hc]
  split_ifs
  · rfl
  · simp [hbelow]

theorem taskWake_rt (hb : bitmapTest s taskPrioRt = true) :
    bitmapTest (taskWake s t) taskPrioRt = true := by
  cases t with
  | none => exact hb
  | some i =>
    unfold taskWake
    dsimp only
    split_ifs
    · simp [hb]
    · exact hb

/-- One call. -/
theorem RtWaits.call (h : RtWaits s c) (ha : a ≠ .tick) (hspare : SparesRt s a) :
    RtStep s c (act s a) c := by
  have htimely := h.timely.called (called_act h.timely.current h.timely.used ha)
  cases a with
  | create fn name sp => exact h.allocTask htimely
  | createPrio fn name prio sp => exact h.allocTask htimely
  | setPriority t prio =>
    refine h.kept htimely ?_ ?_ ?_
    · intro j
      dsimp only [act]
      rw [taskSetPriority_tasks]
      split_ifs with htj
      · rw [htj] at hspare
        exact iff_of_false hspare.2 hspare.1
      · rfl
    · intro j _ hr
      exact taskSetPriority_state.trans hr
    · intro hb
      cases t with
      | none => exact hb
      | some i => exact (taskSetPriority_rt hspare.1 hspare.2).trans hb
  | sleep ms =>
    by_cases hms : ms = 0
    · dsimp only [act] at htimely ⊢
      rw [hms, taskSleep_zero] at htimely ⊢
      exact ⟨h, fun j hj => ⟨hj, rfl⟩⟩
    · refine h.kept htimely ?_ ?_ (fun hb => (taskSleep_rt h.timely.current h.below).trans hb)
      · intro j
        dsimp only [act]
        rw [taskSleep_tasks h.timely.current hms]
        split_ifs with hj
        · rw [hj]
        · rfl
      · intro j hj hr
        dsimp only [act]
        unfold Ready
        rw [taskSleep_state h.timely.current hms, if_neg]
        · exact hr
        · rintro rfl
          exact h.below hj
  | wake t =>
    refine h.kept htimely ?_ ?_ taskWake_rt
    · intro j
      dsimp only [act]
      rw [taskWake_tasks]
      split_ifs <;> rfl
    · intro j _ hr
      dsimp only [act]
      unfold Ready at hr ⊢
      rw [taskWake_state]
      split_ifs
      · rfl
      · exact hr
  | exit exitCode =>
    refine h.kept htimely ?_ ?_ ?_
    · intro j
      dsimp only [act]
      rw [taskExit_tasks h.timely.current]
      split_ifs with hj
      · rw [hj]
      · rfl
    · intro j hj hr
      dsimp only [act]
      unfold Ready
      rw [taskExit_state h.timely.current, if_neg]
      · exact hr
      · rintro rfl
        exact h.below hj
    · intro hb
      dsimp only [act, taskExit]
      rw [h.timely.current]
      exact hb
  | tick => exact absurd rfl ha

theorem Promoted.ne_rt {t : Task} (h : Promoted t) :
    t.priority ≠ taskPrioRt ∧ t.priority + 1 ≠ taskPrioRt := by
  have hlt := Fin.lt_def.mp h.2.2
  have hval : (254 : Prio).val = 254 := rfl
  have hrt : taskPrioRt.val = 255 := rfl
  refine ⟨fun heq => ?_, fun heq => ?_⟩
  · have := congrArg Fin.val heq
    omega
  · have := congrArg Fin.val heq
    rw [Fin.val_add, Fin.val_one] at this
    omega

theorem ageAndReap_priority_rt :
    ((ageAndReap s).tasks j).priority = taskPrioRt ↔ (s.tasks j).priority = taskPrioRt := by
  rw [ageAndReap_tasks]
  split_ifs
  · rw [reapedTask_priority, agedTask_priority]
    split_ifs with hp
    · exact iff_of_false hp.ne_rt.2 hp.ne_rt.1
    · rfl
  · rfl

theorem ageAndReap_rt (hb : bitmapTest s taskPrioRt = true) :
    bitmapTest (ageAndReap s) taskPrioRt = true := by
  unfold ageAndReap
  split_ifs
  · rw [reapZombies_bitmapTest, ageTasks_bitmapTest]
    exact Or.inr ⟨hb, fun j hj => hj.1.ne_rt.1 hj.2⟩
  · exact hb

theorem queuedPrio_rt (h : queuedPrio s c j = taskPrioRt) : (s.tasks j).priority = taskPrioRt :=
  le_antisymm (Fin.le_last _) (h ▸ queuedPrio_le)

/-- `bitmap_top` answers with the bit of `TASK_PRIO_RT` as if there were none. -/
theorem RtWaits.pick_none (h : RtWaits s c) (hrt : (s.tasks i).priority = taskPrioRt) :
    schedPickNext (atPick s c) = none := by
  have hbit : bitmapTest (atPick s c) taskPrioRt = true := by
    rw [atPick_bitmapTest]
    exact Or.inl ⟨Or.inl (h.waits i hrt).2, fun hd => h.below hd.2⟩
  refine schedPickNext_eq_none.mpr (Or.inl ?_)
  exact le_antisymm (Fin.le_last _) ((bitmapTop_isGreatest hbit).2 hbit)

/-- The quantum goes on. -/
theorem RtWaits.early (h : RtWaits s c)
    (htimely : Timely (ageAndReap (chargeTick (tickClock s) c)) c) :
    RtStep s c (ageAndReap (chargeTick (tickClock s) c)) c := by
  refine h.kept htimely ?_ ?_ ?_
  · intro j
    rw [ageAndReap_priority_rt]
    simp
  · intro j _ hr
    unfold Ready
    rw [ageAndReap_state_eq (by decide) (by decide), chargeTick_state, tickClock_tasks]
    exact wokenTask_ready.mpr (Or.inl hr)
  · intro hb
    refine ageAndReap_rt ?_
    rw [chargeTick_bitmapTest, tickClock_bitmapTest]
    exact Or.inl hb

/-- The current task begins another quantum. -/
theorem RtWaits.keep (h : RtWaits s c) (htimely : Timely (keepCurrent (atPick s c) c) c) :
    RtStep s c (keepCurrent (atPick s c) c) c := by
  have hother : ∀ j, (s.tasks j).priority = taskPrioRt → j ≠ c := by
    rintro j hj rfl
    exact h.below hj
  have hbelow : queuedPrio s c c ≠ taskPrioRt := fun hc => h.below (queuedPrio_rt hc)
  refine h.kept htimely ?_ ?_ ?_
  · intro j
    have hprio : ((keepCurrent (atPick s c) c).tasks j).priority = queuedPrio s c j := by
      rw [keepCurrent_tasks]
      split_ifs with hj
      · rw [hj]
        exact atPick_priority
      · exact atPick_priority
    rw [hprio]
    refine ⟨queuedPrio_rt, fun hj => ?_⟩
    unfold queuedPrio
    rw [if_neg fun hand => hother j hj hand.1, hj]
  · intro j hj hr
    unfold Ready
    rw [keepCurrent_tasks, if_neg (hother j hj)]
    exact atPick_ready.mpr (Or.inl (Or.inl hr))
  · intro hb
    rw [keepCurrent_bitmapTest, atPick_priority, decide_eq_false hbelow, Bool.not_false,
      Bool.true_and, atPick_bitmapTest]
    exact Or.inl ⟨Or.inl hb, fun hd => h.below hd.2⟩

/-- Without tasks of `TASK_PRIO_RT`, the one that is picked is below. -/
theorem RtWaits.handed (h : RtWaits s c) (htimely : Timely u n)
    (hpick : schedPickNext (atPick s c) = some n)
    (hprio : ∀ j, (u.tasks j).priority = taskPrioRt → queuedPrio s c j = taskPrioRt) :
    RtStep s c u n := by
  have hno : ∀ j, (s.tasks j).priority ≠ taskPrioRt := by
    intro j hj
    rw [h.pick_none hj] at hpick
    cases hpick
  have hno' : ∀ j, (u.tasks j).priority ≠ taskPrioRt := fun j hj => hno j (queuedPrio_rt (hprio j hj))
  exact ⟨⟨htimely, hno' n, fun j hj => absurd hj (hno' j)⟩, fun j hj => absurd hj (hno j)⟩

/-- One run of the handler. -/
theorem RtWaits.tick (h : RtWaits s c) : ∃ c', RtStep s c (timerHandler s).1 c' := by
  have hres := timerHandler_result h.timely.current
  obtain ⟨slots, hr⟩ := hres.reaps h.timely.used
  obtain ⟨c', htimely⟩ := h.timely.timer hr
  generalize timerHandler s = r at hres hr htimely ⊢
  have hcurrent := htimely.current
  have hswitch : ∀ n, n ≠ c → ∀ j, ((switchTo (atPick s c) c n).1.tasks j).priority =
      queuedPrio s c j := by
    intro n hn j
    rw [switchTo_tasks hn]
    split_ifs with hjn hjc
    · rw [hjn]
      exact atPick_priority
    · rw [hjc]
      exact atPick_priority
    · exact atPick_priority
  refine ⟨c', ?_⟩
  cases hres with
  | early hx =>
    have hc : c' = c := by simpa [h.timely.current, eq_comm] using hcurrent
    subst hc
    exact h.early htimely
  | keep hx hpick =>
    have hc : c' = c := by simpa [h.timely.current, eq_comm] using hcurrent
    subst hc
    exact h.keep htimely
  | enter n fn hx hn hpick hctx =>
    have hc : c' = n := by simpa [eq_comm] using hcurrent
    subst hc
    refine h.handed htimely hpick ?_
    intro j hj
    rwa [hswitch c' hn j] at hj
  | resume n hx hn hpick hctx =>
    have hc : c' = n := by simpa [eq_comm] using hcurrent
    subst hc
    refine h.handed htimely hpick ?_
    intro j hj
    rwa [ageAndReap_priority_rt, hswitch c' hn j] at hj

/-- A run. -/
theorem RtWaits.run (h : RtWaits s c)
    (hspare : Run.EveryStep step (fun s a _ => SparesRt s a) s actions)
    (hrun : Run.run step s actions = some u) : ∃ c', RtStep s c u c' := by
  induction actions generalizing s c with
  | nil =>
    cases hrun
    exact ⟨c, h, fun j hj => ⟨hj, rfl⟩⟩
  | cons a actions ih =>
    obtain ⟨ha, hrest⟩ := hspare (act s a) rfl
    have hnext : ∃ c', RtStep s c (act s a) c' := by
      by_cases htick : a = .tick
      · rw [htick]
        exact h.tick
      · exact ⟨c, h.call htick ha⟩
    obtain ⟨c', hstep⟩ := hnext
    obtain ⟨c'', hlater⟩ := ih hstep.waits hrest hrun
    exact ⟨c'', hstep.trans hlater⟩

theorem schedInit_priority {s₀ : State} {fn sp : UInt32} (hinit : schedInit s₀ fn sp = some s)
    (i : Slot) : (s.tasks i).priority = taskPrioIdle := by
  obtain ⟨idle, hs⟩ := schedInit_result hinit
  by_cases hi : i = idle
  · subst hi
    unfold schedInit taskCreatePrio at hinit
    dsimp only at hinit
    cases halloc : allocTask { s₀ with tasks := fun _ => Task.zero, prioBitmap := fun _ => 0 } fn
        (some "idle".toList) taskPrioIdle sp with
    | mk u slot =>
      rw [halloc] at hinit
      cases slot with
      | none => cases hinit
      | some j =>
        cases hinit
        obtain rfl : j = i := Option.some.inj hs.currentTask
        simpa using (allocTask_allocated halloc).priority
  · rw [hs.others i hi]
    rfl

theorem rtWaits_init {s₀ : State} {fn sp : UInt32} (hinit : schedInit s₀ fn sp = some s) :
    ∃ idle, RtWaits s idle := by
  obtain ⟨idle, hp⟩ := phased_init hinit
  have hprio : ∀ i, (s.tasks i).priority ≠ taskPrioRt := by
    intro i
    rw [schedInit_priority hinit]
    decide
  exact ⟨idle, hp.timely, hprio idle, fun i hi => absurd hi (hprio i)⟩

/-- From the moment there is a task with `TASK_PRIO_RT`, it waits for ever, and `timer_handler`
hands the CPU to nobody. -/
theorem rt_stops_handOver {s₀ t : State} {fn sp : UInt32} (hinit : schedInit s₀ fn sp = some s)
    (hspare : Run.EveryStep step (fun s a _ => SparesRt s a) s (actions ++ later))
    (hrun : Run.run step s actions = some t) (hrt : (t.tasks i).priority = taskPrioRt)
    (hlater : Run.run step t later = some u) :
    u.currentTask = t.currentTask ∧ u.currentTask ≠ some i ∧ Ready u i := by
  obtain ⟨idle, hstart⟩ := rtWaits_init hinit
  obtain ⟨hfirst, hrest⟩ := Run.everyStep_append.mp hspare
  obtain ⟨c, hc⟩ := hstart.run hfirst hrun
  obtain ⟨c', hc'⟩ := hc.waits.run (hrest t hrun) hlater
  obtain ⟨hi, rfl⟩ := hc'.stays i hrt
  rw [hc'.waits.timely.current, hc.waits.timely.current]
  refine ⟨rfl, ?_, (hc'.waits.waits i hi).1⟩
  intro heq
  exact hc'.waits.below (Option.some.inj heq ▸ hi)

theorem rt_stops_handOver_tick : ∃ u : State,
    Run.run step booted [.createPrio 0x102000 none taskPrioRt 0x202000, .tick] = some u ∧
      u.currentTask = some 0 ∧ Ready u 1 := by
  have h := @rt_stops_handOver booted _ 1 [.createPrio 0x102000 none taskPrioRt 0x202000] [.tick]
    State.zero _ 0x00101000 0x00200000 schedInit_zero
    (fun _ _ => ⟨trivial, fun _ _ => ⟨trivial, trivial⟩⟩) rfl (by decide +kernel) rfl
  exact ⟨_, rfl, h.1.trans (by decide +kernel), h.2.2⟩

end PinguinOS.Sched
