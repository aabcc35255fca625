import PinguinOS.Sched.Machine

/-! The life of a task: who executes after `timer_handler`, and what ZOMBIE and SLEEPING mean. -/
namespace PinguinOS.Sched

/-- The handler leaves the CPU to a task that may have it: the interrupted one is RUNNING, or is
READY and its quantum ends here, or is replaced. -/
def Leaves (s : State) (c : Slot) : Prop :=
  (s.tasks c).state = .running ∨ (Expired s c ∧ ReadyAt s c) ∨ Switches s c

/-- Whether this is a run of `timer_handler`. -/
def Event.IsTimer : Event → Prop
  | .interrupt | .yield => True
  | _ => False

/-- At every run of `timer_handler` the current task meets `Leaves`. -/
def Orderly (m : Machine) (e : Event) : Prop :=
  e.IsTimer → ∀ c, m.sched.currentTask = some c → Leaves m.sched c

/-- The task has called `task_exit`. -/
def Machine.Exited (m : Machine) (i : Slot) : Prop :=
  m.position i = .exitCall ∨ m.position i = .exitYield ∨ m.position i = .halted

/-- What one step owes to the tasks. -/
structure Proper (m : Machine) (e : Event) (m' : Machine) : Prop where
  current : e.IsTimer → m'.sched.currentTask = some m'.cpu
  running : e.IsTimer → ∀ i, (m'.sched.tasks i).state = .running ↔ i = m'.cpu
  /-- A task that has called `task_exit` is not executed after its `task_yield`. -/
  gone : ∀ i, m'.position i ≠ .halted ∧ (m'.position i = .exitYield → i ≠ m'.cpu)
  zombie : ∀ i, m'.Exited i → (m'.sched.tasks i).state = .zombie ∨
    (m'.sched.tasks i).state = .unused
  reaped : ∀ i, m.Exited i → m'.Exited i → (m.sched.tasks i).state = .unused →
    (m'.sched.tasks i).state = .unused
  /-- A task that has called `task_sleep` has not returned from its `task_yield`. -/
  asleep : ∀ i, m'.asleep i = true → m'.position i ≠ .code

variable {s : State} {c i j n : Slot} {r : State × Option (Slot × ResumePoint)}

/-- Who executes after the handler: the task handed to, or else the interrupted one. -/
theorem TickResult.currentTask (h : TickResult s c r) (hc : s.currentTask = some c) :
    r.1.currentTask = some ((r.2.map Prod.fst).getD c) := by
  cases h with
  | early hx => simp [hc]
  | keep hx hpick => simp [hc]
  | enter n fn hx hn hpick hctx => simp
  | resume n hx hn hpick hctx => simp

theorem switchTo_running (hn : n ≠ c) (hq : ∀ j, (s.tasks j).state ≠ .running) :
    ((switchTo s c n).1.tasks j).state = .running ↔ j = n := by
  rw [switchTo_tasks hn]
  split_ifs with hjn hjc
  · simp [dispatchedTask, hjn]
  · simp [hjn, hq c]
  · simp [hjn, hq j]

theorem atPick_not_running (h : ∀ i, (s.tasks i).state = .running → i = c) :
    ((atPick s c).tasks j).state ≠ .running := by
  rw [atPick_state]
  split_ifs with hj
  · simp
  · rw [Ne, wokenTask_running]
    intro hr
    have := h j hr
    subst this
    exact hj ⟨rfl, hr⟩

/-- The one RUNNING task after the handler is the one that executes. -/
theorem TickResult.running (h : TickResult s c r) (hl : Leaves s c) (hsw : r.2.isSome ↔ Switches s c)
    (honly : ∀ i, (s.tasks i).state = .running → i = c) :
    (r.1.tasks j).state = .running ↔ j = (r.2.map Prod.fst).getD c := by
  cases h with
  | early hx =>
    have hrun : (s.tasks c).state = .running := by
      rcases hl with hl | hl | hl
      · exact hl
      · exact absurd hl.1 hx
      · exact absurd hl.1 hx
    simp only [Option.map_none, Option.getD_none]
    rw [ageAndReap_state_eq (by decide) (by decide), chargeTick_state, tickClock_tasks,
      wokenTask_running]
    exact ⟨honly j, fun hj => hj ▸ hrun⟩
  | keep hx hpick =>
    simp only [keepCurrent_tasks, Option.map_none, Option.getD_none]
    split_ifs with hj
    · simp [hj]
    · simp [hj, atPick_not_running honly]
  | enter n fn hx hn hpick hctx =>
    exact switchTo_running hn fun j => atPick_not_running honly
  | resume n hx hn hpick hctx =>
    dsimp only
    rw [ageAndReap_state_eq (by decide) (by decide)]
    exact switchTo_running hn fun j => atPick_not_running honly

/-- It was RUNNING before, or this tick found it READY. -/
theorem TickResult.awake (h : TickResult s c r) (hl : Leaves s c)
    (hsw : r.2.isSome ↔ Switches s c) (hj : j = (r.2.map Prod.fst).getD c) :
    (s.tasks j).state = .running ∨ ReadyAt s j := by
  subst hj
  have hstay : r.2 = none → (s.tasks c).state = .running ∨ ReadyAt s c := by
    intro hnone
    rcases hl with hl | hl | hl
    · exact Or.inl hl
    · exact Or.inr hl.2
    · simp [hnone] at hsw
      exact absurd hl hsw
  have hpicked : ∀ n, n ≠ c → schedPickNext (atPick s c) = some n → ReadyAt s n := by
    intro n hn hpick
    obtain ⟨-, hr, -, -⟩ := schedPickNext_eq_some.mp hpick
    rcases atPick_ready.mp hr with hr | ⟨hr, -⟩
    · exact hr
    · exact absurd hr hn
  cases h with
  | early hx => exact hstay rfl
  | keep hx hpick => exact hstay rfl
  | enter n fn hx hn hpick hctx => exact Or.inr (hpicked n hn hpick)
  | resume n hx hn hpick hctx => exact Or.inr (hpicked n hn hpick)

theorem wokenTask_of_not_due {now : UInt32} {t : Task} (h : ¬ Due now t) : wokenTask now t = t :=
  if_neg h

theorem atPick_state_of_idle (hr : (s.tasks j).state ≠ .running)
    (hd : ¬ Due (s.uptimeMs + 1) (s.tasks j)) :
    ((atPick s c).tasks j).state = (s.tasks j).state := by
  rw [atPick_state, wokenTask_of_not_due hd]
  split_ifs with h
  · exact absurd (h.1 ▸ h.2) hr
  · rfl

theorem ageAndReap_state :
    ((ageAndReap s).tasks j).state = (s.tasks j).state ∨
      ((s.tasks j).state = .zombie ∧ ((ageAndReap s).tasks j).state = .unused) := by
  rw [ageAndReap_tasks]
  split_ifs
  · rcases reapedTask_state (t := agedTask (s.tasks j)) with h | h
    · exact Or.inl (h.trans agedTask_state)
    · rw [agedTask_state] at h
      exact Or.inr h
  · exact Or.inl rfl

/-- A task that neither executes nor wakes keeps its state, or is reaped. -/
theorem TickResult.state_of_idle (h : TickResult s c r) (hr : (s.tasks j).state ≠ .running)
    (hd : ¬ Due (s.uptimeMs + 1) (s.tasks j)) (hj : j ≠ (r.2.map Prod.fst).getD c) :
    (r.1.tasks j).state = (s.tasks j).state ∨
      ((s.tasks j).state = .zombie ∧ (r.1.tasks j).state = .unused) := by
  have hswitch : ∀ n, n ≠ c → j ≠ n →
      ((switchTo (atPick s c) c n).1.tasks j).state = (s.tasks j).state := by
    intro n hn hjn
    rw [← atPick_state_of_idle (c := c) hr hd, switchTo_tasks hn, if_neg hjn]
    split_ifs with hjc
    · rw [hjc]
    · rfl
  cases h with
  | early hx =>
    have hst : ((chargeTick (tickClock s) c).tasks j).state = (s.tasks j).state := by
      rw [chargeTick_state, tickClock_tasks, wokenTask_of_not_due hd]
    have hreap := ageAndReap_state (s := chargeTick (tickClock s) c) (j := j)
    rwa [hst] at hreap
  | keep hx hpick =>
    have hjc : j ≠ c := hj
    left
    simp only
    rw [keepCurrent_tasks, if_neg hjc, atPick_state_of_idle hr hd]
  | enter n fn hx hn hpick hctx => exact Or.inl (hswitch n hn hj)
  | resume n hx hn hpick hctx =>
    have hreap := ageAndReap_state (s := (switchTo (atPick s c) c n).1) (j := j)
    rwa [hswitch n hn hj] at hreap

/-- What holds of the machine whenever it enters the handler; the executing task may already
count as suspended in its `int $0x20`. -/
structure Entering (m : Machine) : Prop where
  current : m.sched.currentTask = some m.cpu
  onlyRunning : ∀ i, (m.sched.tasks i).state = .running → i = m.cpu
  notHalted : ∀ i, m.position i ≠ .halted
  exited : ∀ i, m.Exited i → (m.sched.tasks i).state = .zombie ∨ (m.sched.tasks i).state = .unused
  sleeping : ∀ i, m.asleep i = true → (m.sched.tasks i).state = .sleeping
  inSleep : ∀ i, m.asleep i = true → m.position i ≠ .code

/-- What holds between the steps of an orderly run. -/
structure Machine.Inv (m : Machine) : Prop extends Entering m where
  used : (m.sched.tasks m.cpu).state ≠ .unused
  inCode : m.position m.cpu = .code → (m.sched.tasks m.cpu).state = .running
  onCpu : m.position m.cpu ≠ .sleepYield ∧ m.position m.cpu ≠ .exitYield

variable {m m' : Machine} {e : Event} {events : List Event}

/-- The three exits of the handler, taken together. -/
structure Returned (m : Machine) (r : State × Option (Slot × ResumePoint)) (m' : Machine) :
    Prop where
  sched : m'.sched = r.1
  cpu : m'.cpu = (r.2.map Prod.fst).getD m.cpu
  landed : m'.position m'.cpu = .code ∨ m'.position m'.cpu = (m.position m'.cpu).leaveYield
  others : ∀ i, i ≠ m'.cpu → m'.position i = m.position i
  asleep : ∀ i, m'.asleep i = true ↔
    m.asleep i = true ∧ ¬ Due (m.sched.uptimeMs + 1) (m.sched.tasks i)

theorem returned_afterHandler (m : Machine) (r : State × Option (Slot × ResumePoint)) :
    Returned m r (m.afterHandler r) := by
  obtain ⟨u, handed⟩ := r
  rcases handed with - | ⟨n, fn | -⟩
  · constructor
    · rfl
    · rfl
    · right
      simp [Machine.afterHandler]
    · intro i hi
      exact Function.update_of_ne hi _ _
    · simp [Machine.afterHandler]
  · constructor
    · rfl
    · rfl
    · left
      simp [Machine.afterHandler]
    · intro i hi
      exact Function.update_of_ne hi _ _
    · simp [Machine.afterHandler]
  · constructor
    · rfl
    · rfl
    · right
      simp [Machine.afterHandler]
    · intro i hi
      exact Function.update_of_ne hi _ _
    · simp [Machine.afterHandler]

theorem leaveYield_ne (p : Position) : p.leaveYield ≠ .sleepYield ∧ p.leaveYield ≠ .exitYield := by
  cases p <;> simp [Position.leaveYield]

theorem enterYield_exited {p q : Position} (h : p.enterYield = some q) :
    q ≠ .halted ∧ (q = .exitCall ∨ q = .exitYield ∨ q = .halted → p = .exitCall) ∧
      (q = .code → p = .code) := by
  cases p <;> simp_all [Position.enterYield, eq_comm]

/-- `task_yield` only moves the executing task into its `int $0x20`. -/
theorem Entering.yield (h : Entering m) {p : Position}
    (hp : (m.position m.cpu).enterYield = some p) :
    Entering { m with position := Function.update m.position m.cpu p } := by
  obtain ⟨hhalt, hexit, hcode⟩ := enterYield_exited hp
  constructor
  · exact h.current
  · exact h.onlyRunning
  · intro i
    by_cases hi : i = m.cpu
    · subst hi
      simpa using hhalt
    · simpa [hi] using h.notHalted i
  · intro i he
    by_cases hi : i = m.cpu
    · subst hi
      refine h.exited m.cpu (Or.inl (hexit ?_))
      simpa [Machine.Exited] using he
    · refine h.exited i ?_
      simpa [Machine.Exited, hi] using he
  · exact h.sleeping
  · intro i ha
    by_cases hi : i = m.cpu
    · subst hi
      intro hc
      exact h.inSleep m.cpu ha (hcode (by simpa using hc))
    · simpa [hi] using h.inSleep i ha

theorem returned_timer (m : Machine) : Returned m (timerHandler m.sched) m.timer :=
  returned_afterHandler m _

theorem Entering.timer_current (h : Entering m) :
    m.timer.sched.currentTask = some m.timer.cpu := by
  rw [(returned_timer m).sched, (returned_timer m).cpu]
  exact (timerHandler_result h.current).currentTask h.current

theorem Entering.timer_running (h : Entering m) (hl : Leaves m.sched m.cpu) :
    (m.timer.sched.tasks i).state = .running ↔ i = m.timer.cpu := by
  rw [(returned_timer m).sched, (returned_timer m).cpu]
  exact (timerHandler_result h.current).running hl (timerHandler_transfer_iff h.current)
    h.onlyRunning

/-- The task that executes after the handler has neither exited nor is it still to be woken. -/
theorem Entering.timer_awake (h : Entering m) (hl : Leaves m.sched m.cpu) :
    (m.sched.tasks m.timer.cpu).state = .running ∨ ReadyAt m.sched m.timer.cpu :=
  (timerHandler_result h.current).awake hl (timerHandler_transfer_iff h.current)
    (returned_timer m).cpu

theorem Entering.timer_idle (h : Entering m) (hr : (m.sched.tasks i).state ≠ .running)
    (hd : ¬ Due (m.sched.uptimeMs + 1) (m.sched.tasks i)) (hi : i ≠ m.timer.cpu) :
    (m.timer.sched.tasks i).state = (m.sched.tasks i).state ∨
      ((m.sched.tasks i).state = .zombie ∧ (m.timer.sched.tasks i).state = .unused) := by
  rw [(returned_timer m).cpu] at hi
  rw [(returned_timer m).sched]
  exact (timerHandler_result h.current).state_of_idle hr hd hi

theorem Entering.not_exited (h : Entering m)
    (ha : (m.sched.tasks i).state = .running ∨ ReadyAt m.sched i) : ¬ m.Exited i := by
  intro he
  rcases h.exited i he with hz | hz
  · simp [hz, ReadyAt, Ready, Due] at ha
  · simp [hz, ReadyAt, Ready, Due] at ha

theorem Entering.due_of_asleep (h : Entering m)
    (ha : (m.sched.tasks i).state = .running ∨ ReadyAt m.sched i) (hs : m.asleep i = true) :
    Due (m.sched.uptimeMs + 1) (m.sched.tasks i) := by
  have hsl := h.sleeping i hs
  rcases ha with ha | ha | ha
  · simp [hsl] at ha
  · simp [Ready, hsl] at ha
  · exact ha

theorem Returned.exited {r : State × Option (Slot × ResumePoint)} (hret : Returned m r m')
    (he : m'.Exited i) : m.Exited i := by
  by_cases hi : i = m'.cpu
  · subst hi
    unfold Machine.Exited at he ⊢
    rcases hret.landed with hp | hp
    · simp [hp] at he
    · rw [hp] at he
      cases hm : m.position m'.cpu <;> simp_all [Position.leaveYield]
  · simpa [Machine.Exited, hret.others i hi] using he

theorem Entering.timer_exited (h : Entering m) (hl : Leaves m.sched m.cpu)
    (he : m.timer.Exited i) : m.Exited i ∧ i ≠ m.timer.cpu := by
  have he := (returned_timer m).exited he
  refine ⟨he, ?_⟩
  rintro rfl
  exact h.not_exited (h.timer_awake hl) he

theorem Entering.timer_asleep (h : Entering m) (hl : Leaves m.sched m.cpu)
    (ha : m.timer.asleep i = true) :
    m.asleep i = true ∧ ¬ Due (m.sched.uptimeMs + 1) (m.sched.tasks i) ∧ i ≠ m.timer.cpu := by
  obtain ⟨ha, hd⟩ := ((returned_timer m).asleep i).mp ha
  refine ⟨ha, hd, ?_⟩
  rintro rfl
  exact hd (h.due_of_asleep (h.timer_awake hl) ha)

/-- A task that has exited is left ZOMBIE, or reaped. -/
theorem Entering.timer_gone (h : Entering m) (hl : Leaves m.sched m.cpu)
    (he : m.timer.Exited i) :
    (m.timer.sched.tasks i).state = (m.sched.tasks i).state ∨
      ((m.sched.tasks i).state = .zombie ∧ (m.timer.sched.tasks i).state = .unused) := by
  obtain ⟨he, hi⟩ := h.timer_exited hl he
  rcases h.exited i he with hz | hz
  · exact h.timer_idle (by simp [hz]) (by simp [hz, Due]) hi
  · exact h.timer_idle (by simp [hz]) (by simp [hz, Due]) hi

/-- The handler returns into a machine in good order. -/
theorem Entering.inv_timer (h : Entering m) (hl : Leaves m.sched m.cpu) : m.timer.Inv := by
  have hret := returned_timer m
  have hrun : (m.timer.sched.tasks m.timer.cpu).state = .running :=
    (h.timer_running hl).mpr rfl
  constructor
  · constructor
    · exact h.timer_current
    · intro i hi
      exact (h.timer_running hl).mp hi
    · intro i hhalt
      obtain ⟨-, hi⟩ := h.timer_exited hl (Or.inr (Or.inr hhalt))
      exact h.notHalted i (hret.others i hi ▸ hhalt)
    · intro i he
      rcases h.exited i (h.timer_exited hl he).1 with hz | hz
      · rcases h.timer_gone hl he with hs | ⟨-, hs⟩
        · exact Or.inl (hs.trans hz)
        · exact Or.inr hs
      · rcases h.timer_gone hl he with hs | ⟨hs, -⟩
        · exact Or.inr (hs.trans hz)
        · simp [hz] at hs
    · intro i ha
      obtain ⟨ha, hd, hi⟩ := h.timer_asleep hl ha
      have hs := h.sleeping i ha
      rcases h.timer_idle (by simp [hs]) hd hi with hst | ⟨hz, -⟩
      · exact hst.trans hs
      · simp [hs] at hz
    · intro i ha
      obtain ⟨ha, -, hi⟩ := h.timer_asleep hl ha
      rw [hret.others i hi]
      exact h.inSleep i ha
  · simp [hrun]
  · intro _
    exact hrun
  · rcases hret.landed with hp | hp
    · simp [hp]
    · rw [hp]
      exact leaveYield_ne _

theorem Entering.proper_timer {m₀ : Machine} (h : Entering m) (hl : Leaves m.sched m.cpu)
    (hs : m₀.sched = m.sched) : Proper m₀ e m.timer := by
  have hinv := h.inv_timer hl
  constructor
  · intro _
    exact hinv.current
  · intro _ i
    exact h.timer_running hl
  · intro i
    refine ⟨hinv.notHalted i, ?_⟩
    rintro hy rfl
    exact hinv.onCpu.2 hy
  · exact hinv.exited
  · intro i _ he hu
    rw [hs] at hu
    rcases h.timer_gone hl he with hs | ⟨hs, -⟩
    · exact hs.trans hu
    · simp [hu] at hs
  · exact hinv.inSleep

/-- A step outside the handler, from one machine in good order into another. -/
theorem Machine.Inv.proper (h' : m'.Inv) (hcall : ¬ e.IsTimer)
    (hreaped : ∀ i, m'.Exited i → (m.sched.tasks i).state = .unused →
      (m'.sched.tasks i).state = .unused) : Proper m e m' where
  current ht := absurd ht hcall
  running ht := absurd ht hcall
  gone i := ⟨h'.notHalted i, fun hy hi => h'.onCpu.2 (hi ▸ hy)⟩
  zombie := h'.exited
  reaped i _ := hreaped i
  asleep := h'.inSleep

/-- One slot has changed, and only there is something to check. -/
theorem Entering.update (h : Entering m) {u : State} {i : Slot} {p : Position} {b : Bool}
    {state : TaskState} (hcur : u.currentTask = m.sched.currentTask)
    (hst : ∀ j, (u.tasks j).state = if j = i then state else (m.sched.tasks j).state)
    (hrunning : state ≠ .running) (hhalted : p ≠ .halted)
    (hexited : p = .exitCall ∨ p = .exitYield ∨ p = .halted → state = .zombie ∨ state = .unused)
    (hasleep : b = true → state = .sleeping ∧ p ≠ .code) :
    Entering { m with
      sched := u
      position := Function.update m.position i p
      asleep := Function.update m.asleep i b } := by
  constructor
  case current => exact hcur.trans h.current
  case onlyRunning =>
    intro j hj
    dsimp only at hj ⊢
    rw [hst] at hj
    split_ifs at hj
    · exact absurd hj hrunning
    · exact h.onlyRunning j hj
  case notHalted =>
    intro j
    dsimp only
    by_cases hj : j = i
    · rw [hj, Function.update_self]
      exact hhalted
    · rw [Function.update_of_ne hj]
      exact h.notHalted j
  case exited =>
    intro j he
    unfold Machine.Exited at he
    dsimp only at he ⊢
    rw [hst]
    by_cases hj : j = i
    · rw [hj, Function.update_self] at he
      rw [if_pos hj]
      exact hexited he
    · rw [Function.update_of_ne hj] at he
      rw [if_neg hj]
      exact h.exited j he
  case sleeping =>
    intro j ha
    dsimp only at ha ⊢
    rw [hst]
    by_cases hj : j = i
    · rw [hj, Function.update_self] at ha
      rw [if_pos hj]
      exact (hasleep ha).1
    · rw [Function.update_of_ne hj] at ha
      rw [if_neg hj]
      exact h.sleeping j ha
  case inSleep =>
    intro j ha
    dsimp only at ha ⊢
    by_cases hj : j = i
    · rw [hj, Function.update_self] at ha
      rw [hj, Function.update_self]
      exact (hasleep ha).2
    · rw [Function.update_of_ne hj] at ha
      rw [Function.update_of_ne hj]
      exact h.inSleep j ha

theorem Machine.Inv.sleep (h : m.Inv) {ms : UInt32} (hms : ms ≠ 0) :
    Machine.Inv { m with
      sched := taskSleep m.sched ms
      position := Function.update m.position m.cpu .sleepCall
      asleep := Function.update m.asleep m.cpu true } := by
  have hst := fun j => taskSleep_state (j := j) h.current hms
  constructor
  · exact h.toEntering.update taskSleep_currentTask hst nofun nofun (by simp) fun _ => ⟨rfl, nofun⟩
  · simp [hst]
  · simp
  · simp

theorem Machine.Inv.exit (h : m.Inv) (hp : m.position m.cpu = .code) {exitCode : Int32} :
    Machine.Inv { m with
      sched := taskExit m.sched exitCode
      position := Function.update m.position m.cpu .exitCall } := by
  have hst := fun j => taskExit_state (j := j) (e := exitCode) h.current
  have hawake : m.asleep m.cpu = false := by
    rw [← Bool.not_eq_true]
    exact fun ha => h.inSleep _ ha hp
  have hupdate := h.toEntering.update (b := m.asleep m.cpu) (p := .exitCall) taskExit_currentTask hst
    nofun nofun (fun _ => Or.inl rfl) fun ha => absurd (hawake.symm.trans ha) nofun
  rw [Function.update_eq_self] at hupdate
  constructor
  · exact hupdate
  · simp [hst]
  · simp
  · simp

theorem Machine.Inv.wake (h : m.Inv) {t : Option Slot} :
    Machine.Inv { m with
      sched := taskWake m.sched t
      asleep := fun i => m.asleep i && !decide (t = some i ∧
        ((m.sched.tasks i).state = .sleeping ∨ (m.sched.tasks i).state = .blocked)) } := by
  have hst := fun j => taskWake_state (s := m.sched) (t := t) (j := j)
  have hcur := taskWake_currentTask (s := m.sched) (t := t)
  obtain ⟨⟨h1, h2, h3, h4, h5, h6⟩, h7, h8, h9⟩ := h
  constructor
  · constructor
    · exact hcur.trans h1
    · intro i hi
      simp only [hst] at hi
      split_ifs at hi
      exact h2 i hi
    · exact h3
    · intro i he
      simp only [hst]
      rcases h4 i he with hz | hz
      · simp [hz]
      · simp [hz]
    · intro i ha
      simp only [Bool.and_eq_true, Bool.not_eq_true', decide_eq_false_iff_not] at ha
      simp only [hst, if_neg ha.2]
      exact h5 i ha.1
    · intro i ha
      simp only [Bool.and_eq_true] at ha
      exact h6 i ha.1
  · simp only [hst]
    split_ifs
    · simp
    · exact h7
  · intro hc
    simp [hst, h8 hc]
  · exact h9

theorem Machine.Inv.setPriority (h : m.Inv) {t : Option Slot} {prio : Prio} :
    Machine.Inv { m with sched := taskSetPriority m.sched t prio } := by
  obtain ⟨⟨h1, h2, h3, h4, h5, h6⟩, h7, h8, h9⟩ := h
  constructor
  · constructor
    · simpa using h1
    · simpa using h2
    · exact h3
    · intro i he
      simpa using h4 i he
    · simpa using h5
    · exact h6
  · simpa using h7
  · simpa using h8
  · exact h9

/-- A new task takes an UNUSED slot, so not the one of the executing task. -/
theorem Machine.Inv.created (h : m.Inv) (fn : UInt32) (name : Option (List Char)) (prio : Prio)
    (sp : UInt32) : (m.created (allocTask m.sched fn name prio sp)).Inv := by
  rcases allocTask_result m.sched fn name prio sp with hnone | ⟨u, i, hsome, hu⟩
  · rw [hnone]
    exact h
  · rw [hsome]
    have hcpu : m.cpu ≠ i := by
      rintro rfl
      exact h.used hu.unused
    have hst : ∀ j, (u.tasks j).state = if j = i then .ready else (m.sched.tasks j).state := by
      intro j
      split_ifs with hj
      · rw [hj, hu.state]
      · rw [hu.others j hj]
    unfold Machine.created
    constructor
    · exact h.toEntering.update hu.currentTask hst nofun nofun (by simp) nofun
    · simpa [hst, hcpu] using h.used
    · simpa [hst, hcpu] using h.inCode
    · simpa [hcpu] using h.onCpu

theorem created_unused {fn : UInt32} {name : Option (List Char)} {prio : Prio} {sp : UInt32}
    (he : (m.created (allocTask m.sched fn name prio sp)).Exited i)
    (hu : (m.sched.tasks i).state = .unused) :
    ((m.created (allocTask m.sched fn name prio sp)).sched.tasks i).state = .unused := by
  rcases allocTask_result m.sched fn name prio sp with hnone | ⟨u, j, hsome, halloc⟩
  · rw [hnone]
    exact hu
  · rw [hsome] at he ⊢
    have hij : i ≠ j := by
      rintro rfl
      simp [Machine.created, Machine.Exited] at he
    simpa [Machine.created, halloc.others i hij] using hu

/-- One step of an orderly run. -/
theorem Machine.Inv.step (h : m.Inv) (ho : Orderly m e) (hstep : m.step e = some m') :
    m'.Inv ∧ Proper m e m' := by
  cases e with
  | interrupt =>
    cases hstep
    have hl := ho trivial m.cpu h.current
    exact ⟨h.toEntering.inv_timer hl, h.toEntering.proper_timer hl rfl⟩
  | yield =>
    obtain ⟨p, hp, rfl⟩ := Option.map_eq_some_iff.mp hstep
    have hl := ho trivial m.cpu h.current
    have hy := h.toEntering.yield hp
    exact ⟨hy.inv_timer hl, hy.proper_timer hl rfl⟩
  | sleep ms =>
    simp only [Machine.step, h.current, reduceCtorEq, false_or] at hstep
    split_ifs at hstep with hp hms
    · cases hstep
      exact ⟨h, h.proper id fun i _ hu => hu⟩
    · cases hstep
      have hinv := h.sleep hms
      refine ⟨hinv, hinv.proper id ?_⟩
      intro i _ hu
      have hi : i ≠ m.cpu := by
        rintro rfl
        exact h.used hu
      simpa [taskSleep_state h.current hms, hi] using hu
  | exit exitCode =>
    simp only [Machine.step] at hstep
    split_ifs at hstep with hp
    cases hstep
    have hp := not_not.mp hp
    refine ⟨h.exit hp, (h.exit hp).proper id ?_⟩
    intro i _ hu
    have hi : i ≠ m.cpu := by
      rintro rfl
      exact h.used hu
    simpa [taskExit_state h.current, hi] using hu
  | wake t =>
    cases hstep
    refine ⟨h.wake, h.wake.proper id ?_⟩
    intro i _ hu
    simp [taskWake_state, hu]
  | create fn name sp =>
    cases hstep
    have hinv := h.created fn name taskPrioNormal sp
    exact ⟨hinv, hinv.proper id fun i he hu => created_unused he hu⟩
  | createPrio fn name prio sp =>
    cases hstep
    have hinv := h.created fn name prio sp
    exact ⟨hinv, hinv.proper id fun i he hu => created_unused he hu⟩
  | setPriority t prio =>
    cases hstep
    refine ⟨h.setPriority, h.setPriority.proper id ?_⟩
    intro i _ hu
    simpa using hu

theorem inv_start {s₀ : State} {fn sp : UInt32} (h : schedInit s₀ fn sp = some s) :
    (Machine.start s).Inv := by
  obtain ⟨idle, hs⟩ := schedInit_result h
  have hcpu : (Machine.start s).cpu = idle := by simp [Machine.start, hs.currentTask]
  constructor
  · constructor
    · rw [hcpu]
      exact hs.currentTask
    · intro i hi
      by_contra hne
      rw [hcpu] at hne
      simp [Machine.start, hs.others i hne, Task.zero] at hi
    · simp [Machine.start]
    · simp [Machine.start, Machine.Exited]
    · simp [Machine.start]
    · simp [Machine.start]
  · rw [hcpu]
    simp [Machine.start, hs.running]
  · rw [hcpu]
    exact fun _ => hs.running
  · simp [Machine.start]

/-- In a run whose every entry into `timer_handler` is orderly, the scheduler owes nothing to
any task. -/
theorem proper_of_orderly {s₀ : State} {fn sp : UInt32} (hinit : schedInit s₀ fn sp = some s)
    (ho : Run.EveryStep Machine.step (fun m e _ => Orderly m e) (Machine.start s) events) :
    Run.EveryStep Machine.step Proper (Machine.start s) events := by
  refine ho.mono ?_ (inv_start hinit)
  intro m e m' hinv hstep horder
  exact hinv.step horder hstep

/-- A new task, a tick, and a yield within the same quantum. -/
theorem proper_createTickYield :
    Run.EveryStep Machine.step Proper (Machine.start booted)
      [.create 0x102000 none 0x202000, .interrupt, .yield] := by
  apply proper_of_orderly schedInit_zero
  rintro m₁ ⟨⟩
  refine ⟨fun ht => ht.elim, ?_⟩
  rintro m₂ ⟨⟩
  constructor
  · rintro - c ⟨⟩
    exact Or.inl (by decide +kernel)
  · rintro m₃ -
    refine ⟨?_, trivial⟩
    intro _ c hc
    have hc : c = 0 := by
      have h : (some c : Option Slot) = some 0 := hc.symm.trans (by decide +kernel)
      exact Option.some.inj h
    subst hc
    exact Or.inl (by decide +kernel)

/-- `task_sleep` in the first tick of a quantum comes straight back. -/
theorem not_proper_sleep :
    ¬ ∀ (s₀ s : State) (fn sp : UInt32) (events : List Event), schedInit s₀ fn sp = some s →
      Run.EveryStep Machine.step Proper (Machine.start s) events := by
  intro h
  have hrun := h _ _ _ _ [.sleep 1000, .yield] schedInit_zero
  have hlast := ((hrun _ rfl).2 _ rfl).1
  exact hlast.asleep 0 (by decide +kernel) (by decide +kernel)

end PinguinOS.Sched
