import PinguinOS.Sched.Lifecycle

/-! How long `task_sleep` sleeps: `uptime_ms` counts the runs of `timer_handler`, not the ticks. -/
namespace PinguinOS.Sched

/-- Hardware timer interrupts. -/
def Event.ticks : Event → Nat
  | .interrupt => 1
  | _ => 0

/-- Runs of `timer_handler`. -/
def Event.entries : Event → Nat
  | .interrupt | .yield => 1
  | _ => 0

/-- The task `c` is not woken by `task_wake`, and calls nothing but its `task_yield`. -/
def Event.SparesSleeper (c : Slot) (m : Machine) : Event → Prop
  | .wake t => t ≠ some c
  | .sleep _ => m.cpu ≠ c
  | .exit _ => m.cpu ≠ c
  | _ => True

instance {c : Slot} {m : Machine} {e : Event} : Decidable (e.SparesSleeper c m) :=
  match e with
  | .wake t => inferInstanceAs (Decidable (t ≠ some c))
  | .sleep _ => inferInstanceAs (Decidable (m.cpu ≠ c))
  | .exit _ => inferInstanceAs (Decidable (m.cpu ≠ c))
  | .interrupt => isTrue trivial
  | .yield => isTrue trivial
  | .create _ _ _ => isTrue trivial
  | .createPrio _ _ _ _ => isTrue trivial
  | .setPriority _ _ => isTrue trivial

/-- The machine since a call of `task_sleep`. -/
structure Sleep where
  machine : Machine
  ticks : Nat
  entries : Nat

/-- A step while the sleep lasts. -/
def Sleep.step (c : Slot) (x : Sleep) (e : Event) : Option Sleep :=
  if x.machine.asleep c = true ∧ e.SparesSleeper c x.machine then
    (x.machine.step e).map fun m => ⟨m, x.ticks + e.ticks, x.entries + e.entries⟩
  else none

/-- Made READY by the handler of the `ms`-th hardware interrupt, which may have dispatched it. -/
structure Sleep.Slept (c : Slot) (ms : UInt32) (x : Sleep) : Prop where
  before : x.ticks < ms.toNat → x.machine.asleep c = true
  after : ms.toNat ≤ x.ticks → x.machine.asleep c = false ∧
    ((x.machine.sched.tasks c).state = .ready ∨
      (x.machine.sched.tasks c).state = .running ∧ x.machine.cpu = c)

/-- `uptime_ms + ms` does not wrap, or the clock wraps with its next tick. -/
def KeepsTime (now ms : UInt32) : Prop := now.toNat + ms.toNat < 2 ^ 32 ∨ now.toNat = 2 ^ 32 - 1

instance {now ms : UInt32} : Decidable (KeepsTime now ms) :=
  inferInstanceAs (Decidable (_ ∨ _))

/-- The first `ms` runs of the handler are hardware interrupts; with a deadline that wrapped
there is no run. -/
def Sleep.OnlyTicks (now ms : UInt32) (x : Sleep) : Prop :=
  if KeepsTime now ms then x.entries = ms.toNat → x.ticks = ms.toNat else x.entries = 0

/-- A handler that ends the quantum of the sleeping task finds another one. -/
def Sleep.Relieved (c : Slot) (x : Sleep) (e : Event) : Prop :=
  e.IsTimer → x.machine.cpu = c → Expired x.machine.sched c →
    ¬ Due (x.machine.sched.uptimeMs + 1) (x.machine.sched.tasks c) → Switches x.machine.sched c

variable {s u : State} {c j n : Slot} {r : State × Option (Slot × ResumePoint)} {m m' : Machine}
  {e : Event} {x y : Sleep} {now ms : UInt32} {events : List Event}

/-! One run of the handler. -/

@[simp] theorem ageAndReap_sleepUntilMs :
    ((ageAndReap s).tasks j).sleepUntilMs = (s.tasks j).sleepUntilMs := by
  rw [ageAndReap_tasks]
  unfold reapedTask agedTask
  split_ifs <;> rfl

@[simp] theorem ageAndReap_uptimeMs : (ageAndReap s).uptimeMs = s.uptimeMs := by
  unfold ageAndReap
  split_ifs <;> simp

@[simp] theorem wokenTask_sleepUntilMs {t : Task} :
    (wokenTask now t).sleepUntilMs = t.sleepUntilMs := by
  unfold wokenTask
  split_ifs <;> rfl

@[simp] theorem chargeTick_sleepUntilMs :
    ((chargeTick s c).tasks j).sleepUntilMs = (s.tasks j).sleepUntilMs := by
  rw [chargeTick_tasks]
  split_ifs with h
  · rw [h]
  · rfl

@[simp] theorem atPick_sleepUntilMs :
    ((atPick s c).tasks j).sleepUntilMs = (s.tasks j).sleepUntilMs := by
  rw [atPick_tasks]
  split_ifs with h
  · simp [requeuedTask, h]
  · simp

theorem switchTo_sleepUntilMs (hn : n ≠ c) :
    ((switchTo s c n).1.tasks j).sleepUntilMs = (s.tasks j).sleepUntilMs := by
  rw [switchTo_tasks hn]
  split_ifs with hjn hjc
  · rw [hjn]
    rfl
  · rw [hjc]
  · rfl

theorem keepCurrent_sleepUntilMs :
    ((keepCurrent s c).tasks j).sleepUntilMs = (s.tasks j).sleepUntilMs := by
  rw [keepCurrent_tasks]
  split_ifs with hj
  · rw [hj]
  · rfl

/-- The handler moves the clock by one, and no deadline. -/
theorem TickResult.clock (h : TickResult s c r) :
    r.1.uptimeMs = s.uptimeMs + 1 ∧ ∀ j, (r.1.tasks j).sleepUntilMs = (s.tasks j).sleepUntilMs := by
  cases h with
  | early hx => exact ⟨by simp, fun j => by simp⟩
  | keep hx hpick =>
    exact ⟨atPick_uptimeMs, fun j => keepCurrent_sleepUntilMs.trans atPick_sleepUntilMs⟩
  | enter n fn hx hn hpick hctx =>
    exact ⟨atPick_uptimeMs, fun j => (switchTo_sleepUntilMs hn).trans atPick_sleepUntilMs⟩
  | resume n hx hn hpick hctx =>
    refine ⟨ageAndReap_uptimeMs.trans atPick_uptimeMs, fun j => ?_⟩
    exact ageAndReap_sleepUntilMs.trans ((switchTo_sleepUntilMs hn).trans atPick_sleepUntilMs)

/-- A sleeper that is not due stays asleep, also on the CPU if the handler does not end its
quantum or finds another task. -/
theorem TickResult.sleeping (h : TickResult s c r) (hj : (s.tasks j).state = .sleeping)
    (hd : ¬ Due (s.uptimeMs + 1) (s.tasks j)) (hleft : j = c → Expired s c → r.2 ≠ none) :
    (r.1.tasks j).state = .sleeping := by
  have hrun : (s.tasks j).state ≠ .running := by simp [hj]
  have hpick : ((atPick s c).tasks j).state = .sleeping := (atPick_state_of_idle hrun hd).trans hj
  have hswitch : ∀ n, n ≠ c → schedPickNext (atPick s c) = some n →
      ((switchTo (atPick s c) c n).1.tasks j).state = .sleeping := by
    intro n hn hsome
    obtain ⟨-, hready, -, -⟩ := schedPickNext_eq_some.mp hsome
    have hjn : j ≠ n := by
      rintro rfl
      rw [Ready, hpick] at hready
      cases hready
    rw [switchTo_tasks hn, if_neg hjn]
    split_ifs with hjc
    · rw [hjc] at hpick
      exact hpick
    · exact hpick
  cases h with
  | early hx =>
    dsimp only
    rw [ageAndReap_state_eq (by decide) (by decide), chargeTick_state, tickClock_tasks,
      wokenTask_of_not_due hd]
    exact hj
  | keep hx hkeep =>
    have hjc : j ≠ c := fun hjc => hleft hjc hx rfl
    dsimp only
    rw [keepCurrent_tasks, if_neg hjc]
    exact hpick
  | enter n fn hx hn hsome hctx => exact hswitch n hn hsome
  | resume n hx hn hsome hctx =>
    dsimp only
    rw [ageAndReap_state_eq (by decide) (by decide)]
    exact hswitch n hn hsome

/-- A sleeper that is due is READY afterwards, or has been dispatched. -/
theorem TickResult.due (h : TickResult s c r) (hd : Due (s.uptimeMs + 1) (s.tasks j)) :
    (r.1.tasks j).state = .ready ∨
      (r.1.tasks j).state = .running ∧ (r.2.map Prod.fst).getD c = j := by
  have hwoken : (wokenTask (s.uptimeMs + 1) (s.tasks j)).state = .ready :=
    wokenTask_ready.mpr (Or.inr hd)
  have hpick : ((atPick s c).tasks j).state = .ready := by
    rw [atPick_state]
    split_ifs
    · rfl
    · exact hwoken
  have hswitch : ∀ n, n ≠ c → ((switchTo (atPick s c) c n).1.tasks j).state = .ready ∨
      ((switchTo (atPick s c) c n).1.tasks j).state = .running ∧ n = j := by
    intro n hn
    rw [switchTo_tasks hn]
    split_ifs with hjn hjc
    · exact Or.inr ⟨rfl, hjn.symm⟩
    · rw [hjc] at hpick
      exact Or.inl hpick
    · exact Or.inl hpick
  cases h with
  | early hx =>
    left
    dsimp only
    rw [ageAndReap_state_eq (by decide) (by decide), chargeTick_state, tickClock_tasks]
    exact hwoken
  | keep hx hkeep =>
    dsimp only
    rw [keepCurrent_tasks]
    split_ifs with hjc
    · exact Or.inr ⟨rfl, hjc.symm⟩
    · exact Or.inl hpick
  | enter n fn hx hn hsome hctx => exact hswitch n hn
  | resume n hx hn hsome hctx =>
    dsimp only
    rw [ageAndReap_state_eq (by decide) (by decide), ageAndReap_state_eq (by decide) (by decide)]
    exact hswitch n hn

/-! The clock and the deadline. -/

/-- The run of the handler that finds the deadline passed. -/
def wakingEntry (now ms : UInt32) : Nat := if KeepsTime now ms then ms.toNat else 1

theorem wakingEntry_le (now : UInt32) (hms : ms ≠ 0) : wakingEntry now ms ≤ ms.toNat := by
  have hpos : ms.toNat ≠ 0 := fun h => hms (UInt32.toNat_inj.mp h)
  unfold wakingEntry
  split_ifs
  · exact Nat.le_refl _
  · omega

/-- A deadline that wrapped is at least two ticks away. -/
theorem one_lt_of_wraps (h : ¬ KeepsTime now ms) : 1 < ms.toNat := by
  have hnow := now.toNat_lt
  unfold KeepsTime at h
  omega

theorem due_iff_wakingEntry {k : Nat} (hms : ms ≠ 0) (hk : k + 1 ≤ wakingEntry now ms) :
    now + UInt32.ofNat k + 1 ≥ now + ms ↔ k + 1 = wakingEntry now ms := by
  have hnow := now.toNat_lt
  have hlt := ms.toNat_lt
  have hpos : ms.toNat ≠ 0 := fun h => hms (UInt32.toNat_inj.mp h)
  have hle := hk.trans (wakingEntry_le now hms)
  rw [ge_iff_le, UInt32.le_iff_toNat_le, UInt32.toNat_add, UInt32.toNat_add, UInt32.toNat_add,
    UInt32.toNat_ofNat']
  have hone : (1 : UInt32).toNat = 1 := rfl
  rw [hone]
  by_cases h : KeepsTime now ms
  · have hat : wakingEntry now ms = ms.toNat := if_pos h
    unfold KeepsTime at h
    omega
  · have hat : wakingEntry now ms = 1 := if_neg h
    unfold KeepsTime at h
    omega

/-! Calls of other tasks. -/

/-- The clock and the task `c` are as before. -/
structure Spares (c : Slot) (s u : State) : Prop where
  clock : u.uptimeMs = s.uptimeMs
  current : u.currentTask = s.currentTask
  state : (u.tasks c).state = (s.tasks c).state
  deadline : (u.tasks c).sleepUntilMs = (s.tasks c).sleepUntilMs

theorem spares_of_task (hclock : u.uptimeMs = s.uptimeMs) (hcurrent : u.currentTask = s.currentTask)
    (htask : u.tasks c = s.tasks c) : Spares c s u :=
  ⟨hclock, hcurrent, congrArg Task.state htask, congrArg Task.sleepUntilMs htask⟩

theorem spares_taskSleep (hcurrent : s.currentTask = some n) (hn : n ≠ c) :
    Spares c s (taskSleep s ms) := by
  refine spares_of_task ?_ taskSleep_currentTask ?_
  · unfold taskSleep
    rw [hcurrent]
    dsimp only
    split_ifs <;> rfl
  · unfold taskSleep
    rw [hcurrent]
    dsimp only
    split_ifs
    · rfl
    · simp [hn.symm]

theorem spares_taskExit {exitCode : Int32} (hcurrent : s.currentTask = some n) (hn : n ≠ c) :
    Spares c s (taskExit s exitCode) := by
  refine spares_of_task ?_ taskExit_currentTask ?_
  · unfold taskExit
    rw [hcurrent]
    rfl
  · unfold taskExit
    rw [hcurrent]
    simp [hn.symm]

theorem spares_taskWake {t : Option Slot} (ht : t ≠ some c) : Spares c s (taskWake s t) := by
  refine spares_of_task ?_ taskWake_currentTask ?_
  · unfold taskWake
    split
    · rfl
    · split_ifs <;> rfl
  · unfold taskWake
    split
    · rfl
    · rename_i i
      have hi : c ≠ i := fun h => ht (h ▸ rfl)
      split_ifs
      · simp [hi]
      · rfl

theorem spares_taskSetPriority {t : Option Slot} {prio : Prio} :
    Spares c s (taskSetPriority s t prio) := by
  refine ⟨?_, taskSetPriority_currentTask, taskSetPriority_state, ?_⟩
  · unfold taskSetPriority
    split
    · rfl
    · dsimp only
      split_ifs <;> rfl
  · unfold taskSetPriority
    split
    · rfl
    · rename_i i
      dsimp only
      by_cases hi : c = i
      · subst hi
        split_ifs <;> simp
      · split_ifs <;> simp [hi]

theorem spares_allocTask {fn sp : UInt32} {name : Option (List Char)} {prio : Prio}
    (hused : (s.tasks c).state ≠ .unused) : Spares c s (allocTask s fn name prio sp).1 := by
  have hclock : (allocTask s fn name prio sp).1.uptimeMs = s.uptimeMs := by
    unfold allocTask
    split
    · rfl
    · split_ifs <;> rfl
  rcases allocTask_result s fn name prio sp with hnone | ⟨u, i, hsome, hu⟩
  · rw [hnone]
    exact ⟨rfl, rfl, rfl, rfl⟩
  · rw [hsome] at hclock ⊢
    have hi : c ≠ i := by
      rintro rfl
      exact hused hu.unused
    exact spares_of_task hclock hu.currentTask (hu.others c hi)

/-! The sleep. -/

/-- What holds from the call to the wake, whichever entries are ticks. -/
structure Sleep.Timed (c : Slot) (now ms : UInt32) (x : Sleep) : Prop where
  current : x.machine.sched.currentTask = some x.machine.cpu
  clock : x.machine.sched.uptimeMs = now + UInt32.ofNat x.entries
  ticks : x.ticks ≤ x.entries
  entries : x.entries ≤ wakingEntry now ms
  asleep : x.entries < wakingEntry now ms → x.machine.asleep c = true ∧
    (x.machine.sched.tasks c).state = .sleeping ∧
      (x.machine.sched.tasks c).sleepUntilMs = now + ms
  woken : x.entries = wakingEntry now ms → x.machine.asleep c = false ∧
    ((x.machine.sched.tasks c).state = .ready ∨
      (x.machine.sched.tasks c).state = .running ∧ x.machine.cpu = c)

/-- Only the counts decide whether the sleep was as long as asked. -/
theorem Sleep.Timed.slept_iff (h : x.Timed c now ms) (hms : ms ≠ 0) :
    x.Slept c ms ↔ x.OnlyTicks now ms := by
  have hle := wakingEntry_le now hms
  obtain ⟨-, -, hticks, hentries, hasleep, hwoken⟩ := h
  unfold Sleep.OnlyTicks
  by_cases hkeeps : KeepsTime now ms
  · have hat : wakingEntry now ms = ms.toNat := if_pos hkeeps
    rw [if_pos hkeeps]
    rw [hat] at hentries hasleep hwoken
    constructor
    · intro hslept hall
      by_contra hne
      have hstill := hslept.before (by omega)
      rw [(hwoken hall).1] at hstill
      cases hstill
    · intro honly
      constructor
      · intro hbefore
        exact (hasleep (by omega)).1
      · intro hafter
        exact hwoken (by omega)
  · have hat : wakingEntry now ms = 1 := if_neg hkeeps
    have hlong := one_lt_of_wraps hkeeps
    rw [if_neg hkeeps]
    rw [hat] at hentries hasleep hwoken
    constructor
    · intro hslept
      by_contra hne
      have hstill := hslept.before (by omega)
      rw [(hwoken (by omega)).1] at hstill
      cases hstill
    · intro hnone
      constructor
      · intro hbefore
        exact (hasleep (by omega)).1
      · intro hafter
        omega

/-- A run of the handler. -/
theorem Sleep.Timed.timer (h : x.Timed c now ms) (hms : ms ≠ 0)
    (hlt : x.entries < wakingEntry now ms) {k : Nat} (hk : k ≤ 1)
    (hm : m.sched = x.machine.sched ∧ m.cpu = x.machine.cpu ∧ m.asleep = x.machine.asleep)
    (hrelieved : x.machine.cpu = c → Expired x.machine.sched c →
      ¬ Due (x.machine.sched.uptimeMs + 1) (x.machine.sched.tasks c) →
        Switches x.machine.sched c) :
    Sleep.Timed c now ms ⟨m.timer, x.ticks + k, x.entries + 1⟩ := by
  obtain ⟨hsched, hcpu, hasleep⟩ := hm
  obtain ⟨hcurrent, hclock, hticks, hentries, hstill, -⟩ := h
  obtain ⟨hflag, hsleeping, hdeadline⟩ := hstill hlt
  have hret := returned_timer m
  have hres := timerHandler_result (hsched ▸ hcpu ▸ hcurrent : m.sched.currentTask = some m.cpu)
  have hmoved := hres.clock
  have hdue : Due (m.sched.uptimeMs + 1) (m.sched.tasks c) ↔
      x.entries + 1 = wakingEntry now ms := by
    unfold Due
    rw [hsched, hsleeping, hdeadline, hclock, and_iff_right rfl]
    exact due_iff_wakingEntry hms hlt
  have hflag' := hret.asleep c
  rw [hasleep, and_iff_right hflag, hdue] at hflag'
  constructor
  case current =>
    dsimp only
    rw [hret.sched, hret.cpu]
    exact hres.currentTask (hsched ▸ hcpu ▸ hcurrent)
  case clock =>
    dsimp only
    rw [hret.sched, hmoved.1, hsched, hclock, UInt32.ofNat_add, UInt32.add_assoc]
    rfl
  case ticks => exact Nat.add_le_add hticks hk
  case entries => exact hlt
  case asleep =>
    intro hbefore
    dsimp only at hbefore ⊢
    have hnot : ¬ Due (m.sched.uptimeMs + 1) (m.sched.tasks c) := by
      rw [hdue]
      omega
    refine ⟨hflag'.mpr (Nat.ne_of_lt hbefore), ?_, ?_⟩
    · rw [hret.sched]
      refine hres.sleeping (hsched ▸ hsleeping) hnot ?_
      intro hc hexpired
      have hswitches := hrelieved (hcpu ▸ hc.symm) (hsched ▸ hc ▸ hexpired) (hsched ▸ hnot)
      rw [← Option.isSome_iff_ne_none]
      exact (timerHandler_transfer_iff (hsched ▸ hcpu ▸ hcurrent)).mpr (hsched ▸ hc ▸ hswitches)
    · rw [hret.sched, hmoved.2, hsched]
      exact hdeadline
  case woken =>
    intro hafter
    dsimp only at hafter ⊢
    refine ⟨?_, ?_⟩
    · rw [← Bool.not_eq_true, hflag']
      exact not_not.mpr hafter
    · rw [hret.sched, hret.cpu]
      exact hres.due (hdue.mpr hafter)

/-- Anything else. -/
theorem Sleep.Timed.call (h : x.Timed c now ms) (hlt : x.entries < wakingEntry now ms)
    (hcpu : m.cpu = x.machine.cpu) (hflag : m.asleep c = x.machine.asleep c)
    (hspares : Spares c x.machine.sched m.sched) :
    Sleep.Timed c now ms ⟨m, x.ticks, x.entries⟩ := by
  obtain ⟨hcurrent, hclock, hticks, hentries, hasleep, -⟩ := h
  obtain ⟨hstill, hsleeping, hdeadline⟩ := hasleep hlt
  constructor
  case current => exact hspares.current.trans (hcpu ▸ hcurrent)
  case clock => exact hspares.clock.trans hclock
  case ticks => exact hticks
  case entries => exact hentries
  case asleep =>
    intro _
    exact ⟨hflag.trans hstill, hspares.state.trans hsleeping, hspares.deadline.trans hdeadline⟩
  case woken =>
    intro hafter
    exact absurd hafter (Nat.ne_of_lt hlt)

theorem Sleep.Timed.created (h : x.Timed c now ms) (hlt : x.entries < wakingEntry now ms)
    {fn sp : UInt32} {name : Option (List Char)} {prio : Prio} :
    Sleep.Timed c now ms
      ⟨x.machine.created (allocTask x.machine.sched fn name prio sp), x.ticks, x.entries⟩ := by
  have hused : (x.machine.sched.tasks c).state ≠ .unused := by simp [(h.asleep hlt).2.1]
  have hspares : Spares c x.machine.sched (allocTask x.machine.sched fn name prio sp).1 :=
    spares_allocTask hused
  rcases allocTask_result x.machine.sched fn name prio sp with hnone | ⟨u, i, hsome, hu⟩
  · rw [hnone] at hspares ⊢
    exact h.call hlt rfl rfl hspares
  · rw [hsome] at hspares ⊢
    have hi : c ≠ i := by
      rintro rfl
      exact hused hu.unused
    exact h.call hlt rfl (Function.update_of_ne hi _ _) hspares

theorem Sleep.Timed.step (h : x.Timed c now ms) (hms : ms ≠ 0) (hrelieved : x.Relieved c e)
    (hstep : x.step c e = some y) : y.Timed c now ms := by
  unfold Sleep.step at hstep
  split_ifs at hstep with hguard
  obtain ⟨hflag, hspared⟩ := hguard
  obtain ⟨m, hm, rfl⟩ := Option.map_eq_some_iff.mp hstep
  have hlt : x.entries < wakingEntry now ms := by
    refine lt_of_le_of_ne h.entries ?_
    intro hafter
    rw [(h.woken hafter).1] at hflag
    cases hflag
  cases e with
  | interrupt =>
    cases hm
    exact h.timer hms hlt (Nat.le_refl 1) ⟨rfl, rfl, rfl⟩ (hrelieved trivial)
  | yield =>
    obtain ⟨p, -, rfl⟩ := Option.map_eq_some_iff.mp hm
    exact h.timer hms hlt (Nat.zero_le 1) ⟨rfl, rfl, rfl⟩ (hrelieved trivial)
  | sleep ms' =>
    unfold Machine.step at hm
    dsimp only at hm
    split_ifs at hm
    · cases hm
      exact h
    · cases hm
      exact h.call hlt rfl (Function.update_of_ne (Ne.symm hspared) _ _)
        (spares_taskSleep h.current hspared)
  | exit exitCode =>
    unfold Machine.step at hm
    dsimp only at hm
    split_ifs at hm
    cases hm
    exact h.call hlt rfl rfl (spares_taskExit h.current hspared)
  | wake t =>
    cases hm
    refine h.call hlt rfl ?_ (spares_taskWake hspared)
    have hother : t ≠ some c := hspared
    simp [hother]
  | create fn name sp =>
    cases hm
    exact h.created hlt
  | createPrio fn name prio sp =>
    cases hm
    exact h.created hlt
  | setPriority t prio =>
    cases hm
    exact h.call hlt rfl rfl spares_taskSetPriority

theorem taskSleep_called (hcurrent : s.currentTask = some c) (hms : ms ≠ 0) :
    (taskSleep s ms).uptimeMs = s.uptimeMs ∧
      ((taskSleep s ms).tasks c).sleepUntilMs = s.uptimeMs + ms := by
  simp [taskSleep, hcurrent, hms]

/-- The call itself. -/
theorem timed_call (hcurrent : m.sched.currentTask = some m.cpu) (hms : ms ≠ 0)
    (hcall : m.step (.sleep ms) = some m') :
    Sleep.Timed m.cpu m.sched.uptimeMs ms ⟨m', 0, 0⟩ := by
  unfold Machine.step at hcall
  dsimp only at hcall
  rw [if_neg (show ¬ (m.sched.currentTask = none ∨ ms = 0) by simp [hcurrent, hms])] at hcall
  split_ifs at hcall
  cases hcall
  have hpos : 0 < wakingEntry m.sched.uptimeMs ms := by
    have hms : ms.toNat ≠ 0 := fun h => hms (UInt32.toNat_inj.mp h)
    unfold wakingEntry
    split_ifs
    · omega
    · exact Nat.one_pos
  constructor
  case current => exact taskSleep_currentTask.trans hcurrent
  case clock => exact (taskSleep_called hcurrent hms).1.trans (UInt32.add_zero _).symm
  case ticks => exact Nat.le_refl 0
  case entries => exact hpos.le
  case asleep =>
    intro _
    refine ⟨Function.update_self _ _ _, ?_, (taskSleep_called hcurrent hms).2⟩
    dsimp only
    rw [taskSleep_state hcurrent hms, if_pos rfl]
  case woken =>
    intro hafter
    exact absurd hafter (Nat.ne_of_lt hpos)

/-- After any call of `task_sleep`, as long as a handler that takes the CPU from the sleeping task
finds another: the sleep lasts `ms` ticks exactly if the handler is run by ticks alone. -/
theorem slept_iff_onlyTicks (hcurrent : m.sched.currentTask = some m.cpu) (hms : ms ≠ 0)
    (hcall : m.step (.sleep ms) = some m')
    (hrelieved : Run.EveryStep (Sleep.step m.cpu) (fun x e _ => x.Relieved m.cpu e)
      ⟨m', 0, 0⟩ events) :
    Run.EveryState (Sleep.step m.cpu) (Sleep.Slept m.cpu ms) ⟨m', 0, 0⟩ events ↔
      Run.EveryState (Sleep.step m.cpu) (Sleep.OnlyTicks m.sched.uptimeMs ms) ⟨m', 0, 0⟩
        events := by
  have htimed : Run.EveryState (Sleep.step m.cpu) (Sleep.Timed m.cpu m.sched.uptimeMs ms)
      ⟨m', 0, 0⟩ events := by
    refine hrelieved.everyState ?_ (fun x hx => hx) (timed_call hcurrent hms hcall)
    intro x e y hx hstep hq
    exact hx.step hms hq hstep
  exact htimed.congr fun x hx => hx.slept_iff hms

/-- One millisecond, with a tick before the `int $0x20`. -/
theorem slept_iff_onlyTicks_booted : ∃ m', (Machine.start booted).step (.sleep 1) = some m' ∧
    (Run.EveryState (Sleep.step (Machine.start booted).cpu)
        (Sleep.Slept (Machine.start booted).cpu 1) ⟨m', 0, 0⟩ [.interrupt] ↔
      Run.EveryState (Sleep.step (Machine.start booted).cpu)
        (Sleep.OnlyTicks (Machine.start booted).sched.uptimeMs 1) ⟨m', 0, 0⟩ [.interrupt]) := by
  refine ⟨_, rfl, slept_iff_onlyTicks rfl (by decide) rfl ?_⟩
  intro y _
  refine ⟨?_, trivial⟩
  intro _ _ hexpired
  exact absurd hexpired (by decide +kernel)

/-- The `int $0x20` of `task_sleep` counts as a tick. -/
theorem slept_two : ((Machine.start booted).step (.sleep 2)).bind (fun m' =>
    (Run.run (Sleep.step (Machine.start booted).cpu) ⟨m', 0, 0⟩ [.yield, .interrupt]).map fun y =>
      (y.ticks, y.machine.asleep (Machine.start booted).cpu)) = some (1, false) := by
  decide +kernel

theorem not_slept_yield :
    ¬ ∀ (m m' : Machine) (ms : UInt32) (events : List Event),
      m.sched.currentTask = some m.cpu → ms ≠ 0 → m.step (.sleep ms) = some m' →
        Run.EveryStep (Sleep.step m.cpu) (fun x e _ => x.Relieved m.cpu e) ⟨m', 0, 0⟩ events →
          Run.EveryState (Sleep.step m.cpu) (Sleep.Slept m.cpu ms) ⟨m', 0, 0⟩ events := by
  intro hall
  obtain ⟨m', hcall, hrun⟩ := Option.bind_eq_some_iff.mp slept_two
  obtain ⟨y, hlast, heq⟩ := Option.map_eq_some_iff.mp hrun
  obtain ⟨hticks, hawake⟩ := Prod.mk.inj heq
  have hslept := hall (Machine.start booted) m' 2 [.yield, .interrupt] rfl (by decide) hcall ?_
  · have hflag := (hslept.last hlast).before (by rw [hticks]; decide)
    rw [hawake] at hflag
    cases hflag
  · cases hcall
    rintro x ⟨⟩
    refine ⟨fun _ _ hexpired => absurd hexpired (by decide +kernel), ?_⟩
    intro z hz
    exact ⟨fun _ _ hexpired => absurd hexpired (by decide +kernel), trivial⟩

end PinguinOS.Sched
