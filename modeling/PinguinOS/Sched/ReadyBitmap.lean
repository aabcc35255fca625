import PinguinOS.Lib.Run
import PinguinOS.Sched.Tick

/-! When `prio_bitmap` stays exact, over every run of scheduler calls and timer ticks. -/
namespace PinguinOS.Sched

/-- The calls of the scheduler. `task_sleep` and `task_exit` end in `task_yield`, which is a
`tick` of its own. -/
inductive Action
  | create (fn : UInt32) (name : Option (List Char)) (sp : UInt32)
  | createPrio (fn : UInt32) (name : Option (List Char)) (prio : Prio) (sp : UInt32)
  | setPriority (t : Option Slot) (prio : Prio)
  | sleep (ms : UInt32)
  | wake (t : Option Slot)
  | exit (exitCode : Int32)
  | tick

def act (s : State) : Action → State
  | .create fn name sp => (taskCreate s fn name sp).1
  | .createPrio fn name prio sp => (taskCreatePrio s fn name prio sp).1
  | .setPriority t prio => taskSetPriority s t prio
  | .sleep ms => taskSleep s ms
  | .wake t => taskWake s t
  | .exit exitCode => taskExit s exitCode
  | .tick => (timerHandler s).1

def step (s : State) (a : Action) : Option State := some (act s a)

/-- No READY task other than `i` has priority `p`. -/
def Sole (ready : Slot → Prop) (prio : Slot → Prio) (i : Slot) : Prop :=
  ∀ j, j ≠ i → ready j → prio j ≠ prio i

/-- One sweep of `age_tasks` over such a table moves task `i` up. -/
def Ages (ready : Slot → Prop) (prio : Slot → Prio) (wait : Slot → UInt32) (i : Slot) : Prop :=
  ready i ∧ agingThreshold ≤ wait i + 1 ∧ prio i < 254

/-- Whenever the sweep moves a task up, the priority it leaves is either entered by another
task after the last one has left it, or has no READY task any more. -/
def AgingSafe (ready : Slot → Prop) (prio : Slot → Prio) (wait : Slot → UInt32) : Prop :=
  ∀ j, Ages ready prio wait j →
    (∃ i, Ages ready prio wait i ∧ prio i + 1 = prio j ∧
      ∀ k, i < k → ¬ (Ages ready prio wait k ∧ prio k = prio j)) ∨
    ∀ i, ready i → (Ages ready prio wait i → prio i + 1 ≠ prio j) ∧
      (¬ Ages ready prio wait i → prio i ≠ prio j)

/-- `n` is queued, and at the highest priority of all that are. -/
def TopQueued (s : State) (c n : Slot) : Prop :=
  Queued s c n ∧ ∀ i, Queued s c i → queuedPrio s c i ≤ queuedPrio s c n

/-- The ticks at which no `bitmap_clear` takes away the bit of another READY task. -/
structure TickSafe (s : State) (c : Slot) : Prop where
  aging : ¬ Expired s c → (s.uptimeMs + 1) % 50 = 0 →
    AgingSafe (ReadyAt s) (fun i => (s.tasks i).priority) (fun i => (s.tasks i).waitTicks)
  demote : Expired s c → Demoted (s.tasks c) →
    Sole (ReadyAt s) (fun i => (s.tasks i).priority) c
  sentinel : Expired s c → ∀ n, TopQueued s c n → queuedPrio s c n = taskPrioRt →
    Sole (Queued s c) (queuedPrio s c) c
  dispatch : Expired s c → ∀ n, TopQueued s c n → queuedPrio s c n ≠ taskPrioRt →
    Sole (Queued s c) (queuedPrio s c) n
  agingAfter : Expired s c → ∀ n, TopQueued s c n → queuedPrio s c n ≠ taskPrioRt → n ≠ c →
    (s.tasks n).ctx = .timerHandler → (s.uptimeMs + 1) % 50 = 0 →
    AgingSafe (fun i => Queued s c i ∧ i ≠ n) (queuedPrio s c) (fun i => (s.tasks i).waitTicks)

/-- The calls at which no `bitmap_clear` takes away the bit of another READY task, and
`task_exit` does not leave a bit behind. -/
def Safe (s : State) : Action → Prop
  | .setPriority (some t) prio => Ready s t → (s.tasks t).priority ≠ prio →
      Sole (Ready s) (fun i => (s.tasks i).priority) t
  | .sleep ms => ∀ c, s.currentTask = some c → ms ≠ 0 →
      Sole (Ready s) (fun i => (s.tasks i).priority) c
  | .exit _ => ∀ c, s.currentTask = some c → Ready s c →
      ¬ Sole (Ready s) (fun i => (s.tasks i).priority) c
  | .tick => ∀ c, s.currentTask = some c → TickSafe s c
  | _ => True

variable {s u t : State} {c i j n : Slot} {p q : Prio} {a : Action} {actions : List Action}

/-- The priority `p` is that of a READY task other than `i`. -/
def Others (s : State) (i : Slot) (p : Prio) : Prop :=
  ∃ j, j ≠ i ∧ Ready s j ∧ (s.tasks j).priority = p

theorem not_others_iff :
    ¬ Others s i (s.tasks i).priority ↔ Sole (Ready s) (fun j => (s.tasks j).priority) i := by
  simp only [Others, Sole, not_exists, not_and]

/-- Exactness, with slot `i` set apart. -/
theorem exact_iff_others (i : Slot) :
    Exact s ↔ ∀ p, bitmapTest s p = true ↔
      Others s i p ∨ (Ready s i ∧ (s.tasks i).priority = p) := by
  refine forall_congr' fun p => iff_congr Iff.rfl ?_
  constructor
  · rintro ⟨j, hj, hp⟩
    by_cases hji : j = i
    · subst hji
      exact Or.inr ⟨hj, hp⟩
    · exact Or.inl ⟨j, hji, hj, hp⟩
  · rintro (⟨j, -, hj, hp⟩ | ⟨hi, hp⟩)
    · exact ⟨j, hj, hp⟩
    · exact ⟨i, hi, hp⟩

theorem others_congr (h : ∀ j, j ≠ i → u.tasks j = s.tasks j) : Others u i p ↔ Others s i p := by
  refine exists_congr fun j => ?_
  constructor
  · rintro ⟨hj, hr, hp⟩
    rw [Ready, h j hj] at hr
    exact ⟨hj, hr, h j hj ▸ hp⟩
  · rintro ⟨hj, hr, hp⟩
    refine ⟨hj, ?_, ?_⟩
    · rwa [Ready, h j hj]
    · rwa [h j hj]

/-- A step that touches slot `i` only keeps the bitmap exact if it settles the bits against
the other slots. -/
theorem Exact.of_slot (i : Slot) (h : Exact s) (hother : ∀ j, j ≠ i → u.tasks j = s.tasks j)
    (hbit : ∀ p, (bitmapTest s p = true ↔ Others s i p ∨ (Ready s i ∧ (s.tasks i).priority = p)) →
      (bitmapTest u p = true ↔ Others s i p ∨ (Ready u i ∧ (u.tasks i).priority = p))) :
    Exact u := by
  rw [exact_iff_others i]
  intro p
  rw [others_congr hother]
  exact hbit p ((exact_iff_others i).mp h p)

theorem exact_allocTask (h : Exact s) {fn : UInt32} {name : Option (List Char)} {sp : UInt32} :
    Exact (allocTask s fn name p sp).1 := by
  rcases allocTask_result s fn name p sp with hnone | ⟨u, i, hsome, hu⟩
  · rw [hnone]
    exact h
  · rw [hsome]
    refine h.of_slot i hu.others ?_
    intro q hq
    have hnr : ¬ Ready s i := by simp [Ready, hu.unused]
    simp only [hnr, false_and, or_false] at hq
    simp [hu.bitmap, Ready, hu.state, hu.priority, ← hq, or_comm]

theorem exact_taskWake (h : Exact s) {t : Option Slot} : Exact (taskWake s t) := by
  cases t with
  | none => exact h
  | some i =>
    unfold taskWake
    simp only
    split_ifs with hst
    · refine h.of_slot i (fun j hj => by simp [hj]) ?_
      intro q hq
      have hnr : ¬ Ready s i := by rcases hst with hst | hst <;> simp [Ready, hst]
      simp only [hnr, false_and, or_false] at hq
      simp [bitmapTest_set, Ready, hq, or_comm]
    · exact h

theorem exact_taskExit (h : Exact s) {e : Int32} (hsafe : Safe s (.exit e)) :
    Exact (taskExit s e) := by
  unfold taskExit
  cases hc : s.currentTask with
  | none => exact h
  | some c =>
    refine h.of_slot c (fun j hj => by simp [hj]) ?_
    intro q hq
    have hshared : Ready s c → (s.tasks c).priority = q → Others s c q := by
      rintro hr rfl
      exact not_not.mp (mt not_others_iff.mp (hsafe c hc hr))
    simp only [bitmapTest_modify, Ready, modify_same, reduceCtorEq, false_and, or_false]
    rw [hq]
    constructor
    · rintro (ho | ⟨hr, hp⟩)
      · exact ho
      · exact hshared hr hp
    · exact Or.inl

theorem exact_taskSleep (h : Exact s) {ms : UInt32} (hsafe : Safe s (.sleep ms)) :
    Exact (taskSleep s ms) := by
  unfold taskSleep
  cases hc : s.currentTask with
  | none => exact h
  | some c =>
    simp only
    split_ifs with hms
    · exact h
    · refine h.of_slot c (fun j hj => by simp [hj]) ?_
      intro q hq
      have hsole := not_others_iff.mpr (hsafe c hc hms)
      simp only [bitmapTest_clear, bitmapTest_modify, modify_same, bitmapClear_tasks, Ready,
        reduceCtorEq, false_and, or_false, Bool.and_eq_true, hq]
      by_cases hp : (s.tasks c).priority = q
      · subst hp
        simp [hsole]
      · simp [hp]

theorem exact_taskSetPriority (h : Exact s) {t : Option Slot} {prio : Prio}
    (hsafe : Safe s (.setPriority t prio)) : Exact (taskSetPriority s t prio) := by
  cases t with
  | none => exact h
  | some i =>
    unfold taskSetPriority
    by_cases hr : (s.tasks i).state = .ready
    · refine h.of_slot i (fun j hj => by simp [hr, hj]) ?_
      intro q hq
      have hsole : (s.tasks i).priority ≠ prio → ¬ Others s i (s.tasks i).priority :=
        fun hne => not_others_iff.mpr (hsafe hr hne)
      simp only [hr, if_true, modify_same, bitmapClear_tasks, bitmapSet_tasks, bitmapTest_set,
        bitmapTest_modify, bitmapTest_clear, Ready, true_and, Bool.or_eq_true, Bool.and_eq_true,
        decide_eq_true_eq, hq]
      by_cases hp : (s.tasks i).priority = q
      · subst hp
        by_cases hne : (s.tasks i).priority = prio
        · simp [hne]
        · simp [hsole hne]
      · simp [hp, or_comm]
    · refine h.of_slot i (fun j hj => by simp [hr, hj]) ?_
      intro q hq
      simpa [hr, Ready] using hq

/-! The stages of a tick. -/

theorem exact_tickClock (h : Exact s) : Exact (tickClock s) := by
  intro q
  simp only [tickClock_bitmapTest, h q, tickClock_ready, tickClock_tasks, wokenTask_priority,
    ReadyAt]
  constructor
  · rintro (⟨i, hr, hp⟩ | ⟨i, hd, hp⟩)
    · exact ⟨i, Or.inl hr, hp⟩
    · exact ⟨i, Or.inr hd, hp⟩
  · rintro ⟨i, hr | hd, hp⟩
    · exact Or.inl ⟨i, hr, hp⟩
    · exact Or.inr ⟨i, hd, hp⟩

theorem exact_chargeTick (h : Exact s) : Exact (chargeTick s c) := by
  intro q
  simpa [Ready] using h q

theorem exact_requeue (h : Exact s)
    (hsole : Demoted (s.tasks c) → Sole (Ready s) (fun j => (s.tasks j).priority) c) :
    Exact (requeue s c) := by
  refine h.of_slot c (fun j hj => by rw [requeue_tasks, if_neg hj]) ?_
  intro q hq
  have hnone : Demoted (s.tasks c) → ¬ Others s c (s.tasks c).priority :=
    fun hd => not_others_iff.mpr (hsole hd)
  rw [requeue_bitmapTest, hq]
  simp only [Ready, requeue_tasks, if_true]
  by_cases hd : Demoted (s.tasks c)
  · by_cases hp : (s.tasks c).priority = q
    · subst hp
      simp only [hd, hnone hd, requeuedTask]
      grind
    · simp only [hd, hp, requeuedTask]
      grind
  · simp only [hd, requeuedTask]
    grind

theorem exact_keepCurrent (h : Exact s)
    (hsole : Sole (Ready s) (fun j => (s.tasks j).priority) c) : Exact (keepCurrent s c) := by
  refine h.of_slot c (fun j hj => by rw [keepCurrent_tasks, if_neg hj]) ?_
  intro q hq
  have hnone := not_others_iff.mpr hsole
  simp only [keepCurrent_bitmapTest, Ready, keepCurrent_tasks, if_true, reduceCtorEq, false_and,
    or_false, Bool.and_eq_true, Bool.not_eq_true', decide_eq_false_iff_not, hq]
  by_cases hp : (s.tasks c).priority = q
  · subst hp
    simp [hnone]
  · simp [hp]

theorem switchTo_ready (hn : n ≠ c) : Ready (switchTo s c n).1 j ↔ Ready s j ∧ j ≠ n := by
  rw [Ready, Ready, switchTo_tasks hn]
  split_ifs with hjn hjc
  · simp [dispatchedTask, hjn]
  · subst hjc
    simp [hjn]
  · simp [hjn]

theorem switchTo_priority (hn : n ≠ c) :
    ((switchTo s c n).1.tasks j).priority = (s.tasks j).priority := by
  rw [switchTo_tasks hn]
  split_ifs with hjn hjc
  · simp [dispatchedTask, hjn]
  · simp [hjc]
  · rfl

theorem exact_switchTo (h : Exact s) (hn : n ≠ c)
    (hsole : Sole (Ready s) (fun j => (s.tasks j).priority) n) : Exact (switchTo s c n).1 := by
  intro q
  simp only [switchTo_bitmapTest, switchTo_ready hn, switchTo_priority hn, Bool.and_eq_true,
    Bool.not_eq_true', decide_eq_false_iff_not, h q]
  constructor
  · rintro ⟨hne, j, hr, hp⟩
    exact ⟨j, ⟨hr, fun hjn => hne (hjn ▸ hp)⟩, hp⟩
  · rintro ⟨j, ⟨hr, hjn⟩, hp⟩
    exact ⟨fun he => hsole j hjn hr (hp.trans he.symm), j, hr, hp⟩

theorem exact_ageTasks (h : Exact s)
    (hsafe : AgingSafe (Ready s) (fun j => (s.tasks j).priority)
      (fun j => (s.tasks j).waitTicks)) : Exact (ageTasks s) := by
  intro q
  have hready : ∀ j, Ready (ageTasks s) j ↔ Ready s j := by
    intro j
    rw [Ready, Ready, ageTasks_tasks, agedTask_state]
  simp only [ageTasks_bitmapTest, hready, ageTasks_tasks, agedTask_priority, h q]
  constructor
  · rintro (⟨i, hi, hp, -⟩ | ⟨⟨i, hr, hp⟩, hnone⟩)
    · exact ⟨i, hi.1, by rw [if_pos hi, hp]⟩
    · exact ⟨i, hr, by rw [if_neg fun hi => hnone i ⟨hi, hp⟩, hp]⟩
  · rintro ⟨i, hr, hp⟩
    by_cases hleft : ∃ j, Promoted (s.tasks j) ∧ (s.tasks j).priority = q
    · -- Some task left `q`, and `i` has it now: so a later promotion into `q` set the bit again.
      obtain ⟨j, hj, rfl⟩ := hleft
      rcases hsafe j hj with ⟨k, hk, hkp, hlast⟩ | hgone
      · exact Or.inl ⟨k, hk, hkp, hlast⟩
      · obtain ⟨h1, h2⟩ := hgone i hr
        split_ifs at hp with hi
        · exact absurd hp (h1 hi)
        · exact absurd hp (h2 hi)
    · have hnone : ∀ j, ¬ (Promoted (s.tasks j) ∧ (s.tasks j).priority = q) :=
        fun j hj => hleft ⟨j, hj⟩
      split_ifs at hp with hi
      · exact Or.inl ⟨i, hi, hp, fun j _ => hnone j⟩
      · exact Or.inr ⟨⟨i, hr, hp⟩, hnone⟩

theorem exact_reapZombies (h : Exact s) : Exact (reapZombies s) := by
  intro q
  have hready : ∀ j, Ready (reapZombies s) j ↔ Ready s j := by
    intro j
    rw [Ready, Ready, reapZombies_tasks]
    exact reapedTask_state_eq (by decide) (by decide)
  simp only [reapZombies_bitmapTest, hready, reapZombies_tasks, reapedTask_priority]
  exact h q

theorem exact_ageAndReap (h : Exact s)
    (hsafe : s.uptimeMs % 50 = 0 → AgingSafe (Ready s) (fun j => (s.tasks j).priority)
      (fun j => (s.tasks j).waitTicks)) : Exact (ageAndReap s) := by
  unfold ageAndReap
  split_ifs with hnow
  · exact exact_reapZombies (exact_ageTasks h (hsafe hnow))
  · exact h

theorem AgingSafe.congr {ready ready' : Slot → Prop} {prio prio' : Slot → Prio}
    {wait wait' : Slot → UInt32} (h : AgingSafe ready prio wait) (hr : ∀ i, ready' i ↔ ready i)
    (hp : ∀ i, prio' i = prio i) (hw : ∀ i, ready i → wait' i = wait i) :
    AgingSafe ready' prio' wait' := by
  have ha : ∀ i, Ages ready' prio' wait' i ↔ Ages ready prio wait i := by
    intro i
    simp only [Ages, hr, hp]
    refine and_congr_right fun hri => ?_
    rw [hw i hri]
  simpa only [AgingSafe, ha, hr, hp] using h

/-- What `sched_pick_next` returns has the highest priority of all queued tasks. -/
theorem topQueued_of_pick (h : Exact (atPick s c)) (hpick : schedPickNext (atPick s c) = some n) :
    TopQueued s c n ∧ queuedPrio s c n ≠ taskPrioRt := by
  obtain ⟨htop, hr, hp, -⟩ := schedPickNext_eq_some.mp hpick
  rw [← hp, atPick_priority] at htop
  refine ⟨⟨atPick_ready.mp hr, ?_⟩, htop⟩
  intro i hi
  have hle := (h.top_isGreatest hr).2 ⟨i, atPick_ready.mpr hi, rfl⟩
  rwa [← hp, atPick_priority, atPick_priority] at hle

theorem sole_keep (h : Exact (atPick s c)) (hs : TickSafe s c) (hx : Expired s c)
    (hpick : schedPickNext (atPick s c) = none ∨ schedPickNext (atPick s c) = some c) :
    Sole (Queued s c) (queuedPrio s c) c := by
  rcases hpick with hnone | hsome
  · intro j hj hq
    have hr : Ready (atPick s c) j := atPick_ready.mpr hq
    have hrt := top_of_pick_none h hr hnone
    obtain ⟨⟨m, hm, hmp⟩, hmax⟩ := h.top_isGreatest hr
    refine hs.sentinel hx m ⟨atPick_ready.mp hm, ?_⟩ ?_ j hj hq
    · intro i hi
      have hle := hmax ⟨i, atPick_ready.mpr hi, rfl⟩
      rwa [← hmp, atPick_priority, atPick_priority] at hle
    · rw [← atPick_priority, hmp, hrt]
  · obtain ⟨htop, hne⟩ := topQueued_of_pick h hsome
    exact hs.dispatch hx c htop hne

theorem exact_atPick (h : Exact s) (hs : TickSafe s c) (hx : Expired s c) :
    Exact (atPick s c) := by
  refine exact_requeue (exact_chargeTick (exact_tickClock h)) fun hd => ?_
  have hsole := hs.demote hx (atPick_demoted.mp hd)
  intro j hj hr
  have hrj : ReadyAt s j := by
    rw [Ready, chargeTick_state] at hr
    exact tickClock_ready.mp hr
  simpa using hsole j hj hrj

theorem exact_switch (h : Exact (atPick s c)) (hs : TickSafe s c) (hx : Expired s c) (hn : n ≠ c)
    (hpick : schedPickNext (atPick s c) = some n) : Exact (switchTo (atPick s c) c n).1 := by
  obtain ⟨htop, hne⟩ := topQueued_of_pick h hpick
  apply exact_switchTo h hn
  intro j hj hr
  simpa only [atPick_priority] using hs.dispatch hx n htop hne j hj (atPick_ready.mp hr)

theorem exact_timerHandler (h : Exact s) (hsafe : Safe s .tick) : Exact (timerHandler s).1 := by
  cases hc : s.currentTask with
  | none =>
    simpa only [timerHandler_idle hc] using exact_tickClock h
  | some c =>
    have hs := hsafe c hc
    have hres := timerHandler_result hc
    generalize timerHandler s = r at hres
    cases hres with
    | early hx =>
      dsimp only
      apply exact_ageAndReap (exact_chargeTick (exact_tickClock h))
      intro hnow
      refine (hs.aging hx (by simpa using hnow)).congr ?_ (by simp) (by simp)
      intro i
      rw [Ready, chargeTick_state]
      exact tickClock_ready
    | keep hx hpick =>
      have hq := exact_atPick h hs hx
      apply exact_keepCurrent hq
      intro j hj hr
      simpa only [atPick_priority] using sole_keep hq hs hx hpick j hj (atPick_ready.mp hr)
    | enter n fn hx hn hpick hctx => exact exact_switch (exact_atPick h hs hx) hs hx hn hpick
    | resume n hx hn hpick hctx =>
      have hq := exact_atPick h hs hx
      obtain ⟨htop, hne⟩ := topQueued_of_pick hq hpick
      apply exact_ageAndReap (exact_switch hq hs hx hn hpick)
      intro hnow
      refine (hs.agingAfter hx n htop hne hn hctx (by simpa using hnow)).congr ?_ ?_ ?_
      · intro i
        rw [switchTo_ready hn, atPick_ready]
      · intro i
        rw [switchTo_priority hn, atPick_priority]
      · rintro i ⟨-, hi⟩
        rw [switchTo_tasks hn, if_neg hi]
        split_ifs with hic
        · simp [hic]
        · simp

/-! Runs. -/

theorem exact_schedInit {s₀ : State} {fn sp : UInt32} (h : schedInit s₀ fn sp = some s) :
    Exact s := by
  obtain ⟨idle, hs⟩ := schedInit_result h
  have hnone : ∀ j, ¬ Ready s j := by
    intro j
    by_cases hj : j = idle
    · simp [Ready, hj, hs.running]
    · simp [Ready, hs.others j hj, Task.zero]
  intro p
  simp [hs.bitmap, hnone]

theorem exact_step (h : Exact s) (hstep : step s a = some t) (hsafe : Safe s a) : Exact t := by
  rw [step, Option.some.injEq] at hstep
  subst hstep
  cases a with
  | create fn name sp => exact exact_allocTask h
  | createPrio fn name prio sp => exact exact_allocTask h
  | setPriority t prio => exact exact_taskSetPriority h hsafe
  | sleep ms => exact exact_taskSleep h hsafe
  | wake t => exact exact_taskWake h
  | exit e => exact exact_taskExit h hsafe
  | tick => exact exact_timerHandler h hsafe

/-- In a run no step of which clears a bit another READY task needs, the bitmap is exact
throughout. -/
theorem exact_of_safeRun {s₀ : State} {fn sp : UInt32} (hinit : schedInit s₀ fn sp = some s)
    (hsafe : Run.EveryStep step (fun s a _ => Safe s a) s actions) :
    Run.EveryState step Exact s actions := by
  refine hsafe.everyState ?_ ?_ (exact_schedInit hinit)
  · intro s a t h hstep hq
    exact exact_step h hstep hq
  · intro s h
    exact h

/-- Two tasks at the normal priority. -/
def twoNormal : List Action := [.create 0x102000 none 0x202000, .create 0x103000 none 0x204000]

/-- A tick that neither ends the quantum nor ages is harmless. -/
theorem TickSafe.of_early (hx : ¬ Expired s c) (hnow : (s.uptimeMs + 1) % 50 ≠ 0) :
    TickSafe s c where
  aging _ h := absurd h hnow
  demote h := absurd h hx
  sentinel h := absurd h hx
  dispatch h := absurd h hx
  agingAfter h := absurd h hx

/-- One task moved to another priority, and a tick. -/
theorem exact_oneMoved :
    Run.EveryState step Exact booted
      [.create 0x102000 none 0x202000, .setPriority (some 1) 5, .tick] := by
  apply exact_of_safeRun schedInit_zero
  rintro s₁ ⟨⟩
  refine ⟨trivial, ?_⟩
  rintro s₂ ⟨⟩
  constructor
  · intro _ _
    unfold Sole
    decide
  · rintro s₃ -
    refine ⟨?_, trivial⟩
    rintro c ⟨⟩
    exact .of_early (by decide) (by decide)

/-- The priority of one of two READY tasks is changed, and the other loses its bit. -/
theorem not_exact_twoNormal :
    ¬ ∀ (s₀ s : State) (fn sp : UInt32) (actions : List Action),
      schedInit s₀ fn sp = some s → Run.EveryState step Exact s actions := by
  intro h
  have hrun := h _ _ _ _ (twoNormal ++ [.setPriority (some 1) 5]) schedInit_zero
  have hlast := ((hrun.2 _ rfl).2 _ rfl).2 _ rfl
  have hbit := (hlast taskPrioNormal).mpr ⟨2, by decide, by decide⟩
  revert hbit
  decide

end PinguinOS.Sched
