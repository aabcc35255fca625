import PinguinOS.Mm.PmmRun
import PinguinOS.Sched.SleepDuration

/-! The stacks of the tasks: who owns their pages, and when they are given back. -/
namespace PinguinOS.Sched

open Mm (Apart)

/-- The pages of a stack at `sp`: the first one and their number. -/
def stackPages (sp : UInt32) : Nat × Nat := (sp.toNat / Mm.pageSize, 2)

/-- What `pmm_alloc_pages` may return while the ranges `out` are in use. -/
def Offered (out : List (Nat × Nat)) (sp : UInt32) : Prop :=
  sp = 0 ∨ sp.toNat % Mm.pageSize = 0 ∧ ∀ r ∈ out, Apart (stackPages sp) r

instance decidableApart {r r' : Nat × Nat} : Decidable (Apart r r') :=
  inferInstanceAs (Decidable (_ ∨ _))

instance {out : List (Nat × Nat)} {sp : UInt32} : Decidable (Offered out sp) :=
  inferInstanceAs (Decidable (_ ∨ _))

/-- The scheduler, and the page ranges in use by it and by others. -/
structure StackSys where
  sched : State
  /-- Returned by `pmm_alloc_pages` and not yet given back: first page and page count. -/
  outstanding : List (Nat × Nat)
  /-- The task in the slot has called `task_exit`. -/
  exited : Slot → Bool

inductive StackEvent
  /-- `task_create_prio`, where `pmm_alloc_pages` returns `sp`. -/
  | create (fn : UInt32) (name : Option (List Char)) (prio : Prio) (sp : UInt32)
  | exit (exitCode : Int32)
  /-- A run of `timer_handler`. -/
  | tick
  /-- An allocation of other code. -/
  | take (first count : Nat)
  /-- Other code gives back what it has. -/
  | give (first count : Nat)

/-- In use, also as a zombie. -/
def State.Used (s : State) (i : Slot) : Prop := (s.tasks i).state ≠ .unused

instance {s : State} {i : Slot} : Decidable (s.Used i) := inferInstanceAs (Decidable (_ ≠ _))

def State.stack (s : State) (i : Slot) : Nat × Nat := stackPages (s.tasks i).stackPhys

/-- The `pmm_free_pages` calls between `s` and `t`. -/
def freedSince (s t : State) : List (UInt32 × UInt32) :=
  t.freedStacks.take (t.freedStacks.length - s.freedStacks.length)

def StackSys.step (x : StackSys) : StackEvent → Option StackSys
  | .create fn name prio sp =>
    if Offered x.outstanding sp then
      match taskCreatePrio x.sched fn name prio sp with
      | (u, none) => some { x with sched := u }
      | (u, some i) => some
        { sched := u
          outstanding := stackPages sp :: x.outstanding
          exited := Function.update x.exited i false }
    else none
  | .exit exitCode => some
    { x with
      sched := taskExit x.sched exitCode
      exited := fun i => x.exited i || decide (x.sched.currentTask = some i) }
  | .tick =>
    let u := (timerHandler x.sched).1
    some
      { x with
        sched := u
        outstanding := x.outstanding.diff
          ((freedSince x.sched u).map fun r => (r.1.toNat / Mm.pageSize, r.2.toNat)) }
  | .take first count =>
    if 0 < count ∧ ∀ r ∈ x.outstanding, Apart (first, count) r then
      some { x with outstanding := (first, count) :: x.outstanding }
    else none
  | .give first count =>
    if ∀ i, x.sched.Used i → x.sched.stack i ≠ (first, count) then
      some { x with outstanding := x.outstanding.erase (first, count) }
    else none

/-- Every task has a stack whose pages nobody else has. -/
structure StackSys.Exclusive (x : StackSys) : Prop where
  owned : ∀ i, x.sched.Used i → (x.sched.tasks i).stackPhys ≠ 0 ∧
    (x.sched.tasks i).stackPhys.toNat % Mm.pageSize = 0 ∧ x.sched.stack i ∈ x.outstanding
  apart : x.outstanding.Pairwise Apart
  distinct : ∀ i j, i ≠ j → x.sched.Used i → x.sched.Used j →
    Apart (x.sched.stack i) (x.sched.stack j)

/-- A step gives back the stacks of the tasks it reaps, and no other slot loses its task. -/
structure FreesOnce (x : StackSys) (e : StackEvent) (y : StackSys) : Prop where
  freed : ∃ slots : List Slot, slots.Nodup ∧
    y.sched.freedStacks = slots.map (fun i => ((x.sched.tasks i).stackPhys,
      schedStackSize / pageSize)) ++ x.sched.freedStacks ∧
    (slots ≠ [] → e = .tick) ∧
    ∀ i, i ∈ slots ↔ x.sched.Used i ∧ ¬ y.sched.Used i
  reaped : ∀ i, x.sched.Used i → ¬ y.sched.Used i →
    (x.sched.tasks i).state = .zombie ∧ x.exited i = true ∧
      x.sched.currentTask ≠ some i ∧ y.sched.currentTask ≠ some i ∧
      x.sched.stack i ∈ x.outstanding ∧ x.sched.stack i ∉ y.outstanding
  kept : ∀ i, x.sched.Used i → y.sched.Used i →
    (y.sched.tasks i).id = (x.sched.tasks i).id ∧
      (y.sched.tasks i).stackPhys = (x.sched.tasks i).stackPhys

/-- Tasks that occupy a slot, zombies included. -/
def State.usedCount (s : State) : Nat := (List.finRange schedMaxTasks).countP fun i => s.Used i

/-- Tasks that have not exited. -/
def State.liveCount (s : State) : Nat :=
  (List.finRange schedMaxTasks).countP fun i => s.Used i ∧ (s.tasks i).state ≠ .zombie

/-- While `count` is below the size of the table, `alloc_task` finds a slot. -/
def FindsSlot (count : State → Nat) (s : State) : Prop :=
  count s < schedMaxTasks → ∀ fn name prio sp, sp ≠ 0 →
    ∃ i, (taskCreatePrio s fn name prio sp).2 = some i

/-- `sched_init` has taken the stack `sp`; the ranges `out` were in use before. -/
def StackSys.start (s : State) (out : List (Nat × Nat)) (sp : UInt32) : StackSys where
  sched := s
  outstanding := stackPages sp :: out
  exited := fun _ => false

variable {s u : State} {c i j n : Slot} {r : State × Option (Slot × ResumePoint)} {x y : StackSys}
  {e : StackEvent} {sp : UInt32}

/-! What `timer_handler` does to the stacks. -/

/-- A zombie that this sweep reaps. -/
def Reaped (t : Task) : Prop :=
  t.state = .zombie ∧ t.zombieTicks + 1 ≥ zombieReapTicks ∧ t.stackPhys ≠ 0

instance (t : Task) : Decidable (Reaped t) := inferInstanceAs (Decidable (_ ∧ _))

theorem reapZombie_freedStacks :
    (reapZombie s i).freedStacks = if Reaped (s.tasks i) then
      ((s.tasks i).stackPhys, schedStackSize / pageSize) :: s.freedStacks else s.freedStacks := by
  by_cases hz : (s.tasks i).state = .zombie
  · by_cases hp : (s.tasks i).zombieTicks + 1 ≥ zombieReapTicks ∧ (s.tasks i).stackPhys ≠ 0
    · simp [reapZombie, Reaped, hz, hp, State.modify]
    · simp [reapZombie, Reaped, hz, hp, State.modify]
  · simp [reapZombie, Reaped, hz]

/-- The loop frees the stacks of the zombies it reaps, in the order of the table. -/
theorem foldl_reapZombie {l : List Slot} (hl : l.Nodup) :
    (l.foldl reapZombie s).freedStacks =
      ((l.filter fun i => Reaped (s.tasks i)).reverse.map fun i =>
        ((s.tasks i).stackPhys, schedStackSize / pageSize)) ++ s.freedStacks := by
  induction l generalizing s with
  | nil => rfl
  | cons i l ih =>
    obtain ⟨hi, hl⟩ := List.nodup_cons.mp hl
    have hrest : ∀ j ∈ l, (reapZombie s i).tasks j = s.tasks j := by
      intro j hj
      refine reap_sweep.other s i j ?_
      rintro rfl
      exact hi hj
    have hfilter : (l.filter fun j => decide (Reaped ((reapZombie s i).tasks j))) =
        l.filter fun j => decide (Reaped (s.tasks j)) := by
      refine List.filter_congr ?_
      intro j hj
      rw [hrest j hj]
    have hmap : ((l.filter fun j => decide (Reaped (s.tasks j))).reverse.map fun j =>
        (((reapZombie s i).tasks j).stackPhys, schedStackSize / pageSize)) =
        (l.filter fun j => decide (Reaped (s.tasks j))).reverse.map fun j =>
          ((s.tasks j).stackPhys, schedStackSize / pageSize) := by
      refine List.map_congr_left ?_
      intro j hj
      rw [hrest j (List.mem_filter.mp (List.mem_reverse.mp hj)).1]
    rw [List.foldl_cons, ih hl, hfilter, hmap, reapZombie_freedStacks]
    by_cases hr : Reaped (s.tasks i)
    · rw [if_pos hr, List.filter_cons_of_pos (by simpa using hr), List.reverse_cons,
        List.map_append, List.append_assoc]
      rfl
    · rw [if_neg hr, List.filter_cons_of_neg (by simpa using hr)]

/-- The task keeps its stack and its slot, and is no zombie if it was none. -/
structure SameOwner (t t' : Task) : Prop where
  id : t'.id = t.id
  stack : t'.stackPhys = t.stackPhys
  used : t'.state = .unused ↔ t.state = .unused
  zombie : t'.state = .zombie → t.state = .zombie
  zombieTicks : t'.zombieTicks = t.zombieTicks

theorem SameOwner.refl (t : Task) : SameOwner t t := ⟨rfl, rfl, Iff.rfl, fun hz => hz, rfl⟩

theorem SameOwner.trans {t t' t'' : Task} (h : SameOwner t t') (h' : SameOwner t' t'') :
    SameOwner t t'' :=
  ⟨h'.id.trans h.id, h'.stack.trans h.stack, h'.used.trans h.used, fun hz => h.zombie (h'.zombie hz),
    h'.zombieTicks.trans h.zombieTicks⟩

/-- A step of the handler that reaps nothing. -/
structure SameStacks (s u : State) : Prop where
  freed : u.freedStacks = s.freedStacks
  owner : ∀ j, SameOwner (s.tasks j) (u.tasks j)

theorem SameStacks.trans {v : State} (h : SameStacks s u) (h' : SameStacks u v) :
    SameStacks s v :=
  ⟨h'.freed.trans h.freed, fun j => (h.owner j).trans (h'.owner j)⟩

theorem sameOwner_woken {now : UInt32} {t : Task} : SameOwner t (wokenTask now t) := by
  unfold wokenTask
  split_ifs with hd
  · have hs := hd.1
    exact ⟨rfl, rfl, by simp [hs], by simp, rfl⟩
  · exact SameOwner.refl t

theorem sameOwner_aged {t : Task} : SameOwner t (agedTask t) := by
  unfold agedTask
  split_ifs
  · exact ⟨rfl, rfl, Iff.rfl, id, rfl⟩
  · exact ⟨rfl, rfl, Iff.rfl, id, rfl⟩
  · exact SameOwner.refl t

theorem sameOwner_requeued {t : Task} : SameOwner t (requeuedTask t) := by
  refine ⟨rfl, rfl, ?_, ?_, rfl⟩
  · unfold requeuedTask
    dsimp only
    split_ifs with hr
    · simp [hr]
    · rfl
  · unfold requeuedTask
    dsimp only
    split_ifs with hr
    · simp
    · exact id

theorem sameStacks_tickClock : SameStacks s (tickClock s) := by
  constructor
  · have hfold : ∀ s : State, (wakeSleepers s).freedStacks = s.freedStacks := by
      intro s
      unfold wakeSleepers
      apply foldl_frame State.freedStacks
      intro s i
      unfold wakeSleeper
      split_ifs <;> rfl
    exact hfold _
  · intro j
    rw [tickClock_tasks]
    exact sameOwner_woken

theorem sameStacks_chargeTick : SameStacks s (chargeTick s c) := by
  refine ⟨rfl, ?_⟩
  intro j
  rw [chargeTick_tasks]
  split_ifs with hj
  · rw [hj]
    exact ⟨rfl, rfl, Iff.rfl, id, rfl⟩
  · exact SameOwner.refl _

theorem sameStacks_ageTasks : SameStacks s (ageTasks s) := by
  constructor
  · unfold ageTasks
    apply foldl_frame State.freedStacks
    intro s i
    unfold ageTask
    dsimp only
    split_ifs <;> rfl
  · intro j
    rw [ageTasks_tasks]
    exact sameOwner_aged

theorem requeue_freedStacks : (requeue s c).freedStacks = s.freedStacks := by
  unfold requeue mlfqDemote
  dsimp only
  split_ifs <;> rfl

theorem sameStacks_requeue : SameStacks s (requeue s c) := by
  refine ⟨requeue_freedStacks, ?_⟩
  intro j
  rw [requeue_tasks]
  split_ifs with hj
  · rw [hj]
    exact sameOwner_requeued
  · exact SameOwner.refl _

theorem sameStacks_atPick : SameStacks s (atPick s c) :=
  (sameStacks_tickClock.trans sameStacks_chargeTick).trans sameStacks_requeue

/-- A task in use is made RUNNING. -/
theorem sameOwner_running {t t' : Task} (hid : t'.id = t.id) (hstack : t'.stackPhys = t.stackPhys)
    (hticks : t'.zombieTicks = t.zombieTicks) (hused : t.state ≠ .unused)
    (hrunning : t'.state = .running) : SameOwner t t' :=
  ⟨hid, hstack, by simp [hrunning, hused], by simp [hrunning], hticks⟩

theorem sameStacks_keepCurrent (hused : s.Used c) : SameStacks s (keepCurrent s c) := by
  refine ⟨rfl, ?_⟩
  intro j
  rw [keepCurrent_tasks]
  split_ifs with hj
  · rw [hj]
    exact sameOwner_running rfl rfl rfl hused rfl
  · exact SameOwner.refl _

theorem sameStacks_switchTo (hn : n ≠ c) (hused : s.Used n) :
    SameStacks s (switchTo s c n).1 := by
  refine ⟨rfl, ?_⟩
  intro j
  rw [switchTo_tasks hn]
  split_ifs with hjn hjc
  · rw [hjn]
    exact sameOwner_running rfl rfl rfl hused rfl
  · rw [hjc]
    exact ⟨rfl, rfl, Iff.rfl, id, rfl⟩
  · exact SameOwner.refl _

/-! The whole run of the handler. -/

/-- `slots` are reaped between `s` and `u`, and nothing else happens to a stack. -/
structure Reaps (s u : State) (slots : List Slot) : Prop where
  nodup : slots.Nodup
  freed : u.freedStacks = slots.map (fun i => ((s.tasks i).stackPhys,
    schedStackSize / pageSize)) ++ s.freedStacks
  reaped : ∀ i ∈ slots, (s.tasks i).state = .zombie ∧ ¬ u.Used i ∧
    zombieReapTicks ≤ (s.tasks i).zombieTicks + 1
  others : ∀ i, i ∉ slots → (u.tasks i).id = (s.tasks i).id ∧
    (u.tasks i).stackPhys = (s.tasks i).stackPhys ∧ (u.Used i ↔ s.Used i)
  zombie : ∀ i, (u.tasks i).state = .zombie → (s.tasks i).state = .zombie ∧
    ((u.tasks i).zombieTicks = (s.tasks i).zombieTicks ∨
      (u.tasks i).zombieTicks = (s.tasks i).zombieTicks + 1)

theorem SameStacks.reaps (h : SameStacks s u) : Reaps s u [] where
  nodup := List.nodup_nil
  freed := h.freed
  reaped := by simp
  others i _ := ⟨(h.owner i).id, (h.owner i).stack, not_congr (h.owner i).used⟩
  zombie i hz := ⟨(h.owner i).zombie hz, Or.inl (h.owner i).zombieTicks⟩

theorem SameStacks.trans_reaps {v : State} {slots : List Slot} (h : SameStacks s u)
    (hr : Reaps u v slots) : Reaps s v slots where
  nodup := hr.nodup
  freed := by
    rw [hr.freed, h.freed]
    congr 1
    refine List.map_congr_left ?_
    intro i _
    rw [(h.owner i).stack]
  reaped i hi := by
    obtain ⟨hz, hu, ht⟩ := hr.reaped i hi
    exact ⟨(h.owner i).zombie hz, hu, (h.owner i).zombieTicks ▸ ht⟩
  others i hi := by
    obtain ⟨hid, hstack, hused⟩ := hr.others i hi
    exact ⟨hid.trans (h.owner i).id, hstack.trans (h.owner i).stack,
      hused.trans (not_congr (h.owner i).used)⟩
  zombie i hz := by
    obtain ⟨hu, ht⟩ := hr.zombie i hz
    exact ⟨(h.owner i).zombie hu, (h.owner i).zombieTicks ▸ ht⟩

theorem reapedTask_of_reaped {t : Task} (h : Reaped t) : (reapedTask t).state = .unused := by
  unfold reapedTask
  rw [if_neg (not_not.mpr h.1), if_pos h.2]

theorem reapedTask_of_not {t : Task} (h : ¬ Reaped t) :
    (reapedTask t).id = t.id ∧ (reapedTask t).stackPhys = t.stackPhys ∧
      (reapedTask t).state = t.state ∧ ((reapedTask t).zombieTicks = t.zombieTicks ∨
        (reapedTask t).zombieTicks = t.zombieTicks + 1) := by
  unfold reapedTask
  split_ifs with hz hp
  · exact ⟨rfl, rfl, rfl, Or.inl rfl⟩
  · exact absurd ⟨not_not.mp hz, hp⟩ h
  · exact ⟨rfl, rfl, rfl, Or.inr rfl⟩

theorem reaps_reapZombies : ∃ slots, Reaps s (reapZombies s) slots := by
  refine ⟨((List.finRange schedMaxTasks).filter fun i => Reaped (s.tasks i)).reverse, ?_⟩
  have hmem : ∀ i, i ∈ ((List.finRange schedMaxTasks).filter fun i =>
      decide (Reaped (s.tasks i))).reverse ↔ Reaped (s.tasks i) := by
    intro i
    rw [List.mem_reverse, List.mem_filter, decide_eq_true_eq, and_iff_right (List.mem_finRange i)]
  constructor
  case nodup => exact List.nodup_reverse.mpr ((List.nodup_finRange _).filter _)
  case freed =>
    unfold reapZombies
    exact foldl_reapZombie (List.nodup_finRange _)
  case reaped =>
    intro i hi
    have hr := (hmem i).mp hi
    refine ⟨hr.1, ?_, hr.2.1⟩
    unfold State.Used
    rw [reapZombies_tasks, reapedTask_of_reaped hr]
    exact not_not.mpr rfl
  case others =>
    intro i hi
    obtain ⟨hid, hstack, hstate, -⟩ := reapedTask_of_not fun hr => hi ((hmem i).mpr hr)
    unfold State.Used
    rw [reapZombies_tasks, hid, hstack, hstate]
    exact ⟨rfl, rfl, Iff.rfl⟩
  case zombie =>
    intro i hz
    rw [reapZombies_tasks] at hz ⊢
    by_cases hr : Reaped (s.tasks i)
    · rw [reapedTask_of_reaped hr] at hz
      cases hz
    · obtain ⟨-, -, hstate, hticks⟩ := reapedTask_of_not hr
      exact ⟨hstate ▸ hz, hticks⟩

theorem reaps_ageAndReap : ∃ slots, Reaps s (ageAndReap s) slots := by
  unfold ageAndReap
  split_ifs
  · obtain ⟨slots, hr⟩ := reaps_reapZombies (s := ageTasks s)
    exact ⟨slots, sameStacks_ageTasks.trans_reaps hr⟩
  · exact ⟨[], SameStacks.reaps ⟨rfl, fun j => SameOwner.refl _⟩⟩

theorem picked_used (hpick : schedPickNext (atPick s c) = some n) : (atPick s c).Used n := by
  obtain ⟨-, hready, -, -⟩ := schedPickNext_eq_some.mp hpick
  unfold Ready at hready
  simp [State.Used, hready]

theorem TickResult.reaps (h : TickResult s c r) (hused : s.Used c) :
    ∃ slots, Reaps s r.1 slots := by
  cases h with
  | early hx =>
    obtain ⟨slots, hr⟩ := reaps_ageAndReap (s := chargeTick (tickClock s) c)
    exact ⟨slots, (sameStacks_tickClock.trans sameStacks_chargeTick).trans_reaps hr⟩
  | keep hx hpick =>
    have hused' : (atPick s c).Used c := fun hu => hused ((sameStacks_atPick.owner c).used.mp hu)
    exact ⟨[], (sameStacks_atPick.trans (sameStacks_keepCurrent hused')).reaps⟩
  | enter n fn hx hn hpick hctx =>
    exact ⟨[], (sameStacks_atPick.trans (sameStacks_switchTo hn (picked_used hpick))).reaps⟩
  | resume n hx hn hpick hctx =>
    obtain ⟨slots, hr⟩ := reaps_ageAndReap (s := (switchTo (atPick s c) c n).1)
    exact ⟨slots, (sameStacks_atPick.trans
      (sameStacks_switchTo hn (picked_used hpick))).trans_reaps hr⟩

/-! A zombie does not stay current for longer than its quantum. -/

structure Timely (s : State) (c : Slot) : Prop where
  current : s.currentTask = some c
  used : s.Used c
  ticks : ∀ i, (s.tasks i).runTicks < schedQuantumTicks
  zombie : (s.tasks c).state = .zombie → (s.tasks c).zombieTicks ≤ (s.tasks c).runTicks

theorem ageAndReap_runTicks : ((ageAndReap s).tasks j).runTicks = (s.tasks j).runTicks := by
  rw [ageAndReap_tasks]
  unfold reapedTask agedTask
  split_ifs <;> rfl

theorem chargeTick_runTicks : ((chargeTick (tickClock s) c).tasks j).runTicks =
    if j = c then (s.tasks c).runTicks + 1 else (s.tasks j).runTicks := by
  rw [chargeTick_tasks]
  split_ifs with hj
  · simp
  · simp

theorem atPick_runTicks :
    ((atPick s c).tasks j).runTicks = if j = c then 0 else (s.tasks j).runTicks := by
  rw [atPick_tasks]
  split_ifs with hj
  · rfl
  · simp

theorem keepCurrent_runTicks :
    ((keepCurrent s c).tasks j).runTicks = (s.tasks j).runTicks := by
  rw [keepCurrent_tasks]
  split_ifs with hj
  · rw [hj]
  · rfl

theorem switchTo_runTicks (hn : n ≠ c) :
    ((switchTo s c n).1.tasks j).runTicks = (s.tasks j).runTicks := by
  rw [switchTo_tasks hn]
  split_ifs with hjn hjc
  · rw [hjn]
    rfl
  · rw [hjc]
  · rfl

/-- The current task is never old enough to be reaped. -/
theorem Timely.young (h : Timely s c) (hz : (s.tasks c).state = .zombie) :
    ¬ zombieReapTicks ≤ (s.tasks c).zombieTicks + 1 := by
  have hle := UInt32.le_iff_toNat_le.mp (h.zombie hz)
  have hlt := UInt32.lt_iff_toNat_lt.mp (h.ticks c)
  have hquantum : schedQuantumTicks.toNat = 10 := rfl
  have hreap : zombieReapTicks.toNat = 200 := rfl
  have hone : (1 : UInt32).toNat = 1 := rfl
  rw [UInt32.le_iff_toNat_le, UInt32.toNat_add]
  omega

theorem Timely.atPick_ticks (h : Timely s c) (i : Slot) :
    ((atPick s c).tasks i).runTicks < schedQuantumTicks := by
  rw [atPick_runTicks]
  split_ifs
  · decide
  · exact h.ticks i

/-- The quantum goes on. -/
theorem Timely.early (h : Timely s c) (hx : ¬ Expired s c) {slots : List Slot}
    (hr : Reaps s (ageAndReap (chargeTick (tickClock s) c)) slots) :
    Timely (ageAndReap (chargeTick (tickClock s) c)) c := by
  have hlt : (s.tasks c).runTicks + 1 < schedQuantumTicks := UInt32.not_le.mp hx
  have hnot : c ∉ slots := by
    intro hmem
    obtain ⟨hz, -, hold⟩ := hr.reaped c hmem
    exact h.young hz hold
  constructor
  case current => simp [h.current]
  case used => exact (hr.others c hnot).2.2.mpr h.used
  case ticks =>
    intro i
    rw [ageAndReap_runTicks, chargeTick_runTicks]
    split_ifs
    · exact hlt
    · exact h.ticks i
  case zombie =>
    intro hz
    obtain ⟨hz, hticks⟩ := hr.zombie c hz
    have hle := UInt32.le_iff_toNat_le.mp (h.zombie hz)
    have hrun := UInt32.lt_iff_toNat_lt.mp (h.ticks c)
    have hquantum : schedQuantumTicks.toNat = 10 := rfl
    have hone : (1 : UInt32).toNat = 1 := rfl
    rw [ageAndReap_runTicks, chargeTick_runTicks, if_pos rfl, UInt32.le_iff_toNat_le,
      UInt32.toNat_add]
    rcases hticks with hsame | hmore
    · rw [hsame]
      omega
    · rw [hmore, UInt32.toNat_add]
      omega

/-- A task in state RUNNING. -/
theorem timely_running (hcurrent : u.currentTask = some n) (hrunning : (u.tasks n).state = .running)
    (hticks : ∀ i, (u.tasks i).runTicks < schedQuantumTicks) : Timely u n where
  current := hcurrent
  used := by simp [State.Used, hrunning]
  ticks := hticks
  zombie hz := by simp [hrunning] at hz

theorem Timely.timer (h : Timely s c) {slots : List Slot}
    (hr : Reaps s (timerHandler s).1 slots) : ∃ c', Timely (timerHandler s).1 c' := by
  have hres := timerHandler_result h.current
  generalize timerHandler s = r at hres hr ⊢
  have hdispatched : ∀ n, n ≠ c → ((switchTo (atPick s c) c n).1.tasks n).state = .running := by
    intro n hn
    rw [switchTo_tasks hn, if_pos rfl]
    rfl
  have hswitch : ∀ n, n ≠ c → ∀ i,
      ((switchTo (atPick s c) c n).1.tasks i).runTicks < schedQuantumTicks := by
    intro n hn i
    rw [switchTo_runTicks hn]
    exact h.atPick_ticks i
  cases hres with
  | early hx => exact ⟨c, h.early hx hr⟩
  | keep hx hpick =>
    refine ⟨c, timely_running (by simp [h.current]) ?_ ?_⟩
    · dsimp only
      rw [keepCurrent_tasks, if_pos rfl]
    · intro i
      dsimp only
      rw [keepCurrent_runTicks]
      exact h.atPick_ticks i
  | enter n fn hx hn hpick hctx =>
    exact ⟨n, timely_running rfl (hdispatched n hn) (hswitch n hn)⟩
  | resume n hx hn hpick hctx =>
    refine ⟨n, timely_running (by simp) ?_ ?_⟩
    · dsimp only
      rw [ageAndReap_state_eq (by decide) (by decide)]
      exact hdispatched n hn
    · intro i
      dsimp only
      rw [ageAndReap_runTicks]
      exact hswitch n hn i

/-! Runs. -/

structure StackSys.Kept (x : StackSys) : Prop where
  timely : ∃ c, Timely x.sched c
  exclusive : x.Exclusive
  positive : ∀ r ∈ x.outstanding, 0 < r.2
  exited : ∀ i, (x.sched.tasks i).state = .zombie → x.exited i = true

theorem not_apart_self {r : Nat × Nat} (hr : 0 < r.2) : ¬ Apart r r := by
  unfold Apart
  omega

theorem StackSys.Kept.nodup (h : x.Kept) : x.outstanding.Nodup := by
  refine h.exclusive.apart.imp_of_mem ?_
  rintro a b ha - happart rfl
  exact not_apart_self (h.positive a ha) happart

theorem StackSys.Kept.stack_ne (h : x.Kept) (hij : i ≠ j) (hi : x.sched.Used i)
    (hj : x.sched.Used j) : x.sched.stack i ≠ x.sched.stack j := by
  intro heq
  have happart := h.exclusive.distinct i j hij hi hj
  rw [heq] at happart
  exact not_apart_self (Nat.succ_pos 1) happart

/-- Tasks that keep their stacks keep them apart, whatever else is given out or back. -/
theorem StackSys.Exclusive.mono (h : x.Exclusive)
    (hleft : ∀ i, y.sched.Used i → x.sched.Used i ∧
      (y.sched.tasks i).stackPhys = (x.sched.tasks i).stackPhys ∧
        x.sched.stack i ∈ y.outstanding)
    (hapart : y.outstanding.Pairwise Apart) : y.Exclusive := by
  have hsame : ∀ i, y.sched.Used i → y.sched.stack i = x.sched.stack i := by
    intro i hi
    unfold State.stack
    rw [(hleft i hi).2.1]
  refine ⟨?_, hapart, ?_⟩
  · intro i hi
    obtain ⟨hused, hstack, hmem⟩ := hleft i hi
    obtain ⟨hzero, halign, -⟩ := h.owned i hused
    rw [hsame i hi, hstack]
    exact ⟨hzero, halign, hmem⟩
  · intro i j hij hi hj
    rw [hsame i hi, hsame j hj]
    exact h.distinct i j hij (hleft i hi).1 (hleft j hj).1

/-- What a successful `alloc_task` puts into its slot. -/
theorem allocTask_stack {fn : UInt32} {name : Option (List Char)} {prio : Prio}
    (h : allocTask s fn name prio sp = (u, some i)) :
    sp ≠ 0 ∧ (u.tasks i).stackPhys = sp ∧ (u.tasks i).runTicks = 0 ∧
      u.freedStacks = s.freedStacks := by
  unfold allocTask at h
  split at h
  · cases h
  · rename_i j hfind
    split_ifs at h with hsp
    · cases h
    · cases h
      refine ⟨hsp, ?_, ?_, rfl⟩
      · simp
      · simp [Task.zero]

/-- The tasks and the list of what was freed are as before, but for what is new. -/
theorem freesOnce_same (hfreed : y.sched.freedStacks = x.sched.freedStacks)
    (hused : ∀ i, x.sched.Used i → y.sched.Used i)
    (hkept : ∀ i, x.sched.Used i → (y.sched.tasks i).id = (x.sched.tasks i).id ∧
      (y.sched.tasks i).stackPhys = (x.sched.tasks i).stackPhys) : FreesOnce x e y where
  freed := by
    refine ⟨[], List.nodup_nil, hfreed, fun hne => absurd rfl hne, ?_⟩
    intro i
    exact iff_of_false List.not_mem_nil fun hand => hand.2 (hused i hand.1)
  reaped i hi hgone := absurd (hused i hi) hgone
  kept i hi _ := hkept i hi

theorem allocTask_allocated {fn : UInt32} {name : Option (List Char)} {prio : Prio}
    (h : allocTask s fn name prio sp = (u, some i)) : Allocated s u i fn prio := by
  rcases allocTask_result s fn name prio sp with hnone | ⟨v, j, hsome, hv⟩
  · rw [h] at hnone
    cases hnone
  · rw [h] at hsome
    cases hsome
    exact hv

theorem Allocated.used_ne {fn : UInt32} {prio : Prio} (hu : Allocated s u i fn prio)
    (hj : s.Used j) : j ≠ i := by
  rintro rfl
  exact hj hu.unused

theorem Allocated.other {fn : UInt32} {prio : Prio} (hu : Allocated s u i fn prio)
    (hj : j ≠ i) : (u.Used j ↔ s.Used j) ∧ u.stack j = s.stack j := by
  unfold State.Used State.stack
  rw [hu.others j hj]
  exact ⟨Iff.rfl, rfl⟩

theorem Timely.create {fn : UInt32} {prio : Prio} (h : Timely s c)
    (hu : Allocated s u i fn prio) (hruns : (u.tasks i).runTicks = 0) : Timely u c := by
  have hci := hu.used_ne h.used
  constructor
  case current => exact hu.currentTask.trans h.current
  case used => exact (hu.other hci).1.mpr h.used
  case ticks =>
    intro j
    by_cases hj : j = i
    · rw [hj, hruns]
      decide
    · rw [hu.others j hj]
      exact h.ticks j
  case zombie =>
    rw [hu.others c hci]
    exact h.zombie

/-- A task on a stack that nobody has. -/
theorem StackSys.Exclusive.create {fn : UInt32} {prio : Prio} {exited : Slot → Bool}
    (h : x.Exclusive) (hu : Allocated x.sched u i fn prio) (hstack : (u.tasks i).stackPhys = sp)
    (hsp : sp ≠ 0) (hround : sp.toNat % Mm.pageSize = 0)
    (hfresh : ∀ r ∈ x.outstanding, Apart (stackPages sp) r) :
    StackSys.Exclusive ⟨u, stackPages sp :: x.outstanding, exited⟩ := by
  have hown : u.stack i = stackPages sp := by
    unfold State.stack
    rw [hstack]
  have hnew : ∀ j, j ≠ i → u.Used j → Apart (u.stack i) (u.stack j) := by
    intro j hj hused
    obtain ⟨hiff, hsame⟩ := hu.other hj
    rw [hown, hsame]
    exact hfresh _ (h.owned j (hiff.mp hused)).2.2
  constructor
  case owned =>
    intro j hj
    dsimp only at hj ⊢
    by_cases hji : j = i
    · subst hji
      rw [hown, hstack]
      exact ⟨hsp, hround, List.mem_cons_self⟩
    · obtain ⟨hused, hsame⟩ := hu.other hji
      obtain ⟨hzero, halign, hmem⟩ := h.owned j (hused.mp hj)
      rw [hsame, hu.others j hji]
      exact ⟨hzero, halign, List.mem_cons_of_mem _ hmem⟩
  case apart => exact List.pairwise_cons.mpr ⟨hfresh, h.apart⟩
  case distinct =>
    intro j k hjk hj hk
    dsimp only at hj hk ⊢
    by_cases hji : j = i
    · subst hji
      exact hnew k hjk.symm hk
    by_cases hki : k = i
    · subst hki
      exact Or.symm (hnew j hji hj)
    obtain ⟨hused, hsame⟩ := hu.other hji
    obtain ⟨hused', hsame'⟩ := hu.other hki
    rw [hsame, hsame']
    exact h.distinct j k hjk (hused.mp hj) (hused'.mp hk)

theorem StackSys.Kept.create (h : x.Kept) {fn : UInt32} {name : Option (List Char)} {prio : Prio}
    (hoffered : Offered x.outstanding sp)
    (halloc : allocTask x.sched fn name prio sp = (u, some i)) :
    StackSys.Kept ⟨u, stackPages sp :: x.outstanding, Function.update x.exited i false⟩ ∧
      FreesOnce x (.create fn name prio sp)
        ⟨u, stackPages sp :: x.outstanding, Function.update x.exited i false⟩ := by
  obtain ⟨hsp, hstack, hruns, hfreed⟩ := allocTask_stack halloc
  obtain ⟨hround, hfresh⟩ := hoffered.resolve_left hsp
  have hu := allocTask_allocated halloc
  obtain ⟨⟨c, htimely⟩, hexclusive, hpositive, hexited⟩ := h
  refine ⟨⟨⟨c, htimely.create hu hruns⟩, hexclusive.create hu hstack hsp hround hfresh, ?_, ?_⟩, ?_⟩
  · intro r hr
    rcases List.mem_cons.mp hr with rfl | hr
    · exact Nat.succ_pos 1
    · exact hpositive r hr
  · intro j hz
    dsimp only at hz ⊢
    have hji : j ≠ i := by
      rintro rfl
      rw [hu.state] at hz
      cases hz
    rw [Function.update_of_ne hji]
    rw [hu.others j hji] at hz
    exact hexited j hz
  · refine freesOnce_same hfreed ?_ ?_
    · intro j hj
      exact (hu.other (hu.used_ne hj)).1.mpr hj
    · intro j hj
      dsimp only
      rw [hu.others j (hu.used_ne hj)]
      exact ⟨rfl, rfl⟩

theorem taskExit_tasks {exitCode : Int32} (hcurrent : s.currentTask = some c) :
    (taskExit s exitCode).tasks j = if j = c then
      { s.tasks c with exitCode := exitCode, state := .zombie, zombieTicks := 0 }
        else s.tasks j := by
  unfold taskExit
  rw [hcurrent]
  dsimp only
  rw [modify_tasks]
  split_ifs with hj
  · rw [hj]
  · rfl

theorem taskExit_freedStacks {exitCode : Int32} :
    (taskExit s exitCode).freedStacks = s.freedStacks := by
  unfold taskExit
  cases s.currentTask with
  | none => rfl
  | some c => rfl

/-- What `task_exit` leaves of every task. -/
theorem Timely.exit_same {exitCode : Int32} (h : Timely s c) (j : Slot) :
    ((taskExit s exitCode).Used j ↔ s.Used j) ∧
      ((taskExit s exitCode).tasks j).stackPhys = (s.tasks j).stackPhys ∧
      ((taskExit s exitCode).tasks j).id = (s.tasks j).id ∧
      ((taskExit s exitCode).tasks j).runTicks = (s.tasks j).runTicks := by
  unfold State.Used
  rw [taskExit_tasks h.current]
  split_ifs with hj
  · subst hj
    exact ⟨iff_of_true nofun h.used, rfl, rfl, rfl⟩
  · exact ⟨Iff.rfl, rfl, rfl, rfl⟩

theorem Timely.exit {exitCode : Int32} (h : Timely s c) : Timely (taskExit s exitCode) c := by
  constructor
  case current => exact taskExit_currentTask.trans h.current
  case used => exact (h.exit_same c).1.mpr h.used
  case ticks =>
    intro j
    rw [(h.exit_same j).2.2.2]
    exact h.ticks j
  case zombie =>
    intro _
    rw [taskExit_tasks h.current, if_pos rfl]
    exact UInt32.le_iff_toNat_le.mpr (Nat.zero_le _)

theorem StackSys.Kept.exit (h : x.Kept) {exitCode : Int32} :
    StackSys.Kept { x with
      sched := taskExit x.sched exitCode
      exited := fun i => x.exited i || decide (x.sched.currentTask = some i) } ∧
    FreesOnce x (.exit exitCode) { x with
      sched := taskExit x.sched exitCode
      exited := fun i => x.exited i || decide (x.sched.currentTask = some i) } := by
  obtain ⟨⟨c, htimely⟩, hexclusive, hpositive, hexited⟩ := h
  have hsame := fun j => @Timely.exit_same _ _ exitCode htimely j
  refine ⟨⟨⟨c, htimely.exit⟩, hexclusive.mono ?_ hexclusive.apart, hpositive, ?_⟩, ?_⟩
  · intro j hj
    have hused := (hsame j).1.mp hj
    exact ⟨hused, (hsame j).2.1, (hexclusive.owned j hused).2.2⟩
  · intro j hz
    dsimp only at hz ⊢
    rw [taskExit_tasks htimely.current] at hz
    split_ifs at hz with hj
    · subst hj
      simp [htimely.current]
    · rw [hexited j hz]
      rfl
  · exact freesOnce_same taskExit_freedStacks (fun j hj => (hsame j).1.mpr hj)
      fun j _ => ⟨(hsame j).2.2.1, (hsame j).2.1⟩

/-- The ranges that a run of the handler gives back. -/
theorem Reaps.ranges {slots : List Slot} (hr : Reaps s u slots) :
    ((freedSince s u).map fun r => (r.1.toNat / Mm.pageSize, r.2.toNat)) = slots.map s.stack := by
  have htake : freedSince s u =
      slots.map fun i => ((s.tasks i).stackPhys, schedStackSize / pageSize) := by
    unfold freedSince
    rw [hr.freed, List.length_append, Nat.add_sub_cancel]
    exact List.take_left
  rw [htake, List.map_map]
  rfl

theorem StackSys.Kept.tick (h : x.Kept) :
    StackSys.Kept { x with
      sched := (timerHandler x.sched).1
      outstanding := x.outstanding.diff ((freedSince x.sched (timerHandler x.sched).1).map
        fun r => (r.1.toNat / Mm.pageSize, r.2.toNat)) } ∧
    FreesOnce x .tick { x with
      sched := (timerHandler x.sched).1
      outstanding := x.outstanding.diff ((freedSince x.sched (timerHandler x.sched).1).map
        fun r => (r.1.toNat / Mm.pageSize, r.2.toNat)) } := by
  have hnodup := h.nodup
  have hne := fun i j => h.stack_ne (i := i) (j := j)
  obtain ⟨⟨c, htimely⟩, hexclusive, hpositive, hexited⟩ := h
  obtain ⟨slots, hr⟩ := (timerHandler_result htimely.current).reaps htimely.used
  obtain ⟨c', htimely'⟩ := htimely.timer hr
  rw [hr.ranges]
  generalize (timerHandler x.sched).1 = u at hr htimely' ⊢
  have hslots : ∀ i, i ∈ slots ↔ x.sched.Used i ∧ ¬ u.Used i := by
    intro i
    constructor
    · intro hi
      obtain ⟨hz, hgone, -⟩ := hr.reaped i hi
      exact ⟨by simp [State.Used, hz], hgone⟩
    · rintro ⟨hused, hgone⟩
      by_contra hi
      exact hgone ((hr.others i hi).2.2.mpr hused)
  -- a task that is left has its stack still
  have hleft : ∀ i, u.Used i → x.sched.Used i ∧
      (u.tasks i).stackPhys = (x.sched.tasks i).stackPhys ∧
        x.sched.stack i ∈ x.outstanding.diff (slots.map x.sched.stack) := by
    intro i hi
    have hnot : i ∉ slots := fun hmem => ((hslots i).mp hmem).2 hi
    obtain ⟨-, hstack, hiff⟩ := hr.others i hnot
    have hused := hiff.mp hi
    refine ⟨hused, hstack, ?_⟩
    refine List.mem_diff_of_mem (hexclusive.owned i hused).2.2 ?_
    intro hmem
    obtain ⟨j, hj, heq⟩ := List.mem_map.mp hmem
    refine hne j i ?_ ((hslots j).mp hj).1 hused heq
    rintro rfl
    exact hnot hj
  refine ⟨⟨⟨c', htimely'⟩, ?_, ?_, ?_⟩, ?_⟩
  · exact hexclusive.mono hleft (hexclusive.apart.sublist (List.diff_sublist _ _))
  · intro r hmem
    exact hpositive r (List.diff_subset _ _ hmem)
  · intro i hz
    exact hexited i (hr.zombie i hz).1
  · constructor
    case freed => exact ⟨slots, hr.nodup, hr.freed, fun _ => rfl, hslots⟩
    case reaped =>
      intro i hi hgone
      have hmem := (hslots i).mpr ⟨hi, hgone⟩
      obtain ⟨hz, -, hold⟩ := hr.reaped i hmem
      refine ⟨hz, hexited i hz, ?_, ?_, (hexclusive.owned i hi).2.2, ?_⟩
      · rw [htimely.current]
        rintro ⟨⟩
        exact htimely.young hz hold
      · dsimp only
        rw [htimely'.current]
        rintro ⟨⟩
        exact hgone htimely'.used
      · intro hstill
        have hlost := (hnodup.mem_sdiff_iff).mp hstill
        exact hlost.2 (List.mem_map_of_mem hmem)
    case kept =>
      intro i hi hi'
      have hnot : i ∉ slots := fun hmem => ((hslots i).mp hmem).2 hi'
      exact ⟨(hr.others i hnot).1, (hr.others i hnot).2.1⟩

theorem StackSys.Kept.take (h : x.Kept) {first count : Nat} (hcount : 0 < count)
    (hapart : ∀ r ∈ x.outstanding, Apart (first, count) r) :
    StackSys.Kept { x with outstanding := (first, count) :: x.outstanding } := by
  obtain ⟨htimely, hexclusive, hpositive, hexited⟩ := h
  refine ⟨htimely, hexclusive.mono ?_ ?_, ?_, hexited⟩
  · intro i hi
    exact ⟨hi, rfl, List.mem_cons_of_mem _ (hexclusive.owned i hi).2.2⟩
  · exact List.pairwise_cons.mpr ⟨hapart, hexclusive.apart⟩
  · intro r hr
    rcases List.mem_cons.mp hr with rfl | hr
    · exact hcount
    · exact hpositive r hr

theorem StackSys.Kept.give (h : x.Kept) {first count : Nat}
    (hother : ∀ i, x.sched.Used i → x.sched.stack i ≠ (first, count)) :
    StackSys.Kept { x with outstanding := x.outstanding.erase (first, count) } := by
  obtain ⟨htimely, hexclusive, hpositive, hexited⟩ := h
  refine ⟨htimely, hexclusive.mono ?_ ?_, ?_, hexited⟩
  · intro i hi
    exact ⟨hi, rfl, (List.mem_erase_of_ne (hother i hi)).mpr (hexclusive.owned i hi).2.2⟩
  · exact hexclusive.apart.sublist List.erase_sublist
  · intro r hr
    exact hpositive r (List.mem_of_mem_erase hr)

theorem StackSys.Kept.step (h : x.Kept) (hstep : x.step e = some y) :
    y.Kept ∧ FreesOnce x e y := by
  have hsame : ∀ out, FreesOnce x e { x with outstanding := out } := by
    intro out
    exact freesOnce_same rfl (fun _ hi => hi) fun _ _ => ⟨rfl, rfl⟩
  cases e with
  | create fn name prio sp =>
    unfold StackSys.step taskCreatePrio at hstep
    dsimp only at hstep
    split_ifs at hstep with hoffered
    cases halloc : allocTask x.sched fn name prio sp with
    | mk u slot =>
      rw [halloc] at hstep
      cases slot with
      | some i =>
        cases hstep
        exact h.create hoffered halloc
      | none =>
        cases hstep
        have hu : u = x.sched := by
          rcases allocTask_result x.sched fn name prio sp with hnone | ⟨v, j, hsome, -⟩
          · rw [halloc] at hnone
            exact (Prod.mk.inj hnone).1
          · rw [halloc] at hsome
            cases hsome
        rw [hu]
        exact ⟨h, hsame x.outstanding⟩
  | exit exitCode =>
    cases hstep
    exact h.exit
  | tick =>
    cases hstep
    exact h.tick
  | take first count =>
    unfold StackSys.step at hstep
    dsimp only at hstep
    split_ifs at hstep with hguard
    cases hstep
    exact ⟨h.take hguard.1 hguard.2, hsame _⟩
  | give first count =>
    unfold StackSys.step at hstep
    dsimp only at hstep
    split_ifs at hstep with hguard
    cases hstep
    exact ⟨h.give hguard, hsame _⟩

/-- Fewer tasks than slots leave a slot. -/
theorem findsSlot_usedCount : FindsSlot State.usedCount s := by
  intro hlt fn name prio sp hsp
  unfold taskCreatePrio allocTask
  cases hfind : (List.finRange schedMaxTasks).find? fun i => (s.tasks i).state = .unused with
  | some i =>
    dsimp only
    rw [if_neg hsp]
    exact ⟨i, rfl⟩
  | none =>
    exfalso
    have hall : s.usedCount = (List.finRange schedMaxTasks).length := by
      refine List.countP_eq_length.mpr ?_
      intro i hi
      have hused := List.find?_eq_none.mp hfind i hi
      exact decide_eq_true fun hu => hused (decide_eq_true hu)
    rw [List.length_finRange] at hall
    omega

theorem schedInit_stack {s₀ : State} {fn : UInt32} (hinit : schedInit s₀ fn sp = some s) :
    ∃ idle, Initial s idle ∧ sp ≠ 0 ∧ (s.tasks idle).stackPhys = sp ∧
      (s.tasks idle).runTicks = 0 := by
  obtain ⟨idle, hs⟩ := schedInit_result hinit
  refine ⟨idle, hs, ?_⟩
  unfold schedInit taskCreatePrio at hinit
  dsimp only at hinit
  cases halloc : allocTask { s₀ with tasks := fun _ => Task.zero, prioBitmap := fun _ => 0 } fn
      (some "idle".toList) taskPrioIdle sp with
  | mk u slot =>
    rw [halloc] at hinit
    cases slot with
    | none => cases hinit
    | some i =>
      obtain ⟨hsp, hstack, hruns, -⟩ := allocTask_stack halloc
      cases hinit
      obtain rfl : i = idle := Option.some.inj hs.currentTask
      refine ⟨hsp, ?_, ?_⟩
      · simpa using hstack
      · simpa using hruns

theorem kept_start {s₀ : State} {fn : UInt32} {out : List (Nat × Nat)}
    (hinit : schedInit s₀ fn sp = some s) (hsp : Offered out sp) (hout : out.Pairwise Apart)
    (hpositive : ∀ r ∈ out, 0 < r.2) : (StackSys.start s out sp).Kept := by
  obtain ⟨idle, hs, hzero, hstack, hruns⟩ := schedInit_stack hinit
  obtain ⟨halign, hfresh⟩ := hsp.resolve_left hzero
  have honly : ∀ i, s.Used i → i = idle := by
    intro i hi
    by_contra hne
    unfold State.Used at hi
    rw [hs.others i hne] at hi
    exact hi rfl
  refine ⟨⟨idle, timely_running hs.currentTask hs.running ?_⟩, ⟨?_, ?_, ?_⟩, ?_, ?_⟩
  · intro i
    dsimp only [StackSys.start]
    by_cases hi : i = idle
    · rw [hi, hruns]
      decide
    · rw [hs.others i hi]
      decide
  · intro i hi
    obtain rfl := honly i hi
    dsimp only [StackSys.start]
    unfold State.stack
    rw [hstack]
    exact ⟨hzero, halign, List.mem_cons_self⟩
  · exact List.pairwise_cons.mpr ⟨hfresh, hout⟩
  · intro i j hij hi hj
    exact absurd ((honly i hi).trans (honly j hj).symm) hij
  · intro r hr
    rcases List.mem_cons.mp hr with rfl | hr
    · exact Nat.succ_pos 1
    · exact hpositive r hr
  · intro i hz
    dsimp only [StackSys.start] at hz
    obtain rfl := honly i (by unfold State.Used; simp [hz])
    rw [hs.running] at hz
    cases hz

/-- In every run after `sched_init`: each task has its stack to itself, and a slot and a stack
are given up together, by the reaper, for a task that has exited and is not current. -/
theorem stacks_freed_once {s₀ : State} {fn : UInt32} {out : List (Nat × Nat)}
    {events : List StackEvent} (hinit : schedInit s₀ fn sp = some s) (hsp : Offered out sp)
    (hout : out.Pairwise Apart) (hpositive : ∀ r ∈ out, 0 < r.2) :
    Run.EveryState StackSys.step (fun x => x.Exclusive ∧ FindsSlot State.usedCount x.sched)
        (StackSys.start s out sp) events ∧
      Run.EveryStep StackSys.step FreesOnce (StackSys.start s out sp) events := by
  have hstart := kept_start hinit hsp hout hpositive
  have hall : Run.EveryStep StackSys.step (fun _ _ _ => True) (StackSys.start s out sp) events :=
    Run.everyStep_of_forall (A := fun _ => True) fun _ _ => trivial
  constructor
  · refine hall.everyState (I := StackSys.Kept) ?_ ?_ hstart
    · intro x e y hx hstep _
      exact (hx.step hstep).1
    · intro x hx
      exact ⟨hx.exclusive, findsSlot_usedCount⟩
  · refine hall.mono (I := StackSys.Kept) ?_ hstart
    intro x e y hx hstep _
    exact hx.step hstep

/-- A task is created, runs and exits. -/
theorem stacks_freed_once_booted :
    Run.EveryState StackSys.step (fun x => x.Exclusive ∧ FindsSlot State.usedCount x.sched)
        (StackSys.start booted [] 0x200000)
        [.create 0x102000 none 1 0x202000, .tick, .exit 0, .tick] ∧
      Run.EveryStep StackSys.step FreesOnce (StackSys.start booted [] 0x200000)
        [.create 0x102000 none 1 0x202000, .tick, .exit 0, .tick] :=
  stacks_freed_once schedInit_zero (by decide) List.Pairwise.nil nofun

/-- The page allocator keeps to what is asked of `sp`. -/
theorem offered_pmmAllocPages {kernStart kernEnd totalPages : Nat} {l : Mm.Ledger}
    (h : Mm.Sane kernStart kernEnd totalPages l.pmm) (hx : l.Exclusive) :
    Offered l.outstanding (UInt32.ofNat (Mm.pmmAllocPages l.pmm 2).1) := by
  have hresult := Mm.pmmAllocPages_result (p := l.pmm) (n := 2) h.placed.total
  have hnext := hx.returned h hresult
  rcases hresult with hnone | ⟨i, hsome, -, ha⟩
  · rw [hnone]
    exact Or.inl rfl
  · have hrange := ha.inRange
    have htotal := h.placed.total
    have hpos := ha.nonzero
    have hlt : i * Mm.pageSize < 2 ^ 32 := by
      unfold Mm.pageSize
      omega
    rw [hsome] at hnext ⊢
    have hnat : (UInt32.ofNat (i * Mm.pageSize)).toNat = i * Mm.pageSize :=
      UInt32.toNat_ofNat_of_lt' hlt
    have hpages : stackPages (UInt32.ofNat (i * Mm.pageSize)) = (i, 2) := by
      unfold stackPages
      rw [hnat, Nat.mul_div_cancel i (by decide)]
    refine Or.inr ⟨?_, ?_⟩
    · dsimp only
      rw [hnat]
      exact Nat.mul_mod_left _ _
    · have hlist : (l.returned 2 (i * Mm.pageSize, Mm.takePages l.pmm i 2)).outstanding =
          (i, 2) :: l.outstanding := by
        have hne : i * Mm.pageSize ≠ 0 := Nat.mul_ne_zero (by omega) (by decide)
        rw [Mm.Ledger.returned, if_neg hne, Mm.addrToPfn_page]
      have hpairs := hnext.apart
      rw [hlist] at hpairs
      dsimp only
      rw [hpages]
      exact (List.pairwise_cons.mp hpairs).1

/-- The current task fills the table, and exits. -/
def fillAndExit : List StackEvent :=
  (List.range 63).map (fun k => .create 0x102000 none 1 (0x300000 + 0x2000 * UInt32.ofNat k)) ++
    [.exit 0]

theorem fillAndExit_run :
    (Run.run StackSys.step (StackSys.start booted [] 0x200000) fillAndExit).map (fun x =>
      (x.sched.liveCount, (taskCreatePrio x.sched 0x102000 none 1 0x500000).2)) =
        some (63, none) := by
  decide +kernel

/-- A zombie keeps its slot until it is reaped. -/
theorem not_findsSlot_liveCount :
    ¬ ∀ (s₀ s : State) (fn sp : UInt32) (out : List (Nat × Nat)) (events : List StackEvent),
      schedInit s₀ fn sp = some s → Offered out sp → out.Pairwise Apart → (∀ r ∈ out, 0 < r.2) →
        Run.EveryState StackSys.step (fun x => FindsSlot State.liveCount x.sched)
          (StackSys.start s out sp) events := by
  intro hall
  have hstates := hall _ _ _ _ [] fillAndExit schedInit_zero (by decide) List.Pairwise.nil nofun
  obtain ⟨x, hrun, heq⟩ := Option.map_eq_some_iff.mp fillAndExit_run
  obtain ⟨hlive, hnone⟩ := Prod.mk.inj heq
  obtain ⟨i, hi⟩ := hstates.last hrun (by rw [hlive]; decide) 0x102000 none 1 0x500000 (by decide)
  rw [hnone] at hi
  cases hi

end PinguinOS.Sched
