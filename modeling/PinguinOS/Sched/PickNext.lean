import PinguinOS.Sched.State
import Mathlib.Order.Bounds.Basic

/-! `sched_pick_next`: the highest bit of the bitmap, then a round-robin over the table. -/
namespace PinguinOS.Sched

/-- The loop of `bitmap_top`, with the words below `w` still to be looked at. -/
def bitmapTopFrom (s : State) : (w : Nat) → w ≤ 8 → Prio
  | 0, _ => 0xFF
  | w + 1, h =>
    let word := s.prioBitmap ⟨w, h⟩
    if word ≠ 0 then ⟨w * 32 + (31 - word.clz.toNat), by omega⟩
    else bitmapTopFrom s w (by omega)

def bitmapTop (s : State) : Prio := bitmapTopFrom s 8 le_rfl

/-- The slot after `current_task`, where the round-robin begins. -/
def scanStart (s : State) : Nat :=
  match s.currentTask with
  | some c => c.val + 1
  | none => 0

/-- `(start + i) % SCHED_MAX_TASKS` with `i = k + 1`. -/
def scanSlot (start k : Nat) : Slot := ⟨(start + k) % schedMaxTasks, Nat.mod_lt _ (by decide)⟩

def schedPickNext (s : State) : Option Slot :=
  let top := bitmapTop s
  if top = 0xFF then none
  else ((List.range schedMaxTasks).map (scanSlot (scanStart s))).find? fun i =>
    (s.tasks i).state = .ready ∧ (s.tasks i).priority = top

def Ready (s : State) (i : Slot) : Prop := (s.tasks i).state = .ready

instance (s : State) (i : Slot) : Decidable (Ready s i) := by unfold Ready; infer_instance

/-- The bitmap says of every priority whether a READY task has it. -/
def Exact (s : State) : Prop :=
  ∀ p, bitmapTest s p = true ↔ ∃ i, Ready s i ∧ (s.tasks i).priority = p

/-- How far the round-robin goes, counted from the slot after `current_task`, before it
looks at slot `i`. -/
def cyclicRank (s : State) (i : Slot) : Nat :=
  (i.val + schedMaxTasks - scanStart s) % schedMaxTasks

variable {s : State} {p q : Prio} {i j : Slot}

theorem bitmapTopFrom_isGreatest {w : Nat} (hw : w ≤ 8)
    (hp : p.val / 32 < w) (ht : bitmapTest s p = true) :
    IsGreatest {q | q.val / 32 < w ∧ bitmapTest s q = true} (bitmapTopFrom s w hw) := by
  induction w with
  | zero => omega
  | succ w ih =>
    have hword : ∀ q : Prio, q.val / 32 = w → prioWord q = ⟨w, hw⟩ := by
      intro q hq
      exact Fin.ext hq
    rw [bitmapTopFrom]
    split_ifs with h
    · have htop := BitTable.test_top (by decide) h
      constructor
      · refine ⟨by simp only; omega, ?_⟩
        rw [bitmapTest, hword _ (by simp only; omega)]
        simp only [BitTable.test, prioBit]
        convert htop using 2
        omega
      · rintro q ⟨hq, hqt⟩
        by_cases hqw : q.val / 32 = w
        · rw [bitmapTest, hword q hqw] at hqt
          have := BitTable.le_top hqt
          rw [Fin.le_def]
          simp only [prioBit] at this ⊢
          omega
        · rw [Fin.le_def]
          simp only
          omega
    · -- Word `w` is empty, so every set bit is in a word below it.
      have hempty : ∀ q : Prio, q.val / 32 = w → bitmapTest s q = false := by
        intro q hq
        rw [not_not] at h
        simp [bitmapTest, BitTable.test, hword q hq, h]
      have hlt : ∀ q : Prio, q.val / 32 < w + 1 ∧ bitmapTest s q = true ↔
          q.val / 32 < w ∧ bitmapTest s q = true := by
        intro q
        constructor
        · rintro ⟨hq, hqt⟩
          refine ⟨?_, hqt⟩
          by_contra hge
          simp [hempty q (by omega)] at hqt
        · rintro ⟨hq, hqt⟩
          exact ⟨by omega, hqt⟩
      simp only [hlt]
      exact ih (by omega) ((hlt p).mp ⟨hp, ht⟩).1

theorem bitmapTop_isGreatest (ht : bitmapTest s p = true) :
    IsGreatest {q | bitmapTest s q = true} (bitmapTop s) := by
  have h := bitmapTopFrom_isGreatest (le_refl 8) (by omega) ht
  have hall : ∀ q : Prio, q.val / 32 < 8 := by omega
  simp only [hall, true_and] at h
  exact h

theorem bitmapTopFrom_of_empty {w : Nat} (hw : w ≤ 8) (h : ∀ p, bitmapTest s p = false) :
    bitmapTopFrom s w hw = 0xFF := by
  induction w with
  | zero => rfl
  | succ w ih =>
    have hword : s.prioBitmap ⟨w, hw⟩ = 0#32 := by
      apply BitVec.eq_of_getLsbD_eq
      intro k hk
      have hp := h ⟨w * 32 + k, by omega⟩
      simp only [bitmapTest, BitTable.test, prioWord, prioBit,
        show (w * 32 + k) / 32 = w by omega, show (w * 32 + k) % 32 = k by omega] at hp
      rw [hp, BitVec.getLsbD_zero]
    rw [bitmapTopFrom, if_neg (fun hne => hne hword)]
    exact ih (by omega)

theorem bitmapTop_of_empty (h : ∀ p, bitmapTest s p = false) : bitmapTop s = 0xFF :=
  bitmapTopFrom_of_empty le_rfl h

/-- Below the sentinel, the answer of `bitmap_top` is the highest set bit. -/
theorem bitmapTop_isGreatest_of_ne (h : bitmapTop s ≠ 0xFF) :
    IsGreatest {q | bitmapTest s q = true} (bitmapTop s) := by
  by_contra hno
  apply h
  apply bitmapTop_of_empty
  intro p
  by_contra hp
  exact hno (bitmapTop_isGreatest (Bool.not_eq_false _ ▸ hp))

theorem scanStart_le : scanStart s ≤ schedMaxTasks := by
  unfold scanStart
  split
  · omega
  · omega

theorem scanSlot_eq_iff {k : Nat} (hk : k < schedMaxTasks) :
    scanSlot (scanStart s) k = i ↔ k = cyclicRank s i := by
  have hs := scanStart_le (s := s)
  have hi := i.isLt
  rw [Fin.ext_iff]
  simp only [scanSlot, cyclicRank, schedMaxTasks] at *
  omega

theorem cyclicRank_lt : cyclicRank s i < schedMaxTasks := Nat.mod_lt _ (by decide)

theorem cyclicRank_injective : Function.Injective (cyclicRank s) := by
  intro i j h
  exact ((scanSlot_eq_iff cyclicRank_lt).mpr rfl).symm.trans ((scanSlot_eq_iff cyclicRank_lt).mpr h)

/-- The task `current_task` points to is looked at last. -/
theorem cyclicRank_current (h : s.currentTask = some i) : cyclicRank s j ≤ cyclicRank s i := by
  have hj := j.isLt
  have hi := i.isLt
  simp only [cyclicRank, scanStart, h, schedMaxTasks] at *
  omega

theorem schedPickNext_eq_some :
    schedPickNext s = some i ↔
      bitmapTop s ≠ 0xFF ∧ Ready s i ∧ (s.tasks i).priority = bitmapTop s ∧
        ∀ j, Ready s j → (s.tasks j).priority = bitmapTop s →
          cyclicRank s i ≤ cyclicRank s j := by
  unfold schedPickNext
  simp only [Ready]
  split_ifs with htop
  · simp [htop]
  · rw [List.find?_map, Option.map_eq_some_iff]
    simp only [List.find?_range_eq_some, Function.comp_apply, decide_eq_true_eq,
      List.mem_range, Bool.not_eq_true', decide_eq_false_iff_not, htop, ne_eq,
      not_false_eq_true, true_and]
    constructor
    · rintro ⟨k, ⟨⟨hr, hp⟩, hk, hfirst⟩, rfl⟩
      refine ⟨hr, hp, ?_⟩
      intro j hjr hjp
      rw [← (scanSlot_eq_iff hk).mp rfl]
      by_contra hlt
      apply hfirst (cyclicRank s j) (by omega)
      rw [(scanSlot_eq_iff cyclicRank_lt).mpr rfl]
      exact ⟨hjr, hjp⟩
    · rintro ⟨hr, hp, hfirst⟩
      have hi : scanSlot (scanStart s) (cyclicRank s i) = i :=
        (scanSlot_eq_iff cyclicRank_lt).mpr rfl
      refine ⟨cyclicRank s i, ⟨?_, cyclicRank_lt, ?_⟩, hi⟩
      · rw [hi]
        exact ⟨hr, hp⟩
      · intro k hk hbad
        have hklt := Nat.lt_trans hk cyclicRank_lt
        have := hfirst _ hbad.1 hbad.2
        rw [← (scanSlot_eq_iff hklt).mp rfl] at this
        omega

theorem schedPickNext_eq_none :
    schedPickNext s = none ↔
      bitmapTop s = 0xFF ∨
        ∀ i, Ready s i → (s.tasks i).priority ≠ bitmapTop s := by
  unfold schedPickNext
  simp only [Ready]
  split_ifs with htop
  · simp [htop]
  · rw [List.find?_eq_none]
    simp only [List.mem_map, List.mem_range, decide_eq_true_eq, forall_exists_index, and_imp,
      htop, false_or]
    constructor
    · intro h i hr hp
      exact h i _ cyclicRank_lt ((scanSlot_eq_iff cyclicRank_lt).mpr rfl) ⟨hr, hp⟩
    · rintro h i - - - ⟨hr, hp⟩
      exact h i hr hp

theorem Exact.top_isGreatest (h : Exact s) (hr : Ready s i) :
    IsGreatest {p | ∃ i, Ready s i ∧ (s.tasks i).priority = p} (bitmapTop s) := by
  have ht := (h (s.tasks i).priority).mpr ⟨i, hr, rfl⟩
  simpa only [h _] using bitmapTop_isGreatest ht

/-- What a caller of `sched_pick_next` is promised. -/
def PickMaximal (s : State) : Prop :=
  match schedPickNext s with
  | none => ∀ i, ¬ Ready s i
  | some i => Ready s i ∧ (∀ j, Ready s j → (s.tasks j).priority ≤ (s.tasks i).priority) ∧
      ∀ j, Ready s j → (s.tasks j).priority = (s.tasks i).priority →
        cyclicRank s i ≤ cyclicRank s j

theorem pickMaximal_of_some (h : Exact s) (hi : schedPickNext s = some i) : PickMaximal s := by
  obtain ⟨-, hr, hp, hfirst⟩ := schedPickNext_eq_some.mp hi
  have htop := h.top_isGreatest hr
  rw [PickMaximal, hi]
  refine ⟨hr, ?_, ?_⟩
  · intro j hj
    exact hp ▸ htop.2 ⟨j, hj, rfl⟩
  · intro j hj hjp
    exact hfirst j hj (hjp.trans hp)

/-- With an exact bitmap `sched_pick_next` comes back empty-handed only at the sentinel. -/
theorem top_of_pick_none (h : Exact s) (hr : Ready s i) (hn : schedPickNext s = none) :
    bitmapTop s = taskPrioRt := by
  rcases schedPickNext_eq_none.mp hn with htop | hnone
  · exact htop
  · obtain ⟨⟨j, hj, hjp⟩, -⟩ := h.top_isGreatest hr
    exact absurd hjp (hnone j hj)

/-- Priority 255 is also the "empty" answer of `bitmap_top`: the selection is right exactly
while no READY task has `TASK_PRIO_RT`. -/
theorem pickMaximal_iff (h : Exact s) :
    PickMaximal s ↔ ∀ i, Ready s i → (s.tasks i).priority ≠ taskPrioRt := by
  constructor
  · intro hmax i hr hp
    have htop : bitmapTop s = taskPrioRt := by
      apply le_antisymm (Fin.le_last _)
      exact (h.top_isGreatest hr).2 ⟨i, hr, hp⟩
    have hnone : schedPickNext s = none := schedPickNext_eq_none.mpr (Or.inl htop)
    rw [PickMaximal, hnone] at hmax
    exact hmax i hr
  · intro hrt
    cases hpick : schedPickNext s with
    | some i => exact pickMaximal_of_some h hpick
    | none =>
      rw [PickMaximal, hpick]
      intro i hr
      obtain ⟨⟨j, hj, hjp⟩, -⟩ := h.top_isGreatest hr
      exact hrt j hj (hjp.trans (top_of_pick_none h hr hpick))

/-- The idle task running, and one READY task of the given priority. -/
def oneReady (prio : Prio) : State :=
  bitmapSet
    { tasks := fun i =>
        if i = 0 then { Task.zero with state := .running }
        else if i = 1 then { Task.zero with state := .ready, priority := prio }
        else Task.zero
      currentTask := some 0
      nextId := 3
      uptimeMs := 0
      prioBitmap := fun _ => 0
      tssEsp0 := 0
      freedStacks := [] } prio

theorem oneReady_one (prio : Prio) :
    Ready (oneReady prio) 1 ∧ ((oneReady prio).tasks 1).priority = prio := ⟨rfl, rfl⟩

theorem eq_one_of_oneReady {prio : Prio} (h : Ready (oneReady prio) i) : i = 1 := by
  by_contra hne
  by_cases h0 : i = 0
  · simp [Ready, oneReady, h0] at h
  · simp [Ready, oneReady, h0, hne, Task.zero] at h

theorem oneReady_exact (prio : Prio) : Exact (oneReady prio) := by
  intro p
  have hbit : bitmapTest (oneReady prio) p = decide (prio = p) := by
    simp only [oneReady, bitmapTest_set]
    simp [bitmapTest, BitTable.test]
  rw [hbit, decide_eq_true_eq]
  constructor
  · rintro rfl
    exact ⟨1, oneReady_one prio⟩
  · rintro ⟨i, hr, hp⟩
    rw [eq_one_of_oneReady hr] at hp
    exact (oneReady_one prio).2.symm.trans hp

/-- A READY task below `TASK_PRIO_RT` is found. -/
theorem pickMaximal_oneReady_normal :
    Exact (oneReady taskPrioNormal) ∧ PickMaximal (oneReady taskPrioNormal) := by
  refine ⟨oneReady_exact _, (pickMaximal_iff (oneReady_exact _)).mpr ?_⟩
  intro i hr hp
  rw [eq_one_of_oneReady hr, (oneReady_one _).2] at hp
  exact absurd hp (by decide)

/-- A READY task at `TASK_PRIO_RT`, the watchdog's priority, is not. -/
theorem not_pickMaximal_oneReady_rt : ¬ ∀ s : State, Exact s → PickMaximal s := by
  intro h
  have hnone : schedPickNext (oneReady taskPrioRt) = none := by decide
  have hmax := h (oneReady taskPrioRt) (oneReady_exact _)
  rw [PickMaximal, hnone] at hmax
  exact hmax 1 (oneReady_one _).1

end PinguinOS.Sched
