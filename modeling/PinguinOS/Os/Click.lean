import PinguinOS.Os.Apps

/-! A click goes to the window that is drawn last: `app_draw_windows` and `app_handle_mouse`. -/
namespace PinguinOS.Os

/-- One loop of `app_draw_windows`: the slots whose windows are drawn, in their order.
`draw_window` skips a window that is not visible. -/
def drawPass (s : Desktop) (focused : Bool) : List Nat :=
  ((List.range appMaxRunning).filter fun i =>
    (s.apps i).running && (s.apps i).window.focused == focused).filter fun i =>
      (s.apps i).window.visible

def appDrawWindows (s : Desktop) : List Nat := drawPass s false ++ drawPass s true

/-- A visible window of a running app, with the point in it. -/
def Desktop.contains (s : Desktop) (mx my : Int) (i : Nat) : Bool :=
  s.shown i && (s.apps i).window.hit mx my

/-- The last window drawn among those with the point in them. -/
def Desktop.topmost (s : Desktop) (mx my : Int) : Option Nat :=
  ((appDrawWindows s).filter (s.contains mx my)).getLast?

/-- No window that is shown is dragged. -/
def Desktop.Idle (s : Desktop) : Prop :=
  ∀ i < appMaxRunning, s.shown i = true → (s.apps i).window.dragging = false

/-- Nothing of an app but the focus of its window changes. -/
def App.ButFocus (a b : App) : Prop :=
  b = { a with window := { a.window with focused := b.window.focused } }

/-- The same app, running and shown at the same place. -/
structure App.SamePlace (a b : App) : Prop where
  running : b.running = a.running
  visible : b.window.visible = a.window.visible
  position : b.window.x = a.window.x ∧ b.window.y = a.window.y
  size : b.window.w = a.window.w ∧ b.window.h = a.window.h

/-- The click acts on window `i`: it is closed, or it alone has the focus, and is dragged from its
title bar. All other windows stay as they are, with or without the focus. -/
structure ActsOn (s : Desktop) (mx my : Int) (i : Nat) (t : Desktop) : Prop where
  close : (s.apps i).window.onClose mx my = true →
    (t.apps i).running = false ∧ (t.apps i).window.visible = false
  stay : (s.apps i).window.onClose mx my = false → (s.apps i).SamePlace (t.apps i)
  focus : (s.apps i).window.onClose mx my = false →
    ∀ j < appMaxRunning, (t.apps j).window.focused = decide (j = i)
  drag : (s.apps i).window.onClose mx my = false →
    ((t.apps i).window.dragging = true ↔ my < (s.apps i).window.y + winTitleH)
  others : ∀ j ≠ i, (s.apps j).ButFocus (t.apps j)

variable {s t : Desktop} {mx my : Int} {i j n : Nat} {p q : Nat → Bool} {buttons clicked : Byte}

/-! The order. -/

/-- A loop that counts down finds the last slot of one that counts up. -/
theorem getLast?_filter_range : ((List.range n).filter p).getLast? = findDown p n := by
  induction n with
  | zero => rfl
  | succ n ih =>
    unfold findDown
    rw [List.range_succ, List.filter_append, List.getLast?_append, ih]
    cases hp : p n with
    | true => simp [hp]
    | false => simp [hp]

theorem findDown_congr (h : ∀ i < n, p i = q i) : findDown p n = findDown q n := by
  induction n with
  | zero => rfl
  | succ n ih =>
    unfold findDown
    rw [h n (Nat.lt_succ_self n), ih fun i hi => h i (Nat.lt_succ_of_lt hi)]

theorem drawPass_last {focused : Bool} : ((drawPass s focused).filter (s.contains mx my)).getLast? =
    findDown (fun i => s.contains mx my i && (s.apps i).window.focused == focused)
      appMaxRunning := by
  unfold drawPass
  rw [List.filter_filter, List.filter_filter, getLast?_filter_range]
  refine findDown_congr fun i _ => ?_
  unfold Desktop.contains Desktop.shown
  cases (s.apps i).running with
  | true =>
    cases (s.apps i).window.visible with
    | true => simp
    | false => simp
  | false => simp

/-- The search of a click goes through the windows in the opposite order. -/
theorem target_eq_topmost : s.target mx my = s.topmost mx my := by
  have hfocused : (fun i => (s.shown i && (s.apps i).window.hit mx my) &&
      (s.apps i).window.focused) =
        fun i => s.contains mx my i && (s.apps i).window.focused == true := by
    funext i
    rw [beq_true]
    rfl
  have hother : (fun i => (s.shown i && (s.apps i).window.hit mx my) &&
      !(s.apps i).window.focused) =
        fun i => s.contains mx my i && (s.apps i).window.focused == false := by
    funext i
    rw [beq_false]
    rfl
  unfold Desktop.topmost appDrawWindows
  rw [List.filter_append, List.getLast?_append, drawPass_last, drawPass_last]
  unfold Desktop.target
  dsimp only
  rw [hfocused, hother, Option.or_eq_orElse]

theorem topmost_some (h : s.topmost mx my = some i) :
    i < appMaxRunning ∧ s.contains mx my i = true := by
  have hmem : i ∈ (appDrawWindows s).filter (s.contains mx my) := List.mem_of_getLast? h
  obtain ⟨hdrawn, hcontains⟩ := List.mem_filter.mp hmem
  refine ⟨?_, hcontains⟩
  unfold appDrawWindows drawPass at hdrawn
  rcases List.mem_append.mp hdrawn with hdrawn | hdrawn
  · exact List.mem_range.mp (List.mem_of_mem_filter (List.mem_of_mem_filter hdrawn))
  · exact List.mem_range.mp (List.mem_of_mem_filter (List.mem_of_mem_filter hdrawn))

/-- A window with the point in it is drawn in one of the two loops. -/
theorem topmost_none (h : s.topmost mx my = none) (hi : i < appMaxRunning) :
    s.contains mx my i = false := by
  rw [← target_eq_topmost] at h
  unfold Desktop.target at h
  dsimp only at h
  rw [← Option.or_eq_orElse] at h
  obtain ⟨hfirst, hsecond⟩ := Option.or_eq_none_iff.mp h
  have hfocused := findDown_none hfirst i hi
  have hother := findDown_none hsecond i hi
  unfold Desktop.contains
  cases hflag : (s.apps i).window.focused with
  | true => rwa [hflag, Bool.and_true] at hfocused
  | false => rwa [hflag, Bool.not_false, Bool.and_true] at hother

/-! The click. -/

theorem dragLoop_idle {left : Bool} {is : List Nat}
    (hidle : ∀ i ∈ is, s.shown i = true → (s.apps i).window.dragging = false) :
    dragLoop s mx my left is = (false, s) := by
  induction is with
  | nil => rfl
  | cons i is ih =>
    have hskip : ¬ (s.shown i && (s.apps i).window.dragging) = true := by
      intro hdrag
      obtain ⟨hshown, hdragging⟩ := Bool.and_eq_true_iff.mp hdrag
      exact absurd (hdragging.symm.trans (hidle i List.mem_cons_self hshown)) Bool.noConfusion
    unfold dragLoop
    dsimp only
    rw [if_neg hskip]
    exact ih fun j hj => hidle j (List.mem_cons_of_mem i hj)

theorem butFocus_rfl {a : App} : a.ButFocus a := rfl

/-- The last window that is shown gets the focus, and this is all. -/
theorem focusLast_butFocus : (s.apps j).ButFocus (s.focusLast.apps j) := by
  unfold Desktop.focusLast
  cases findDown s.shown appMaxRunning with
  | none => exact butFocus_rfl
  | some k =>
    dsimp only [Desktop.setWindow]
    by_cases hj : j = k
    · subst hj
      rw [setApp_self]
      exact rfl
    · rw [setApp_of_ne hj]
      exact butFocus_rfl

theorem App.ButFocus.samePlace {a b : App} (h : a.ButFocus b) : a.SamePlace b := by
  unfold App.ButFocus at h
  rw [h]
  exact ⟨rfl, rfl, ⟨rfl, rfl⟩, rfl, rfl⟩

theorem closeAt_acts (hclose : (s.apps i).window.onClose mx my = true) :
    ActsOn s mx my i (s.closeAt i) := by
  have heq : s.closeAt i = (s.withoutApp i).focusLast := rfl
  rw [heq]
  constructor
  case close =>
    have hlast := App.ButFocus.samePlace (@focusLast_butFocus (s.withoutApp i) i)
    have hgone : ((s.withoutApp i).apps i).running = false ∧
        ((s.withoutApp i).apps i).window.visible = false := by
      unfold Desktop.withoutApp
      rw [setApp_self]
      exact ⟨rfl, rfl⟩
    exact fun _ => ⟨hlast.running.trans hgone.1, hlast.visible.trans hgone.2⟩
  case stay => exact fun h => absurd (hclose.symm.trans h) Bool.noConfusion
  case focus => exact fun h => absurd (hclose.symm.trans h) Bool.noConfusion
  case drag => exact fun h => absurd (hclose.symm.trans h) Bool.noConfusion
  case others =>
    intro j hj
    have hlast := @focusLast_butFocus (s.withoutApp i) j
    unfold Desktop.withoutApp at hlast
    rwa [setApp_of_ne hj] at hlast

/-- The window that a click without the close button leaves. -/
theorem front_acts {win : Window} (hclose : (s.apps i).window.onClose mx my = false)
    (hplace : (s.apps i).SamePlace { s.apps i with window := win })
    (hdrag : win.dragging = true ↔ my < (s.apps i).window.y + winTitleH) :
    ActsOn s mx my i ((s.setWindow i win).focusOnly i) := by
  have happ : ((s.setWindow i win).focusOnly i).apps i =
      { s.apps i with window := { win with focused := decide (i = i) } } := by
    unfold Desktop.focusOnly Desktop.setWindow
    dsimp only
    rw [setApp_self]
  constructor
  case close => exact fun h => absurd (hclose.symm.trans h) Bool.noConfusion
  case stay =>
    intro _
    rw [happ]
    exact ⟨hplace.running, hplace.visible, hplace.position, hplace.size⟩
  case focus => exact fun _ j _ => rfl
  case drag =>
    intro _
    rw [happ]
    exact hdrag
  case others =>
    intro j hj
    unfold Desktop.focusOnly Desktop.setWindow
    dsimp only
    rw [setApp_of_ne hj]
    exact rfl

theorem click_acts (hi : i < appMaxRunning) (hrun : (s.apps i).running = true)
    (hidle : (s.apps i).window.dragging = false) : ActsOn s mx my i (s.click mx my i) := by
  unfold Desktop.click
  dsimp only
  cases hclose : (s.apps i).window.onClose mx my with
  | true =>
    rw [if_pos rfl, appClose_running hi hrun]
    exact closeAt_acts hclose
  | false =>
    rw [if_neg Bool.false_ne_true]
    by_cases htitle : my < (s.apps i).window.y + winTitleH
    · rw [if_pos htitle]
      exact front_acts hclose ⟨rfl, rfl, ⟨rfl, rfl⟩, rfl, rfl⟩ (iff_of_true rfl htitle)
    · rw [if_neg htitle]
      refine front_acts hclose ⟨rfl, rfl, ⟨rfl, rfl⟩, rfl, rfl⟩ (iff_of_false ?_ htitle)
      rw [hidle]
      exact Bool.false_ne_true

/-- A left click reaches the window that is drawn last of those with the point in them, and
nothing happens where there is none. -/
theorem click_topmost (hidle : s.Idle) (hclicked : clicked &&& mouseBtnLeft ≠ 0) :
    ((appHandleMouse s mx my buttons clicked).1 = true ↔
        ∃ i < appMaxRunning, s.contains mx my i = true) ∧
      ((appHandleMouse s mx my buttons clicked).1 = true → ∃ i, s.topmost mx my = some i ∧
        ActsOn s mx my i (appHandleMouse s mx my buttons clicked).2) ∧
      ((appHandleMouse s mx my buttons clicked).1 = false →
        (appHandleMouse s mx my buttons clicked).2 = s) := by
  have hdrag : dragLoop s mx my (buttons &&& mouseBtnLeft ≠ 0) (List.range appMaxRunning) =
      (false, s) := dragLoop_idle fun i hi => hidle i (List.mem_range.mp hi)
  unfold appHandleMouse
  dsimp only
  rw [hdrag, if_neg Bool.false_ne_true, if_pos hclicked, target_eq_topmost]
  cases htop : s.topmost mx my with
  | none =>
    refine ⟨iff_of_false Bool.false_ne_true ?_, fun h => absurd h Bool.false_ne_true, fun _ => rfl⟩
    rintro ⟨i, hi, hcontains⟩
    exact absurd (hcontains.symm.trans (topmost_none htop hi)) Bool.noConfusion
  | some i =>
    obtain ⟨hi, hcontains⟩ := topmost_some htop
    obtain ⟨hshown, -⟩ := Bool.and_eq_true_iff.mp hcontains
    obtain ⟨hrun, -⟩ := Bool.and_eq_true_iff.mp hshown
    refine ⟨iff_of_true rfl ⟨i, hi, hcontains⟩, fun _ => ⟨i, rfl, ?_⟩,
      fun h => absurd h Bool.noConfusion⟩
    exact click_acts hi hrun (hidle i hi hshown)

/-- Two windows of the same size; the point is in both, and the first has the focus. -/
def overlapping : Desktop where
  apps := fun i =>
    if i = 0 then ⟨[], .builtin, true, ⟨100, 100, 420, 300, true, true, false, 0, 0⟩⟩
    else if i = 1 then ⟨[], .builtin, true, ⟨130, 125, 420, 300, true, false, false, 0, 0⟩⟩
    else .zero
  nextWinX := 160
  nextWinY := 150

theorem idle_overlapping : overlapping.Idle := by
  intro i hi _
  unfold overlapping
  dsimp only
  split
  case isTrue => rfl
  case isFalse =>
    split
    case isTrue => rfl
    case isFalse => rfl

/-- Slot 1 is higher, and still slot 0 is in front. -/
theorem click_topmost_overlapping :
    (appHandleMouse overlapping 200 200 1 1).1 = true ∧ overlapping.topmost 200 200 = some 0 ∧
      ∃ i, overlapping.topmost 200 200 = some i ∧
        ActsOn overlapping 200 200 i (appHandleMouse overlapping 200 200 1 1).2 := by
  have hclick : (appHandleMouse overlapping 200 200 1 1).1 = true :=
    (click_topmost idle_overlapping (by decide)).1.mpr ⟨0, by decide, by decide⟩
  exact ⟨hclick, by decide, (click_topmost idle_overlapping (by decide)).2.1 hclick⟩

end PinguinOS.Os
