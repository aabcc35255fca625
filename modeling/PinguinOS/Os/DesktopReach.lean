import PinguinOS.Os.DesktopRun
import PinguinOS.Os.LoginReach

/-! From everywhere on the desktop the user can log out. -/
namespace PinguinOS.Os

open Drivers (KeyPress)

/-- A pass with the mouse on the screen, and with keys that the keyboard has. -/
def Usable (a : DeskInput) : Prop :=
  ∃ fr : DesktopFrame, a = .frame fr ∧ (0 ≤ fr.mx ∧ fr.mx < screenW) ∧ (0 ≤ fr.my ∧ fr.my < screenH) ∧
    ∀ ev ∈ fr.keys, Produced ev

/-- No menu is open. -/
structure Calm (s : Desk) : Prop where
  inv : LoopInv s.loop
  running : s.state = .running
  start : s.loop.startOpen = false
  context : s.loop.ctxOpen = false

/-- A short left click. -/
def clickAt (mx my : Int) : DesktopFrame := ⟨[mouseBtnLeft], [], mx, my, 0, 0⟩

def escapeFrame : DesktopFrame := ⟨[], [usKey false keyEscape], 0, 0, 0, 0⟩

variable {s t : Desk} {a b : Desktop} {mx my : Int} {i j : Nat}

/-! Escape closes the menus. -/

/-- Where no click is left the pass ends with the windows. -/
theorem unclicked {s : DesktopLoop} {fr : DesktopFrame} :
    iconClick (closeMenu (startClick s fr false).2 fr (startClick s fr false).1) fr
      (startClick s fr false).1 = (false, s) := rfl

theorem unclicked_menu {s : DesktopLoop} {fr : DesktopFrame} :
    iconClick (closeMenu s fr false) fr false = (false, s) := rfl

theorem openContext_left {s : DesktopLoop} {fr : DesktopFrame}
    (hright : ¬ fr.lastClicked &&& mouseBtnRight ≠ 0) : openContext s fr = s := by
  unfold openContext
  rw [if_neg fun h => hright h.1]

theorem keyEscape_press : KeyPress keyEscape := by decide

theorem desktopFrame_escape {s : DesktopLoop} :
    (desktopFrame s escapeFrame).1 = .running ∧ (desktopFrame s escapeFrame).2.startOpen = false ∧
      (desktopFrame s escapeFrame).2.ctxOpen = false := by
  have hpoll : pollKeys s escapeFrame.keys = { s with startOpen := false, ctxOpen := false } := rfl
  have hcontext : ∀ t, openContext t escapeFrame = t := fun t => openContext_left (by decide)
  have hdown : decide (escapeFrame.lastClicked &&& mouseBtnLeft ≠ 0) = false := by decide
  have hmouse : ∀ t, appMouse t escapeFrame false = (false, { t with
      apps := (appHandleMouse t.apps 0 0 0 escapeFrame.lastClicked).2 }) :=
    fun t => Prod.ext (ite_self _) rfl
  unfold desktopFrame desktopInput
  dsimp only
  rw [hpoll, hcontext, hdown]
  unfold contextClick
  rw [Bool.false_and, if_neg Bool.false_ne_true, hmouse]
  dsimp only
  rw [unclicked]
  exact ⟨rfl, rfl, rfl⟩

theorem step_frame {fr : DesktopFrame} (hrun : s.state = .running) :
    deskStep s (.frame fr) = some ⟨(desktopFrame s.loop fr).1, (desktopFrame s.loop fr).2⟩ :=
  if_pos hrun

theorem reaches_calm (h : LoopInv s.loop) (hrun : s.state = .running) :
    Run.Reaches deskStep Usable Calm s := by
  obtain ⟨hstate, hstart, hctx⟩ := @desktopFrame_escape s.loop
  have hinv : LoopInv (desktopFrame s.loop escapeFrame).2 :=
    h.desktopFrame ⟨Int.le_refl 0, Int.le_refl 0⟩
  refine Run.reaches_step ?_ (step_frame hrun) (Run.reaches_self ⟨hinv, hstate, hstart, hctx⟩)
  refine ⟨escapeFrame, rfl, ⟨Int.le_refl 0, by decide⟩, ⟨Int.le_refl 0, by decide⟩, ?_⟩
  intro ev hev
  rw [List.mem_singleton.mp hev]
  exact usKey_produced keyEscape_press

/-! The windows are closed one after the other. -/

/-- The window in front of all others. -/
def Desktop.front (s : Desktop) : Option Nat := (appDrawWindows s).getLast?

theorem front_topmost (h : a.front = some i) (hin : a.contains mx my i = true) :
    a.topmost mx my = some i := by
  unfold Desktop.front at h
  unfold Desktop.topmost
  obtain ⟨l, hl⟩ := List.getLast?_eq_some_iff.mp h
  rw [hl, List.filter_append, List.filter_cons_of_pos hin, List.filter_nil, List.getLast?_concat]

theorem front_none (h : a.front = none) (hi : i < appMaxRunning) : a.shown i = false := by
  have hempty : appDrawWindows a = [] := List.getLast?_eq_none_iff.mp h
  unfold appDrawWindows at hempty
  obtain ⟨hback, hfocus⟩ := List.append_eq_nil_iff.mp hempty
  rw [← Bool.not_eq_true]
  intro hshown
  obtain ⟨hrun, hvisible⟩ := Bool.and_eq_true_iff.mp hshown
  have hmem : ∀ f, (a.apps i).window.focused = f → i ∈ drawPass a f := by
    intro f hf
    unfold drawPass
    refine List.mem_filter.mpr ⟨List.mem_filter.mpr ⟨List.mem_range.mpr hi, ?_⟩, hvisible⟩
    rw [hrun, hf, Bool.true_and, beq_self_eq_true]
  cases hf : (a.apps i).window.focused with
  | false =>
    have hin := hmem false hf
    rw [hback] at hin
    exact List.not_mem_nil hin
  | true =>
    have hin := hmem true hf
    rw [hfocus] at hin
    exact List.not_mem_nil hin

theorem front_some (h : a.front = some i) : i < appMaxRunning ∧ a.shown i = true := by
  have hmem : i ∈ appDrawWindows a := List.mem_of_getLast? h
  have hdrawn : ∀ f, i ∈ drawPass a f → i < appMaxRunning ∧ a.shown i = true := by
    intro f hin
    obtain ⟨hin, hvisible⟩ := List.mem_filter.mp hin
    obtain ⟨hin, hrun⟩ := List.mem_filter.mp hin
    refine ⟨List.mem_range.mp hin, ?_⟩
    unfold Desktop.shown
    rw [(Bool.and_eq_true_iff.mp hrun).1, hvisible]
    rfl
  unfold appDrawWindows at hmem
  rcases List.mem_append.mp hmem with hin | hin
  · exact hdrawn _ hin
  · exact hdrawn _ hin

def runningApps (s : Desktop) : Finset Nat :=
  (Finset.range appMaxRunning).filter fun i => (s.apps i).running = true

theorem onDesktop_close {win : Window} (h : win.OnDesktop) :
    win.onClose (win.x + win.w - 20) (win.y + 10) = true ∧
      win.hit (win.x + win.w - 20) (win.y + 10) = true := by
  obtain ⟨⟨hw, hh⟩, -⟩ := h
  unfold Window.onClose Window.hit winCloseSize
  rw [hw, hh]
  simp only [Bool.and_eq_true, decide_eq_true_eq]
  omega

/-- Where the button is up, no window is dragged any more. -/
def Desktop.drop (s : Desktop) : Desktop := (dragLoop s 0 0 false (List.range appMaxRunning)).2

theorem dragLoop_up {is : List Nat} :
    dragLoop a mx my false is = (false, (dragLoop a 0 0 false is).2) := by
  induction is generalizing a with
  | nil => rfl
  | cons i is ih =>
    unfold dragLoop
    dsimp only
    rw [if_neg Bool.false_ne_true, if_neg Bool.false_ne_true]
    split
    · exact ih
    · exact ih

theorem running_drop : (a.drop.apps j).running = (a.apps j).running :=
  ((sameFlags_dragLoop (s := a)) j).1

theorem running_closeAt :
    ((a.closeAt i).apps j).running = true ↔ j ≠ i ∧ (a.apps j).running = true := by
  have heq : a.closeAt i = (a.withoutApp i).focusLast := rfl
  have hlast := App.ButFocus.samePlace (@focusLast_butFocus (a.withoutApp i) j)
  rw [heq, hlast.running]
  exact running_withoutApp

/-- A click on the close button of the window in front closes its app. -/
theorem mouse_front (hinv : AppsInv a) (h : a.drop.front = some i) :
    appHandleMouse a ((a.drop.apps i).window.x + (a.drop.apps i).window.w - 20)
      ((a.drop.apps i).window.y + 10) 0 mouseBtnLeft = (true, a.drop.closeAt i) := by
  obtain ⟨hi, hshown⟩ := front_some h
  obtain ⟨hrun, -⟩ := Bool.and_eq_true_iff.mp hshown
  have hwin : (a.drop.apps i).window.OnDesktop := hinv.dragLoop.window i hi hrun
  obtain ⟨hclose, hhit⟩ := onDesktop_close hwin
  have htop := front_topmost h (Bool.and_eq_true_iff.mpr ⟨hshown, hhit⟩)
  have hup : decide ((0 : Byte) &&& mouseBtnLeft ≠ 0) = false := by decide
  have hleft : mouseBtnLeft &&& mouseBtnLeft ≠ 0 := by decide
  have hdrop : (dragLoop a 0 0 false (List.range appMaxRunning)).2 = a.drop := rfl
  unfold appHandleMouse
  dsimp only
  rw [hup, dragLoop_up, hdrop, if_neg Bool.false_ne_true, if_pos hleft, target_eq_topmost, htop]
  dsimp only
  unfold Desktop.click
  dsimp only
  rw [hclose, if_pos rfl, appClose_running hi hrun]

theorem clickAt_last : (clickAt mx my).lastClicked = mouseBtnLeft := BitVec.zero_or

theorem clickAt_right : ¬ (clickAt mx my).lastClicked &&& mouseBtnRight ≠ 0 := by
  rw [clickAt_last]
  decide

theorem clickAt_left : decide ((clickAt mx my).lastClicked &&& mouseBtnLeft ≠ 0) = true := by
  rw [clickAt_last]
  decide

theorem leftClick_clickAt : (clickAt mx my).LeftClick := by
  have hleft : (clickAt mx my).lastClicked &&& mouseBtnLeft ≠ 0 := of_decide_eq_true clickAt_left
  exact hleft

theorem sane_clickAt (mx my : Int) (hx : 0 ≤ mx) (hy : 0 ≤ my) : (clickAt mx my).Sane := ⟨hx, hy⟩

theorem usable_clickAt (mx my : Int) (hx : 0 ≤ mx ∧ mx < screenW) (hy : 0 ≤ my ∧ my < screenH) :
    Usable (.frame (clickAt mx my)) :=
  ⟨clickAt mx my, rfl, hx, hy, fun _ hev => absurd hev List.not_mem_nil⟩

/-- With no menu open a click goes to the windows first. -/
theorem desktopFrame_click (h : Calm s) : desktopInput s.loop (clickAt mx my) =
    let mouse := appMouse s.loop (clickAt mx my) true
    let start := startClick mouse.2 (clickAt mx my) mouse.1
    iconClick (closeMenu start.2 (clickAt mx my) start.1) (clickAt mx my) start.1 := by
  have hpoll : pollKeys s.loop (clickAt mx my).keys = s.loop := rfl
  have hcontext : contextClick s.loop (clickAt mx my) true = (true, s.loop) := by
    unfold contextClick
    rw [h.context, Bool.and_false, if_neg Bool.false_ne_true]
  unfold desktopInput
  dsimp only
  rw [hpoll, openContext_left clickAt_right, clickAt_left, hcontext]

/-- A click that a window takes does nothing else. -/
theorem desktopFrame_taken (h : Calm s)
    (htaken : appHandleMouse s.loop.apps mx my 0 mouseBtnLeft = (true, b)) :
    desktopFrame s.loop (clickAt mx my) = (.running, { s.loop with apps := b }) := by
  have hmouse : appMouse s.loop (clickAt mx my) true = (false, { s.loop with apps := b }) := by
    have heq : appHandleMouse s.loop.apps (clickAt mx my).mx (clickAt mx my).my
        (clickAt mx my).buttons (clickAt mx my).lastClicked = (true, b) := by
      rw [clickAt_last]
      exact htaken
    unfold appMouse
    rw [heq]
    rfl
  unfold desktopFrame
  rw [desktopFrame_click h]
  dsimp only
  rw [hmouse]
  dsimp only
  rw [unclicked]
  dsimp only
  rw [h.start, if_neg Bool.false_ne_true]

theorem step_click {fr : DesktopFrame} {r : DesktopState} {l : DesktopLoop} (h : Calm s)
    (hframe : desktopFrame s.loop fr = (r, l)) : deskStep s (.frame fr) = some ⟨r, l⟩ := by
  rw [step_frame h.running, hframe]

theorem reaches_closed (h : Calm s) (hsome : 0 < (runningApps s.loop.apps).card) :
    Run.Reaches deskStep Usable
      (fun t => Calm t ∧ (runningApps t.loop.apps).card < (runningApps s.loop.apps).card) s := by
  have hdrop : AppsInv s.loop.apps.drop := h.inv.apps.dragLoop
  obtain ⟨j, hj⟩ := Finset.card_pos.mp hsome
  obtain ⟨hj, hrun⟩ := Finset.mem_filter.mp hj
  have hj := Finset.mem_range.mp hj
  have hrun' : (s.loop.apps.drop.apps j).running = true := running_drop.trans hrun
  have hshown : s.loop.apps.drop.shown j = true :=
    Bool.and_eq_true_iff.mpr ⟨hrun', (hdrop.window j hj hrun').visible⟩
  cases hfront : s.loop.apps.drop.front with
  | none => exact absurd ((front_none hfront hj).symm.trans hshown) Bool.false_ne_true
  | some i =>
    obtain ⟨hi, hshown⟩ := front_some hfront
    obtain ⟨hruni, -⟩ := Bool.and_eq_true_iff.mp hshown
    have hwin := hdrop.window i hi hruni
    have hframe := desktopFrame_taken h (mouse_front h.inv.apps hfront)
    obtain ⟨⟨hw, hh⟩, ⟨hx, hx'⟩, ⟨hy, hy'⟩, -⟩ := hwin
    have hlow : taskbarY < screenH := by decide
    have hinv := h.inv.desktopFrame (sane_clickAt
      ((s.loop.apps.drop.apps i).window.x + (s.loop.apps.drop.apps i).window.w - 20)
      ((s.loop.apps.drop.apps i).window.y + 10) (by omega) (by omega))
    rw [hframe] at hinv
    refine Run.reaches_step (usable_clickAt _ _ ⟨by omega, by omega⟩ ⟨by omega, by omega⟩)
      (step_click h hframe) (Run.reaches_self ⟨⟨hinv, rfl, h.start, h.context⟩, ?_⟩)
    refine Finset.card_lt_card ⟨?_, fun hsub => ?_⟩
    · intro k hk
      obtain ⟨hk, hrunk⟩ := Finset.mem_filter.mp hk
      exact Finset.mem_filter.mpr ⟨hk, running_drop.symm.trans (running_closeAt.mp hrunk).2⟩
    · have hin : i ∈ runningApps s.loop.apps :=
        Finset.mem_filter.mpr ⟨Finset.mem_range.mpr hi, running_drop.symm.trans hruni⟩
      exact (running_closeAt.mp (Finset.mem_filter.mp (hsub hin)).2).1 rfl

/-! With all windows closed, the start menu is free. -/

theorem clear_of_none (hnone : runningApps a = ∅) (fr : DesktopFrame) : a.Clear fr := by
  have hhidden : ∀ i < appMaxRunning, a.shown i = false := by
    intro i hi
    have hrun := Finset.filter_eq_empty_iff.mp hnone (Finset.mem_range.mpr hi)
    unfold Desktop.shown
    rw [Bool.not_eq_true] at hrun
    rw [hrun, Bool.false_and]
  refine ⟨fun _ i hi hshown => ?_, fun i hi => ?_⟩
  · exact absurd ((hhidden i hi).symm.trans hshown) Bool.false_ne_true
  · unfold Desktop.contains
    rw [hhidden i hi, Bool.false_and]

/-- No app is started by the mouse. -/
theorem running_mouse (hnone : runningApps a = ∅) {buttons clicked : Byte} :
    runningApps (appHandleMouse a mx my buttons clicked).2 = ∅ := by
  have hdrag : ∀ left, runningApps (dragLoop a mx my left (List.range appMaxRunning)).2 = ∅ := by
    intro left
    rw [← hnone]
    unfold runningApps
    refine Finset.filter_congr fun j _ => ?_
    rw [((sameFlags_dragLoop (s := a)) j).1]
  have htarget : ∀ left, (dragLoop a mx my left (List.range appMaxRunning)).2.target mx my = none := by
    intro left
    cases hfind : (dragLoop a mx my left (List.range appMaxRunning)).2.target mx my with
    | none => rfl
    | some i =>
      obtain ⟨hi, hrun⟩ := target_some hfind
      exact absurd hrun (Finset.filter_eq_empty_iff.mp (hdrag left) (Finset.mem_range.mpr hi))
  unfold appHandleMouse
  dsimp only
  rw [htarget]
  split
  · exact hdrag _
  split
  · exact hdrag _
  · exact hdrag _

theorem menuHit_unclicked {s : DesktopLoop} {fr : DesktopFrame} : menuHit s fr false = (.none, s) := rfl

/-- The start button opens the menu. -/
theorem reaches_menu (h : Calm s) (hnone : runningApps s.loop.apps = ∅) :
    Run.Reaches deskStep Usable (fun t => LoopInv t.loop ∧ t.state = .running ∧
      t.loop.startOpen = true ∧ runningApps t.loop.apps = ∅) s := by
  have hleft : (clickAt 20 690).LeftClick := leftClick_clickAt
  have hmouse : appMouse s.loop (clickAt 20 690) true =
      (true, { s.loop with apps := (appHandleMouse s.loop.apps 20 690 0 mouseBtnLeft).2 }) := by
    have hfree := (mouse_clear hleft).mpr (clear_of_none hnone (clickAt 20 690))
    unfold appMouse
    dsimp only
    rw [hfree, clickAt_last]
    rfl
  have hstart : ∀ t : DesktopLoop, startClick t (clickAt 20 690) true =
      (false, { t with startOpen := !t.startOpen }) := fun t => if_pos rfl
  have hframe : desktopFrame s.loop (clickAt 20 690) = (.running, { s.loop with
      apps := (appHandleMouse s.loop.apps 20 690 0 mouseBtnLeft).2, startOpen := true }) := by
    unfold desktopFrame
    rw [desktopFrame_click h]
    dsimp only
    rw [hmouse]
    dsimp only
    rw [hstart]
    dsimp only
    rw [unclicked_menu]
    dsimp only
    rw [h.start, Bool.not_false, if_pos rfl, menuHit_unclicked]
    rfl
  have hinv := h.inv.desktopFrame (sane_clickAt 20 690 (by decide) (by decide))
  rw [hframe] at hinv
  exact Run.reaches_step (usable_clickAt 20 690 (by decide) (by decide)) (step_click h hframe)
    (Run.reaches_self ⟨hinv, rfl, rfl, running_mouse hnone⟩)

theorem reaches_logout (h : LoopInv s.loop) (hrun : s.state = .running)
    (hopen : s.loop.startOpen = true) (hnone : runningApps s.loop.apps = ∅) :
    Run.Reaches deskStep Usable (fun t => t.state = .logout) s := by
  refine Run.reaches_step (usable_clickAt 50 610 ?_ ?_) (step_frame hrun)
    (Run.reaches_self ((frame_ends h).1.mpr ?_))
  · decide
  · decide
  · exact ⟨leftClick_clickAt, hopen, rfl, clear_of_none hnone _, by decide, by decide⟩

/-- Whatever was clicked and typed, and whatever windows and menus are open: clicks on the screen
and keys lead to the end of the session. -/
theorem logout_reachable (inputs : List DeskInput) (hmouse : ∀ a ∈ inputs, a.Sane) :
    Run.EveryState deskStep (fun s => s.state = .running →
      Run.Reaches deskStep Usable (fun t => t.state = .logout) s) deskStart inputs := by
  refine (Run.everyStep_of_forall hmouse).everyState
    (fun _ _ _ hs hstep ha => deskStep_inv hs ha hstep) ?_ deskInv_start
  intro s hs hrun
  refine (reaches_calm hs.loop hrun).trans fun t ht => ?_
  refine (Run.reaches_zero (fun u : Desk => (runningApps u.loop.apps).card)
    (fun u hu hpos => reaches_closed hu hpos) ht).trans ?_
  rintro u ⟨hu, hnone⟩
  refine (reaches_menu hu (Finset.card_eq_zero.mp hnone)).trans ?_
  rintro v ⟨hv, hrunv, hopen, hnonev⟩
  exact reaches_logout hv hrunv hopen hnonev

/-- The terminal is started, and the start menu opened. -/
theorem logout_reachable_terminal :
    Run.EveryState deskStep (fun s => s.state = .running →
      Run.Reaches deskStep Usable (fun t => t.state = .logout) s) deskStart
      [.frame (clickAt 100 50), .frame (clickAt 20 690)] := by
  refine logout_reachable _ ?_
  intro a ha
  simp only [List.mem_cons, List.not_mem_nil, or_false] at ha
  rcases ha with rfl | rfl
  · exact sane_clickAt 100 50 (by decide) (by decide)
  · exact sane_clickAt 20 690 (by decide) (by decide)

end PinguinOS.Os
