import PinguinOS.Os.DesktopApps

/-! What holds in every pass of the desktop, and which clicks end it. -/
namespace PinguinOS.Os

open Drivers (KbdEvent)
open Klib (str)

/-- The context menu is on the screen, above the taskbar. -/
structure MenuFits (x y : Int) : Prop where
  x : 0 ≤ x ∧ x + ctxW ≤ screenW
  y : 0 ≤ y ∧ y + ctxH ≤ taskbarY

structure LoopInv (s : DesktopLoop) : Prop where
  apps : AppsInv s.apps
  one : s.startOpen = true → s.ctxOpen = false
  context : s.ctxOpen = true → MenuFits s.ctxX s.ctxY
  icons : ∀ i j, s.selected i = true → s.selected j = true → i = j
  toast : s.toast.msg.length ≤ 63

/-- The mouse is not left of or above the screen. -/
def DesktopFrame.Sane (fr : DesktopFrame) : Prop := 0 ≤ fr.mx ∧ 0 ≤ fr.my

variable {s t : DesktopLoop} {fr : DesktopFrame} {clicked : Bool} {mx my : Int} {i : Nat}

theorem hit_iff {x y w h : Int} :
    hit mx my x y w h = true ↔ (x ≤ mx ∧ mx < x + w) ∧ y ≤ my ∧ my < y + h := by
  unfold hit
  simp only [Bool.and_eq_true, decide_eq_true_eq, ge_iff_le, and_assoc]

theorem toastShow_length {now : BitVec 32} {msg : CStr} {color : Colour} :
    (toastShow now msg color).msg.length ≤ 63 := List.length_take_le _ _

theorem pollKeys_eq {keys : List KbdEvent} : pollKeys s keys =
    if keys.any isEscape then { s with startOpen := false, ctxOpen := false } else s := by
  unfold pollKeys
  induction keys generalizing s with
  | nil => rfl
  | cons ev keys ih =>
    rw [List.foldl_cons, ih, List.any_cons]
    cases isEscape ev with
    | false => rfl
    | true =>
      rw [Bool.true_or]
      exact ite_self _

theorem LoopInv.pollKeys (h : LoopInv s) {keys : List KbdEvent} : LoopInv (pollKeys s keys) := by
  rw [pollKeys_eq]
  split
  · exact ⟨h.apps, fun _ => rfl, fun hopen => absurd hopen Bool.false_ne_true, h.icons, h.toast⟩
  · exact h

theorem LoopInv.openContext (h : LoopInv s) (hfr : fr.Sane) : LoopInv (openContext s fr) := by
  obtain ⟨hmx, hmy⟩ := hfr
  unfold Os.openContext
  split
  case isTrue hright =>
    dsimp only
    split
    case isTrue =>
      refine ⟨h.apps, fun hopen => ?_, fun _ => ⟨?_, ?_⟩, h.icons, h.toast⟩
      · exact absurd (hright.2.symm.trans hopen) Bool.false_ne_true
      · dsimp only
        unfold ctxW screenW
        split <;> omega
      · dsimp only
        unfold ctxH taskbarY
        split <;> omega
    case isFalse => exact h
  case isFalse => exact h

theorem LoopInv.ctxAction (h : LoopInv s) {now : BitVec 32} : LoopInv (ctxAction s now i) := by
  unfold Os.ctxAction
  split
  · exact ⟨h.apps, h.one, h.context, h.icons, toastShow_length⟩
  · exact ⟨h.apps, h.one, h.context, h.icons, toastShow_length⟩
  · exact ⟨h.apps.launch (by decide), h.one, h.context, h.icons, h.toast⟩
  · exact ⟨h.apps, h.one, h.context, h.icons, toastShow_length⟩
  · exact h

theorem LoopInv.closeContext (h : LoopInv s) : LoopInv { s with ctxOpen := false } :=
  ⟨h.apps, fun _ => rfl, fun hopen => absurd hopen Bool.false_ne_true, h.icons, h.toast⟩

theorem LoopInv.contextClick (h : LoopInv s) : LoopInv (contextClick s fr clicked).2 := by
  unfold Os.contextClick
  split
  · split
    · exact h.closeContext.ctxAction
    · exact h.closeContext
  · exact h

/-- A click that is left over finds the context menu closed. -/
theorem contextClick_closed (h : (contextClick s fr clicked).1 = true) :
    (contextClick s fr clicked).2.ctxOpen = false := by
  unfold contextClick at h ⊢
  split at h
  case isTrue hopen =>
    rw [if_pos hopen]
    split at h
    case h_1 => exact absurd h Bool.false_ne_true
    case h_2 => rfl
  case isFalse hopen =>
    rw [if_neg hopen]
    dsimp only at h ⊢
    rw [h, Bool.true_and, Bool.not_eq_true] at hopen
    exact hopen

theorem LoopInv.appMouse (h : LoopInv s) : LoopInv (appMouse s fr clicked).2 :=
  ⟨h.apps.mouse, h.one, h.context, h.icons, h.toast⟩

theorem appMouse_clicked (h : (appMouse s fr clicked).1 = true) : clicked = true := by
  unfold appMouse at h
  dsimp only at h
  split at h
  · exact absurd h Bool.false_ne_true
  · exact h

theorem LoopInv.startClick (h : LoopInv s) (hclosed : clicked = true → s.ctxOpen = false) :
    LoopInv (startClick s fr clicked).2 := by
  unfold Os.startClick
  split
  case isTrue hbtn =>
    have hctx := hclosed (Bool.and_eq_true_iff.mp hbtn).1
    exact ⟨h.apps, fun _ => hctx, h.context, h.icons, h.toast⟩
  case isFalse => exact h

theorem LoopInv.closeMenu (h : LoopInv s) : LoopInv (closeMenu s fr clicked) := by
  unfold Os.closeMenu
  split
  · split
    · exact ⟨h.apps, fun hopen => absurd hopen Bool.false_ne_true, h.context, h.icons, h.toast⟩
    · exact h
  · exact h

theorem AppsInv.onClick {s : Desktop} (h : AppsInv s) : AppsInv ((desktopIcons i).onClick s) := by
  unfold desktopIcons
  split
  · exact h.launch (by decide)
  · exact h.launch (by decide)
  · exact h.launch (by decide)
  · exact h.launch (by decide)

theorem LoopInv.iconClick (h : LoopInv s) : LoopInv (iconClick s fr clicked).2 := by
  unfold Os.iconClick
  split
  · split
    case h_1 i _ =>
      refine ⟨h.apps.onClick, h.one, h.context, ?_, toastShow_length⟩
      intro j k hj hk
      exact (of_decide_eq_true hj).trans (of_decide_eq_true hk).symm
    case h_2 =>
      exact ⟨h.apps, h.one, h.context, fun _ _ hi => absurd hi Bool.false_ne_true, h.toast⟩
  · exact h

theorem LoopInv.menuHit (h : LoopInv s) : LoopInv (menuHit s fr clicked).2 := by
  unfold Os.menuHit
  split
  · exact ⟨h.apps, h.one, h.context, h.icons, toastShow_length⟩
  · exact ⟨h.apps.launch (by decide), h.one, h.context, h.icons, h.toast⟩
  · exact h
  · exact h
  · exact h

theorem LoopInv.desktopInput (h : LoopInv s) (hfr : fr.Sane) : LoopInv (desktopInput s fr).2 := by
  have hcontext : LoopInv (Os.openContext (Os.pollKeys s fr.keys) fr) := h.pollKeys.openContext hfr
  unfold Os.desktopInput
  dsimp only
  refine LoopInv.iconClick (LoopInv.closeMenu (LoopInv.startClick hcontext.contextClick.appMouse ?_))
  intro hclicked
  exact contextClick_closed (appMouse_clicked hclicked)

theorem LoopInv.desktopFrame (h : LoopInv s) (hfr : fr.Sane) : LoopInv (desktopFrame s fr).2 := by
  unfold Os.desktopFrame
  dsimp only
  split
  · exact (h.desktopInput hfr).menuHit
  · exact h.desktopInput hfr

/-! The end. -/

def DesktopFrame.LeftClick (fr : DesktopFrame) : Prop := fr.lastClicked &&& mouseBtnLeft ≠ 0

/-- No window is dragged further, and none has the mouse in it. -/
structure Desktop.Clear (s : Desktop) (fr : DesktopFrame) : Prop where
  drag : fr.buttons &&& mouseBtnLeft ≠ 0 → s.Idle
  beside : ∀ i < appMaxRunning, s.contains fr.mx fr.my i = false

/-- A left click on the open start menu, between two heights, that no key and no window takes. -/
structure Chooses (s : DesktopLoop) (fr : DesktopFrame) (top bottom : Int) : Prop where
  left : fr.LeftClick
  menu : s.startOpen = true
  keys : fr.keys.any isEscape = false
  clear : s.apps.Clear fr
  x : menuX ≤ fr.mx ∧ fr.mx < menuX + menuW
  y : top ≤ fr.my ∧ fr.my < bottom

variable {a : Desktop}

/-- A held button drags the first window that is dragged. -/
theorem dragLoop_held {is : List Nat} : (dragLoop a mx my true is).1 = false ↔
    ∀ i ∈ is, a.shown i = true → (a.apps i).window.dragging = false := by
  induction is with
  | nil => exact ⟨fun _ _ hi => absurd hi List.not_mem_nil, fun _ => rfl⟩
  | cons i is ih =>
    unfold dragLoop
    dsimp only
    rw [if_pos rfl]
    split
    case isTrue hdrag =>
      obtain ⟨hshown, hdragging⟩ := Bool.and_eq_true_iff.mp hdrag
      refine iff_of_false Bool.noConfusion fun hall => ?_
      exact absurd (hdragging.symm.trans (hall i List.mem_cons_self hshown)) Bool.noConfusion
    case isFalse hskip =>
      rw [ih]
      constructor
      · intro hall j hj hshown
        rcases List.mem_cons.mp hj with rfl | hj
        · rw [hshown, Bool.true_and, Bool.not_eq_true] at hskip
          exact hskip
        · exact hall j hj hshown
      · exact fun hall j hj => hall j (List.mem_cons_of_mem i hj)

theorem contains_drop {j : Nat} :
    (a.setWindow j { (a.apps j).window with dragging := false }).contains mx my i =
      a.contains mx my i := by
  unfold Desktop.contains Desktop.shown Desktop.setWindow Window.hit
  by_cases hij : i = j
  · subst hij
    rw [setApp_self]
  · rw [setApp_of_ne hij]

/-- A released button ends all drags, and moves no window. -/
theorem dragLoop_released {is : List Nat} {x y : Int} : (dragLoop a mx my false is).1 = false ∧
    (dragLoop a mx my false is).2.contains x y i = a.contains x y i := by
  induction is generalizing a with
  | nil => exact ⟨rfl, rfl⟩
  | cons j is ih =>
    unfold dragLoop
    dsimp only
    rw [if_neg Bool.false_ne_true]
    split
    · exact ⟨ih.1, ih.2.trans contains_drop⟩
    · exact ih

theorem target_none_iff : a.target mx my = none ↔ ∀ i < appMaxRunning, a.contains mx my i = false := by
  rw [target_eq_topmost]
  constructor
  · exact fun hnone i hi => topmost_none hnone hi
  · intro hall
    cases htop : a.topmost mx my with
    | none => rfl
    | some i =>
      obtain ⟨hi, hin⟩ := topmost_some htop
      exact absurd (hin.symm.trans (hall i hi)) Bool.noConfusion

/-- A left click that no drag takes goes to the window at the mouse. -/
theorem mouse_free (hleft : fr.LeftClick)
    (hdrag : (dragLoop a fr.mx fr.my (fr.buttons &&& mouseBtnLeft ≠ 0)
      (List.range appMaxRunning)).1 = false) :
    (appHandleMouse a fr.mx fr.my fr.buttons fr.lastClicked).1 = false ↔
      ∀ i < appMaxRunning, (dragLoop a fr.mx fr.my (fr.buttons &&& mouseBtnLeft ≠ 0)
        (List.range appMaxRunning)).2.contains fr.mx fr.my i = false := by
  rw [← target_none_iff]
  have htaken : fr.lastClicked &&& mouseBtnLeft ≠ 0 := hleft
  unfold appHandleMouse
  dsimp only
  rw [hdrag, if_neg Bool.false_ne_true, if_pos htaken]
  split
  case h_1 hnone => exact iff_of_true hdrag hnone
  case h_2 i hsome =>
    refine iff_of_false Bool.noConfusion fun hnone => ?_
    rw [hsome] at hnone
    cases hnone

/-- The windows leave a left click to the desktop exactly where it is clear. -/
theorem mouse_clear (hleft : fr.LeftClick) :
    (appHandleMouse a fr.mx fr.my fr.buttons fr.lastClicked).1 = false ↔ a.Clear fr := by
  by_cases hheld : fr.buttons &&& mouseBtnLeft ≠ 0
  · by_cases hidle : a.Idle
    · have hdrag : dragLoop a fr.mx fr.my (fr.buttons &&& mouseBtnLeft ≠ 0)
          (List.range appMaxRunning) = (false, a) :=
        dragLoop_idle fun i hi => hidle i (List.mem_range.mp hi)
      rw [mouse_free hleft (congrArg Prod.fst hdrag), hdrag]
      exact ⟨fun hbeside => ⟨fun _ => hidle, hbeside⟩, fun hclear => hclear.beside⟩
    · refine iff_of_false (fun hfree => ?_) fun hclear => hidle (hclear.drag hheld)
      have hdrag : (dragLoop a fr.mx fr.my true (List.range appMaxRunning)).1 = true := by
        refine Bool.not_eq_false _ ▸ fun hnone => hidle ?_
        exact fun i hi => dragLoop_held.mp hnone i (List.mem_range.mpr hi)
      unfold appHandleMouse at hfree
      dsimp only at hfree
      rw [decide_eq_true hheld, hdrag, if_pos rfl, hdrag] at hfree
      exact Bool.noConfusion hfree
  · have hup : decide (fr.buttons &&& mouseBtnLeft ≠ 0) = false := decide_eq_false hheld
    have hdrag : (dragLoop a fr.mx fr.my (fr.buttons &&& mouseBtnLeft ≠ 0)
        (List.range appMaxRunning)).1 = false := by
      rw [hup]
      exact (@dragLoop_released _ _ 0 a _ 0 0).1
    rw [mouse_free hleft hdrag, hup]
    constructor
    · exact fun hbeside => ⟨fun h => absurd h hheld, fun i hi => dragLoop_released.2 ▸ hbeside i hi⟩
    · exact fun hclear i hi => dragLoop_released.2.trans (hclear.beside i hi)

theorem openContext_start : (openContext s fr).startOpen = s.startOpen := by
  unfold openContext
  split
  · dsimp only
    split <;> rfl
  · rfl

theorem contextClick_start : (contextClick s fr clicked).2.startOpen = s.startOpen := by
  unfold contextClick
  split
  · split
    · unfold ctxAction
      split <;> rfl
    · rfl
  · rfl

theorem iconClick_start : (iconClick s fr clicked).2.startOpen = s.startOpen := by
  unfold iconClick
  split
  · split <;> rfl
  · rfl

theorem iconClick_clicked (h : (iconClick s fr clicked).1 = true) : clicked = true := by
  unfold iconClick at h
  split at h
  · split at h
    · exact absurd h Bool.false_ne_true
    · exact h
  · exact h

/-- A click that finds the start menu closed does not find it open later in the same pass. -/
theorem desktopInput_closed (hkeys : (pollKeys s fr.keys).startOpen = false)
    (hclicked : (desktopInput s fr).1 = true) : (desktopInput s fr).2.startOpen = false := by
  unfold desktopInput at hclicked ⊢
  dsimp only at hclicked ⊢
  rw [iconClick_start]
  have hstart := iconClick_clicked hclicked
  revert hstart
  have hclosed : ∀ c : Bool, (appMouse (contextClick (openContext (pollKeys s fr.keys) fr) fr c).2 fr
      (contextClick (openContext (pollKeys s fr.keys) fr) fr c).1).2.startOpen = false := by
    intro c
    exact contextClick_start.trans (openContext_start.trans hkeys)
  intro hstart
  unfold startClick at hstart ⊢
  split at hstart
  case isTrue => exact absurd hstart Bool.false_ne_true
  case isFalse hbtn =>
    rw [if_neg hbtn]
    unfold closeMenu
    dsimp only
    rw [hclosed, Bool.and_false, if_neg Bool.false_ne_true]
    exact hclosed _

/-- Of the clicks on an open start menu only those beside the button and inside are left over. -/
theorem menuClick_iff (hopen : s.startOpen = true) :
    ((iconClick (closeMenu (startClick s fr clicked).2 fr (startClick s fr clicked).1) fr
        (startClick s fr clicked).1).1 = true ∧
      (iconClick (closeMenu (startClick s fr clicked).2 fr (startClick s fr clicked).1) fr
        (startClick s fr clicked).1).2.startOpen = true) ↔
      clicked = true ∧ hit fr.mx fr.my menuX menuY menuW menuH = true := by
  rw [iconClick_start]
  have hbeside : hit fr.mx fr.my menuX menuY menuW menuH = true → onStartBtn fr.mx fr.my = false := by
    intro hin
    obtain ⟨-, hy, hy'⟩ := hit_iff.mp hin
    unfold onStartBtn
    rw [← Bool.not_eq_true, hit_iff]
    unfold startBtnY startBtnH
    unfold menuY menuH at hy hy'
    omega
  constructor
  · rintro ⟨hclicked, hmenu⟩
    have hstart := iconClick_clicked hclicked
    clear hclicked
    unfold startClick at hstart hmenu
    split at hstart
    case isTrue => exact absurd hstart Bool.false_ne_true
    case isFalse hbtn =>
      dsimp only at hstart
      subst hstart
      rw [if_neg hbtn] at hmenu
      rw [Bool.true_and, Bool.not_eq_true] at hbtn
      refine ⟨rfl, ?_⟩
      by_contra hout
      unfold closeMenu at hmenu
      rw [Bool.not_eq_true] at hout
      dsimp only at hmenu
      rw [hopen, hbtn, hout] at hmenu
      exact absurd hmenu Bool.false_ne_true
  · rintro ⟨rfl, hin⟩
    have hstart : startClick s fr true = (true, s) := by
      unfold startClick
      rw [hbeside hin, Bool.and_false, if_neg Bool.false_ne_true]
    have hmenu : closeMenu s fr true = s := by
      unfold closeMenu
      rw [hopen, hin, Bool.not_true, Bool.false_and, if_neg Bool.false_ne_true]
      exact ite_self _
    have hicon : iconClick s fr true = (true, s) := by
      unfold iconClick
      rw [hopen, Bool.not_true, Bool.and_false, if_neg Bool.false_ne_true]
    rw [hstart]
    dsimp only
    rw [hmenu, hicon]
    exact ⟨rfl, hopen⟩

theorem desktopInput_menu (hkeys : fr.keys.any isEscape = false) (hopen : s.startOpen = true)
    (hctx : s.ctxOpen = false) : desktopInput s fr =
      let mouse := appMouse s fr (fr.lastClicked &&& mouseBtnLeft ≠ 0)
      let start := startClick mouse.2 fr mouse.1
      iconClick (closeMenu start.2 fr start.1) fr start.1 := by
  have hpoll : pollKeys s fr.keys = s := by
    rw [pollKeys_eq, hkeys, if_neg Bool.false_ne_true]
  have hcontext : openContext s fr = s := by
    unfold openContext
    rw [if_neg fun hright => absurd (hright.2.symm.trans hopen) Bool.false_ne_true]
  have hclick : ∀ c, contextClick s fr c = (c, s) := by
    intro c
    unfold contextClick
    rw [hctx, Bool.and_false, if_neg Bool.false_ne_true]
  unfold desktopInput
  dsimp only
  rw [hpoll, hcontext, hclick]

/-- When the menu is drawn there is a click, and it is open. -/
theorem desktopInput_open (h : LoopInv s) :
    ((desktopInput s fr).1 = true ∧ (desktopInput s fr).2.startOpen = true) ↔
      Chooses s fr menuY taskbarY := by
  cases hkeys : fr.keys.any isEscape with
  | true =>
    have hpoll : (pollKeys s fr.keys).startOpen = false := by
      rw [pollKeys_eq, hkeys, if_pos rfl]
    refine iff_of_false (fun hmenu => ?_) fun hchooses => ?_
    · exact absurd ((desktopInput_closed hpoll hmenu.1).symm.trans hmenu.2) Bool.false_ne_true
    · exact absurd (hkeys.symm.trans hchooses.keys) Bool.noConfusion
  | false =>
    cases hopen : s.startOpen with
    | false =>
      have hpoll : (pollKeys s fr.keys).startOpen = false := by
        rw [pollKeys_eq, hkeys, if_neg Bool.false_ne_true, hopen]
      refine iff_of_false (fun hmenu => ?_) fun hchooses => ?_
      · exact absurd ((desktopInput_closed hpoll hmenu.1).symm.trans hmenu.2) Bool.false_ne_true
      · exact absurd (hopen.symm.trans hchooses.menu) Bool.noConfusion
    | true =>
      have hmouse : ∀ c, (appMouse s fr c).2.startOpen = true := fun _ => hopen
      rw [desktopInput_menu hkeys hopen (h.one hopen)]
      dsimp only
      rw [menuClick_iff (hmouse _), hit_iff]
      constructor
      · rintro ⟨hclicked, hx, hy⟩
        have hdown := appMouse_clicked hclicked
        have htaken : fr.lastClicked &&& mouseBtnLeft ≠ 0 := of_decide_eq_true hdown
        have hleft : fr.LeftClick := htaken
        refine ⟨hleft, hopen, hkeys, (mouse_clear hleft).mp ?_, hx, hy⟩
        unfold appMouse at hclicked
        dsimp only at hclicked
        split at hclicked
        case isTrue => exact absurd hclicked Bool.false_ne_true
        case isFalse hfree => exact Bool.not_eq_true _ ▸ hfree
      · rintro ⟨hleft, -, -, hclear, hx, hy⟩
        refine ⟨?_, hx, hy⟩
        unfold appMouse
        dsimp only
        rw [(mouse_clear hleft).mpr hclear, if_neg Bool.false_ne_true]
        have htaken : fr.lastClicked &&& mouseBtnLeft ≠ 0 := hleft
        exact decide_eq_true htaken

/-- The items of the menu do not overlap, so the loop finds the one at the mouse. -/
theorem menuItem_iff (hi : i < menuItemCount) :
    (List.range menuItemCount).find? (fun j => clicked && onMenuItem mx my j) = some i ↔
      clicked = true ∧ onMenuItem mx my i = true := by
  have hone : ∀ j, onMenuItem mx my i = true → onMenuItem mx my j = true → j = i := by
    intro j hin hjn
    unfold onMenuItem at hin hjn
    rw [hit_iff] at hin hjn
    unfold menuItemH at hin hjn
    omega
  constructor
  · intro hfind
    have hfound := List.find?_some hfind
    exact Bool.and_eq_true_iff.mp hfound
  · rintro ⟨rfl, hin⟩
    cases hfind : (List.range menuItemCount).find? (fun j => true && onMenuItem mx my j) with
    | none =>
      have hskip := List.find?_eq_none.mp hfind i (List.mem_range.mpr hi)
      rw [Bool.true_and] at hskip
      exact absurd hin hskip
    | some j =>
      have hjn := List.find?_some hfind
      rw [Bool.true_and] at hjn
      exact congrArg some (hone j hin hjn)

theorem menuHit_logout : (menuHit s fr clicked).1 = .logout ↔
    clicked = true ∧ onMenuItem fr.mx fr.my 2 = true := by
  rw [← menuItem_iff (by decide)]
  unfold menuHit
  generalize (List.range menuItemCount).find? (fun j => clicked && onMenuItem fr.mx fr.my j) = found
  rcases found with _ | _ | _ | _ | _ | n <;> simp

theorem menuHit_shutdown : (menuHit s fr clicked).1 = .shutdown ↔
    clicked = true ∧ onMenuItem fr.mx fr.my 3 = true := by
  rw [← menuItem_iff (by decide)]
  unfold menuHit
  generalize (List.range menuItemCount).find? (fun j => clicked && onMenuItem fr.mx fr.my j) = found
  rcases found with _ | _ | _ | _ | _ | n <;> simp

/-- A pass ends the desktop where the menu has the item, and it is above the taskbar: the last item
reaches 10 pixels into it. -/
theorem frame_ends (h : LoopInv s) :
    ((desktopFrame s fr).1 = .logout ↔ Chooses s fr (menuY + 122) (menuY + 166)) ∧
    ((desktopFrame s fr).1 = .shutdown ↔ Chooses s fr (menuY + 166) taskbarY) := by
  have hopen : _ ↔ Chooses s fr menuY taskbarY := desktopInput_open h
  have hret : ∀ action : MenuAction, (action.ret = .logout ↔ action = .logout) ∧
      (action.ret = .shutdown ↔ action = .shutdown) := by
    intro action
    cases action <;> decide
  unfold desktopFrame
  dsimp only
  generalize desktopInput s fr = input at hopen ⊢
  obtain ⟨clicked, t⟩ := input
  dsimp only at hopen ⊢
  split
  case isTrue hmenu =>
    dsimp only
    rw [(hret _).1, (hret _).2, menuHit_logout, menuHit_shutdown]
    unfold onMenuItem
    rw [hit_iff, hit_iff]
    unfold menuItemH at *
    constructor
    · constructor
      · rintro ⟨hclicked, hx, hy, hy'⟩
        obtain ⟨hleft, hstart, hkeys, hclear, -, -⟩ := hopen.mp ⟨hclicked, hmenu⟩
        exact ⟨hleft, hstart, hkeys, hclear, hx, by omega, by omega⟩
      · rintro ⟨hleft, hstart, hkeys, hclear, hx, hy, hy'⟩
        have hin : menuY + 166 ≤ taskbarY := by decide
        have hchosen := hopen.mpr ⟨hleft, hstart, hkeys, hclear, hx, by omega, by omega⟩
        exact ⟨hchosen.1, hx, by omega, by omega⟩
    · constructor
      · rintro ⟨hclicked, hx, hy, -⟩
        obtain ⟨hleft, hstart, hkeys, hclear, -, hy'⟩ := hopen.mp ⟨hclicked, hmenu⟩
        exact ⟨hleft, hstart, hkeys, hclear, hx, by omega, hy'.2⟩
      · rintro ⟨hleft, hstart, hkeys, hclear, hx, hy, hy'⟩
        have hin : taskbarY ≤ menuY + 210 := by decide
        have hchosen := hopen.mpr ⟨hleft, hstart, hkeys, hclear, hx, by omega, by omega⟩
        exact ⟨hchosen.1, hx, by omega, by omega⟩
  case isFalse hmenu =>
    have hnone : ¬ Chooses s fr menuY taskbarY := fun hchooses => hmenu (hopen.mpr hchooses).2
    refine ⟨iff_of_false DesktopState.noConfusion fun hchooses => ?_,
      iff_of_false DesktopState.noConfusion fun hchooses => ?_⟩
    · obtain ⟨hleft, hstart, hkeys, hclear, hx, hy, hy'⟩ := hchooses
      have hin : menuY + 166 ≤ taskbarY := by decide
      exact hnone ⟨hleft, hstart, hkeys, hclear, hx, by omega, by omega⟩
    · obtain ⟨hleft, hstart, hkeys, hclear, hx, hy, hy'⟩ := hchooses
      exact hnone ⟨hleft, hstart, hkeys, hclear, hx, by omega, hy'⟩

/-! Runs. -/

structure DeskInv (s : Desk) : Prop where
  loop : LoopInv s.loop
  room : s.loop.apps.freeSlot ≠ none

def DeskInput.Sane : DeskInput → Prop
  | .frame fr => fr.Sane
  | .enter => True

theorem LoopInv.desk {r : DesktopState} (h : LoopInv s) : DeskInv ⟨r, s⟩ := ⟨h, h.apps.room⟩

theorem LoopInv.enter (h : LoopInv s) : LoopInv (desktopEnter s) :=
  ⟨appsInv_appInit, fun hopen => absurd hopen Bool.false_ne_true, h.context, h.icons, h.toast⟩

theorem deskInv_start : DeskInv deskStart := by
  refine LoopInv.desk (LoopInv.enter ⟨appsInv_appInit, ?_, ?_, ?_, by decide⟩)
  · exact fun _ => rfl
  · exact fun hopen => absurd hopen Bool.false_ne_true
  · exact fun _ _ hi => absurd hi Bool.false_ne_true

theorem deskStep_inv {s t : Desk} {a : DeskInput} (h : DeskInv s) (ha : a.Sane)
    (hstep : deskStep s a = some t) : DeskInv t := by
  cases a with
  | frame fr =>
    unfold deskStep at hstep
    dsimp only at hstep
    split at hstep
    · cases hstep
      exact (h.loop.desktopFrame ha).desk
    · cases hstep
  | enter =>
    unfold deskStep at hstep
    dsimp only at hstep
    split at hstep
    · cases hstep
      exact h.loop.enter.desk
    · cases hstep

/-- Whatever is clicked and typed, over all logins: each window stays whole on the screen and above
the taskbar, no app runs twice and there is room for one more, the context menu is on the screen
and never open together with the start menu, and at most one icon is selected. -/
theorem desktop_keeps_inv (inputs : List DeskInput) (hmouse : ∀ a ∈ inputs, a.Sane) :
    Run.EveryState deskStep DeskInv deskStart inputs :=
  (Run.everyStep_of_forall hmouse).everyState (fun _ _ _ hs hstep ha => deskStep_inv hs ha hstep)
    (fun _ h => h) deskInv_start

/-- A right click in the corner, and a left click on the terminal. -/
def twoClicks : List DeskInput :=
  [.frame ⟨[2], [], 1279, 679, 0, 5⟩, .frame ⟨[1], [], 100, 50, 1, 21⟩]

theorem desktop_keeps_inv_twoClicks : Run.EveryState deskStep DeskInv deskStart twoClicks := by
  refine desktop_keeps_inv twoClicks ?_
  intro a ha
  unfold twoClicks at ha
  simp only [List.mem_cons, List.not_mem_nil, or_false] at ha
  rcases ha with rfl | rfl
  · exact ⟨by decide, by decide⟩
  · exact ⟨by decide, by decide⟩

/-- In every run a pass ends the session exactly with a left click on the item of the open start
menu that no key and no window takes; a window behind the menu does take it. -/
theorem desktop_ends_iff (inputs : List DeskInput) (hmouse : ∀ a ∈ inputs, a.Sane) :
    Run.EveryStep deskStep (fun s a t => ∀ fr, a = .frame fr →
      (t.state = .logout ↔ Chooses s.loop fr (menuY + 122) (menuY + 166)) ∧
      (t.state = .shutdown ↔ Chooses s.loop fr (menuY + 166) taskbarY)) deskStart inputs := by
  refine (Run.everyStep_of_forall hmouse).mono ?_ deskInv_start
  intro s a t hs hstep ha
  refine ⟨deskStep_inv hs ha hstep, ?_⟩
  rintro fr rfl
  unfold deskStep at hstep
  dsimp only at hstep
  split at hstep
  · cases hstep
    exact frame_ends hs.loop
  · cases hstep

/-- The start menu is opened, and its third item clicked. -/
def logoutClicks : List DeskInput :=
  [.frame ⟨[1], [], 20, 690, 1, 5⟩, .frame ⟨[1], [], 50, 610, 1, 21⟩]

theorem desktop_ends_iff_logoutClicks :
    Run.EveryStep deskStep (fun s a t => ∀ fr, a = .frame fr →
      (t.state = .logout ↔ Chooses s.loop fr (menuY + 122) (menuY + 166)) ∧
      (t.state = .shutdown ↔ Chooses s.loop fr (menuY + 166) taskbarY)) deskStart logoutClicks := by
  refine desktop_ends_iff logoutClicks ?_
  intro a ha
  unfold logoutClicks at ha
  simp only [List.mem_cons, List.not_mem_nil, or_false] at ha
  rcases ha with rfl | rfl
  · exact ⟨by decide, by decide⟩
  · exact ⟨by decide, by decide⟩

end PinguinOS.Os
