import Mathlib.Data.Fintype.Card
import PinguinOS.Os.Click
import PinguinOS.Os.Login
import PinguinOS.Os.Ui

/-! The main loop of the desktop, what it does with clicks and keys: `desktop.c`. -/
namespace PinguinOS.Os

open Drivers (KbdEvent)
open Klib (str)

def iconTileW : Int := 70
def iconTileH : Int := 85
def iconStartX : Int := 24
def iconStartY : Int := 40

def ctxW : Int := 160
def ctxH : Int := 132
def ctxItemH : Int := 28
def ctxItemCount : Nat := 4

def startBtnW : Int := 90
def startBtnH : Int := 30
def startBtnX : Int := 6
def startBtnY : Int := taskbarY + 5

def menuW : Int := 180
def menuH : Int := 200
def menuX : Int := startBtnX
def menuY : Int := taskbarY - menuH
def menuItemCount : Nat := 4
def menuItemH : Int := 44

def toastDurationMs : BitVec 32 := 2500
def colSuccess : Colour := 0x44FF88

def keyEscape : Byte := 0x01
def mouseBtnRight : Byte := 1 <<< 1

def actionOpenFiles (s : Desktop) : Desktop := (appLaunchBuiltin s (str "files")).2
def actionOpenTerminal (s : Desktop) : Desktop := (appLaunchBuiltin s (str "terminal")).2
def actionOpenBrowser (s : Desktop) : Desktop := (appLaunchBuiltin s (str "browser")).2
def actionOpenSettings (s : Desktop) : Desktop := (appLaunchBuiltin s (str "settings")).2

/-- `desktop_icon_t`, without its picture and whether it is selected. -/
structure DesktopIcon where
  x : Int
  y : Int
  label : CStr
  onClick : Desktop → Desktop

def desktopIconCount : Nat := 4

def desktopIcons : Nat → DesktopIcon
  | 0 => ⟨iconStartX, iconStartY, str "Dateien", actionOpenFiles⟩
  | 1 => ⟨iconStartX + iconTileW, iconStartY, str "Terminal", actionOpenTerminal⟩
  | 2 => ⟨iconStartX, iconStartY + iconTileH, str "Browser", actionOpenBrowser⟩
  | _ => ⟨iconStartX + iconTileW, iconStartY + iconTileH, str "Optionen", actionOpenSettings⟩

structure Toast where
  msg : CStr
  endTime : BitVec 32
  color : Colour

def toastShow (now : BitVec 32) (msg : CStr) (color : Colour) : Toast :=
  ⟨msg.take 63, now + toastDurationMs, color⟩

/-- Whether `draw_toast` draws. -/
def Toast.shown (t : Toast) (now : BitVec 32) : Bool := !(t.endTime == 0 || now > t.endTime)

/-- The variables of `desktop.c`, the apps, and `start_open` of `desktop_run`. -/
structure DesktopLoop where
  apps : Desktop
  startOpen : Bool
  ctxOpen : Bool
  ctxX : Int
  ctxY : Int
  selected : Nat → Bool
  toast : Toast

/-- What a pass of the loop reads: the `clicked` of the events in the queue, the keys, the mouse
and the clock. -/
structure DesktopFrame where
  clicks : List Byte
  keys : List KbdEvent
  mx : Int
  my : Int
  buttons : Byte
  now : BitVec 32

def DesktopFrame.lastClicked (fr : DesktopFrame) : Byte := fr.clicks.foldl (· ||| ·) 0

def isEscape (ev : KbdEvent) : Bool := !ev.released && ev.scancode == keyEscape

/-- The keys; `app_handle_key` does nothing. -/
def pollKeys (s : DesktopLoop) (keys : List KbdEvent) : DesktopLoop :=
  keys.foldl (fun s ev => if isEscape ev then { s with startOpen := false, ctxOpen := false } else s)
    s

def onTile (mx my : Int) (i : Nat) : Bool :=
  hit mx my (desktopIcons i).x (desktopIcons i).y iconTileW iconTileH

/-- A right click opens the context menu at the mouse, pushed back onto the screen. -/
def openContext (s : DesktopLoop) (fr : DesktopFrame) : DesktopLoop :=
  if fr.lastClicked &&& mouseBtnRight ≠ 0 ∧ s.startOpen = false then
    let onAny := (List.range desktopIconCount).any (onTile fr.mx fr.my)
    if onAny = false ∧ fr.my < taskbarY then
      { s with
        ctxOpen := true
        ctxX := if fr.mx + ctxW > screenW then screenW - ctxW else fr.mx
        ctxY := if fr.my + ctxH > taskbarY then taskbarY - ctxH else fr.my }
    else s
  else s

/-- `ctx_hit_test`; `none` is -1. -/
def ctxHitTest (s : DesktopLoop) (mx my : Int) : Option Nat :=
  if s.ctxOpen = false then none
  else if mx < s.ctxX ∨ mx ≥ s.ctxX + ctxW then none
  else
    (List.range ctxItemCount).find? fun (i : Nat) =>
      let iy := s.ctxY + 6 + (i : Int) * ctxItemH
      my ≥ iy && my < iy + ctxItemH

/-- Items of the context menu. -/
def ctxAction (s : DesktopLoop) (now : BitVec 32) : Nat → DesktopLoop
  | 0 => { s with toast := toastShow now (str "Desktop aktualisiert") colSuccess }
  | 1 => { s with toast := toastShow now (str "Ordner erstellt") colAccent }
  | 2 => { s with apps := actionOpenTerminal s.apps }
  | 3 => { s with toast := toastShow now (str "PinguinOS 2.3  |  PE/EXE Support") colAccent }
  | _ => s

/-- Any click closes the context menu. Here and below the `Bool` is `clicked`. -/
def contextClick (s : DesktopLoop) (fr : DesktopFrame) (clicked : Bool) : Bool × DesktopLoop :=
  if clicked && s.ctxOpen then
    match ctxHitTest s fr.mx fr.my with
    | some i => (false, ctxAction { s with ctxOpen := false } fr.now i)
    | none => (clicked, { s with ctxOpen := false })
  else (clicked, s)

def appMouse (s : DesktopLoop) (fr : DesktopFrame) (clicked : Bool) : Bool × DesktopLoop :=
  let (handled, apps) := appHandleMouse s.apps fr.mx fr.my fr.buttons fr.lastClicked
  (if handled then false else clicked, { s with apps := apps })

def onStartBtn (mx my : Int) : Bool := hit mx my startBtnX startBtnY startBtnW startBtnH

def startClick (s : DesktopLoop) (fr : DesktopFrame) (clicked : Bool) : Bool × DesktopLoop :=
  if clicked && onStartBtn fr.mx fr.my then (false, { s with startOpen := !s.startOpen })
  else (clicked, s)

/-- A click outside closes the start menu, and is used further. -/
def closeMenu (s : DesktopLoop) (fr : DesktopFrame) (clicked : Bool) : DesktopLoop :=
  if clicked && s.startOpen then
    if !hit fr.mx fr.my menuX menuY menuW menuH && !onStartBtn fr.mx fr.my then
      { s with startOpen := false }
    else s
  else s

/-- A click on an icon selects it alone, and a click beside the icons none. -/
def iconClick (s : DesktopLoop) (fr : DesktopFrame) (clicked : Bool) : Bool × DesktopLoop :=
  if clicked && !s.startOpen then
    match (List.range desktopIconCount).find? (onTile fr.mx fr.my) with
    | some i =>
      (false, { s with
        apps := (desktopIcons i).onClick s.apps
        selected := fun j => decide (j = i)
        toast := toastShow fr.now (desktopIcons i).label colAccent })
    | none => (clicked, { s with selected := fun _ => false })
  else (clicked, s)

inductive MenuAction
  | none
  | logout
  | shutdown
  deriving DecidableEq

def onMenuItem (mx my : Int) (i : Nat) : Bool :=
  hit mx my menuX (menuY + 34 + (i : Int) * menuItemH) menuW menuItemH

/-- `draw_menu_and_hit`, without what it draws. -/
def menuHit (s : DesktopLoop) (fr : DesktopFrame) (clicked : Bool) : MenuAction × DesktopLoop :=
  match (List.range menuItemCount).find? fun i => clicked && onMenuItem fr.mx fr.my i with
  | some 0 =>
    (.none, { s with
      toast := toastShow fr.now (str "PinguinOS 2.3  |  x86-32  |  PE-Support") colAccent })
  | some 1 => (.none, { s with apps := actionOpenSettings s.apps })
  | some 2 => (.logout, s)
  | some 3 => (.shutdown, s)
  | _ => (.none, s)

inductive DesktopState
  | running
  | logout
  | shutdown
  deriving DecidableEq

def MenuAction.ret : MenuAction → DesktopState
  | .none => .running
  | .logout => .logout
  | .shutdown => .shutdown

/-- A pass of the loop of `desktop_run` up to where it draws. -/
def desktopInput (s : DesktopLoop) (fr : DesktopFrame) : Bool × DesktopLoop :=
  let s := openContext (pollKeys s fr.keys) fr
  let (clicked, s) := contextClick s fr (fr.lastClicked &&& mouseBtnLeft ≠ 0)
  let (clicked, s) := appMouse s fr clicked
  let (clicked, s) := startClick s fr clicked
  iconClick (closeMenu s fr clicked) fr clicked

/-- The whole pass, without what it draws; the start menu tests the click where it is drawn. -/
def desktopFrame (s : DesktopLoop) (fr : DesktopFrame) : DesktopState × DesktopLoop :=
  let (clicked, s) := desktopInput s fr
  if s.startOpen then
    let (action, s) := menuHit s fr clicked
    (action.ret, s)
  else (.running, s)

/-- The loop, and how it ended. -/
structure Desk where
  state : DesktopState
  loop : DesktopLoop

/-- A pass of the loop, or the next `desktop_run` after a new login. -/
inductive DeskInput
  | frame (fr : DesktopFrame)
  | enter

/-- `desktop_run` up to its loop. -/
def desktopEnter (s : DesktopLoop) : DesktopLoop := { s with startOpen := false, apps := appInit }

def deskStart : Desk :=
  ⟨.running, desktopEnter ⟨appInit, false, false, 0, 0, fun _ => false, ⟨[], 0, colAccent⟩⟩⟩

def deskStep (s : Desk) : DeskInput → Option Desk
  | .frame fr =>
    if s.state = .running then some ⟨(desktopFrame s.loop fr).1, (desktopFrame s.loop fr).2⟩ else none
  | .enter => if s.state = .logout then some ⟨.running, desktopEnter s.loop⟩ else none

/-! The windows of the apps that the desktop starts: their places, their names and their number. -/

def builtinNames : List CStr := [str "files", str "terminal", str "browser", str "settings"]

/-- A window of the usual size that is on the screen, above the taskbar. -/
structure Window.OnDesktop (win : Window) : Prop where
  size : win.w = 420 ∧ win.h = 300
  x : 0 ≤ win.x ∧ win.x + win.w ≤ screenW
  y : 0 ≤ win.y ∧ win.y + win.h ≤ taskbarY
  visible : win.visible = true

structure AppsInv (s : Desktop) : Prop where
  window : ∀ i < appMaxRunning, (s.apps i).running = true → (s.apps i).window.OnDesktop
  named : ∀ i < appMaxRunning, (s.apps i).running = true → (s.apps i).name ∈ builtinNames
  once : ∀ i < appMaxRunning, ∀ j < appMaxRunning, (s.apps i).running = true →
    (s.apps j).running = true → (s.apps i).name = (s.apps j).name → i = j
  next : (0 ≤ s.nextWinX ∧ s.nextWinX ≤ 500) ∧ 0 ≤ s.nextWinY ∧ s.nextWinY ≤ 350

variable {s t : Desktop} {win : Window} {mx my : Int} {i : Nat} {name : CStr} {buttons clicked : Byte}

theorem appsInv_appInit : AppsInv appInit where
  window := fun _ _ hrun => absurd hrun Bool.false_ne_true
  named := fun _ _ hrun => absurd hrun Bool.false_ne_true
  once := fun _ _ _ _ hrun => absurd hrun Bool.false_ne_true
  next := by decide

/-- What still runs has its name, and its window is on the desktop. -/
def Keeps (s t : Desktop) : Prop :=
  ∀ i < appMaxRunning, (t.apps i).running = true →
    (s.apps i).running = true ∧ (t.apps i).name = (s.apps i).name ∧ (t.apps i).window.OnDesktop

theorem AppsInv.keeps (h : AppsInv s) (hk : Keeps s t)
    (hnext : t.nextWinX = s.nextWinX ∧ t.nextWinY = s.nextWinY) : AppsInv t where
  window := fun i hi hrun => (hk i hi hrun).2.2
  named := by
    intro i hi hrun
    obtain ⟨hs, hname, -⟩ := hk i hi hrun
    rw [hname]
    exact h.named i hi hs
  once := by
    intro i hi j hj hruni hrunj heq
    obtain ⟨hsi, hnamei, -⟩ := hk i hi hruni
    obtain ⟨hsj, hnamej, -⟩ := hk j hj hrunj
    rw [hnamei, hnamej] at heq
    exact h.once i hi j hj hsi hsj heq
  next := by
    rw [hnext.1, hnext.2]
    exact h.next

theorem AppsInv.setWindow (h : AppsInv s) (hwin : (s.apps i).window.OnDesktop → win.OnDesktop) :
    AppsInv (s.setWindow i win) := by
  refine h.keeps ?_ ⟨rfl, rfl⟩
  intro j hj hrun
  unfold Desktop.setWindow at hrun ⊢
  by_cases hji : j = i
  · subst hji
    rw [setApp_self] at hrun ⊢
    exact ⟨hrun, rfl, hwin (h.window j hj hrun)⟩
  · rw [setApp_of_ne hji] at hrun ⊢
    exact ⟨hrun, rfl, h.window j hj hrun⟩

theorem AppsInv.focusOnly (h : AppsInv s) : AppsInv (s.focusOnly i) := by
  refine h.keeps ?_ ⟨rfl, rfl⟩
  intro j hj hrun
  obtain ⟨hsize, hx, hy, hvisible⟩ := h.window j hj hrun
  exact ⟨hrun, rfl, hsize, hx, hy, hvisible⟩

theorem AppsInv.focusLast (h : AppsInv s) : AppsInv s.focusLast := by
  unfold Desktop.focusLast
  split
  case h_1 => exact h
  case h_2 => exact h.setWindow fun hwin => ⟨hwin.size, hwin.x, hwin.y, hwin.visible⟩

theorem AppsInv.closeAt (h : AppsInv s) : AppsInv (s.closeAt i) := by
  unfold Desktop.closeAt
  refine AppsInv.focusLast (h.keeps ?_ ⟨rfl, rfl⟩)
  intro j hj hrun
  by_cases hji : j = i
  · subst hji
    rw [setApp_self] at hrun
    exact absurd hrun Bool.false_ne_true
  · rw [setApp_of_ne hji] at hrun ⊢
    exact ⟨hrun, rfl, h.window j hj hrun⟩

theorem AppsInv.appClose {index : Int} (h : AppsInv s) : AppsInv (appClose s index) := by
  unfold Os.appClose
  split
  · exact h
  split
  · exact h.closeAt
  · exact h

/-! The mouse. -/

/-- Wherever the mouse is, the window is dragged to a place on the screen. -/
theorem Window.OnDesktop.dragTo (h : win.OnDesktop) : (win.dragTo mx my).OnDesktop := by
  obtain ⟨⟨hw, hh⟩, hx, hy, hvisible⟩ := h
  unfold Window.dragTo
  refine ⟨⟨hw, hh⟩, ?_, ?_, hvisible⟩
  · dsimp only
    split <;> unfold screenW at * <;> omega
  · dsimp only
    split <;> unfold taskbarY at * <;> omega

theorem AppsInv.dragLoop {left : Bool} {is : List Nat} (h : AppsInv s) :
    AppsInv (dragLoop s mx my left is).2 := by
  induction is generalizing s with
  | nil => exact h
  | cons i is ih =>
    unfold Os.dragLoop
    dsimp only
    split
    · split
      · exact h.setWindow fun hwin => hwin.dragTo
      · exact ih (h.setWindow fun hwin => ⟨hwin.size, hwin.x, hwin.y, hwin.visible⟩)
    · exact ih h

theorem AppsInv.click (h : AppsInv s) : AppsInv (s.click mx my i) := by
  unfold Desktop.click
  dsimp only
  split
  · exact h.appClose
  split
  · refine AppsInv.focusOnly (h.setWindow ?_)
    exact fun hwin => ⟨hwin.size, hwin.x, hwin.y, hwin.visible⟩
  · exact (h.setWindow id).focusOnly

theorem AppsInv.mouse (h : AppsInv s) : AppsInv (appHandleMouse s mx my buttons clicked).2 := by
  unfold appHandleMouse
  dsimp only
  split
  · exact h.dragLoop
  split
  · split
    · exact h.dragLoop
    · exact h.dragLoop.click
  · exact h.dragLoop

/-! The launches. -/

theorem builtin_length (hname : name ∈ builtinNames) : name.length ≤ appNameMax - 1 := by
  revert name
  unfold builtinNames str
  decide

theorem onDesktop_new (h : (0 ≤ s.nextWinX ∧ s.nextWinX ≤ 500) ∧ 0 ≤ s.nextWinY ∧ s.nextWinY ≤ 350) :
    s.newWindow.OnDesktop := by
  unfold Desktop.newWindow
  refine ⟨⟨rfl, rfl⟩, ⟨h.1.1, ?_⟩, ⟨h.2.1, ?_⟩, rfl⟩
  · dsimp only
    unfold screenW
    omega
  · dsimp only
    unfold taskbarY
    omega

theorem AppsInv.launch (h : AppsInv s) (hname : name ∈ builtinNames) :
    AppsInv (appLaunchBuiltin s name).2 := by
  unfold appLaunchBuiltin
  split
  case h_1 i hfind =>
    refine h.focusOnly.setWindow fun hwin => ⟨hwin.size, hwin.x, hwin.y, rfl⟩
  case h_2 hfind =>
    split
    case h_1 => exact h
    case h_2 slot hslot =>
      obtain ⟨hx, hy⟩ := h.next
      have htake : name.take (appNameMax - 1) = name := List.take_of_length_le (builtin_length hname)
      have hnew : ∀ j < appMaxRunning, (s.apps j).running = true → (s.apps j).name ≠ name := by
        intro j hj hrun heq
        have hskip := List.find?_eq_none.mp hfind j (List.mem_range.mpr hj)
        rw [hrun, heq, Bool.true_and, beq_self_eq_true] at hskip
        exact hskip rfl
      dsimp only
      rw [htake]
      refine AppsInv.focusOnly ⟨?_, ?_, ?_, ?_⟩
      case refine_1 =>
        intro j hj hrun
        dsimp only at hrun ⊢
        by_cases hji : j = slot
        · subst hji
          rw [setApp_self]
          exact onDesktop_new h.next
        · rw [setApp_of_ne hji] at hrun ⊢
          exact h.window j hj hrun
      case refine_2 =>
        intro j hj hrun
        dsimp only at hrun ⊢
        by_cases hji : j = slot
        · subst hji
          rw [setApp_self]
          exact hname
        · rw [setApp_of_ne hji] at hrun ⊢
          exact h.named j hj hrun
      case refine_3 =>
        intro j hj k hk hrunj hrunk heq
        dsimp only at hrunj hrunk heq
        by_cases hji : j = slot
        · by_cases hki : k = slot
          · exact hji.trans hki.symm
          · subst hji
            rw [setApp_self, setApp_of_ne hki] at heq
            rw [setApp_of_ne hki] at hrunk
            exact absurd heq.symm (hnew k hk hrunk)
        · rw [setApp_of_ne hji] at hrunj heq
          by_cases hki : k = slot
          · subst hki
            rw [setApp_self] at heq
            exact absurd heq (hnew j hj hrunj)
          · rw [setApp_of_ne hki] at hrunk heq
            exact h.once j hj k hk hrunj hrunk heq
      case refine_4 =>
        unfold Desktop.setApp
        dsimp only
        refine ⟨?_, ?_⟩
        · split <;> omega
        · split <;> omega

/-- The apps have four names, and the table eight slots. -/
theorem AppsInv.room (h : AppsInv s) : s.freeSlot ≠ none := by
  intro hfull
  have hrun : ∀ i < appMaxRunning, (s.apps i).running = true := by
    intro i hi
    have hskip := List.find?_eq_none.mp hfull i (List.mem_range.mpr hi)
    simpa using hskip
  have hmaps : ∀ i ∈ Finset.range appMaxRunning, (s.apps i).name ∈ builtinNames.toFinset :=
    fun i hi => List.mem_toFinset.mpr
      (h.named i (Finset.mem_range.mp hi) (hrun i (Finset.mem_range.mp hi)))
  have hcard : builtinNames.toFinset.card < (Finset.range appMaxRunning).card :=
    lt_of_le_of_lt (List.toFinset_card_le _) (by decide)
  obtain ⟨i, hi, j, hj, hne, heq⟩ := Finset.exists_ne_map_eq_of_card_lt_of_maps_to hcard hmaps
  have hi := Finset.mem_range.mp hi
  have hj := Finset.mem_range.mp hj
  exact hne (h.once i hi j hj (hrun i hi) (hrun j hj) heq)

end PinguinOS.Os
