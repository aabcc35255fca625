import Mathlib.Data.BitVec
import Mathlib.Data.List.Range
import Mathlib.Logic.Function.Basic
import Mathlib.Tactic.Common
import PinguinOS.Lib.Run

/-! The windows of the running apps and their focus: `app.c`. -/
namespace PinguinOS.Os

abbrev Byte := BitVec 8

def appMaxRunning : Nat := 8
def appNameMax : Nat := 32
def winTitleH : Int := 28
def winCloseSize : Int := 18
def screenW : Int := 1280
def taskbarY : Int := 720 - 40
def mouseBtnLeft : Byte := 1 <<< 0

/-- `app_window_t`, without its contents and colours. -/
structure Window where
  x : Int
  y : Int
  w : Int
  h : Int
  visible : Bool
  focused : Bool
  dragging : Bool
  dragOx : Int
  dragOy : Int

inductive AppType
  | builtin
  | peExe

structure App where
  name : List Byte
  type : AppType
  running : Bool
  window : Window

/-- After `memset`. -/
def App.zero : App where
  name := []
  type := .builtin
  running := false
  window := ⟨0, 0, 0, 0, false, false, false, 0, 0⟩

structure Desktop where
  apps : Nat → App
  nextWinX : Int
  nextWinY : Int

def appInit : Desktop := ⟨fun _ => .zero, 120, 60⟩

/-- The last `i` below `n` with `p`, for the loops that count down. -/
def findDown (p : Nat → Bool) : Nat → Option Nat
  | 0 => none
  | n + 1 => if p n then some n else findDown p n

def Desktop.setApp (s : Desktop) (i : Nat) (app : App) : Desktop :=
  { s with apps := Function.update s.apps i app }

def Desktop.setWindow (s : Desktop) (i : Nat) (window : Window) : Desktop :=
  s.setApp i { s.apps i with window := window }

/-- All windows of the table lose the focus, and `i` gets it. -/
def Desktop.focusOnly (s : Desktop) (i : Nat) : Desktop :=
  { s with apps := fun j =>
      { s.apps j with window := { (s.apps j).window with focused := decide (j = i) } } }

def Desktop.freeSlot (s : Desktop) : Option Nat :=
  (List.range appMaxRunning).find? fun i => !(s.apps i).running

/-- The window a new app gets. -/
def Desktop.newWindow (s : Desktop) : Window :=
  ⟨s.nextWinX, s.nextWinY, 420, 300, true, true, false, 0, 0⟩

/-- `app_launch_builtin`; what `fn` writes is the contents of the window. -/
def appLaunchBuiltin (s : Desktop) (name : List Byte) : Int × Desktop :=
  match (List.range appMaxRunning).find? fun i =>
      (s.apps i).running && (s.apps i).name == name with
  | some i =>
    let s := s.focusOnly i
    (i, s.setWindow i { (s.apps i).window with visible := true })
  | none =>
    match s.freeSlot with
    | none => (-1, s)
    | some slot =>
      let s := s.setApp slot ⟨name.take (appNameMax - 1), .builtin, true, s.newWindow⟩
      let x := s.nextWinX + 30
      let y := s.nextWinY + 25
      let s := { s with
        nextWinX := if x > 500 then 120 else x, nextWinY := if y > 350 then 60 else y }
      (slot, s.focusOnly slot)

/-- What becomes of the file: it cannot be opened or read or there is no memory for it, or
`pe_load` refuses it, or it is loaded. -/
inductive ExeFile
  | unreadable
  | refused
  | loaded

def appLaunchExe (s : Desktop) (path : List Byte) : ExeFile → Int × Desktop
  | .unreadable => (-1, s)
  | file =>
    match s.freeSlot with
    | none => (-1, s)
    | some slot =>
      match file with
      | .loaded =>
        let s := s.setApp slot ⟨path.take (appNameMax - 1), .peExe, true, s.newWindow⟩
        (slot, { s with nextWinX := s.nextWinX + 30, nextWinY := s.nextWinY + 25 })
      | _ => (-1, s.setApp slot .zero)

def Desktop.shown (s : Desktop) (i : Nat) : Bool := (s.apps i).running && (s.apps i).window.visible

/-- The end of `app_close`: the last visible window gets the focus. -/
def Desktop.focusLast (s : Desktop) : Desktop :=
  match findDown s.shown appMaxRunning with
  | none => s
  | some i => s.setWindow i { (s.apps i).window with focused := true }

/-- `app_close` of a running app. -/
def Desktop.closeAt (s : Desktop) (i : Nat) : Desktop :=
  (s.setApp i { s.apps i with
    running := false, window := { (s.apps i).window with visible := false } }).focusLast

def appClose (s : Desktop) (index : Int) : Desktop :=
  if index < 0 ∨ index ≥ appMaxRunning then s
  else if (s.apps index.toNat).running then s.closeAt index.toNat
  else s

/-- A dragged window follows the mouse and stays on the screen. -/
def Window.dragTo (win : Window) (mx my : Int) : Window :=
  let x := max (mx - win.dragOx) 0
  let y := max (my - win.dragOy) 0
  { win with
    x := if x + win.w > screenW then screenW - win.w else x
    y := if y + win.h > taskbarY then taskbarY - win.h else y }

/-- The first loop of `app_handle_mouse`, over the slots `is`. -/
def dragLoop (s : Desktop) (mx my : Int) (left : Bool) : List Nat → Bool × Desktop
  | [] => (false, s)
  | i :: is =>
    let win := (s.apps i).window
    if s.shown i && win.dragging then
      if left then (true, s.setWindow i (win.dragTo mx my))
      else dragLoop (s.setWindow i { win with dragging := false }) mx my left is
    else dragLoop s mx my left is

def Window.hit (win : Window) (mx my : Int) : Bool :=
  win.x ≤ mx && mx < win.x + win.w && win.y ≤ my && my < win.y + win.h

def Window.onClose (win : Window) (mx my : Int) : Bool :=
  let cx := win.x + win.w - winCloseSize - 6
  let cy := win.y + 5
  cx ≤ mx && mx < cx + winCloseSize && cy ≤ my && my < cy + winCloseSize

/-- The window that a click reaches: first among those with the focus, then among the others. -/
def Desktop.target (s : Desktop) (mx my : Int) : Option Nat :=
  let hit := fun i => s.shown i && (s.apps i).window.hit mx my
  (findDown (fun i => hit i && (s.apps i).window.focused) appMaxRunning).orElse fun _ =>
    findDown (fun i => hit i && !(s.apps i).window.focused) appMaxRunning

/-- A click on window `i`: its close button, its title or somewhere else. -/
def Desktop.click (s : Desktop) (mx my : Int) (i : Nat) : Desktop :=
  let win := (s.apps i).window
  if win.onClose mx my then appClose s i
  else
    let win :=
      if my < win.y + winTitleH then
        { win with dragging := true, dragOx := mx - win.x, dragOy := my - win.y }
      else win
    (s.setWindow i win).focusOnly i

def appHandleMouse (s : Desktop) (mx my : Int) (buttons clicked : Byte) : Bool × Desktop :=
  let drag := dragLoop s mx my (buttons &&& mouseBtnLeft ≠ 0) (List.range appMaxRunning)
  if drag.1 then drag
  else if clicked &&& mouseBtnLeft ≠ 0 then
    match drag.2.target mx my with
    | none => drag
    | some i => (true, drag.2.click mx my i)
  else drag

inductive Event
  | launchBuiltin (name : List Byte)
  | launchExe (path : List Byte) (file : ExeFile)
  | close (index : Int)
  | mouse (mx my : Int) (buttons clicked : Byte)

def step (s : Desktop) : Event → Option Desktop
  | .launchBuiltin name => some (appLaunchBuiltin s name).2
  | .launchExe path file => some (appLaunchExe s path file).2
  | .close index => some (appClose s index)
  | .mouse mx my buttons clicked => some (appHandleMouse s mx my buttons clicked).2

/-- A running app whose window has the focus. -/
def Desktop.Focus (s : Desktop) (i : Nat) : Prop :=
  i < appMaxRunning ∧ (s.apps i).running = true ∧ (s.apps i).window.focused = true

structure SingleFocus (s : Desktop) : Prop where
  one : ∀ i j, s.Focus i → s.Focus j → i = j
  seen : ∀ i, s.Focus i → (s.apps i).window.visible = true
  some : ∀ i < appMaxRunning, s.shown i = true → ∃ j, s.Focus j

/-- The windows of running apps are visible. -/
def Visible (s : Desktop) : Prop :=
  ∀ i < appMaxRunning, (s.apps i).running = true → (s.apps i).window.visible = true

/-- The app that an event closes. -/
def Desktop.closing (s : Desktop) : Event → Option Nat
  | .close index =>
    if index < 0 ∨ index ≥ appMaxRunning then none
    else if (s.apps index.toNat).running then some index.toNat
    else none
  | .mouse mx my buttons clicked =>
    let drag := dragLoop s mx my (buttons &&& mouseBtnLeft ≠ 0) (List.range appMaxRunning)
    if drag.1 then none
    else if clicked &&& mouseBtnLeft ≠ 0 then
      (drag.2.target mx my).filter fun i => (drag.2.apps i).window.onClose mx my
    else none
  | _ => none

/-- The app that is closed has the focus, or the last of the other apps has it. -/
def Desktop.MayClose (s : Desktop) (i : Nat) : Prop :=
  ∀ f, s.Focus f → f = i ∨
    ∀ j, f < j → j < appMaxRunning → (s.apps j).running = true → j = i

/-- An app that may be closed is closed; an executable is loaded when nothing has the focus. -/
def Careful (s : Desktop) (a : Event) (_ : Desktop) : Prop :=
  (∀ i, s.closing a = some i → s.MayClose i) ∧
    ∀ path, a = .launchExe path .loaded → s.freeSlot ≠ none → ∀ i, ¬ s.Focus i

/-- The same apps run, with the same windows shown and focused. -/
def SameFlags (s t : Desktop) : Prop :=
  ∀ i, (t.apps i).running = (s.apps i).running ∧
    (t.apps i).window.visible = (s.apps i).window.visible ∧
    (t.apps i).window.focused = (s.apps i).window.focused

variable {s t u : Desktop} {i j k n : Nat} {a : Event} {p : Nat → Bool}

theorem findDown_some (h : findDown p n = some i) :
    i < n ∧ p i = true ∧ ∀ j, i < j → j < n → p j = false := by
  induction n with
  | zero => cases h
  | succ n ih =>
    unfold findDown at h
    split at h
    case isTrue hp =>
      cases h
      exact ⟨Nat.lt_succ_self _, hp, fun j hlt hle => absurd hle (by omega)⟩
    case isFalse hp =>
      obtain ⟨hlt, hpi, hrest⟩ := ih h
      refine ⟨Nat.lt_succ_of_lt hlt, hpi, ?_⟩
      intro j hij hjn
      rcases Nat.lt_succ_iff_lt_or_eq.mp hjn with hj | rfl
      · exact hrest j hij hj
      · exact Bool.not_eq_true _ ▸ hp

theorem findDown_none (h : findDown p n = none) : ∀ j < n, p j = false := by
  induction n with
  | zero => exact fun j hj => absurd hj (Nat.not_lt_zero j)
  | succ n ih =>
    unfold findDown at h
    split at h
    case isTrue => cases h
    case isFalse hp =>
      intro j hj
      rcases Nat.lt_succ_iff_lt_or_eq.mp hj with hj | rfl
      · exact ih h j hj
      · exact Bool.not_eq_true _ ▸ hp

theorem SameFlags.focus (h : SameFlags s t) : t.Focus i ↔ s.Focus i := by
  obtain ⟨hrunning, -, hfocused⟩ := h i
  unfold Desktop.Focus
  rw [hrunning, hfocused]

theorem SameFlags.shown (h : SameFlags s t) : t.shown i = s.shown i := by
  obtain ⟨hrunning, hvisible, -⟩ := h i
  unfold Desktop.shown
  rw [hrunning, hvisible]

theorem SameFlags.visible (h : SameFlags s t) (hs : Visible s) : Visible t := by
  intro i hi hrun
  obtain ⟨hrunning, hvisible, -⟩ := h i
  rw [hvisible]
  exact hs i hi (hrunning ▸ hrun)

theorem SameFlags.singleFocus (h : SameFlags s t) (hs : SingleFocus s) : SingleFocus t where
  one := fun i j hi hj => hs.one i j (h.focus.mp hi) (h.focus.mp hj)
  seen := fun i hi => (h i).2.1.trans (hs.seen i (h.focus.mp hi))
  some := fun i hi hshown => by
    obtain ⟨j, hj⟩ := hs.some i hi (h.shown ▸ hshown)
    exact ⟨j, h.focus.mpr hj⟩

theorem SameFlags.mayClose (h : SameFlags s t) : t.MayClose i ↔ s.MayClose i := by
  refine forall_congr' fun f => ?_
  rw [h.focus]
  refine imp_congr_right fun _ => or_congr_right (forall_congr' fun j => ?_)
  rw [(h j).1]

theorem SameFlags.trans (h : SameFlags s t) (h' : SameFlags t u) : SameFlags s u := by
  intro i
  obtain ⟨hrunning, hvisible, hfocused⟩ := h i
  obtain ⟨hrunning', hvisible', hfocused'⟩ := h' i
  exact ⟨hrunning'.trans hrunning, hvisible'.trans hvisible, hfocused'.trans hfocused⟩

/-- A window is moved. -/
theorem sameFlags_setWindow {win : Window} (hvisible : win.visible = (s.apps i).window.visible)
    (hfocused : win.focused = (s.apps i).window.focused) : SameFlags s (s.setWindow i win) := by
  intro j
  unfold Desktop.setWindow Desktop.setApp
  by_cases hj : j = i
  · subst hj
    dsimp only
    rw [Function.update_self]
    exact ⟨rfl, hvisible, hfocused⟩
  · dsimp only
    rw [Function.update_of_ne hj]
    exact ⟨rfl, rfl, rfl⟩

theorem sameFlags_dragLoop {mx my : Int} {left : Bool} {is : List Nat} :
    SameFlags s (dragLoop s mx my left is).2 := by
  induction is generalizing s with
  | nil => exact fun i => ⟨rfl, rfl, rfl⟩
  | cons i is ih =>
    unfold dragLoop
    dsimp only
    split
    case isTrue =>
      split
      case isTrue => exact sameFlags_setWindow rfl rfl
      case isFalse =>
        have hdropped : SameFlags s
            (s.setWindow i { (s.apps i).window with dragging := false }) :=
          sameFlags_setWindow rfl rfl
        exact hdropped.trans ih
    case isFalse => exact ih

theorem singleFocus_of_iff (ht : Visible t) (hfocus : ∀ k, t.Focus k ↔ k = i) : SingleFocus t where
  one := fun j k hj hk => ((hfocus j).mp hj).trans ((hfocus k).mp hk).symm
  seen := fun j hj => ht j hj.1 hj.2.1
  some := fun _ _ _ => ⟨i, (hfocus i).mpr rfl⟩

theorem focus_focusOnly (hi : i < appMaxRunning) (hrun : (s.apps i).running = true) :
    (s.focusOnly i).Focus k ↔ k = i := by
  constructor
  · rintro ⟨-, -, hfocused⟩
    exact of_decide_eq_true hfocused
  · rintro rfl
    exact ⟨hi, hrun, decide_eq_true rfl⟩

theorem visible_focusOnly (hs : Visible s) : Visible (s.focusOnly i) := hs

theorem freeSlot_some (h : s.freeSlot = some i) :
    i < appMaxRunning ∧ (s.apps i).running = false := by
  have hfree := List.find?_some h
  exact ⟨List.mem_range.mp (List.mem_of_find?_eq_some h), by simpa using hfree⟩

theorem setApp_self {app : App} : (s.setApp i app).apps i = app := by
  unfold Desktop.setApp
  exact Function.update_self _ _ _

theorem setApp_of_ne {app : App} (h : j ≠ i) : (s.setApp i app).apps j = s.apps j := by
  unfold Desktop.setApp
  exact Function.update_of_ne h _ _

theorem visible_setApp {app : App} (hs : Visible s)
    (happ : app.running = true → app.window.visible = true) : Visible (s.setApp i app) := by
  intro j hj hrun
  by_cases hji : j = i
  · subst hji
    rw [setApp_self] at hrun ⊢
    exact happ hrun
  · rw [setApp_of_ne hji] at hrun ⊢
    exact hs j hj hrun

/-- A builtin app takes the focus from all others. -/
theorem launchBuiltin_focus {name : List Byte} (hs : Visible s) (hfocus : SingleFocus s) :
    Visible (appLaunchBuiltin s name).2 ∧ SingleFocus (appLaunchBuiltin s name).2 := by
  unfold appLaunchBuiltin
  split
  case h_1 i hfind =>
    have hi := List.mem_range.mp (List.mem_of_find?_eq_some hfind)
    have hname := List.find?_some hfind
    obtain ⟨hrun, -⟩ := (Bool.and_eq_true_iff.mp hname)
    have hsame : SameFlags (s.focusOnly i) ((s.focusOnly i).setWindow i
        { ((s.focusOnly i).apps i).window with visible := true }) :=
      sameFlags_setWindow (hs i hi hrun).symm rfl
    have hvisible := hsame.visible (visible_focusOnly hs)
    exact ⟨hvisible, singleFocus_of_iff hvisible fun k =>
      hsame.focus.trans (focus_focusOnly hi hrun)⟩
  case h_2 =>
    split
    case h_1 => exact ⟨hs, hfocus⟩
    case h_2 slot hslot =>
      obtain ⟨hi, -⟩ := freeSlot_some hslot
      dsimp only
      refine ⟨visible_focusOnly ?_, singleFocus_of_iff (visible_focusOnly ?_) fun k =>
        focus_focusOnly hi ?_⟩
      · exact visible_setApp hs fun _ => rfl
      · exact visible_setApp hs fun _ => rfl
      · exact congrArg App.running setApp_self

/-- A slot that was free is cleared again, and there is nothing of it to be seen. -/
theorem refused_focus {slot : Nat} (hs : Visible s) (hfocus : SingleFocus s)
    (hslot : s.freeSlot = some slot) :
    Visible (s.setApp slot .zero) ∧ SingleFocus (s.setApp slot .zero) := by
  obtain ⟨-, hfree⟩ := freeSlot_some hslot
  have hclear : ∀ k, (s.setApp slot .zero).Focus k ↔ s.Focus k := by
    intro k
    unfold Desktop.Focus
    by_cases hk : k = slot
    · subst hk
      rw [setApp_self, hfree]
      exact ⟨fun h => absurd h.2.1 Bool.false_ne_true,
        fun h => absurd h.2.1 Bool.false_ne_true⟩
    · rw [setApp_of_ne hk]
  have hvisible : Visible (s.setApp slot .zero) :=
    visible_setApp hs fun h => absurd h Bool.false_ne_true
  refine ⟨hvisible, ?_⟩
  constructor
  case one => exact fun i j hi hj => hfocus.one i j ((hclear i).mp hi) ((hclear j).mp hj)
  case seen => exact fun i hi => hvisible i hi.1 hi.2.1
  case some =>
    intro i hi hshown
    have hne : i ≠ slot := by
      rintro rfl
      unfold Desktop.shown at hshown
      rw [setApp_self] at hshown
      exact absurd hshown Bool.false_ne_true
    have hold : s.shown i = true := by
      unfold Desktop.shown at hshown ⊢
      rwa [setApp_of_ne hne] at hshown
    obtain ⟨j, hj⟩ := hfocus.some i hi hold
    exact ⟨j, (hclear j).mpr hj⟩

/-- A new app with the focus has it alone exactly when nobody had it before. -/
theorem singleFocus_loaded_iff {slot : Nat} {app : App} (hslot : s.freeSlot = some slot)
    (hvisible : Visible t) (happs : t.apps = (s.setApp slot app).apps)
    (hrun : app.running = true) (hfocused : app.window.focused = true) :
    SingleFocus t ↔ ∀ i, ¬ s.Focus i := by
  obtain ⟨hi, hfree⟩ := freeSlot_some hslot
  have hall : ∀ k, t.Focus k ↔ k = slot ∨ s.Focus k := by
    intro k
    unfold Desktop.Focus
    rw [happs]
    by_cases hk : k = slot
    · subst hk
      rw [setApp_self]
      exact ⟨fun _ => Or.inl rfl, fun _ => ⟨hi, hrun, hfocused⟩⟩
    · rw [setApp_of_ne hk]
      exact ⟨Or.inr, fun h => h.resolve_left hk⟩
  constructor
  · intro hsingle i hfocused
    have heq := hsingle.one i slot ((hall i).mpr (Or.inr hfocused))
      ((hall slot).mpr (Or.inl rfl))
    rw [heq] at hfocused
    exact absurd (hfree.symm.trans hfocused.2.1) Bool.false_ne_true
  · intro hnobody
    refine singleFocus_of_iff (i := slot) hvisible fun k => ?_
    rw [hall]
    exact or_iff_left (hnobody k)

/-- An executable takes the focus as well, but from nobody. -/
theorem launchExe_focus {path : List Byte} {file : ExeFile} (hs : Visible s)
    (hfocus : SingleFocus s) :
    Visible (appLaunchExe s path file).2 ∧
      (SingleFocus (appLaunchExe s path file).2 ↔
        (file = .loaded → s.freeSlot ≠ none → ∀ i, ¬ s.Focus i)) := by
  unfold appLaunchExe
  cases file with
  | unreadable => exact ⟨hs, fun _ h => (by cases h), fun _ => hfocus⟩
  | refused =>
    dsimp only
    split
    case h_1 => exact ⟨hs, fun _ h => (by cases h), fun _ => hfocus⟩
    case h_2 slot hslot =>
      obtain ⟨hvisible, hsingle⟩ := refused_focus hs hfocus hslot
      exact ⟨hvisible, fun _ h => (by cases h), fun _ => hsingle⟩
  | loaded =>
    dsimp only
    split
    case h_1 hnone => exact ⟨hs, fun _ _ h => absurd hnone h, fun _ => hfocus⟩
    case h_2 slot hslot =>
      have hvisible : Visible (s.setApp slot
          ⟨path.take (appNameMax - 1), .peExe, true, s.newWindow⟩) :=
        visible_setApp hs fun _ => rfl
      refine ⟨hvisible, ?_⟩
      rw [hslot, forall_prop_of_true rfl, forall_prop_of_true (Option.some_ne_none slot)]
      exact singleFocus_loaded_iff hslot hvisible rfl rfl rfl

/-- The app is gone, and no other window has changed. -/
def Desktop.withoutApp (s : Desktop) (i : Nat) : Desktop :=
  s.setApp i { s.apps i with
    running := false, window := { (s.apps i).window with visible := false } }

theorem running_withoutApp :
    ((s.withoutApp i).apps j).running = true ↔ j ≠ i ∧ (s.apps j).running = true := by
  unfold Desktop.withoutApp
  by_cases hj : j = i
  · subst hj
    rw [setApp_self]
    exact ⟨fun h => absurd h Bool.false_ne_true, fun h => absurd rfl h.1⟩
  · rw [setApp_of_ne hj]
    exact ⟨fun h => ⟨hj, h⟩, And.right⟩

theorem focus_withoutApp : (s.withoutApp i).Focus k ↔ k ≠ i ∧ s.Focus k := by
  have hrunning := @running_withoutApp s i k
  unfold Desktop.Focus
  rw [hrunning]
  constructor
  · rintro ⟨hk, ⟨hne, hrun⟩, hfocused⟩
    unfold Desktop.withoutApp at hfocused
    rw [setApp_of_ne hne] at hfocused
    exact ⟨hne, hk, hrun, hfocused⟩
  · rintro ⟨hne, hk, hrun, hfocused⟩
    refine ⟨hk, ⟨hne, hrun⟩, ?_⟩
    unfold Desktop.withoutApp
    rwa [setApp_of_ne hne]

theorem visible_withoutApp (hs : Visible s) : Visible (s.withoutApp i) :=
  visible_setApp hs fun h => absurd h Bool.false_ne_true

theorem shown_iff (hs : Visible s) (hi : i < appMaxRunning) :
    s.shown i = true ↔ (s.apps i).running = true := by
  unfold Desktop.shown
  rw [Bool.and_eq_true]
  exact and_iff_left_of_imp (hs i hi)

/-- The focus goes to the last window, whoever has it. -/
theorem focusLast_focus (hs : Visible s) (hj : findDown s.shown appMaxRunning = some j) :
    Visible s.focusLast ∧ ∀ k, s.focusLast.Focus k ↔ k = j ∨ s.Focus k := by
  obtain ⟨hlt, hshown, -⟩ := findDown_some hj
  have hrun := (shown_iff hs hlt).mp hshown
  unfold Desktop.focusLast
  rw [hj]
  dsimp only [Desktop.setWindow]
  refine ⟨visible_setApp hs fun _ => hs j hlt hrun, fun k => ?_⟩
  unfold Desktop.Focus
  by_cases hk : k = j
  · subst hk
    rw [setApp_self]
    exact ⟨fun _ => Or.inl rfl, fun _ => ⟨hlt, hrun, rfl⟩⟩
  · rw [setApp_of_ne hk]
    exact ⟨Or.inr, fun h => h.resolve_left hk⟩

/-- `app_close` leaves one focused window exactly when it may close the app. -/
theorem closeAt_focus (hs : Visible s) :
    Visible (s.closeAt i) ∧ (SingleFocus (s.closeAt i) ↔ s.MayClose i) := by
  have hvisible := @visible_withoutApp s i hs
  have heq : s.closeAt i = (s.withoutApp i).focusLast := rfl
  rw [heq]
  cases hlast : findDown (s.withoutApp i).shown appMaxRunning with
  | none =>
    have hnone := findDown_none hlast
    have hnobody : ∀ k < appMaxRunning, k ≠ i → (s.apps k).running ≠ true := by
      intro k hk hne hrun
      have hshown := (shown_iff hvisible hk).mpr (running_withoutApp.mpr ⟨hne, hrun⟩)
      exact absurd (hshown.symm.trans (hnone k hk)) (Bool.noConfusion)
    have hsame : (s.withoutApp i).focusLast = s.withoutApp i := by
      unfold Desktop.focusLast
      rw [hlast]
    rw [hsame]
    refine ⟨hvisible, ?_, ?_⟩
    · intro _ f hf
      left
      by_contra hne
      exact hnobody f hf.1 hne hf.2.1
    · intro _
      have hunfocused : ∀ k, ¬ (s.withoutApp i).Focus k := by
        intro k hk
        obtain ⟨hne, hlt, hrun, -⟩ := focus_withoutApp.mp hk
        exact hnobody k hlt hne hrun
      exact {
        one := fun k _ hk => absurd hk (hunfocused k)
        seen := fun k hk => absurd hk (hunfocused k)
        some := fun k hk hshown =>
          absurd (hshown.symm.trans (hnone k hk)) (Bool.noConfusion) }
  | some j =>
    obtain ⟨hlt, hshown, hhigher⟩ := findDown_some hlast
    obtain ⟨hlastVisible, hfocus⟩ := focusLast_focus hvisible hlast
    obtain ⟨hji, hrun⟩ := running_withoutApp.mp ((shown_iff hvisible hlt).mp hshown)
    refine ⟨hlastVisible, ?_, ?_⟩
    · intro hsingle f hf
      by_cases hfi : f = i
      · exact Or.inl hfi
      · right
        have hfj := hsingle.one f j ((hfocus f).mpr (Or.inr (focus_withoutApp.mpr ⟨hfi, hf⟩)))
          ((hfocus j).mpr (Or.inl rfl))
        intro k hk hklt hkrun
        by_contra hki
        have hkshown := (shown_iff hvisible hklt).mpr (running_withoutApp.mpr ⟨hki, hkrun⟩)
        exact absurd (hkshown.symm.trans (hhigher k (hfj ▸ hk) hklt)) (Bool.noConfusion)
    · intro hmay
      refine singleFocus_of_iff (i := j) hlastVisible fun k => (hfocus k).trans ?_
      refine or_iff_left_of_imp fun hk => ?_
      obtain ⟨hki, hkfocus⟩ := focus_withoutApp.mp hk
      have hkhigh := (hmay k hkfocus).resolve_left hki
      by_contra hne
      rcases Nat.lt_or_gt_of_ne hne with hkj | hjk
      · exact hji (hkhigh j hkj hlt hrun)
      · have hkshown := (shown_iff hvisible hkfocus.1).mpr
          (running_withoutApp.mpr ⟨hki, hkfocus.2.1⟩)
        exact absurd (hkshown.symm.trans (hhigher k hjk hkfocus.1)) (Bool.noConfusion)

/-- The events that close an app, and what they leave. -/
theorem close_closing {index : Int} (h : s.closing (.close index) = some i) :
    appClose s index = s.closeAt i ∧ i < appMaxRunning := by
  unfold Desktop.closing at h
  unfold appClose
  dsimp only at h
  split at h
  case isTrue => cases h
  case isFalse hrange =>
    split at h
    case isFalse => cases h
    case isTrue hrun =>
      cases h
      rw [if_neg hrange, if_pos hrun]
      refine ⟨rfl, ?_⟩
      rw [not_or, not_lt] at hrange
      omega

theorem close_unchanged {index : Int} (h : s.closing (.close index) = none) :
    appClose s index = s := by
  unfold Desktop.closing at h
  unfold appClose
  dsimp only at h
  split at h
  case isTrue hrange => rw [if_pos hrange]
  case isFalse hrange =>
    split at h
    case isTrue => cases h
    case isFalse hrun => rw [if_neg hrange, if_neg hrun]

theorem appClose_running (hi : i < appMaxRunning) (hrun : (s.apps i).running = true) :
    appClose s i = s.closeAt i := by
  unfold appClose
  rw [if_neg (by omega), Int.toNat_natCast, if_pos hrun]

theorem orElse_some {first second : Option Nat} (h : (first.orElse fun _ => second) = some i) :
    first = some i ∨ second = some i := by
  cases first with
  | none => exact Or.inr h
  | some _ => exact Or.inl h

theorem target_some {mx my : Int} (h : s.target mx my = some i) :
    i < appMaxRunning ∧ (s.apps i).running = true := by
  have hshown : i < appMaxRunning ∧ s.shown i = true := by
    unfold Desktop.target at h
    rcases orElse_some h with hfirst | hsecond
    · obtain ⟨hlt, hp, -⟩ := findDown_some hfirst
      exact ⟨hlt, (Bool.and_eq_true_iff.mp (Bool.and_eq_true_iff.mp hp).1).1⟩
    · obtain ⟨hlt, hp, -⟩ := findDown_some hsecond
      exact ⟨hlt, (Bool.and_eq_true_iff.mp (Bool.and_eq_true_iff.mp hp).1).1⟩
  exact ⟨hshown.1, (Bool.and_eq_true_iff.mp hshown.2).1⟩

/-- A click that closes nothing moves the focus to the window. -/
theorem click_focus {mx my : Int} (hs : Visible s) (hi : i < appMaxRunning)
    (hrun : (s.apps i).running = true) (hclose : (s.apps i).window.onClose mx my = false) :
    Visible (s.click mx my i) ∧ SingleFocus (s.click mx my i) := by
  have hmoved : ∀ win : Window, win.visible = (s.apps i).window.visible →
      win.focused = (s.apps i).window.focused →
      Visible ((s.setWindow i win).focusOnly i) ∧ SingleFocus ((s.setWindow i win).focusOnly i) := by
    intro win hvisible hfocused
    have hsame := sameFlags_setWindow hvisible hfocused
    have hall := visible_focusOnly (i := i) (hsame.visible hs)
    refine ⟨hall, singleFocus_of_iff hall fun k => focus_focusOnly hi ?_⟩
    exact (hsame i).1.trans hrun
  unfold Desktop.click
  dsimp only
  rw [hclose, if_neg Bool.false_ne_true]
  split
  case isTrue => exact hmoved _ rfl rfl
  case isFalse => exact hmoved _ rfl rfl

theorem closing_mouse {mx my : Int} {buttons clicked : Byte} :
    s.closing (.mouse mx my buttons clicked) =
      (let drag := dragLoop s mx my (buttons &&& mouseBtnLeft ≠ 0) (List.range appMaxRunning)
       if drag.1 then none
       else if clicked &&& mouseBtnLeft ≠ 0 then
         (drag.2.target mx my).filter fun i => (drag.2.apps i).window.onClose mx my
       else none) := rfl

theorem mouse_focus {mx my : Int} {buttons clicked : Byte} (hs : Visible s)
    (hfocus : SingleFocus s) :
    Visible (appHandleMouse s mx my buttons clicked).2 ∧
      (SingleFocus (appHandleMouse s mx my buttons clicked).2 ↔
        ∀ i, s.closing (.mouse mx my buttons clicked) = some i → s.MayClose i) := by
  rw [closing_mouse]
  unfold appHandleMouse
  have hsame : SameFlags s
      (dragLoop s mx my (buttons &&& mouseBtnLeft ≠ 0) (List.range appMaxRunning)).2 :=
    sameFlags_dragLoop
  generalize dragLoop s mx my (buttons &&& mouseBtnLeft ≠ 0) (List.range appMaxRunning) = drag
    at hsame
  have hvisible := hsame.visible hs
  have hsingle := hsame.singleFocus hfocus
  dsimp only
  by_cases hdragged : drag.1 = true
  · rw [if_pos hdragged, if_pos hdragged]
    exact ⟨hvisible, fun _ i h => (by cases h), fun _ => hsingle⟩
  · rw [if_neg hdragged, if_neg hdragged]
    by_cases hclicked : clicked &&& mouseBtnLeft ≠ 0
    · rw [if_pos hclicked, if_pos hclicked]
      cases htarget : drag.2.target mx my with
      | none => exact ⟨hvisible, fun _ i h => (by cases h), fun _ => hsingle⟩
      | some i =>
        obtain ⟨hi, hrun⟩ := target_some htarget
        cases hclose : (drag.2.apps i).window.onClose mx my with
        | true =>
          have hfilter : (some i).filter (fun i => (drag.2.apps i).window.onClose mx my) =
              some i := Option.filter_some_pos hclose
          have hclick : drag.2.click mx my i = appClose drag.2 i := by
            unfold Desktop.click
            dsimp only
            rw [if_pos hclose]
          rw [hfilter]
          dsimp only
          rw [hclick, appClose_running hi hrun]
          obtain ⟨hclosed, hiff⟩ := @closeAt_focus _ i hvisible
          refine ⟨hclosed, hiff.trans (hsame.mayClose.trans ?_)⟩
          exact ⟨fun h j hj => (Option.some.inj hj) ▸ h, fun h => h i rfl⟩
        | false =>
          have hfilter : (some i).filter (fun i => (drag.2.apps i).window.onClose mx my) =
              none := Option.filter_some_neg hclose
          rw [hfilter]
          obtain ⟨hleft, hone⟩ := click_focus hvisible hi hrun hclose
          exact ⟨hleft, fun _ j h => (by cases h), fun _ => hone⟩
    · rw [if_neg hclicked, if_neg hclicked]
      exact ⟨hvisible, fun _ i h => (by cases h), fun _ => hsingle⟩

theorem step_focus (hs : Visible s) (hfocus : SingleFocus s) (hstep : step s a = some t) :
    Visible t ∧ (Careful s a t ↔ SingleFocus t) := by
  cases a with
  | launchBuiltin name =>
    cases hstep
    obtain ⟨hvisible, hsingle⟩ := @launchBuiltin_focus s name hs hfocus
    refine ⟨hvisible, fun _ => hsingle, fun _ => ⟨fun i h => (by cases h), fun _ h => (by cases h)⟩⟩
  | launchExe path file =>
    cases hstep
    obtain ⟨hvisible, hiff⟩ := @launchExe_focus s path file hs hfocus
    refine ⟨hvisible, ?_⟩
    rw [hiff]
    constructor
    · rintro ⟨-, hnobody⟩ hfile
      exact hnobody path (by rw [hfile])
    · intro hnobody
      refine ⟨fun i h => (by cases h), fun _ h => ?_⟩
      injection h with _ hfile
      exact hnobody hfile
  | close index =>
    cases hstep
    have hother : ∀ path, Event.close index ≠ .launchExe path .loaded := fun _ h => by cases h
    cases hclosing : s.closing (.close index) with
    | none =>
      rw [close_unchanged hclosing]
      refine ⟨hs, fun _ => hfocus, fun _ => ⟨fun i h => ?_, fun path h => absurd h (hother path)⟩⟩
      rw [hclosing] at h
      cases h
    | some i =>
      obtain ⟨hclose, hi⟩ := close_closing hclosing
      rw [hclose]
      obtain ⟨hvisible, hiff⟩ := @closeAt_focus s i hs
      refine ⟨hvisible, ?_⟩
      rw [hiff]
      constructor
      · rintro ⟨hmay, -⟩
        exact hmay i hclosing
      · intro hmay
        refine ⟨fun j hj => ?_, fun path h => absurd h (hother path)⟩
        rw [hclosing] at hj
        exact Option.some.inj hj ▸ hmay
  | mouse mx my buttons clicked =>
    cases hstep
    obtain ⟨hvisible, hiff⟩ := @mouse_focus s mx my buttons clicked hs hfocus
    refine ⟨hvisible, ?_⟩
    rw [hiff]
    exact ⟨And.left, fun h => ⟨h, fun _ h => (by cases h)⟩⟩

/-- One window has the focus after every event of a run exactly when every event of the run
is careful. -/
theorem singleFocus_iff (events : List Event) :
    Run.EveryState step SingleFocus appInit events ↔ Run.EveryStep step Careful appInit events := by
  have hinit : Visible appInit := fun _ _ h => absurd h Bool.false_ne_true
  have hnobody : ∀ k, ¬ appInit.Focus k := fun _ h => absurd h.2.1 Bool.false_ne_true
  refine Run.everyState_iff (A := fun _ => True) (I := Visible) (fun _ _ => trivial) ?_ hinit ?_
  · exact fun s a t _ hs hfocus hstep => step_focus hs hfocus hstep
  · exact {
      one := fun k _ hk => absurd hk (hnobody k)
      seen := fun k hk => absurd hk (hnobody k)
      some := fun _ _ h => absurd h Bool.false_ne_true }

/-- Three apps are started, the first is clicked on, and then the second is closed. -/
def closeBehind : List Event :=
  [.launchBuiltin [1], .launchBuiltin [2], .launchBuiltin [3], .mouse 125 200 1 1,
    .mouse 550 95 1 1]

theorem not_forall_singleFocus : ¬ ∀ events, Run.EveryState step SingleFocus appInit events := by
  intro hall
  have hrun : ((Run.run step appInit closeBehind).map fun t =>
      ((t.apps 0).running, (t.apps 0).window.focused, (t.apps 2).running,
        (t.apps 2).window.focused)) = some (true, true, true, true) := by decide
  obtain ⟨t, ht, hflags⟩ := Option.map_eq_some_iff.mp hrun
  obtain ⟨hrun0, hflags⟩ := Prod.mk.inj hflags
  obtain ⟨hfocus0, hflags⟩ := Prod.mk.inj hflags
  obtain ⟨hrun2, hfocus2⟩ := Prod.mk.inj hflags
  have hone := ((hall closeBehind).last ht).one 0 2 ⟨Nat.succ_pos 7, hrun0, hfocus0⟩
    ⟨Nat.le_of_ble_eq_true rfl, hrun2, hfocus2⟩
  cases hone

end PinguinOS.Os
