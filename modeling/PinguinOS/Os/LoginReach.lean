import PinguinOS.Drivers.Keyboard
import PinguinOS.Os.Login

/-! No input locks a registered user out: the keyboard always suffices to log in. -/
namespace PinguinOS.Os

open Drivers (KbdEvent KbdLayout KeyPress kbdAscii kbdModShift usMap)

/-- The event of a key press, under some layout and modifiers. -/
def Produced (ev : KbdEvent) : Prop :=
  ∃ layout modifiers sc, KeyPress sc ∧ ev = ⟨sc, kbdAscii layout modifiers sc, modifiers, false⟩

/-- A pass in which a key is pressed and the mouse is not. -/
def keyFrame (ev : KbdEvent) : SessionInput := .frame ⟨0, 0, 0, some ev, []⟩

def Typing (a : SessionInput) : Prop := ∃ ev, Produced ev ∧ a = keyFrame ev

/-- A key of the US layout, with Shift or without. -/
def usKey (shift : Bool) (sc : Byte) : KbdEvent :=
  let modifiers := if shift then kbdModShift else 0
  ⟨sc, kbdAscii .us modifiers sc, modifiers, false⟩

/-- The key for a character. -/
def keyFor (c : Byte) : KbdEvent :=
  match usMap.findIdx? fun e => e.1 = c with
  | some i => usKey false (BitVec.ofNat 8 i)
  | none => usKey true (BitVec.ofNat 8 (usMap.findIdx fun e => e.2 = c))

/-- The login screen with these texts. -/
def At (db : UserDb) (focus : Int) (username password : CStr) (s : Session) : Prop :=
  ∃ f, s = ⟨db, .login f⟩ ∧ f.focus = focus ∧ f.username = username ∧ f.password = password

variable {db : UserDb} {s : Session} {focus : Int} {u p : CStr} {c : Byte} {ev : KbdEvent}
  {user : OsUser} {Q : Session → Prop}

theorem usKey_produced {shift : Bool} {sc : Byte} (h : KeyPress sc) : Produced (usKey shift sc) :=
  ⟨_, _, sc, h, rfl⟩

/-- Every printable character has a key that does nothing else. -/
theorem keyFor_spec : ∀ c : Byte, Printable c → (keyFor c).ascii = c ∧
    KeyPress (keyFor c).scancode ∧ (keyFor c).released = false ∧
    (keyFor c).scancode ∉ [keyTab, keyUp, keyDown, keyEnter, keyBackspace] := by
  decide +kernel

theorem keyFor_produced (h : Printable c) : Produced (keyFor c) := by
  have hpress := (keyFor_spec c h).2.1
  unfold keyFor at hpress ⊢
  cases hfind : usMap.findIdx? fun e => e.1 = c with
  | some i =>
    rw [hfind] at hpress
    exact usKey_produced hpress
  | none =>
    rw [hfind] at hpress
    exact usKey_produced hpress

/-- A key press, as the loop handles it. -/
theorem reaches_key {f g : LoginForm} (ev : KbdEvent) (hev : Produced ev) (hreleased : ev.released = false)
    (hkey : loginKey db { f with prevBtn := 0 } ev = .ok g)
    (h : Run.Reaches sessionStep Typing Q ⟨db, .login g⟩) :
    Run.Reaches sessionStep Typing Q ⟨db, .login f⟩ := by
  have hclicked : f.clicked ⟨0, 0, 0, some ev, []⟩ = false := by
    simp [LoginForm.clicked]
  have hframe : loginFrame db f ⟨0, 0, 0, some ev, []⟩ = .ok g := by
    unfold loginFrame loginPoll
    dsimp only
    rw [hclicked, if_neg (by decide), hreleased, if_neg (by decide)]
    exact hkey
  exact Run.reaches_step ⟨ev, hev, rfl⟩ (step_login_ok hframe) h

/-- From each state of the one kind, keys lead to a state of the other. -/
def Presses (P Q : Session → Prop) : Prop := ∀ s, P s → Run.Reaches sessionStep Typing Q s

theorem Presses.trans {P R : Session → Prop} (h : Presses P Q) (h' : Presses Q R) : Presses P R :=
  fun s hs => (h s hs).trans h'

theorem presses_up : Presses (At db focus u p) (At db 0 u p) := by
  rintro s ⟨f, rfl, -, hu, hp⟩
  refine reaches_key (usKey false keyUp) (usKey_produced (by decide)) rfl rfl ?_
  exact Run.reaches_self ⟨_, rfl, rfl, hu, hp⟩

theorem presses_down : Presses (At db focus u p) (At db 1 u p) := by
  rintro s ⟨f, rfl, -, hu, hp⟩
  refine reaches_key (usKey false keyDown) (usKey_produced (by decide)) rfl rfl ?_
  exact Run.reaches_self ⟨_, rfl, rfl, hu, hp⟩

/-- A key that edits the field with the focus. -/
theorem presses_edit (ev : KbdEvent) (g : Nat → CStr → CStr) (hev : Produced ev)
    (hreleased : ev.released = false) (hedit : ∀ f : LoginForm,
      loginKey db f ev = .ok (LoginForm.edit { f with error := false } 2 g)) :
    Presses (At db 0 u p) (At db 0 (g loginUsernameMax u) p) ∧
    Presses (At db 1 u p) (At db 1 u (g loginPasswordMax p)) := by
  constructor
  · rintro s ⟨f, rfl, hfocus, hu, hp⟩
    refine reaches_key ev hev hreleased (hedit _) (Run.reaches_self ?_)
    unfold LoginForm.edit
    rw [if_pos (show f.focus = 0 from hfocus)]
    exact ⟨_, rfl, hfocus, congrArg (g _) hu, hp⟩
  · rintro s ⟨f, rfl, hfocus, hu, hp⟩
    have hne : ¬ f.focus = 0 := by omega
    refine reaches_key ev hev hreleased (hedit _) (Run.reaches_self ?_)
    unfold LoginForm.edit
    rw [if_neg (show ¬ f.focus = 0 from hne), if_pos (show f.focus = 1 ∨ (2 : Int) = 2 from .inr rfl)]
    exact ⟨_, rfl, hfocus, hu, congrArg (g _) hp⟩

theorem loginKey_backspace (f : LoginForm) : loginKey db f (usKey false keyBackspace) =
    .ok (LoginForm.edit { f with error := false } 2 backspace) := rfl

theorem loginKey_type (hc : Printable c) (f : LoginForm) : loginKey db f (keyFor c) =
    .ok (LoginForm.edit { f with error := false } 2 (typeChar c)) := by
  obtain ⟨hascii, -, -, hspecial⟩ := keyFor_spec c hc
  simp only [List.mem_cons, List.not_mem_nil, or_false, not_or] at hspecial
  obtain ⟨htab, hup, hdown, henter, hback⟩ := hspecial
  unfold loginKey
  dsimp only
  rw [if_neg htab, if_neg hup, if_neg hdown, if_neg henter, if_neg hback, hascii, if_pos hc]
  rfl

theorem presses_backspace :
    Presses (At db 0 u p) (At db 0 u.dropLast p) ∧ Presses (At db 1 u p) (At db 1 u p.dropLast) :=
  presses_edit _ backspace (usKey_produced (by decide)) rfl loginKey_backspace

theorem presses_type (hc : Printable c) :
    Presses (At db 0 u p) (At db 0 (typeChar c loginUsernameMax u) p) ∧
    Presses (At db 1 u p) (At db 1 u (typeChar c loginPasswordMax p)) :=
  presses_edit _ (typeChar c) (keyFor_produced hc) (keyFor_spec c hc).2.2.1 (loginKey_type hc)

/-- A field is emptied. -/
theorem presses_clear :
    Presses (At db 0 u p) (At db 0 [] p) ∧ Presses (At db 1 u p) (At db 1 u []) := by
  constructor
  · induction u using List.reverseRecOn with
    | nil => exact fun s hs => Run.reaches_self hs
    | append_singleton u c ih =>
      have hback := (@presses_backspace db (u ++ [c]) p).1
      rw [List.dropLast_concat] at hback
      exact hback.trans ih
  · induction p using List.reverseRecOn with
    | nil => exact fun s hs => Run.reaches_self hs
    | append_singleton p c ih =>
      have hback := (@presses_backspace db u (p ++ [c])).2
      rw [List.dropLast_concat] at hback
      exact hback.trans ih

/-- A text that fits is typed behind what the field holds. -/
theorem presses_text {cs : CStr} (hcs : ∀ c ∈ cs, Printable c) :
    ((u ++ cs).length < loginUsernameMax → Presses (At db 0 u p) (At db 0 (u ++ cs) p)) ∧
    ((p ++ cs).length < loginPasswordMax → Presses (At db 1 u p) (At db 1 u (p ++ cs))) := by
  induction cs generalizing u p with
  | nil =>
    rw [List.append_nil, List.append_nil]
    exact ⟨fun _ s hs => Run.reaches_self hs, fun _ s hs => Run.reaches_self hs⟩
  | cons c cs ih =>
    have hc := hcs c List.mem_cons_self
    have hrest := fun d hd => hcs d (List.mem_cons_of_mem c hd)
    have hroom : ∀ {max : Nat} {s : CStr}, (s ++ c :: cs).length < max →
        typeChar c max s = s ++ [c] := by
      intro max s hlen
      rw [List.length_append, List.length_cons] at hlen
      exact if_pos (by omega)
    have happend : ∀ s : CStr, s ++ c :: cs = s ++ [c] ++ cs := fun s => by simp
    constructor
    · intro hlen
      have htype := (@presses_type db u p c hc).1
      rw [hroom hlen] at htype
      rw [happend] at hlen ⊢
      exact htype.trans ((@ih (u ++ [c]) p hrest).1 hlen)
    · intro hlen
      have htype := (@presses_type db u p c hc).2
      rw [hroom hlen] at htype
      rw [happend] at hlen ⊢
      exact htype.trans ((@ih u (p ++ [c]) hrest).2 hlen)

/-- Enter, with the texts of the first user that has them. -/
theorem presses_enter (h : checkLogin db u p = some user) :
    Presses (At db focus u p) (fun s => s = ⟨db, .desktop user⟩) := by
  rintro s ⟨f, rfl, -, rfl, rfl⟩
  have hclicked : f.clicked ⟨0, 0, 0, some (usKey false keyEnter), []⟩ = false := by
    simp [LoginForm.clicked]
  have hframe : loginFrame db f ⟨0, 0, 0, some (usKey false keyEnter), []⟩ = .error user := by
    unfold loginFrame
    dsimp only
    rw [hclicked, if_neg (by decide)]
    change doLogin db { f with prevBtn := 0, error := false } = _
    unfold doLogin
    dsimp only
    rw [h]
    rfl
  exact Run.reaches_step ⟨usKey false keyEnter, usKey_produced (by decide), rfl⟩
    (step_login_done hframe) (Run.reaches_self rfl)

/-- From each state of the login screen. -/
theorem presses_login (hu : UserInv user) (hmem : user ∈ db) (hone : db.length ≤ 1) :
    Presses (At db focus u p) (fun s => s = ⟨db, .desktop user⟩) := by
  obtain ⟨⟨⟨hulen, huchars⟩, -⟩, ⟨⟨hplen, hpchars⟩, -⟩, -⟩ := hu
  have hdb : db = [user] := by
    cases db with
    | nil => cases hmem
    | cons v db =>
      cases List.length_eq_zero_iff.mp (Nat.le_zero.mp (Nat.le_of_succ_le_succ hone))
      rw [List.mem_singleton.mp hmem]
  have hcheck : checkLogin db user.username user.passwordHash = some user := by
    rw [hdb]
    unfold checkLogin
    rw [List.find?_cons_of_pos (by simp)]
  have hname : Presses (At db focus u p) (At db 0 user.username p) := by
    refine presses_up.trans (presses_clear.1.trans ?_)
    exact (presses_text (u := []) huchars).1 hulen
  have hpass : Presses (At db 0 user.username p) (At db 1 user.username user.passwordHash) := by
    refine presses_down.trans (presses_clear.2.trans ?_)
    exact (presses_text (p := []) hpchars).2 hplen
  exact hname.trans (hpass.trans (presses_enter hcheck))

/-- Whatever was clicked and typed before: where the login screen is, the keyboard alone leads to
the desktop of each registered user. -/
theorem registered_user_can_log_in (inputs : List SessionInput) :
    Run.EveryState sessionStep (fun s => ∀ f, s.screen = .login f → ∀ user ∈ s.db,
      Run.Reaches sessionStep Typing (fun t => t = ⟨s.db, .desktop user⟩) s) sessionStart inputs := by
  have hall : Run.EveryStep sessionStep (fun _ _ _ => True) sessionStart inputs :=
    Run.everyStep_of_forall (A := fun _ => True) fun _ _ => trivial
  refine hall.everyState (fun s a t hs hstep _ => (sessionStep_inv hs hstep).1) ?_ sessionInv_start
  rintro ⟨db, screen⟩ ⟨husers, hone, -⟩ f hscreen user hmem
  refine presses_login (husers user hmem) hmem hone _ ⟨f, ?_, rfl, rfl, rfl⟩
  dsimp only at hscreen
  rw [hscreen]

end PinguinOS.Os
