import PinguinOS.Drivers.Keyboard
import PinguinOS.Klib.Printf
import PinguinOS.Os.Apps

/-! The first setup, the login screen and the main loop around them: `login.c`, `pinguinos.c`. -/
namespace PinguinOS.Os

open Drivers (KbdEvent)
open Klib (str)

abbrev CStr := List Byte

def loginUsernameMax : Nat := 32
def loginPasswordMax : Nat := 64
def loginMaxUsers : Nat := 8

def keyBackspace : Byte := 0x0E
def keyTab : Byte := 0x0F
def keyEnter : Byte := 0x1C
def keyUp : Byte := 0x48
def keyDown : Byte := 0x50

def screenH : Int := 720
def fieldH : Int := 36
def btnW : Int := 140
def btnH : Int := 36

/-! The card of the login screen. -/

def cardW : Int := 380
def cardH : Int := 340
def cardX : Int := (screenW - cardW).tdiv 2
def cardY : Int := (screenH - cardH).tdiv 2 - 20
def fieldW : Int := 300
def fieldX : Int := cardX + (cardW - fieldW).tdiv 2
def userY : Int := cardY + 170
def passY : Int := cardY + 220
def btnY : Int := cardY + 275
def loginBtnX : Int := cardX + (cardW - btnW).tdiv 2

/-! The card of the setup. -/

def setupW : Int := 380
def setupH : Int := 400
def setupX : Int := (screenW - setupW).tdiv 2
def setupY : Int := (screenH - setupH).tdiv 2 - 10
def sfW : Int := 300
def sfX : Int := setupX + (setupW - sfW).tdiv 2
def suY : Int := setupY + 150
def spY : Int := setupY + 210
def sp2Y : Int := setupY + 270
def sbY : Int := setupY + 340
def setupBtnX : Int := setupX + (setupW - btnW).tdiv 2

/-- `os_user_t` -/
structure OsUser where
  username : CStr
  passwordHash : CStr
  admin : Bool
  deriving DecidableEq

/-- The entries of `user_db` up to `user_count`. -/
abbrev UserDb := List OsUser

def usersAdd (db : UserDb) (username password : CStr) (admin : Bool) : Bool × UserDb :=
  if db.length ≥ loginMaxUsers then (false, db)
  else
    (true, db ++ [⟨username.take (loginUsernameMax - 1), password.take (loginPasswordMax - 1), admin⟩])

def checkLogin (db : UserDb) (user pass : CStr) : Option OsUser :=
  db.find? fun u => u.username = user && u.passwordHash = pass

def hit (mx my x y w h : Int) : Bool := mx ≥ x && mx < x + w && my ≥ y && my < y + h

/-- The local variables of the two screens; the login screen has no second password. -/
structure LoginForm where
  username : CStr
  password : CStr
  password2 : CStr
  focus : Int
  error : Bool
  errorMsg : CStr
  prevBtn : Byte

def LoginForm.empty : LoginForm := ⟨[], [], [], 0, false, [], 0⟩

/-- What one pass of a loop reads: the mouse, and an event if there is one. `junk` is the string
from the last byte of the uninitialised `pw2_tmp` on. -/
structure LoginFrame where
  mx : Int
  my : Int
  btn : Byte
  key : Option KbdEvent
  junk : CStr

def LoginForm.clicked (f : LoginForm) (fr : LoginFrame) : Bool :=
  fr.btn &&& mouseBtnLeft ≠ 0 && f.prevBtn &&& mouseBtnLeft = 0

/-- `set_focus`: the number of a field, or the one at the other end. -/
def setFocus (newFocus maxFields : Int) : Int :=
  let newFocus := if newFocus < 0 then maxFields - 1 else newFocus
  if newFocus ≥ maxFields then 0 else newFocus

/-- `ev.ascii >= 32 && ev.ascii < 127` -/
def Printable (c : Byte) : Prop := 32 ≤ c.toInt ∧ c.toInt < 127

instance {c : Byte} : Decidable (Printable c) := inferInstanceAs (Decidable (_ ∧ _))

/-- The field with the focus; of the login screen only the first two are there. -/
def LoginForm.edit (f : LoginForm) (fields : Int) (g : Nat → CStr → CStr) : LoginForm :=
  if f.focus = 0 then { f with username := g loginUsernameMax f.username }
  else if f.focus = 1 ∨ fields = 2 then { f with password := g loginPasswordMax f.password }
  else { f with password2 := g loginPasswordMax f.password2 }

def backspace (_max : Nat) (s : CStr) : CStr := s.dropLast

/-- There must be room for the NUL. -/
def typeChar (c : Byte) (max : Nat) (s : CStr) : CStr := if s.length < max - 1 then s ++ [c] else s

/-- `try_create_user`: the message, or the new table. Whether `users_add` had room is not asked. -/
def tryCreateUser (db : UserDb) (username password password2 : CStr) : Except CStr UserDb :=
  if username.length < 1 then .error (str "Benutzername darf nicht leer sein")
  else if password.length < 1 then .error (str "Passwort darf nicht leer sein")
  else if password ≠ password2 then .error (str "Passwoerter stimmen nicht ueberein")
  else .ok (usersAdd db username password true).2

/-- The button or Enter; the exception is the `return` of the function, with the new table. -/
def setupSubmit (db : UserDb) (f : LoginForm) (password2 : CStr) : Except UserDb LoginForm :=
  match tryCreateUser db f.username f.password password2 with
  | .ok db => throw db
  | .error msg =>
    pure { f with
      error := true
      errorMsg := msg.take 63
      password := []
      password2 := []
      focus := 1 }

/-- The string in `pw2_tmp` after `strncpy`. -/
def pw2Tmp (password2 junk : CStr) : CStr :=
  if password2.length < loginPasswordMax - 1 then password2
  else password2.take (loginPasswordMax - 1) ++ junk

def setupClick (db : UserDb) (f : LoginForm) (fr : LoginFrame) : Except UserDb LoginForm :=
  if hit fr.mx fr.my sfX suY sfW fieldH then pure { f with focus := setFocus 0 3, error := false }
  else if hit fr.mx fr.my sfX spY sfW fieldH then
    pure { f with focus := setFocus 1 3, error := false }
  else if hit fr.mx fr.my sfX sp2Y sfW fieldH then
    pure { f with focus := setFocus 2 3, error := false }
  else if hit fr.mx fr.my setupBtnX sbY btnW btnH then
    setupSubmit db f (pw2Tmp f.password2 fr.junk)
  else pure f

def setupKey (db : UserDb) (f : LoginForm) (ev : KbdEvent) : Except UserDb LoginForm :=
  let f := { f with error := false }
  if ev.scancode = keyTab then pure { f with focus := setFocus (f.focus + 1) 3 }
  else if ev.scancode = keyUp then pure { f with focus := setFocus (f.focus - 1) 3 }
  else if ev.scancode = keyDown then pure { f with focus := setFocus (f.focus + 1) 3 }
  else if ev.scancode = keyEnter then setupSubmit db f f.password2
  else if ev.scancode = keyBackspace then pure (f.edit 3 backspace)
  else if Printable ev.ascii then pure (f.edit 3 (typeChar ev.ascii))
  else pure f

def setupPoll (db : UserDb) (f : LoginForm) (key : Option KbdEvent) : Except UserDb LoginForm :=
  match key with
  | some ev => if ev.released then pure f else setupKey db f ev
  | none => pure f

/-- One pass of the loop of `first_run_setup`. -/
def setupFrame (db : UserDb) (f : LoginForm) (fr : LoginFrame) : Except UserDb LoginForm :=
  let clicked := f.clicked fr
  let f := { f with prevBtn := fr.btn }
  (if clicked then setupClick db f fr else pure f) >>= fun f => setupPoll db f fr.key

/-- `do_login`; the exception is the `return`, with the user. -/
def doLogin (db : UserDb) (f : LoginForm) : Except OsUser LoginForm :=
  match checkLogin db f.username f.password with
  | some found => throw found
  | none =>
    pure { f with
      error := true
      errorMsg := (str "Falscher Benutzername oder Passwort").take 63
      password := []
      focus := 0 }

def loginKey (db : UserDb) (f : LoginForm) (ev : KbdEvent) : Except OsUser LoginForm :=
  let f := { f with error := false }
  if ev.scancode = keyTab then pure { f with focus := setFocus (f.focus + 1) 2 }
  else if ev.scancode = keyUp then pure { f with focus := setFocus 0 2 }
  else if ev.scancode = keyDown then pure { f with focus := setFocus 1 2 }
  else if ev.scancode = keyEnter then doLogin db f
  else if ev.scancode = keyBackspace then pure (f.edit 2 backspace)
  else if Printable ev.ascii then pure (f.edit 2 (typeChar ev.ascii))
  else pure f

def loginPoll (db : UserDb) (f : LoginForm) (key : Option KbdEvent) : Except OsUser LoginForm :=
  match key with
  | some ev => if ev.released then pure f else loginKey db f ev
  | none => pure f

/-- One pass of the loop of `login_run`; the button jumps into the branch of the Enter key. -/
def loginFrame (db : UserDb) (f : LoginForm) (fr : LoginFrame) : Except OsUser LoginForm :=
  let clicked := f.clicked fr
  let f := { f with prevBtn := fr.btn }
  if clicked then
    if hit fr.mx fr.my fieldX userY fieldW fieldH then
      loginPoll db { f with focus := setFocus 0 2, error := false } fr.key
    else if hit fr.mx fr.my fieldX passY fieldW fieldH then
      loginPoll db { f with focus := setFocus 1 2, error := false } fr.key
    else if hit fr.mx fr.my loginBtnX btnY btnW btnH then doLogin db f
    else loginPoll db f fr.key
  else loginPoll db f fr.key

/-! `pinguinos_main` -/

inductive Screen
  | setup (f : LoginForm)
  | login (f : LoginForm)
  | desktop (user : OsUser)
  | off

structure Session where
  db : UserDb
  screen : Screen

/-- A pass of the loop of a screen, or how `desktop_run` ends. -/
inductive SessionInput
  | frame (fr : LoginFrame)
  | logout
  | shutdown

/-- `login_run` begins with the setup if there is no user. -/
def loginRun (db : UserDb) : Session :=
  ⟨db, if db.length = 0 then .setup .empty else .login .empty⟩

def sessionStart : Session := loginRun []

def sessionStep (s : Session) : SessionInput → Option Session
  | .frame fr =>
    match s.screen with
    | .setup f =>
      match setupFrame s.db f fr with
      | .ok f => some { s with screen := .setup f }
      | .error db => some ⟨db, .login .empty⟩
    | .login f =>
      match loginFrame s.db f fr with
      | .ok f => some { s with screen := .login f }
      | .error user => some { s with screen := .desktop user }
    | .desktop _ | .off => none
  | .logout =>
    match s.screen with
    | .desktop _ => some (loginRun s.db)
    | _ => none
  | .shutdown =>
    match s.screen with
    | .desktop _ => some { s with screen := .off }
    | _ => none

/-! Who gets to the desktop: only a registered user with the password. -/

/-- What holds of the result, or of the exception. -/
def Ends {α ε : Type} (P : α → Prop) (Q : ε → Prop) : Except ε α → Prop
  | .ok a => P a
  | .error e => Q e

theorem Ends.bind {α β ε : Type} {P : α → Prop} {R : β → Prop} {Q : ε → Prop} {x : Except ε α}
    {k : α → Except ε β} (hx : Ends P Q x) (hk : ∀ a, P a → Ends R Q (k a)) :
    Ends R Q (x >>= k) := by
  cases x with
  | ok a => exact hk a hx
  | error e => exact hx

/-- Text that was typed into a field with room for `max` characters. -/
def Typed (max : Nat) (s : CStr) : Prop := s.length < max ∧ ∀ c ∈ s, Printable c

structure FormInv (fields : Int) (f : LoginForm) : Prop where
  username : Typed loginUsernameMax f.username
  password : Typed loginPasswordMax f.password
  password2 : Typed loginPasswordMax f.password2
  focus_nonneg : 0 ≤ f.focus
  focus_lt : f.focus < fields

/-- A user of the setup. -/
structure UserInv (u : OsUser) : Prop where
  username : Typed loginUsernameMax u.username ∧ u.username ≠ []
  password : Typed loginPasswordMax u.passwordHash ∧ u.passwordHash ≠ []
  admin : u.admin = true

/-- What is on the screen fits the table. -/
def ScreenInv (db : UserDb) : Screen → Prop
  | .setup f => db = [] ∧ FormInv 3 f
  | .login f => db ≠ [] ∧ FormInv 2 f
  | .desktop u => u ∈ db
  | .off => True

structure SessionInv (s : Session) : Prop where
  users : ∀ u ∈ s.db, UserInv u
  one : s.db.length ≤ 1
  screen : ScreenInv s.db s.screen

/-- The desktop is entered from the login screen with the name and the password of a user. -/
def EntersAs (s : Session) (_ : SessionInput) (t : Session) : Prop :=
  ∀ u, t.screen = .desktop u → u ∈ s.db ∧
    ∃ f, s.screen = .login f ∧ f.username = u.username ∧ f.password = u.passwordHash

/-- The setup ends with a user who has typed the password twice. -/
def CreatesUser (s : Session) (_ : SessionInput) (t : Session) : Prop :=
  ∀ f, s.screen = .setup f → (∀ g, t.screen ≠ .setup g) →
    f.password2 = f.password ∧ t.db = [⟨f.username, f.password, true⟩]

variable {f : LoginForm} {fr : LoginFrame} {ev : KbdEvent} {db : UserDb} {fields n : Int} {max : Nat}
  {s : CStr} {c : Byte}

theorem typed_nil (h : 0 < max) : Typed max [] := ⟨h, fun _ hc => absurd hc List.not_mem_nil⟩

theorem Typed.backspace (h : Typed max s) : Typed max (backspace max s) := by
  refine ⟨?_, fun c hc => h.2 c (List.dropLast_subset s hc)⟩
  have hlt := h.1
  change s.dropLast.length < max
  rw [List.length_dropLast]
  omega

theorem Typed.typeChar (h : Typed max s) (hc : Printable c) : Typed max (typeChar c max s) := by
  unfold Os.typeChar
  split
  case isTrue hlt =>
    refine ⟨?_, ?_⟩
    · rw [List.length_append, List.length_singleton]
      omega
    · intro d hd
      rcases List.mem_append.mp hd with hd | hd
      · exact h.2 d hd
      · exact List.mem_singleton.mp hd ▸ hc
  case isFalse => exact h

theorem setFocus_bounds (hn : 0 < fields) : 0 ≤ setFocus n fields ∧ setFocus n fields < fields := by
  unfold setFocus
  dsimp only
  split <;> split <;> omega

theorem FormInv.setFocus (h : FormInv fields f) (hn : 0 < fields) {e : Bool} :
    FormInv fields { f with focus := Os.setFocus n fields, error := e } :=
  ⟨h.username, h.password, h.password2, (setFocus_bounds hn).1, (setFocus_bounds hn).2⟩

theorem FormInv.edit (h : FormInv fields f) {g : Nat → CStr → CStr}
    (hg : ∀ max s, Typed max s → Typed max (g max s)) : FormInv fields (f.edit fields g) := by
  unfold LoginForm.edit
  split
  · exact ⟨hg _ _ h.username, h.password, h.password2, h.focus_nonneg, h.focus_lt⟩
  · split
    · exact ⟨h.username, hg _ _ h.password, h.password2, h.focus_nonneg, h.focus_lt⟩
    · exact ⟨h.username, h.password, hg _ _ h.password2, h.focus_nonneg, h.focus_lt⟩

/-- `f` with the focus, the error and the button of a later pass: the texts are the same. -/
def SameTexts (f g : LoginForm) : Prop :=
  g.username = f.username ∧ g.password = f.password ∧ g.password2 = f.password2

/-- The table that the setup of `f` leaves. -/
def Created (f : LoginForm) (db : UserDb) : Prop :=
  f.password2 = f.password ∧ db = [⟨f.username, f.password, true⟩] ∧ f.username ≠ [] ∧ f.password ≠ []

theorem setupSubmit_ends (h : FormInv 3 f) (password2 : CStr)
    (heq : f.password = password2 → f.password2 = f.password) :
    Ends (fun g => FormInv 3 g ∧ g.password = []) (Created f) (setupSubmit [] f password2) := by
  have hfail : ∀ msg : CStr, Ends (fun g => FormInv 3 g ∧ g.password = []) (Created f)
      (.ok { f with error := true, errorMsg := msg.take 63, password := [], password2 := [], focus := 1 }) := by
    intro msg
    exact ⟨⟨h.username, typed_nil (by decide), typed_nil (by decide), Int.one_nonneg,
      show (1 : Int) < 3 by omega⟩, rfl⟩
  unfold setupSubmit tryCreateUser
  by_cases hname : f.username.length < 1
  · rw [if_pos hname]
    exact hfail _
  rw [if_neg hname]
  by_cases hpass : f.password.length < 1
  · rw [if_pos hpass]
    exact hfail _
  rw [if_neg hpass]
  by_cases hsame : f.password = password2
  · rw [if_neg (not_not_intro hsame)]
    refine ⟨heq hsame, ?_, ?_, ?_⟩
    · have hu : f.username.take (loginUsernameMax - 1) = f.username :=
        List.take_of_length_le (Nat.le_sub_one_of_lt h.username.1)
      have hp : f.password.take (loginPasswordMax - 1) = f.password :=
        List.take_of_length_le (Nat.le_sub_one_of_lt h.password.1)
      change [OsUser.mk _ _ _] = _
      rw [hu, hp]
    · rintro hnil
      rw [hnil] at hname
      exact hname Nat.one_pos
    · rintro hnil
      rw [hnil] at hpass
      exact hpass Nat.one_pos
  · rw [if_pos hsame]
    exact hfail _

/-- The uninitialised bytes behind a long second password never make it equal to another one. -/
theorem eq_pw2Tmp (h : FormInv 3 f) (junk : CStr) (heq : f.password = pw2Tmp f.password2 junk) :
    f.password2 = f.password := by
  have hlt := h.password.1
  have hlt2 := h.password2.1
  unfold pw2Tmp at heq
  split at heq
  case isTrue => exact heq.symm
  case isFalse hlong =>
    have hlen := congrArg List.length heq
    have htake : f.password2.take (loginPasswordMax - 1) = f.password2 :=
      List.take_of_length_le (Nat.le_sub_one_of_lt hlt2)
    rw [htake] at heq hlen
    rw [List.length_append] at hlen
    have hjunk : junk = [] := List.length_eq_zero_iff.mp (by omega)
    rw [heq, hjunk, List.append_nil]

/-- After a click the texts are the same, or the passwords are gone. -/
theorem setupClick_ends (h : FormInv 3 f) :
    Ends (fun g => FormInv 3 g ∧ (SameTexts f g ∨ g.password = [])) (Created f)
      (setupClick [] f fr) := by
  unfold setupClick
  split
  · exact ⟨h.setFocus (by decide), .inl ⟨rfl, rfl, rfl⟩⟩
  split
  · exact ⟨h.setFocus (by decide), .inl ⟨rfl, rfl, rfl⟩⟩
  split
  · exact ⟨h.setFocus (by decide), .inl ⟨rfl, rfl, rfl⟩⟩
  split
  · have hsubmit := setupSubmit_ends h _ (eq_pw2Tmp h fr.junk)
    cases hresult : setupSubmit [] f (pw2Tmp f.password2 fr.junk) with
    | ok g =>
      rw [hresult] at hsubmit
      exact ⟨hsubmit.1, .inr hsubmit.2⟩
    | error db =>
      rw [hresult] at hsubmit
      exact hsubmit
  · exact ⟨h, .inl ⟨rfl, rfl, rfl⟩⟩

theorem setupKey_ends {g : LoginForm} (h : FormInv 3 g) (hg : SameTexts f g ∨ g.password = []) :
    Ends (FormInv 3) (Created f) (setupKey [] g ev) := by
  have hinv : FormInv 3 { g with error := false } :=
    ⟨h.username, h.password, h.password2, h.focus_nonneg, h.focus_lt⟩
  unfold setupKey
  dsimp only
  split
  · exact h.setFocus (by decide)
  split
  · exact h.setFocus (by decide)
  split
  · exact h.setFocus (by decide)
  split
  · have hsubmit := setupSubmit_ends hinv g.password2 Eq.symm
    cases hresult : setupSubmit [] { g with error := false } g.password2 with
    | ok g' =>
      rw [hresult] at hsubmit
      exact hsubmit.1
    | error db =>
      rw [hresult] at hsubmit
      obtain ⟨htwice, hdb, hname, hpass⟩ := hsubmit
      rcases hg with ⟨hu, hp, hp2⟩ | hnil
      · unfold Created
        rw [← hu, ← hp, ← hp2]
        exact ⟨htwice, hdb, hname, hpass⟩
      · exact absurd hnil hpass
  split
  · exact hinv.edit fun _ _ => Typed.backspace
  split
  case isTrue hc => exact hinv.edit fun _ _ ht => ht.typeChar hc
  case isFalse => exact hinv

theorem setupFrame_ends (h : FormInv 3 f) (fr : LoginFrame) :
    Ends (FormInv 3) (Created f) (setupFrame [] f fr) := by
  have hinv : FormInv 3 { f with prevBtn := fr.btn } :=
    ⟨h.username, h.password, h.password2, h.focus_nonneg, h.focus_lt⟩
  have hclick : Ends (fun g => FormInv 3 g ∧ (SameTexts f g ∨ g.password = [])) (Created f)
      (if f.clicked fr then setupClick [] { f with prevBtn := fr.btn } fr
        else pure { f with prevBtn := fr.btn }) := by
    split
    · exact setupClick_ends hinv
    · exact ⟨hinv, .inl ⟨rfl, rfl, rfl⟩⟩
  unfold setupFrame
  refine Ends.bind hclick ?_
  rintro g ⟨hg, htexts⟩
  unfold setupPoll
  cases fr.key with
  | none => exact hg
  | some ev =>
    dsimp only
    split
    · exact hg
    · exact setupKey_ends hg htexts

/-- The user who is let in, and the texts of the form. -/
def LetsIn (db : UserDb) (f : LoginForm) (u : OsUser) : Prop :=
  u ∈ db ∧ f.username = u.username ∧ f.password = u.passwordHash

theorem doLogin_ends (h : FormInv 2 f) : Ends (FormInv 2) (LetsIn db f) (doLogin db f) := by
  unfold doLogin
  cases hfound : checkLogin db f.username f.password with
  | some u =>
    have hmatch := List.find?_some hfound
    rw [Bool.and_eq_true, decide_eq_true_iff, decide_eq_true_iff] at hmatch
    exact ⟨List.mem_of_find?_eq_some hfound, hmatch.1.symm, hmatch.2.symm⟩
  | none =>
    exact ⟨h.username, typed_nil (by decide), h.password2, Int.le_refl 0,
      show (0 : Int) < 2 by omega⟩

theorem loginPoll_ends (h : FormInv 2 f) (key : Option KbdEvent) :
    Ends (FormInv 2) (LetsIn db f) (loginPoll db f key) := by
  have hinv : FormInv 2 { f with error := false } :=
    ⟨h.username, h.password, h.password2, h.focus_nonneg, h.focus_lt⟩
  unfold loginPoll
  cases key with
  | none => exact h
  | some ev =>
    dsimp only
    split
    · exact h
    unfold loginKey
    dsimp only
    split
    · exact h.setFocus (by decide)
    split
    · exact h.setFocus (by decide)
    split
    · exact h.setFocus (by decide)
    split
    · have hends : Ends (FormInv 2) (LetsIn db { f with error := false })
          (doLogin db { f with error := false }) := doLogin_ends hinv
      exact hends
    split
    · exact hinv.edit fun _ _ => Typed.backspace
    split
    case isTrue hc => exact hinv.edit fun _ _ ht => ht.typeChar hc
    case isFalse => exact hinv

theorem loginFrame_ends (db : UserDb) (h : FormInv 2 f) (fr : LoginFrame) :
    Ends (FormInv 2) (LetsIn db f) (loginFrame db f fr) := by
  have hinv : FormInv 2 { f with prevBtn := fr.btn } :=
    ⟨h.username, h.password, h.password2, h.focus_nonneg, h.focus_lt⟩
  unfold loginFrame
  dsimp only
  split
  · split
    · exact loginPoll_ends (hinv.setFocus (by decide)) fr.key
    split
    · exact loginPoll_ends (hinv.setFocus (by decide)) fr.key
    split
    · exact doLogin_ends hinv
    · exact loginPoll_ends hinv fr.key
  · exact loginPoll_ends hinv fr.key

theorem formInv_empty (hn : 0 < fields) : FormInv fields .empty :=
  ⟨typed_nil (by decide), typed_nil (by decide), typed_nil (by decide), Int.le_refl 0, hn⟩

theorem step_setup_ok {db : UserDb} {f g : LoginForm} {fr : LoginFrame}
    (h : setupFrame db f fr = .ok g) :
    sessionStep ⟨db, .setup f⟩ (.frame fr) = some ⟨db, .setup g⟩ := by
  simp only [sessionStep, h]

theorem step_setup_done {db db' : UserDb} {f : LoginForm} {fr : LoginFrame}
    (h : setupFrame db f fr = .error db') :
    sessionStep ⟨db, .setup f⟩ (.frame fr) = some ⟨db', .login .empty⟩ := by
  simp only [sessionStep, h]

theorem step_login_ok {db : UserDb} {f g : LoginForm} {fr : LoginFrame}
    (h : loginFrame db f fr = .ok g) :
    sessionStep ⟨db, .login f⟩ (.frame fr) = some ⟨db, .login g⟩ := by
  simp only [sessionStep, h]

theorem step_login_done {db : UserDb} {f : LoginForm} {fr : LoginFrame} {user : OsUser}
    (h : loginFrame db f fr = .error user) :
    sessionStep ⟨db, .login f⟩ (.frame fr) = some ⟨db, .desktop user⟩ := by
  simp only [sessionStep, h]

/-- What a step of the session does. -/
theorem sessionStep_inv {a : SessionInput} {s t : Session} (h : SessionInv s)
    (hstep : sessionStep s a = some t) : SessionInv t ∧ EntersAs s a t ∧ CreatesUser s a t := by
  obtain ⟨db, screen⟩ := s
  obtain ⟨husers, hone, hscreen⟩ := h
  cases a with
  | frame fr =>
    cases screen with
    | setup f =>
      obtain ⟨hdb, hform⟩ := hscreen
      dsimp only at hdb
      subst hdb
      have hends := setupFrame_ends hform fr
      cases hframe : setupFrame [] f fr with
      | ok g =>
        rw [step_setup_ok hframe] at hstep
        rw [hframe] at hends
        cases hstep
        refine ⟨⟨husers, hone, rfl, hends⟩, ?_, ?_⟩
        · intro u hu
          cases hu
        · intro f' _ hnot
          exact absurd rfl (hnot g)
      | error db =>
        rw [step_setup_done hframe] at hstep
        rw [hframe] at hends
        cases hstep
        obtain ⟨htwice, hdb, hname, hpass⟩ := hends
        refine ⟨⟨?_, ?_, ?_, formInv_empty (by decide)⟩, ?_, ?_⟩
        · intro u hu
          rw [hdb, List.mem_singleton] at hu
          subst hu
          exact ⟨⟨hform.username, hname⟩, ⟨hform.password, hpass⟩, rfl⟩
        · rw [hdb]
          exact Nat.le_refl 1
        · rw [hdb]
          exact List.cons_ne_nil _ _
        · intro u hu
          cases hu
        · intro f' hf' _
          cases hf'
          exact ⟨htwice, hdb⟩
    | login f =>
      obtain ⟨hdb, hform⟩ := hscreen
      have hends := loginFrame_ends db hform fr
      cases hframe : loginFrame db f fr with
      | ok g =>
        rw [step_login_ok hframe] at hstep
        rw [hframe] at hends
        cases hstep
        refine ⟨⟨husers, hone, hdb, hends⟩, ?_, ?_⟩
        · intro u hu
          cases hu
        · intro f' hf' _
          cases hf'
      | error u =>
        rw [step_login_done hframe] at hstep
        rw [hframe] at hends
        cases hstep
        obtain ⟨hmem, hname, hpass⟩ := hends
        refine ⟨⟨husers, hone, hmem⟩, ?_, ?_⟩
        · intro u' hu'
          cases hu'
          exact ⟨hmem, f, rfl, hname, hpass⟩
        · intro f' hf' _
          cases hf'
    | desktop u => cases hstep
    | off => cases hstep
  | logout =>
    cases screen with
    | desktop u =>
      cases hstep
      have hne : db ≠ [] := List.ne_nil_of_mem hscreen
      have hlen : ¬ db.length = 0 := fun hzero => hne (List.length_eq_zero_iff.mp hzero)
      unfold loginRun
      rw [if_neg hlen]
      refine ⟨⟨husers, hone, hne, formInv_empty (by decide)⟩, ?_, ?_⟩
      · intro u hu
        cases hu
      · intro f' hf' _
        cases hf'
    | setup f => cases hstep
    | login f => cases hstep
    | off => cases hstep
  | shutdown =>
    cases screen with
    | desktop u =>
      cases hstep
      refine ⟨⟨husers, hone, trivial⟩, ?_, ?_⟩
      · intro u hu
        cases hu
      · intro f' hf' _
        cases hf'
    | setup f => cases hstep
    | login f => cases hstep
    | off => cases hstep

theorem sessionInv_start : SessionInv sessionStart where
  users := fun _ hu => absurd hu List.not_mem_nil
  one := Nat.zero_le 1
  screen := ⟨rfl, formInv_empty (by decide)⟩

/-- Whatever is clicked and typed: the setup makes one user, whose password was typed twice, no
field ever holds more than it has room for, and the desktop is only entered with that user's name
and password in the fields. -/
theorem session_safe (inputs : List SessionInput) :
    Run.EveryState sessionStep SessionInv sessionStart inputs ∧
    Run.EveryStep sessionStep (fun s a t => EntersAs s a t ∧ CreatesUser s a t) sessionStart
      inputs := by
  have hall : Run.EveryStep sessionStep (fun _ _ _ => True) sessionStart inputs :=
    Run.everyStep_of_forall (A := fun _ => True) fun _ _ => trivial
  constructor
  · refine hall.everyState ?_ (fun s h => h) sessionInv_start
    intro s a t hs hstep _
    exact (sessionStep_inv hs hstep).1
  · refine hall.mono ?_ sessionInv_start
    intro s a t hs hstep _
    exact sessionStep_inv hs hstep

end PinguinOS.Os
