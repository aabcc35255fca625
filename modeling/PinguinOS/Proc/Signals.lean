import Mathlib.Data.List.Basic
import PinguinOS.Lib.BitTable
import PinguinOS.Lib.Run
import PinguinOS.Mm.Process

/-! Signals: what the delivery loop leaves of a process. -/
namespace PinguinOS.Proc

open Mm

def sigKill : Nat := 9
def sigTerm : Nat := 15
def sigChld : Nat := 17
def sigCont : Nat := 18
def sigStop : Nat := 19
def nSig : Nat := 32

inductive ProcState
  | unused
  | running
  | ready
  | blocked
  | zombie
  | stopped
  deriving DecidableEq

/-- `sig_handler_t`, as the pointer it is. -/
abbrev SigHandler := Nat

def sigDfl : SigHandler := 0
def sigIgn : SigHandler := 1

/-- `process_t`, without descriptors and statistics. -/
structure Pcb extends Process where
  pid : Nat
  ppid : Nat
  pgid : Nat
  sid : Nat
  state : ProcState
  exitCode : Int
  sigPending : BitVec 32
  sigMask : BitVec 32
  sigHandlers : Nat → SigHandler
  kstackTop : Nat
  kstackPhys : Nat
  name : String

/-- `1U << sig` -/
def sigBit (sig : Nat) : BitVec 32 := 1#32 <<< sig

def sigDefaultAction (proc : Pcb) (sig : Nat) : Pcb :=
  if sig = sigKill ∨ sig = sigTerm then { proc with state := .zombie, exitCode := 128 + sig }
  else if sig = sigStop then { proc with state := .stopped }
  else if sig = sigCont then
    if proc.state = .stopped then { proc with state := .ready } else proc
  else if sig = sigChld then proc
  else { proc with state := .zombie, exitCode := 128 + sig }

def procSignal (proc : Pcb) (sig : Int) : Pcb :=
  if sig ≤ 0 ∨ sig ≥ nSig then proc
  else if proc.sigMask &&& sigBit sig.toNat ≠ 0 then proc
  else { proc with sigPending := proc.sigPending ||| sigBit sig.toNat }

def procSetSighandler (proc : Pcb) (sig : Int) (handler : SigHandler) : Pcb :=
  if sig ≤ 0 ∨ sig ≥ nSig then proc
  else if sig = sigKill ∨ sig = sigStop then proc
  else { proc with sigHandlers := Function.update proc.sigHandlers sig.toNat handler }

/-- One round of the loop of `proc_handle_signals`; a handler that is called leaves the process as
it is. -/
def handleSignal (proc : Pcb) (sig : Nat) : Pcb :=
  if proc.sigPending &&& sigBit sig = 0 then proc
  else
    let proc := { proc with sigPending := proc.sigPending &&& ~~~sigBit sig }
    if proc.sigHandlers sig = sigIgn then proc
    else if proc.sigHandlers sig = sigDfl then sigDefaultAction proc sig
    else proc

/-- `for (int sig = 1; sig < NSIG; sig++)` -/
def sigNumbers : List Nat := List.range' 1 (nSig - 1)

def procHandleSignals (proc : Pcb) : Pcb :=
  if proc.sigPending = 0 then proc else sigNumbers.foldl handleSignal proc

/-! Which of the signals decide about the state. -/

/-- Delivered with its default disposition. -/
def Pcb.Delivers (proc : Pcb) (sig : Nat) : Prop :=
  proc.sigPending &&& sigBit sig ≠ 0 ∧ proc.sigHandlers sig = sigDfl

instance {proc : Pcb} {sig : Nat} : Decidable (proc.Delivers sig) :=
  inferInstanceAs (Decidable (proc.sigPending &&& sigBit sig ≠ 0 ∧ proc.sigHandlers sig = sigDfl))

def Fatal (sig : Nat) : Prop := sig ≠ sigStop ∧ sig ≠ sigCont ∧ sig ≠ sigChld

instance {sig : Nat} : Decidable (Fatal sig) :=
  inferInstanceAs (Decidable (sig ≠ sigStop ∧ sig ≠ sigCont ∧ sig ≠ sigChld))

/-- The first fatal signal that a call of `proc_handle_signals` delivers. -/
def Pcb.firstFatal (proc : Pcb) : Option Nat :=
  sigNumbers.find? fun sig => proc.Delivers sig ∧ Fatal sig

/-- The last signal it delivers that is fatal or stops the process. -/
def Pcb.lastDecisive (proc : Pcb) : Option Nat :=
  (sigNumbers.filter fun sig => proc.Delivers sig ∧ (Fatal sig ∨ sig = sigStop)).getLast?

inductive SignalCall
  | signal (sig : Int)
  | setSighandler (sig : Int) (handler : SigHandler)
  | handleSignals

/-- A process and the first fatal signal that was delivered to it. -/
structure Signalled where
  proc : Pcb
  killer : Option Nat

def Signalled.step (s : Signalled) : SignalCall → Option Signalled
  | .signal sig => some { s with proc := procSignal s.proc sig }
  | .setSighandler sig handler => some { s with proc := procSetSighandler s.proc sig handler }
  | .handleSignals =>
    some { proc := procHandleSignals s.proc, killer := s.killer <|> s.proc.firstFatal }

/-- A process that was killed is a zombie, and its exit code names the killer. -/
def Signalled.Final (s : Signalled) : Prop :=
  ∀ sig, s.killer = some sig → s.proc.state = .zombie ∧ s.proc.exitCode = 128 + sig

/-- Death is final in the state after the call, and a delivered `SIGKILL` has killed. -/
def DeathFinal (s : Signalled) (c : SignalCall) (t : Signalled) : Prop :=
  t.Final ∧ (c = .handleSignals → s.proc.sigPending &&& sigBit sigKill ≠ 0 →
    t.proc.state = .zombie)

/-- Of the signals that a call delivers to a process it kills, or to one that is dead, the last
that is fatal or stops is the one that killed it. -/
def KillerLast (s : Signalled) (c : SignalCall) (_ : Signalled) : Prop :=
  c = .handleSignals → ∀ sig last, (s.killer <|> s.proc.firstFatal) = some sig →
    s.proc.lastDecisive = some last → last = sig

variable {proc : Pcb} {sig a b : Nat} {sigs : List Nat} {s t : Signalled} {c : SignalCall}
  {calls : List SignalCall}

/-- Clearing one bit of the mask leaves the others. -/
theorem sigBit_clear {x : BitVec 32} (hne : a ≠ b) :
    (x &&& ~~~sigBit a) &&& sigBit b = x &&& sigBit b := by
  apply BitVec.eq_of_getLsbD_eq
  intro i hi
  unfold sigBit
  rw [BitVec.getLsbD_and, BitVec.getLsbD_and, BitVec.getLsbD_and, BitVec.getLsbD_not,
    BitTable.getLsbD_one_shiftLeft hi, BitTable.getLsbD_one_shiftLeft hi]
  by_cases hib : b = i
  · subst hib
    simp [hne, hi]
  · simp [hib]

/-! What the delivered signals leave of state and exit code. -/

theorem sigDefaultAction_kept : (sigDefaultAction proc sig).sigHandlers = proc.sigHandlers ∧
    (sigDefaultAction proc sig).sigPending = proc.sigPending := by
  unfold sigDefaultAction
  split_ifs <;> exact ⟨rfl, rfl⟩

/-- It does not look at the pending signals. -/
theorem sigDefaultAction_pending {pending : BitVec 32} :
    sigDefaultAction { proc with sigPending := pending } sig =
      { sigDefaultAction proc sig with sigPending := pending } := by
  unfold sigDefaultAction
  split_ifs <;> rfl

theorem handleSignal_sigHandlers : (handleSignal proc sig).sigHandlers = proc.sigHandlers := by
  unfold handleSignal
  dsimp only
  rw [sigDefaultAction_pending]
  split_ifs
  · rfl
  · rfl
  · exact sigDefaultAction_kept.1
  · rfl

theorem handleSignal_sigPending (hne : sig ≠ a) :
    (handleSignal proc sig).sigPending &&& sigBit a = proc.sigPending &&& sigBit a := by
  have hclear := @sigBit_clear sig a proc.sigPending hne
  unfold handleSignal
  dsimp only
  rw [sigDefaultAction_pending]
  split_ifs
  · rfl
  · exact hclear
  · exact hclear
  · exact hclear

/-- The signal does not bear on the delivery of another one. -/
theorem handleSignal_delivers (hne : sig ≠ a) :
    (handleSignal proc sig).Delivers a ↔ proc.Delivers a := by
  unfold Pcb.Delivers
  rw [handleSignal_sigHandlers, handleSignal_sigPending hne]

/-- State and exit code after one round. -/
theorem handleSignal_of_delivers (h : proc.Delivers sig) :
    (handleSignal proc sig).state = (sigDefaultAction proc sig).state ∧
      (handleSignal proc sig).exitCode = (sigDefaultAction proc sig).exitCode := by
  have hdfl : ¬ sigDfl = sigIgn := by decide
  unfold handleSignal
  rw [if_neg h.1]
  dsimp only
  rw [h.2, if_neg hdfl, if_pos rfl, sigDefaultAction_pending]
  exact ⟨rfl, rfl⟩

theorem handleSignal_of_not (h : ¬ proc.Delivers sig) :
    (handleSignal proc sig).state = proc.state ∧
      (handleSignal proc sig).exitCode = proc.exitCode := by
  unfold handleSignal
  dsimp only
  split_ifs with hpending hign hdfl
  · exact ⟨rfl, rfl⟩
  · exact ⟨rfl, rfl⟩
  · exact absurd ⟨hpending, hdfl⟩ h
  · exact ⟨rfl, rfl⟩

/-- A signal that is fatal or stops, and one that is neither. -/
theorem sigDefaultAction_cases (proc : Pcb) (sig : Nat) :
    Fatal sig ∧ (sigDefaultAction proc sig).state = .zombie ∧
        (sigDefaultAction proc sig).exitCode = 128 + sig ∨
      sig = sigStop ∧ (sigDefaultAction proc sig).state = .stopped ∨
      ¬ Fatal sig ∧ sig ≠ sigStop ∧
        (sigDefaultAction proc sig).exitCode = proc.exitCode ∧
        ((sigDefaultAction proc sig).state = .zombie ↔ proc.state = .zombie) := by
  unfold sigDefaultAction
  by_cases hkill : sig = sigKill ∨ sig = sigTerm
  · have hfatal : Fatal sig := by
      rcases hkill with rfl | rfl
      · decide
      · decide
    rw [if_pos hkill]
    exact Or.inl ⟨hfatal, rfl, rfl⟩
  rw [if_neg hkill]
  by_cases hstop : sig = sigStop
  · rw [if_pos hstop]
    exact Or.inr (Or.inl ⟨hstop, rfl⟩)
  rw [if_neg hstop]
  by_cases hcont : sig = sigCont
  · rw [if_pos hcont]
    refine Or.inr (Or.inr ⟨fun hfatal => hfatal.2.1 hcont, hstop, ?_, ?_⟩)
    · split_ifs <;> rfl
    · split_ifs with hstopped
      · simp [hstopped]
      · rfl
  rw [if_neg hcont]
  by_cases hchld : sig = sigChld
  · rw [if_pos hchld]
    exact Or.inr (Or.inr ⟨fun hfatal => hfatal.2.2 hchld, hstop, rfl, Iff.rfl⟩)
  · rw [if_neg hchld]
    exact Or.inl ⟨⟨hstop, hcont, hchld⟩, rfl, rfl⟩

/-- What the last decisive signal, if any, leaves. -/
def Outcome (before after : Pcb) : Option Nat → Prop
  | none => after.exitCode = before.exitCode ∧ (after.state = .zombie ↔ before.state = .zombie)
  | some last =>
    (last = sigStop → after.state ≠ .zombie) ∧
      (last ≠ sigStop → after.state = .zombie ∧ after.exitCode = 128 + last)

/-- One more signal at the end of the loop. -/
theorem outcome_snoc {before after : Pcb} {last : Option Nat} (h : Outcome before after last)
    (hdelivers : after.Delivers sig ↔ before.Delivers sig) :
    Outcome before (handleSignal after sig)
      ((if before.Delivers sig ∧ (Fatal sig ∨ sig = sigStop) then some sig else none) <|> last) := by
  by_cases hb : before.Delivers sig
  · obtain ⟨hstate, hexit⟩ := handleSignal_of_delivers (hdelivers.mpr hb)
    rcases sigDefaultAction_cases after sig with ⟨hfatal, hz, he⟩ | ⟨rfl, hs⟩ | ⟨hnot, hstop, he, hz⟩
    · rw [if_pos ⟨hb, Or.inl hfatal⟩]
      exact ⟨fun hstop => absurd hstop hfatal.1, fun _ => ⟨hstate.trans hz, hexit.trans he⟩⟩
    · rw [if_pos ⟨hb, Or.inr rfl⟩]
      refine ⟨fun _ => ?_, fun hne => absurd rfl hne⟩
      rw [hstate, hs]
      decide
    · rw [if_neg (fun hboth => hboth.2.elim hnot hstop)]
      rw [← hstate] at hz
      rw [← hexit] at he
      cases last with
      | none => exact ⟨he.trans h.1, hz.trans h.2⟩
      | some k =>
        exact ⟨fun hk => fun hzombie => h.1 hk (hz.mp hzombie),
          fun hk => ⟨hz.mpr (h.2 hk).1, he.trans (h.2 hk).2⟩⟩
  · obtain ⟨hstate, hexit⟩ := handleSignal_of_not (fun ha => hb (hdelivers.mp ha))
    rw [if_neg (fun hboth => hb hboth.1)]
    cases last with
    | none =>
      unfold Outcome
      rw [hstate, hexit]
      exact h
    | some k =>
      unfold Outcome
      rw [hstate, hexit]
      exact h

theorem foldl_delivers (hnot : a ∉ sigs) :
    (sigs.foldl handleSignal proc).Delivers a ↔ proc.Delivers a := by
  induction sigs generalizing proc with
  | nil => rfl
  | cons b sigs ih =>
    rw [List.mem_cons, not_or] at hnot
    exact (ih hnot.2).trans (handleSignal_delivers (Ne.symm hnot.1))

theorem outcome_foldl (hnodup : sigs.Nodup) : Outcome proc (sigs.foldl handleSignal proc)
    (sigs.filter fun sig => proc.Delivers sig ∧ (Fatal sig ∨ sig = sigStop)).getLast? := by
  induction sigs using List.reverseRecOn with
  | nil => exact ⟨rfl, Iff.rfl⟩
  | append_singleton sigs sig ih =>
    obtain ⟨hsigs, -, hdisjoint⟩ := List.nodup_append.mp hnodup
    have hnot : sig ∉ sigs := fun hmem => hdisjoint sig hmem sig (List.mem_singleton_self sig) rfl
    have hlast := outcome_snoc (ih hsigs) (foldl_delivers hnot)
    rw [List.foldl_append, List.filter_append]
    by_cases hdecides : proc.Delivers sig ∧ (Fatal sig ∨ sig = sigStop)
    · rw [if_pos hdecides] at hlast
      simpa [List.filter_cons, hdecides] using hlast
    · rw [if_neg hdecides] at hlast
      simpa [List.filter_cons, hdecides] using hlast

theorem outcome_handleSignals : Outcome proc (procHandleSignals proc) proc.lastDecisive := by
  have hnodup : sigNumbers.Nodup := List.nodup_range'
  unfold procHandleSignals
  by_cases hzero : proc.sigPending = 0
  · have hnone : proc.lastDecisive = none := by
      unfold Pcb.lastDecisive
      have hempty : (sigNumbers.filter fun sig =>
          proc.Delivers sig ∧ (Fatal sig ∨ sig = sigStop)) = [] := by
        refine List.filter_eq_nil_iff.mpr fun sig _ => ?_
        simp [Pcb.Delivers, hzero]
      rw [hempty]
      rfl
    rw [if_pos hzero, hnone]
    exact ⟨rfl, Iff.rfl⟩
  · rw [if_neg hzero]
    exact outcome_foldl hnodup

theorem procHandleSignals_sigHandlers : (procHandleSignals proc).sigHandlers = proc.sigHandlers := by
  have hfold : ∀ (sigs : List Nat) (proc : Pcb),
      (sigs.foldl handleSignal proc).sigHandlers = proc.sigHandlers := by
    intro sigs
    induction sigs with
    | nil => exact fun _ => rfl
    | cons sig sigs ih => exact fun proc => (ih _).trans handleSignal_sigHandlers
  unfold procHandleSignals
  split_ifs
  · rfl
  · exact hfold _ _

/-! Runs -/

/-- The killer was fatal, and nothing handles `SIGKILL`. -/
structure Signalled.Inv (s : Signalled) : Prop where
  fatal : ∀ sig, s.killer = some sig → Fatal sig
  kill : s.proc.sigHandlers sigKill = sigDfl
  final : s.Final

theorem firstFatal_fatal (h : proc.firstFatal = some sig) : Fatal sig := by
  have hfound := List.find?_some h
  exact (of_decide_eq_true hfound).2

theorem firstFatal_of_delivers (hmem : sig ∈ sigNumbers) (h : proc.Delivers sig)
    (hfatal : Fatal sig) : proc.firstFatal ≠ none := by
  intro hnone
  have hall := List.find?_eq_none.mp hnone sig hmem
  exact hall (decide_eq_true ⟨h, hfatal⟩)

/-- If a fatal signal is delivered, there is a last decisive one. -/
theorem lastDecisive_of_firstFatal (h : proc.firstFatal ≠ none) : proc.lastDecisive ≠ none := by
  intro hnone
  refine h (List.find?_eq_none.mpr fun sig hmem hsig => ?_)
  have hempty := List.getLast?_eq_none_iff.mp hnone
  have hin : sig ∈ sigNumbers.filter fun sig => proc.Delivers sig ∧ (Fatal sig ∨ sig = sigStop) := by
    refine List.mem_filter.mpr ⟨hmem, decide_eq_true ?_⟩
    obtain ⟨hdelivers, hfatal⟩ := of_decide_eq_true hsig
    exact ⟨hdelivers, Or.inl hfatal⟩
  rw [hempty] at hin
  cases hin

theorem final_handleSignals_iff (h : s.Inv) (hstep : s.step .handleSignals = some t) :
    t.Final ↔ KillerLast s .handleSignals t := by
  cases hstep
  have hout := @outcome_handleSignals s.proc
  unfold Signalled.Final KillerLast
  constructor
  · intro hfinal _ sig last hkiller hlast
    rw [hlast] at hout
    obtain ⟨hzombie, hexit⟩ := hfinal sig hkiller
    by_cases hstop : last = sigStop
    · exact absurd hzombie (hout.1 hstop)
    · have hcode := (hout.2 hstop).2
      dsimp only at hexit
      omega
  · intro hlastIs sig hkiller
    have hfatal : Fatal sig := by
      cases hk : s.killer with
      | some old =>
        rw [hk] at hkiller
        obtain rfl : old = sig := Option.some.inj hkiller
        exact h.fatal old hk
      | none =>
        rw [hk] at hkiller
        exact firstFatal_fatal hkiller
    cases hlast : s.proc.lastDecisive with
    | some last =>
      rw [hlast] at hout
      obtain rfl := hlastIs rfl sig last hkiller hlast
      exact hout.2 hfatal.1
    | none =>
      rw [hlast] at hout
      have hnone : s.proc.firstFatal = none :=
        not_not.mp fun hsome => lastDecisive_of_firstFatal hsome hlast
      have hk : s.killer = some sig := by
        rw [hnone] at hkiller
        cases hk : s.killer with
        | some old =>
          rw [hk] at hkiller
          exact hkiller
        | none =>
          rw [hk] at hkiller
          cases hkiller
      obtain ⟨hzombie, hexit⟩ := h.final sig hk
      exact ⟨hout.2.mpr hzombie, hout.1.trans hexit⟩

theorem deathFinal_iff_killerLast (h : s.Inv) (hstep : s.step c = some t) :
    (DeathFinal s c t ↔ KillerLast s c t) ∧ (KillerLast s c t → t.Inv) := by
  cases c with
  | signal sig =>
    cases hstep
    have hsame : (procSignal s.proc sig).state = s.proc.state ∧
        (procSignal s.proc sig).exitCode = s.proc.exitCode ∧
        (procSignal s.proc sig).sigHandlers = s.proc.sigHandlers := by
      unfold procSignal
      split_ifs <;> exact ⟨rfl, rfl, rfl⟩
    obtain ⟨hstate, hexit, hhandlers⟩ := hsame
    have hfinal : Signalled.Final { s with proc := procSignal s.proc sig } := by
      intro k hk
      dsimp only
      rw [hstate, hexit]
      exact h.final k hk
    refine ⟨iff_of_true ⟨hfinal, fun hc => nomatch hc⟩ (fun hc => nomatch hc), fun _ => ?_⟩
    refine ⟨h.fatal, ?_, hfinal⟩
    dsimp only
    rw [hhandlers]
    exact h.kill
  | setSighandler sig handler =>
    cases hstep
    have hsame : (procSetSighandler s.proc sig handler).state = s.proc.state ∧
        (procSetSighandler s.proc sig handler).exitCode = s.proc.exitCode ∧
        (procSetSighandler s.proc sig handler).sigHandlers sigKill = s.proc.sigHandlers sigKill := by
      unfold procSetSighandler
      split_ifs with hrange hfixed
      · exact ⟨rfl, rfl, rfl⟩
      · exact ⟨rfl, rfl, rfl⟩
      · refine ⟨rfl, rfl, Function.update_of_ne ?_ _ _⟩
        intro heq
        refine hfixed (Or.inl ?_)
        omega
    obtain ⟨hstate, hexit, hkill⟩ := hsame
    have hfinal : Signalled.Final { s with proc := procSetSighandler s.proc sig handler } := by
      intro k hk
      dsimp only
      rw [hstate, hexit]
      exact h.final k hk
    refine ⟨iff_of_true ⟨hfinal, fun hc => nomatch hc⟩ (fun hc => nomatch hc), fun _ => ?_⟩
    exact ⟨h.fatal, hkill.trans h.kill, hfinal⟩
  | handleSignals =>
    have hiff := final_handleSignals_iff h hstep
    cases hstep
    have hfatal : ∀ sig, (s.killer <|> s.proc.firstFatal) = some sig → Fatal sig := by
      intro sig hkiller
      cases hk : s.killer with
      | some old =>
        rw [hk] at hkiller
        obtain rfl : old = sig := Option.some.inj hkiller
        exact h.fatal old hk
      | none =>
        rw [hk] at hkiller
        exact firstFatal_fatal hkiller
    refine ⟨⟨fun hdeath => hiff.mp hdeath.1, fun hlast => ⟨hiff.mpr hlast, fun _ hpending => ?_⟩⟩,
      fun hlast => ⟨hfatal, ?_, hiff.mpr hlast⟩⟩
    swap
    · dsimp only
      rw [procHandleSignals_sigHandlers]
      exact h.kill
    have hsome : s.proc.firstFatal ≠ none :=
      firstFatal_of_delivers (by decide) ⟨hpending, h.kill⟩ (by decide)
    obtain ⟨first, hfirst⟩ := Option.ne_none_iff_exists'.mp hsome
    cases hk : s.killer with
    | some old => exact (hiff.mpr hlast old (by rw [hk]; rfl)).1
    | none => exact (hiff.mpr hlast first (by rw [hk]; exact hfirst)).1

/-- In a run of signal calls death is final exactly when every call that delivers to a process it
kills, or to a dead one, delivers its killer last of all that is fatal or stops. -/
theorem deathFinal_iff (hkill : proc.sigHandlers sigKill = sigDfl) :
    Run.EveryStep Signalled.step DeathFinal ⟨proc, none⟩ calls ↔
      Run.EveryStep Signalled.step KillerLast ⟨proc, none⟩ calls := by
  refine Run.everyStep_iff (I := Signalled.Inv) (fun _ _ _ h hstep => ?_)
    ⟨fun _ hk => (nomatch hk), hkill, fun _ hk => (nomatch hk)⟩
  exact deathFinal_iff_killerLast h hstep

/-- A process as `proc_create` leaves it. -/
def newProc : Pcb where
  cr3 := 0
  vmaList := []
  pid := 1
  ppid := 0
  pgid := 1
  sid := 1
  state := .ready
  exitCode := 0
  sigPending := 0
  sigMask := 0
  sigHandlers := fun _ => sigDfl
  kstackTop := 0x107000
  kstackPhys := 0x105000
  name := "init"

theorem deathFinal_iff_newProc :
    Run.EveryStep Signalled.step DeathFinal ⟨newProc, none⟩ [.signal 9, .signal 18, .handleSignals] ↔
      Run.EveryStep Signalled.step KillerLast ⟨newProc, none⟩
        [.signal 9, .signal 18, .handleSignals] :=
  deathFinal_iff rfl

/-- `SIGSTOP` is delivered after `SIGKILL` and brings the zombie back. -/
theorem not_deathFinal_newProc :
    ¬ Run.EveryStep Signalled.step DeathFinal ⟨newProc, none⟩
      [.signal 9, .signal 19, .handleSignals] := by
  intro hsteps
  obtain ⟨-, hdeath⟩ := ((hsteps _ rfl).2 _ rfl).2 _ rfl |>.1
  have hpending : (procSignal (procSignal newProc 9) 19).sigPending &&& sigBit sigKill ≠ 0 := by decide
  have hzombie := hdeath rfl hpending
  have hstopped : (procHandleSignals (procSignal (procSignal newProc 9) 19)).state = .stopped := by
    decide +kernel
  rw [hstopped] at hzombie
  cases hzombie

end PinguinOS.Proc
