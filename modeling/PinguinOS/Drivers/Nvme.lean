import Mathlib.Data.BitVec
import Mathlib.Logic.Function.Basic
import Mathlib.Tactic.Common
import PinguinOS.Lib.Ring
import PinguinOS.Lib.Run

/-! Commands and completions of `nvme.c`: one pair of queues, a driver and the controller. -/
namespace PinguinOS.Drivers.Nvme

/-- `NVME_IO_QUEUE_SIZE`, and `NVME_ADMIN_QUEUE_SIZE`. -/
def queueSize : Nat := 16
def ioTimeout : Nat := 2000000
def adminTimeout : Nat := 1000000

/-- `nvme_sqe_t`: the first word and the others. -/
structure Sqe where
  cdw0 : BitVec 32
  body : Nat → BitVec 32

/-- The identifier of a command is in the upper half of the first word. -/
def Sqe.cid (sqe : Sqe) : BitVec 16 := (sqe.cdw0 >>> 16).truncate 16

def Sqe.withCid (sqe : Sqe) (cid : BitVec 16) : Sqe :=
  { sqe with cdw0 := sqe.cdw0 &&& 0xFFFF ||| cid.zeroExtend 32 <<< 16 }

/-- A command, and how many were submitted before it. -/
structure Command where
  sqe : Sqe
  number : Nat

/-- `nvme_cqe_t`, and the number of the command it completes. -/
structure Cqe where
  cmdId : BitVec 16
  status : BitVec 16
  number : Nat

def Cqe.phase (cqe : Cqe) : Bool := cqe.status.getLsbD 0
def Cqe.code (cqe : Cqe) : BitVec 16 := cqe.status >>> 1 &&& 0xFF

/-- Where the driver is in a submission; `left` is the timeout. -/
inductive Pc
  | idle
  | ring
  | poll (left : Nat)
  | ack

/-- The driver, both queues and the controller with the commands it works on. `calls`, `fetched`
and `taken` count submissions, commands the controller consumed and completions taken. -/
structure Queue where
  sq : Nat → Command
  cq : Nat → Cqe
  sqTail : Nat
  cqHead : Nat
  phase : Bool
  cmdId : BitVec 16
  pc : Pc
  result : Int
  sqDoorbell : Nat
  cqDoorbell : Nat
  sqHead : Nat
  cqTail : Nat
  cqPhase : Bool
  inFlight : List Command
  calls : Nat
  fetched : Nat
  taken : Nat

/-- Both queues are zeroed; other commands may have used identifiers before. -/
def queueInit (cmdId : BitVec 16) : Queue where
  sq := fun _ => ⟨⟨0, fun _ => 0⟩, 0⟩
  cq := fun _ => ⟨0, 0, 0⟩
  sqTail := 0
  cqHead := 0
  phase := true
  cmdId := cmdId
  pc := .idle
  result := 0
  sqDoorbell := 0
  cqDoorbell := 0
  sqHead := 0
  cqTail := 0
  cqPhase := true
  inFlight := []
  calls := 0
  fetched := 0
  taken := 0

/-- `nvme_io_submit` and `nvme_admin_submit` up to the doorbell. -/
def submit (s : Queue) (sqe : Sqe) : Option Queue :=
  match s.pc with
  | .idle =>
    some { s with
      sq := Function.update s.sq s.sqTail ⟨sqe.withCid s.cmdId, s.calls⟩
      sqTail := (s.sqTail + 1) % queueSize
      cmdId := s.cmdId + 1
      calls := s.calls + 1
      pc := .ring }
  | _ => none

/-- The completion at the head of the queue is taken. -/
def take (s : Queue) : Queue :=
  let head := (s.cqHead + 1) % queueSize
  { s with
    cqHead := head
    phase := if head = 0 then !s.phase else s.phase
    result := if (s.cq s.cqHead).code = 0 then 0 else -1
    taken := s.taken + 1
    pc := .ack }

/-- And from there on, one round of the loop after the other. -/
def drive (timeout : Nat) (s : Queue) : Option Queue :=
  match s.pc with
  | .idle => none
  | .ring => some { s with sqDoorbell := s.sqTail, pc := .poll timeout }
  | .poll 0 => some { s with result := -1, pc := .idle }
  | .poll (left + 1) =>
    some (if (s.cq s.cqHead).phase = s.phase then take s else { s with pc := .poll left })
  | .ack => some { s with cqDoorbell := s.cqHead, pc := .idle }

/-- The controller consumes the next command. -/
def fetch (s : Queue) : Option Queue :=
  if s.sqHead ≠ s.sqDoorbell then
    some { s with
      inFlight := s.inFlight ++ [s.sq s.sqHead]
      sqHead := (s.sqHead + 1) % queueSize
      fetched := s.fetched + 1 }
  else none

/-- It completes one of its commands, in any order, when the completion queue has room. -/
def post (s : Queue) (i : Nat) (code : BitVec 15) : Option Queue :=
  s.inFlight[i]?.bind fun command =>
    if (s.cqTail + 1) % queueSize ≠ s.cqDoorbell then
      let tail := (s.cqTail + 1) % queueSize
      some { s with
        cq := Function.update s.cq s.cqTail
          ⟨command.sqe.cid, code ++ BitVec.ofBool s.cqPhase, command.number⟩
        cqTail := tail
        cqPhase := if tail = 0 then !s.cqPhase else s.cqPhase
        inFlight := s.inFlight.eraseIdx i }
    else none

inductive Action
  | submit (sqe : Sqe)
  | drive
  | fetch
  | post (i : Nat) (code : BitVec 15)

def step (timeout : Nat) (s : Queue) : Action → Option Queue
  | .submit sqe => submit s sqe
  | .drive => drive timeout s
  | .fetch => fetch s
  | .post i code => post s i code

/-- The completion that a step of the driver takes. -/
def Queue.takes (s : Queue) : Action → Option Cqe
  | .drive =>
    match s.pc with
    | .poll (_ + 1) => if (s.cq s.cqHead).phase = s.phase then some (s.cq s.cqHead) else none
    | _ => none
  | _ => none

/-- A completion that is taken is that of the last command, and a command is not put over one
that the controller has not consumed. -/
structure Matched (s : Queue) (a : Action) (_ : Queue) : Prop where
  own : ∀ cqe, s.takes a = some cqe → cqe.number + 1 = s.calls ∧ cqe.cmdId + 1 = s.cmdId
  apart : ∀ sqe, a = .submit sqe → ∀ k, s.fetched ≤ k → k < s.calls → k % queueSize ≠ s.sqTail

/-- A command is submitted once the completions of all earlier ones have been taken. -/
def Settled (s : Queue) (a : Action) (_ : Queue) : Prop :=
  ∀ sqe, a = .submit sqe → s.taken = s.calls

/-- The phase tag of the pass in which entry `k` is posted. -/
def phaseOf (k : Nat) : Bool := decide (k / queueSize % 2 = 0)

/-- Submissions of which the controller has been told. -/
def Pc.rung (s : Queue) : Pc → Nat
  | .ring => s.taken
  | _ => s.calls

/-- A command is under way. -/
def Pc.Busy : Pc → Prop
  | .ring | .poll _ => True
  | _ => False

/-- With `posted` completions; at most one command is not settled. -/
structure Inv (posted : Nat) (pc : Pc) (s : Queue) : Prop where
  at_pc : s.pc = pc
  tail : s.sqTail = s.calls % queueSize
  bell : s.sqDoorbell = pc.rung s % queueSize
  head : s.sqHead = s.fetched % queueSize
  cqTail : s.cqTail = posted % queueSize
  cqHead : s.cqHead = s.taken % queueSize
  phase : s.phase = phaseOf s.taken
  cqPhase : s.cqPhase = phaseOf posted
  taken_le : s.taken ≤ posted
  posted_le : posted ≤ s.fetched
  fetched_le : s.fetched ≤ pc.rung s
  rung_le : pc.rung s ≤ s.calls
  single : s.calls ≤ s.taken + 1
  busy : pc.Busy → s.calls = s.taken + 1
  entry : s.taken < s.calls → (s.sq (s.taken % queueSize)).number = s.taken ∧
    (s.sq (s.taken % queueSize)).sqe.cid + 1 = s.cmdId
  flight : s.inFlight.length = s.fetched - posted
  own : ∀ command ∈ s.inFlight, command.number = s.taken ∧ command.sqe.cid + 1 = s.cmdId
  ready : s.taken < posted → (s.cq s.cqHead).number = s.taken ∧
    (s.cq s.cqHead).cmdId + 1 = s.cmdId ∧ (s.cq s.cqHead).phase = phaseOf s.taken
  stale : ∀ k, posted ≤ k → k < posted + queueSize →
    (s.cq (k % queueSize)).phase = !phaseOf k

variable {s t : Queue} {posted timeout : Nat} {pc : Pc} {sqe : Sqe} {cmdId cid : BitVec 16}
  {a : Action}

theorem cid_withCid : (sqe.withCid cid).cid = cid := by
  refine BitVec.eq_of_getLsbD_eq fun i hi => ?_
  have hhigh : 16 + i < 32 := by omega
  have hwide : i < 32 := by omega
  have hge : ¬ 16 + i < 16 := by omega
  have hlow : (65535#32)[16 + i] = false := by
    show (2 ^ 16 - 1 : Nat).testBit (16 + i) = false
    rw [Nat.testBit_two_pow_sub_one]
    exact decide_eq_false hge
  unfold Sqe.cid Sqe.withCid
  simp [hi, hlow, hhigh, hwide, hge]

theorem phase_post {code : BitVec 15} {b : Bool} {n : Nat} :
    (Cqe.mk cid (code ++ BitVec.ofBool b) n).phase = b := by
  show (code ++ BitVec.ofBool b).getLsbD 0 = b
  rw [BitVec.getLsbD_append]
  simp

/-- The tag changes where the queue wraps. -/
theorem phaseOf_succ {k : Nat} :
    phaseOf (k + 1) = if (k + 1) % queueSize = 0 then !phaseOf k else phaseOf k := by
  unfold phaseOf queueSize
  split
  case isTrue hwrap =>
    rw [← decide_not]
    exact decide_eq_decide.mpr (by omega)
  case isFalse hwrap => exact decide_eq_decide.mpr (by omega)

theorem phaseOf_first {k : Nat} (h : k < queueSize) : phaseOf k = true := by
  unfold phaseOf queueSize at *
  exact decide_eq_true (by omega)

theorem phaseOf_pass {k : Nat} : phaseOf (k + queueSize) = !phaseOf k := by
  unfold phaseOf queueSize
  rw [← decide_not]
  exact decide_eq_decide.mpr (by omega)

theorem inv_init : Inv 0 .idle (queueInit cmdId) where
  at_pc := rfl
  tail := rfl
  bell := rfl
  head := rfl
  cqTail := rfl
  cqHead := rfl
  phase := (phaseOf_first (Nat.succ_pos 15)).symm
  cqPhase := (phaseOf_first (Nat.succ_pos 15)).symm
  taken_le := le_refl _
  posted_le := le_refl _
  fetched_le := le_refl _
  rung_le := le_refl _
  single := Nat.zero_le _
  busy := fun h => h.elim
  entry := fun h => absurd h (lt_irrefl _)
  flight := rfl
  own := by
    intro command h
    cases h
  ready := fun h => absurd h (lt_irrefl _)
  stale := by
    intro k _ hk
    rw [phaseOf_first (by omega)]
    exact BitVec.getLsbD_zero

/-- The driver moves on without touching the completion queue. -/
theorem Inv.submit (h : Inv posted .idle s) (hsettled : s.taken = s.calls) :
    Inv posted .ring { s with
      sq := Function.update s.sq s.sqTail ⟨sqe.withCid s.cmdId, s.calls⟩
      sqTail := (s.sqTail + 1) % queueSize
      cmdId := s.cmdId + 1
      calls := s.calls + 1
      pc := .ring } := by
  have hfetched : s.fetched ≤ s.calls := h.fetched_le
  have htaken := h.taken_le
  have hposted := h.posted_le
  have hempty : s.inFlight = [] := by
    have hflight := h.flight
    exact List.eq_nil_of_length_eq_zero (by omega)
  exact {
    at_pc := rfl
    tail := by
      show (s.sqTail + 1) % queueSize = (s.calls + 1) % queueSize
      rw [h.tail, Nat.mod_add_mod]
    bell := by
      have hbell : s.sqDoorbell = s.calls % queueSize := h.bell
      show s.sqDoorbell = s.taken % queueSize
      rw [hbell, hsettled]
    head := h.head
    cqTail := h.cqTail
    cqHead := h.cqHead
    phase := h.phase
    cqPhase := h.cqPhase
    taken_le := htaken
    posted_le := hposted
    fetched_le := le_trans hfetched (le_of_eq hsettled.symm)
    rung_le := le_trans (le_of_eq hsettled) (Nat.le_succ _)
    single := by
      show s.calls + 1 ≤ s.taken + 1
      omega
    busy := fun _ => by
      show s.calls + 1 = s.taken + 1
      omega
    entry := fun _ => by
      show (Function.update s.sq s.sqTail _ (s.taken % queueSize)).number = s.taken ∧
        (Function.update s.sq s.sqTail _ (s.taken % queueSize)).sqe.cid + 1 = s.cmdId + 1
      rw [hsettled, ← h.tail, Function.update_self, cid_withCid]
      exact ⟨rfl, rfl⟩
    flight := h.flight
    own := fun command hcommand => by
      have hcommand : command ∈ s.inFlight := hcommand
      rw [hempty] at hcommand
      cases hcommand
    ready := fun hlt => by
      have hlt : s.taken < posted := hlt
      omega
    stale := h.stale }

theorem Inv.ring (h : Inv posted .ring s) :
    Inv posted (.poll timeout) { s with sqDoorbell := s.sqTail, pc := .poll timeout } where
  at_pc := rfl
  tail := h.tail
  bell := h.tail
  head := h.head
  cqTail := h.cqTail
  cqHead := h.cqHead
  phase := h.phase
  cqPhase := h.cqPhase
  taken_le := h.taken_le
  posted_le := h.posted_le
  fetched_le := le_trans h.fetched_le h.rung_le
  rung_le := le_refl _
  single := h.single
  busy := fun _ => h.busy trivial
  entry := h.entry
  flight := h.flight
  own := h.own
  ready := h.ready
  stale := h.stale

/-- The driver waits, or gives up, or is done. -/
theorem Inv.moves {pc' : Pc} {result : Int} {bell : Nat} (h : Inv posted pc s)
    (hrung : pc'.rung s = pc.rung s) (hbusy : pc'.Busy → pc.Busy) :
    Inv posted pc' { s with result := result, cqDoorbell := bell, pc := pc' } := by
  have hsame : pc'.rung { s with result := result, cqDoorbell := bell, pc := pc' } = pc.rung s := by
    rw [← hrung]
    cases pc' with
    | _ => rfl
  exact {
    at_pc := rfl
    tail := h.tail
    bell := by rw [hsame]; exact h.bell
    head := h.head
    cqTail := h.cqTail
    cqHead := h.cqHead
    phase := h.phase
    cqPhase := h.cqPhase
    taken_le := h.taken_le
    posted_le := h.posted_le
    fetched_le := by rw [hsame]; exact h.fetched_le
    rung_le := by rw [hsame]; exact h.rung_le
    single := h.single
    busy := fun hb => h.busy (hbusy hb)
    entry := h.entry
    flight := h.flight
    own := h.own
    ready := h.ready
    stale := h.stale }

/-- There is a completion to take exactly when the tag fits. -/
theorem Inv.ready_iff (h : Inv posted pc s) :
    (s.cq s.cqHead).phase = s.phase ↔ s.taken < posted := by
  rw [h.phase]
  constructor
  · intro hphase
    by_contra hge
    have heq : s.taken = posted := le_antisymm h.taken_le (not_lt.mp hge)
    have hpass : s.taken < posted + queueSize := by
      show s.taken < posted + 16
      omega
    have hstale := h.stale s.taken (le_of_eq heq.symm) hpass
    rw [← h.cqHead, hphase] at hstale
    exact absurd hstale (Bool.self_ne_not _)
  · intro hlt
    exact (h.ready hlt).2.2

theorem Inv.take (h : Inv posted pc s) (hbusy : pc.Busy) (hlt : s.taken < posted) :
    Inv posted .ack (take s) := by
  have hcalls := h.busy hbusy
  have hposted := h.posted_le
  have hfetched := h.fetched_le
  have hrung := h.rung_le
  have hpc : pc.rung s = s.calls := by omega
  have hempty : s.inFlight = [] := by
    have hflight := h.flight
    exact List.eq_nil_of_length_eq_zero (by omega)
  exact {
    at_pc := rfl
    tail := h.tail
    bell := by
      have hbell := h.bell
      rw [hpc] at hbell
      exact hbell
    head := h.head
    cqTail := h.cqTail
    cqHead := by
      show (s.cqHead + 1) % queueSize = (s.taken + 1) % queueSize
      rw [h.cqHead, Nat.mod_add_mod]
    phase := by
      show (if (s.cqHead + 1) % queueSize = 0 then !s.phase else s.phase) = phaseOf (s.taken + 1)
      rw [phaseOf_succ, h.phase, h.cqHead, Nat.mod_add_mod]
    cqPhase := h.cqPhase
    taken_le := hlt
    posted_le := hposted
    fetched_le := by
      show s.fetched ≤ s.calls
      omega
    rung_le := le_refl _
    single := by
      show s.calls ≤ s.taken + 1 + 1
      omega
    busy := fun hb => hb.elim
    entry := fun hlt => by
      have hlt : s.taken + 1 < s.calls := hlt
      omega
    flight := h.flight
    own := fun command hcommand => by
      have hcommand : command ∈ s.inFlight := hcommand
      rw [hempty] at hcommand
      cases hcommand
    ready := fun hlt => by
      have hlt : s.taken + 1 < posted := hlt
      omega
    stale := h.stale }

theorem Inv.fetch (h : Inv posted pc s) (hne : s.sqHead ≠ s.sqDoorbell) :
    Inv posted pc { s with
      inFlight := s.inFlight ++ [s.sq s.sqHead]
      sqHead := (s.sqHead + 1) % queueSize
      fetched := s.fetched + 1 } := by
  have hlt : s.fetched < pc.rung s := by
    refine lt_of_le_of_ne h.fetched_le fun heq => hne ?_
    rw [h.head, h.bell, heq]
  have htaken := h.taken_le
  have hposted := h.posted_le
  have hrung := h.rung_le
  have hsingle := h.single
  have hsame : pc.rung { s with
      inFlight := s.inFlight ++ [s.sq s.sqHead]
      sqHead := (s.sqHead + 1) % queueSize
      fetched := s.fetched + 1 } = pc.rung s := by
    cases pc with
    | _ => rfl
  have hfetched : s.fetched = s.taken := by omega
  have hentry := h.entry (by omega)
  exact {
    at_pc := h.at_pc
    tail := h.tail
    bell := by rw [hsame]; exact h.bell
    head := by
      show (s.sqHead + 1) % queueSize = (s.fetched + 1) % queueSize
      rw [h.head, Nat.mod_add_mod]
    cqTail := h.cqTail
    cqHead := h.cqHead
    phase := h.phase
    cqPhase := h.cqPhase
    taken_le := h.taken_le
    posted_le := le_trans hposted (Nat.le_succ _)
    fetched_le := by rw [hsame]; exact hlt
    rung_le := by rw [hsame]; exact hrung
    single := h.single
    busy := h.busy
    entry := h.entry
    flight := by
      show (s.inFlight ++ [s.sq s.sqHead]).length = s.fetched + 1 - posted
      rw [List.length_append, h.flight, List.length_singleton]
      omega
    own := fun command hcommand => by
      rcases List.mem_append.mp hcommand with hold | hnew
      · exact h.own command hold
      · obtain rfl := List.mem_singleton.mp hnew
        rw [h.head, hfetched]
        exact hentry
    ready := h.ready
    stale := h.stale }

/-- The controller completes the one command there is. -/
theorem Inv.post {i : Nat} {code : BitVec 15} (h : Inv posted pc s)
    (hstep : post s i code = some t) : Inv (posted + 1) pc t := by
  obtain ⟨command, hcommand, hstep⟩ := Option.bind_eq_some_iff.mp hstep
  split at hstep
  case isFalse => cases hstep
  case isTrue =>
    obtain ⟨hi, hget⟩ := List.getElem?_eq_some_iff.mp hcommand
    have hflight := h.flight
    have htaken := h.taken_le
    have hposted := h.posted_le
    have hfetched := h.fetched_le
    have hrung := h.rung_le
    have hsingle := h.single
    have hhead : s.cqHead = s.cqTail := by
      rw [h.cqHead, h.cqTail, show posted = s.taken by omega]
    have hown := h.own command (List.mem_of_getElem hget)
    have hsame : pc.rung t = pc.rung s := by
      cases hstep
      cases pc with
      | _ => rfl
    cases hstep
    exact {
      at_pc := h.at_pc
      tail := h.tail
      bell := by rw [hsame]; exact h.bell
      head := h.head
      cqTail := by
        show (s.cqTail + 1) % queueSize = (posted + 1) % queueSize
        rw [h.cqTail, Nat.mod_add_mod]
      cqHead := h.cqHead
      phase := h.phase
      cqPhase := by
        show (if (s.cqTail + 1) % queueSize = 0 then !s.cqPhase else s.cqPhase) =
          phaseOf (posted + 1)
        rw [phaseOf_succ, h.cqPhase, h.cqTail, Nat.mod_add_mod]
      taken_le := le_trans htaken (Nat.le_succ _)
      posted_le := by
        show posted + 1 ≤ s.fetched
        omega
      fetched_le := by rw [hsame]; exact hfetched
      rung_le := by rw [hsame]; exact hrung
      single := h.single
      busy := h.busy
      entry := h.entry
      flight := by
        show (s.inFlight.eraseIdx i).length = s.fetched - (posted + 1)
        rw [List.length_eraseIdx_of_lt hi]
        omega
      own := fun other hother => h.own other (List.mem_of_mem_eraseIdx hother)
      ready := fun _ => by
        dsimp only
        rw [hhead, Function.update_self, phase_post, h.cqPhase,
          show posted = s.taken by omega]
        exact ⟨hown.1, hown.2, rfl⟩
      stale := fun k hk hlt => by
        dsimp only
        by_cases hlast : k = posted + queueSize
        · rw [hlast, Nat.add_mod_right, ← h.cqTail, Function.update_self, phase_post, h.cqPhase,
            phaseOf_pass, Bool.not_not]
        · have hne : k % queueSize ≠ s.cqTail := by
            rw [h.cqTail]
            exact (Ring.slot_ne hk (by omega)).symm
          rw [Function.update_of_ne hne]
          exact h.stale k (by omega) (by omega) }

theorem Inv.drive (h : Inv posted pc s) (hstep : drive timeout s = some t) :
    ∃ pc, Inv posted pc t := by
  have hpc := h.at_pc
  unfold Nvme.drive at hstep
  rw [hpc] at hstep
  cases pc with
  | idle => cases hstep
  | ring =>
    cases hstep
    exact ⟨_, h.ring⟩
  | poll left =>
    cases left with
    | zero =>
      cases hstep
      exact ⟨.idle, h.moves rfl fun hb => hb.elim⟩
    | succ left =>
      have heq := Option.some.inj hstep
      split at heq
      case isTrue hphase =>
        subst heq
        exact ⟨_, h.take trivial (h.ready_iff.mp hphase)⟩
      case isFalse =>
        subst heq
        exact ⟨.poll left, h.moves rfl fun _ => trivial⟩
  | ack =>
    cases hstep
    exact ⟨.idle, h.moves rfl fun hb => hb.elim⟩

theorem submit_idle (h : Inv posted pc s) (hstep : submit s sqe = some t) : pc = .idle := by
  unfold submit at hstep
  rw [h.at_pc] at hstep
  cases pc with
  | idle => rfl
  | _ => cases hstep

theorem Inv.step (h : Inv posted pc s) (hstep : Nvme.step timeout s a = some t)
    (hsettled : Settled s a t) : ∃ posted pc, Inv posted pc t := by
  cases a with
  | submit sqe =>
    have hsubmit : Nvme.submit s sqe = some t := hstep
    obtain rfl := submit_idle h hsubmit
    unfold Nvme.submit at hsubmit
    rw [h.at_pc] at hsubmit
    cases hsubmit
    exact ⟨posted, _, h.submit (hsettled sqe rfl)⟩
  | drive => exact ⟨posted, h.drive hstep⟩
  | fetch =>
    have hfetch : Nvme.fetch s = some t := hstep
    unfold Nvme.fetch at hfetch
    split at hfetch
    case isFalse => cases hfetch
    case isTrue hne =>
      cases hfetch
      exact ⟨posted, pc, h.fetch hne⟩
  | post i code => exact ⟨posted + 1, pc, h.post hstep⟩

theorem Inv.matched (h : Inv posted pc s) (hsettled : Settled s a t) : Matched s a t where
  own := by
    intro cqe hcqe
    cases a with
    | drive =>
      dsimp only [Queue.takes] at hcqe
      rw [h.at_pc] at hcqe
      cases pc with
      | poll left =>
        cases left with
        | zero => cases hcqe
        | succ left =>
          dsimp only at hcqe
          split at hcqe
          case isFalse => cases hcqe
          case isTrue hphase =>
            cases hcqe
            obtain ⟨hnumber, hid, -⟩ := h.ready (h.ready_iff.mp hphase)
            have hbusy := h.busy trivial
            exact ⟨by omega, hid⟩
      | _ => cases hcqe
    | _ => cases hcqe
  apart := by
    intro sqe ha k hlow hlt
    have hall := hsettled sqe ha
    have htaken := h.taken_le
    have hposted := h.posted_le
    omega

/-- No call that follows a timeout: then every status is that of the command just submitted. -/
theorem matched_of_settled (timeout : Nat) (cmdId : BitVec 16) (actions : List Action)
    (h : Run.EveryStep (step timeout) Settled (queueInit cmdId) actions) :
    Run.EveryStep (step timeout) Matched (queueInit cmdId) actions := by
  refine h.mono (I := fun s => ∃ posted pc, Inv posted pc s) ?_ ⟨0, .idle, inv_init⟩
  rintro s a t ⟨posted, pc, h⟩ hstep hsettled
  exact ⟨h.step hstep hsettled, h.matched hsettled⟩

theorem settled_other (h : ∀ sqe, a ≠ .submit sqe) : Settled s a t :=
  fun sqe ha => absurd ha (h sqe)

/-- One command that the controller completes. -/
def oneCommand (sqe : Sqe) : List Action :=
  [.submit sqe, .drive, .drive, .fetch, .post 0 0, .drive, .drive]

theorem matched_oneCommand :
    Run.EveryStep (step ioTimeout) Matched (queueInit 0) (oneCommand ⟨2, fun _ => 0⟩) := by
  refine matched_of_settled ioTimeout 0 _ ?_
  intro u _
  refine ⟨fun _ _ => rfl, ?_⟩
  have hother : ∀ a ∈ (oneCommand ⟨2, fun _ => 0⟩).tail, ∀ sqe, a ≠ .submit sqe := by
    intro a ha sqe heq
    subst heq
    simp [oneCommand] at ha
  have hsteps : Run.EveryStep (step ioTimeout) (fun _ a _ => ∀ sqe, a ≠ .submit sqe) u
      (oneCommand ⟨2, fun _ => 0⟩).tail := Run.everyStep_of_forall hother
  exact hsteps.mono (I := fun _ => True)
    (fun s a t _ _ h => ⟨trivial, settled_other h⟩) trivial

/-- Without a completion the loop runs to its end. -/
theorem run_timeout {left : Nat} (hpc : s.pc = .poll left)
    (hempty : (s.cq s.cqHead).phase ≠ s.phase) :
    Run.run (step timeout) s (List.replicate (left + 1) .drive) =
      some { s with result := -1, pc := .idle } := by
  induction left generalizing s with
  | zero =>
    have hdrive : step timeout s .drive = some { s with result := -1, pc := .idle } := by
      show drive timeout s = _
      unfold drive
      rw [hpc]
    rw [List.replicate_succ, Run.run_cons, hdrive]
    rfl
  | succ left ih =>
    have hdrive : step timeout s .drive = some { s with pc := .poll left } := by
      show drive timeout s = _
      unfold drive
      rw [hpc]
      dsimp only
      rw [if_neg hempty]
    rw [List.replicate_succ, Run.run_cons, hdrive]
    exact ih rfl hempty

/-- The completion comes after the timeout, and the next call takes it. -/
def lateCompletion (sqe : Sqe) : List Action :=
  [.submit sqe, .drive] ++ List.replicate (ioTimeout + 1) .drive ++
    [.fetch, .post 0 0, .submit sqe, .drive]

theorem not_matched_late :
    ¬ Run.EveryStep (step ioTimeout) Matched (queueInit 0)
      (lateCompletion ⟨2, fun _ => 0⟩ ++ [.drive]) := by
  intro hmatched
  obtain ⟨s, hs, hpc, hempty, hlast⟩ : ∃ s,
      Run.run (step ioTimeout) (queueInit 0) [.submit ⟨2, fun _ => 0⟩, .drive] = some s ∧
      s.pc = .poll ioTimeout ∧ (s.cq s.cqHead).phase ≠ s.phase ∧
      ∃ t, Run.run (step ioTimeout) { s with result := -1, pc := .idle }
        [.fetch, .post 0 0, .submit ⟨2, fun _ => 0⟩, .drive] = some t ∧
        (t.takes .drive).map Cqe.number = some 0 ∧ t.calls = 2 ∧
        (step ioTimeout t .drive).isSome := by
    refine ⟨_, rfl, rfl, ?_, _, rfl, rfl, rfl, rfl⟩
    exact Bool.false_ne_true
  obtain ⟨t, ht, htakes, hcalls, hsome⟩ := hlast
  have hrun : Run.run (step ioTimeout) (queueInit 0) (lateCompletion ⟨2, fun _ => 0⟩) = some t := by
    unfold lateCompletion
    rw [Run.run_append, Run.run_append, hs, Option.bind_some, run_timeout hpc hempty,
      Option.bind_some, ht]
  obtain ⟨u, hu⟩ := Option.isSome_iff_exists.mp hsome
  obtain ⟨cqe, hcqe, hnumber⟩ := Option.map_eq_some_iff.mp htakes
  have hown := ((hmatched.last hrun hu).own cqe hcqe).1
  omega

end PinguinOS.Drivers.Nvme
