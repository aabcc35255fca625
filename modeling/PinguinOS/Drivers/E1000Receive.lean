import Mathlib.Logic.Function.Basic
import PinguinOS.Lib.Ring
import PinguinOS.Lib.Run
import PinguinOS.Drivers.Buffer

/-! The receive ring of `e1000.c`, filled by the NIC while `e1000_irq_handler` empties it. -/
namespace PinguinOS.Drivers.E1000

def numRxDesc : Nat := 8
def bufSize : Nat := 2048
def rxdStaDD : Byte := 1
def icrRxt0 : BitVec 32 := 1 <<< 7

/-- `e1000_rx_desc_t`: what the driver reads of it. `addr` stays that of `rx_buffers[i]`. -/
structure RxDesc where
  length : BitVec 16
  status : Byte

def RxDesc.Done (d : RxDesc) : Prop := d.status &&& rxdStaDD ≠ 0

instance (d : RxDesc) : Decidable d.Done := inferInstanceAs (Decidable (_ ≠ _))

def setStatus (desc : Nat → RxDesc) (i : Nat) (status : Byte) : Nat → RxDesc :=
  Function.update desc i { desc i with status := status }

def setLength (desc : Nat → RxDesc) (i : Nat) (length : BitVec 16) : Nat → RxDesc :=
  Function.update desc i { desc i with length := length }

/-- Where `e1000_irq_handler` is; `receive` is the call of `net_receive`. -/
inductive Pc
  | idle
  | poll
  | length
  | call (len : BitVec 16)
  | receive (len : BitVec 16)
  | reset
  | tail
  | advance
  deriving DecidableEq

/-- The driver, the registers and the NIC. `storing` is the frame the NIC has written but not
completed; `received` and `delivered` are what it completed and what `net_receive` was given. -/
structure Rx where
  desc : Nat → RxDesc
  buffers : Nat → Nat → Byte
  rxTail : Nat
  rdh : Nat
  rdt : Nat
  icr : BitVec 32
  pc : Pc
  storing : Option (List Byte)
  received : List (List Byte)
  delivered : List (List Byte)

/-- The ring as `e1000_init` sets it up. -/
def rxInit (desc : Nat → RxDesc) (buffers : Nat → Nat → Byte) (icr : BitVec 32) : Rx where
  desc := fun i => { desc i with status := 0 }
  buffers := buffers
  rxTail := 0
  rdh := 0
  rdt := numRxDesc - 1
  icr := icr
  pc := .idle
  storing := none
  received := []
  delivered := []

/-- The handler starts: reading `ICR` clears it. -/
def irq (s : Rx) : Option Rx :=
  if s.pc = .idle then
    some { s with icr := 0, pc := if s.icr &&& icrRxt0 ≠ 0 then .poll else .idle }
  else none

/-- One access of the handler. -/
def handler (s : Rx) : Option Rx :=
  match s.pc with
  | .idle => none
  | .poll => some { s with pc := if (s.desc s.rxTail).Done then .length else .idle }
  | .length => some { s with pc := .call (s.desc s.rxTail).length }
  | .call len =>
    some { s with
      delivered := s.delivered ++ [bytes (s.buffers s.rxTail) len.toNat], pc := .receive len }
  | .receive _ => some { s with pc := .reset }
  | .reset => some { s with desc := setStatus s.desc s.rxTail 0, pc := .tail }
  | .tail => some { s with rdt := s.rxTail, pc := .advance }
  | .advance => some { s with rxTail := (s.rxTail + 1) % numRxDesc, pc := .poll }

/-- The NIC writes a frame to the buffer of the descriptor at `RDH`, unless that is `RDT`. -/
def store (s : Rx) (frame : List Byte) : Option Rx :=
  if s.storing = none ∧ s.rdh ≠ s.rdt ∧ frame.length ≤ bufSize then
    some { s with
      buffers := Function.update s.buffers s.rdh (fill (s.buffers s.rdh) frame)
      desc := setLength s.desc s.rdh (BitVec.ofNat 16 frame.length)
      storing := some frame }
  else none

/-- It sets `DD`, with whatever other bits, and moves on. -/
def complete (s : Rx) (status : Byte) : Option Rx :=
  s.storing.bind fun frame =>
    if status &&& rxdStaDD ≠ 0 then
      some { s with
        desc := setStatus s.desc s.rdh status
        rdh := (s.rdh + 1) % numRxDesc
        icr := s.icr ||| icrRxt0
        storing := none
        received := s.received ++ [frame] }
    else none

inductive Action
  | irq
  | handler
  | store (frame : List Byte)
  | complete (status : Byte)
  /-- Other causes, such as a change of the link. -/
  | cause (bits : BitVec 32)

def step (s : Rx) : Action → Option Rx
  | .irq => irq s
  | .handler => handler s
  | .store frame => store s frame
  | .complete status => complete s status
  | .cause bits => some { s with icr := s.icr ||| bits }

/-- The frame at `rx_tail` has been given to `net_receive`. -/
def Pc.given : Pc → Nat
  | .receive _ | .reset | .tail | .advance => 1
  | _ => 0

/-- Its descriptor has been reset. -/
def Pc.cleared : Pc → Nat
  | .tail | .advance => 1
  | _ => 0

/-- And has been handed back. -/
def Pc.back : Pc → Nat
  | .advance => 1
  | _ => 0

/-- What the handler knows of the frame at `rx_tail`. -/
def Pc.Knows (frame : List Byte) : Pc → Prop
  | .call len | .receive len => len.toNat = frame.length
  | _ => True

/-- The handler has seen `DD` at `rx_tail`. -/
def Pc.Busy : Pc → Prop
  | .idle | .poll => False
  | _ => True

/-- Descriptor `i` and its buffer hold a frame. -/
def Holds (s : Rx) (i : Nat) (frame : List Byte) : Prop :=
  (s.desc i).length.toNat = frame.length ∧ bytes (s.buffers i) frame.length = frame

/-- After the handler went past `n` frames. -/
structure Inv (n : Nat) (pc : Pc) (s : Rx) : Prop where
  at_pc : s.pc = pc
  tail : s.rxTail = n % numRxDesc
  head : s.rdh = s.received.length % numRxDesc
  last : s.rdt = (n + 7 + pc.back) % numRxDesc
  low : n + pc.given ≤ s.received.length
  high : s.received.length ≤ n + 7 + pc.back
  prior : s.delivered = s.received.take (n + pc.given)
  full : ∀ j frame, n + pc.cleared ≤ j → s.received[j]? = some frame →
    (s.desc (j % numRxDesc)).Done ∧ Holds s (j % numRxDesc) frame
  empty : ∀ j, s.received.length ≤ j → j < n + pc.cleared + 8 →
    ¬ (s.desc (j % numRxDesc)).Done
  stored : ∀ frame, s.storing = some frame →
    s.received.length < n + 7 + pc.back ∧ Holds s s.rdh frame
  knows : pc.Busy → ∃ frame, s.received[n]? = some frame ∧ pc.Knows frame
  pending : pc = .idle → n < s.received.length → s.icr &&& icrRxt0 ≠ 0

variable {s t : Rx} {n : Nat} {pc pc' : Pc} {desc : Nat → RxDesc} {buffers : Nat → Nat → Byte}
  {icr : BitVec 32} {len : BitVec 16} {status : Byte} {frame : List Byte} {a : Action}

@[simp] theorem setStatus_length {i k : Nat} :
    (setStatus desc i status k).length = (desc k).length := by
  unfold setStatus
  by_cases hk : k = i
  · rw [hk, Function.update_self]
  · rw [Function.update_of_ne hk]

theorem setStatus_of_ne {i k : Nat} (hk : k ≠ i) : setStatus desc i status k = desc k :=
  Function.update_of_ne hk _ _

theorem setStatus_done {i : Nat} :
    (setStatus desc i status i).Done ↔ status &&& rxdStaDD ≠ 0 := by
  unfold setStatus RxDesc.Done
  rw [Function.update_self]

@[simp] theorem setLength_done {i k : Nat} {length : BitVec 16} :
    (setLength desc i length k).Done ↔ (desc k).Done := by
  unfold setLength RxDesc.Done
  by_cases hk : k = i
  · rw [hk, Function.update_self]
  · rw [Function.update_of_ne hk]

theorem setLength_of_ne {i k : Nat} {length : BitVec 16} (hk : k ≠ i) :
    setLength desc i length k = desc k :=
  Function.update_of_ne hk _ _

theorem setLength_self {i : Nat} {length : BitVec 16} :
    (setLength desc i length i).length = length := by
  unfold setLength
  rw [Function.update_self]

/-- A cause stays until `ICR` is read. -/
theorem icr_or {bits : BitVec 32} (h : icr &&& icrRxt0 ≠ 0) : (icr ||| bits) &&& icrRxt0 ≠ 0 := by
  intro hzero
  rw [BitVec.and_comm, BitVec.and_or_distrib_left] at hzero
  refine h ?_
  rw [BitVec.and_comm]
  exact (BitVec.or_eq_zero_iff.mp hzero).1

theorem icr_raised : (icr ||| icrRxt0) &&& icrRxt0 ≠ 0 := by
  rw [BitVec.or_comm]
  exact icr_or (by decide)

theorem slot_ne {j k : Nat} (hlt : j < k) (hnear : k < j + 8) : j % numRxDesc ≠ k % numRxDesc :=
  Ring.slot_ne hlt hnear

theorem Pc.back_le_cleared : pc.back ≤ pc.cleared := by
  cases pc with
  | advance => exact le_refl _
  | _ => exact Nat.zero_le _

theorem Pc.cleared_le_given : pc.cleared ≤ pc.given := by
  cases pc with
  | tail => exact le_refl _
  | advance => exact le_refl _
  | _ => exact Nat.zero_le _

theorem inv_init : Inv 0 .idle (rxInit desc buffers icr) where
  at_pc := rfl
  tail := rfl
  head := rfl
  last := rfl
  low := le_refl _
  high := Nat.zero_le _
  prior := rfl
  full := by
    intro j frame _ h
    cases h
  empty := by
    intro j _ _ hdone
    exact hdone (BitVec.zero_and)
  stored := by
    intro frame h
    cases h
  knows := fun h => h.elim
  pending := by
    intro _ h
    exact absurd h (Nat.not_lt_zero 0)

/-- The handler moves and touches nothing else. -/
theorem Inv.moves (h : Inv n pc s) (hgiven : pc'.given = pc.given)
    (hcleared : pc'.cleared = pc.cleared) (hback : pc'.back = pc.back)
    (hknows : pc'.Busy → ∃ frame, s.received[n]? = some frame ∧ pc'.Knows frame)
    (hpending : pc' = .idle → n < s.received.length → icr &&& icrRxt0 ≠ 0) :
    Inv n pc' { s with pc := pc', icr := icr } where
  at_pc := rfl
  tail := h.tail
  head := h.head
  last := hback ▸ h.last
  low := hgiven ▸ h.low
  high := hback ▸ h.high
  prior := hgiven ▸ h.prior
  full := fun j frame hj => h.full j frame (hcleared ▸ hj)
  empty := fun j hj hlt => h.empty j hj (hcleared ▸ hlt)
  stored := fun frame hframe => by
    obtain ⟨hroom, hholds⟩ := h.stored frame hframe
    exact ⟨hback ▸ hroom, hholds⟩
  knows := hknows
  pending := hpending

theorem Inv.interrupt (h : Inv n .idle s) : ∃ pc', Inv n pc'
    { s with icr := 0, pc := if s.icr &&& icrRxt0 ≠ 0 then .poll else .idle } := by
  by_cases hrx : s.icr &&& icrRxt0 ≠ 0
  · rw [if_pos hrx]
    exact ⟨.poll, h.moves rfl rfl rfl (fun hbusy => hbusy.elim) (fun hidle => by cases hidle)⟩
  · rw [if_neg hrx]
    refine ⟨.idle, h.moves rfl rfl rfl (fun hbusy => hbusy.elim) ?_⟩
    intro _ hlt
    exact absurd (h.pending rfl hlt) hrx

/-- The handler sees a frame exactly when there is one. -/
theorem Inv.done_iff (h : Inv n .poll s) : (s.desc s.rxTail).Done ↔ n < s.received.length := by
  have hlow : n + 0 ≤ s.received.length := h.low
  rw [h.tail]
  constructor
  · intro hdone
    by_contra hge
    have hlt : n < n + Pc.poll.cleared + 8 := by
      show n < n + 0 + 8
      omega
    exact h.empty n (by omega) hlt hdone
  · intro hlt
    exact (h.full n _ (le_refl _) (List.getElem?_eq_getElem hlt)).1

theorem Inv.poll (h : Inv n .poll s) : ∃ pc', Inv n pc'
    { s with pc := if (s.desc s.rxTail).Done then .length else .idle } := by
  by_cases hdone : (s.desc s.rxTail).Done
  · rw [if_pos hdone]
    have hlt := h.done_iff.mp hdone
    refine ⟨.length, h.moves rfl rfl rfl (fun _ => ?_) (fun hidle => by cases hidle)⟩
    exact ⟨s.received[n], List.getElem?_eq_getElem hlt, trivial⟩
  · rw [if_neg hdone]
    refine ⟨.idle, h.moves rfl rfl rfl (fun hbusy => hbusy.elim) ?_⟩
    intro _ hlt
    exact absurd (h.done_iff.mpr hlt) hdone

/-- What the handler knows of the frame holds of its descriptor until it is reset. -/
theorem Inv.busy (h : Inv n pc s) (hbusy : pc.Busy) (hcleared : pc.cleared = 0) :
    ∃ frame, s.received[n]? = some frame ∧ pc.Knows frame ∧ Holds s s.rxTail frame := by
  obtain ⟨frame, hframe, hknows⟩ := h.knows hbusy
  have hfull := h.full n frame (by omega) hframe
  rw [← h.tail] at hfull
  exact ⟨frame, hframe, hknows, hfull.2⟩

theorem Inv.length (h : Inv n .length s) :
    Inv n (.call (s.desc s.rxTail).length) { s with pc := .call (s.desc s.rxTail).length } := by
  obtain ⟨frame, hframe, -, hholds⟩ := h.busy trivial rfl
  exact h.moves rfl rfl rfl (fun _ => ⟨frame, hframe, hholds.1⟩) (fun hidle => by cases hidle)

theorem Inv.call (h : Inv n (.call len) s) : Inv n (.receive len) { s with
    delivered := s.delivered ++ [bytes (s.buffers s.rxTail) len.toNat], pc := .receive len } := by
  obtain ⟨frame, hframe, hlen, hholds⟩ := h.busy trivial rfl
  obtain ⟨hlt, hget⟩ := List.getElem?_eq_some_iff.mp hframe
  have hprior : s.delivered = s.received.take n := h.prior
  have hbytes : bytes (s.buffers s.rxTail) len.toNat = frame := by
    rw [show len.toNat = frame.length from hlen, hholds.2]
  exact {
    at_pc := rfl
    tail := h.tail
    head := h.head
    last := h.last
    low := hlt
    high := h.high
    prior := by
      show s.delivered ++ [_] = s.received.take (n + 1)
      rw [hbytes, hprior, List.take_succ_eq_append_getElem hlt, hget]
    full := h.full
    empty := h.empty
    stored := h.stored
    knows := fun _ => ⟨frame, hframe, hlen⟩
    pending := fun hidle => by cases hidle }

theorem Inv.receive (h : Inv n (.receive len) s) : Inv n .reset { s with pc := .reset } := by
  obtain ⟨frame, hframe, -⟩ := h.knows trivial
  exact h.moves rfl rfl rfl (fun _ => ⟨frame, hframe, trivial⟩) (fun hidle => by cases hidle)

/-- The descriptor of the frame is handed back in three steps. -/
theorem Inv.reset (h : Inv n .reset s) :
    Inv n .tail { s with desc := setStatus s.desc s.rxTail 0, pc := .tail } := by
  have hhigh : s.received.length ≤ n + 7 := h.high
  have hlow : n + 1 ≤ s.received.length := h.low
  have hfull : ∀ j frame, n + 1 ≤ j → s.received[j]? = some frame →
      (setStatus s.desc s.rxTail 0 (j % numRxDesc)).Done ∧ Holds s (j % numRxDesc) frame := by
    intro j frame hj hframe
    have hlt := (List.getElem?_eq_some_iff.mp hframe).1
    have hne : j % numRxDesc ≠ s.rxTail := by
      rw [h.tail]
      exact (slot_ne (by omega) (by omega)).symm
    rw [setStatus_of_ne hne]
    exact h.full j frame (le_trans (Nat.le_succ n) hj) hframe
  have hempty : ∀ j, s.received.length ≤ j → j < n + 9 →
      ¬ (setStatus s.desc s.rxTail 0 (j % numRxDesc)).Done := by
    intro j hj hlt
    by_cases hi : j % numRxDesc = s.rxTail
    · rw [hi, setStatus_done]
      exact fun hdone => hdone BitVec.zero_and
    · have hne : j ≠ n + 8 := by
        rintro rfl
        exact hi (by rw [h.tail]; exact Nat.add_mod_right n 8)
      rw [setStatus_of_ne hi]
      refine h.empty j hj ?_
      show j < n + 8
      omega
  exact {
    at_pc := rfl
    tail := h.tail
    head := h.head
    last := h.last
    low := h.low
    high := h.high
    prior := h.prior
    full := fun j frame hj hframe => by
      obtain ⟨hdone, hlength, hbytes⟩ := hfull j frame hj hframe
      exact ⟨hdone, by rw [setStatus_length]; exact hlength, hbytes⟩
    empty := hempty
    stored := fun frame hframe => by
      obtain ⟨hroom, hlength, hbytes⟩ := h.stored frame hframe
      exact ⟨hroom, by rw [setStatus_length]; exact hlength, hbytes⟩
    knows := fun _ => by
      obtain ⟨frame, hframe, -⟩ := h.knows trivial
      exact ⟨frame, hframe, trivial⟩
    pending := fun hidle => by cases hidle }

theorem Inv.back (h : Inv n .tail s) :
    Inv n .advance { s with rdt := s.rxTail, pc := .advance } where
  at_pc := rfl
  tail := h.tail
  head := h.head
  last := by
    show s.rxTail = (n + 8) % numRxDesc
    rw [h.tail]
    exact (Nat.add_mod_right n 8).symm
  low := h.low
  high := le_trans h.high (Nat.le_succ _)
  prior := h.prior
  full := h.full
  empty := h.empty
  stored := fun frame hframe => by
    obtain ⟨hroom, hholds⟩ := h.stored frame hframe
    exact ⟨lt_trans hroom (Nat.lt_succ_self _), hholds⟩
  knows := fun _ => by
    obtain ⟨frame, hframe, -⟩ := h.knows trivial
    exact ⟨frame, hframe, trivial⟩
  pending := fun hidle => by cases hidle

theorem Inv.advance (h : Inv n .advance s) :
    Inv (n + 1) .poll { s with rxTail := (s.rxTail + 1) % numRxDesc, pc := .poll } where
  at_pc := rfl
  tail := by
    show (s.rxTail + 1) % numRxDesc = (n + 1) % numRxDesc
    rw [h.tail, Nat.mod_add_mod]
  head := h.head
  last := by
    have hlast : s.rdt = (n + 8) % numRxDesc := h.last
    show s.rdt = (n + 1 + 7) % numRxDesc
    rw [hlast, Nat.add_assoc]
  low := h.low
  high := by
    have hhigh : s.received.length ≤ n + 8 := h.high
    show s.received.length ≤ n + 1 + 7
    omega
  prior := h.prior
  full := h.full
  empty := h.empty
  stored := fun frame hframe => by
    obtain ⟨hroom, hholds⟩ := h.stored frame hframe
    have hroom : s.received.length < n + 8 := hroom
    refine ⟨?_, hholds⟩
    show s.received.length < n + 1 + 7
    omega
  knows := fun hbusy => hbusy.elim
  pending := fun hidle => by cases hidle

theorem Inv.store (h : Inv n pc s) (hstep : store s frame = some t) : Inv n pc t := by
  unfold E1000.store at hstep
  split at hstep
  case isFalse => cases hstep
  case isTrue hfree =>
    cases hstep
    obtain ⟨-, hne, hfits⟩ := hfree
    have hhigh := h.high
    have hback := @Pc.back_le_cleared pc
    have hroom : s.received.length < n + 7 + pc.back := by
      refine lt_of_le_of_ne hhigh fun heq => hne ?_
      rw [h.head, h.last, heq]
    have hlength : (BitVec.ofNat 16 frame.length).toNat = frame.length :=
      toNat_ofNat_16 (lt_of_le_of_lt hfits (by decide))
    have hfull : ∀ j prior, n + pc.cleared ≤ j → s.received[j]? = some prior →
        j % numRxDesc ≠ s.rdh := by
      intro j prior hj hprior
      have hlt := (List.getElem?_eq_some_iff.mp hprior).1
      rw [h.head]
      exact slot_ne hlt (by omega)
    exact {
      at_pc := h.at_pc
      tail := h.tail
      head := h.head
      last := h.last
      low := h.low
      high := h.high
      prior := h.prior
      full := fun j prior hj hprior => by
        obtain ⟨hdone, hlen, hbytes⟩ := h.full j prior hj hprior
        have hj := hfull j prior hj hprior
        refine ⟨setLength_done.mpr hdone, ?_, ?_⟩
        · show (setLength s.desc s.rdh _ (j % numRxDesc)).length.toNat = prior.length
          rw [setLength_of_ne hj, hlen]
        · show bytes (Function.update s.buffers s.rdh _ (j % numRxDesc)) prior.length = prior
          rw [Function.update_of_ne hj, hbytes]
      empty := fun j hj hlt hdone => h.empty j hj hlt (setLength_done.mp hdone)
      stored := fun frame' hframe' => by
        cases hframe'
        refine ⟨hroom, ?_, ?_⟩
        · show (setLength s.desc s.rdh _ s.rdh).length.toNat = frame.length
          rw [setLength_self, hlength]
        · show bytes (Function.update s.buffers s.rdh _ s.rdh) frame.length = frame
          rw [Function.update_self, bytes_fill]
      knows := h.knows
      pending := h.pending }

theorem Inv.complete (h : Inv n pc s) (hstep : complete s status = some t) : Inv n pc t := by
  obtain ⟨frame, hstoring, hstep⟩ := Option.bind_eq_some_iff.mp hstep
  split at hstep
  case isFalse => cases hstep
  case isTrue hstatus =>
    cases hstep
    obtain ⟨hroom, hholds⟩ := h.stored frame hstoring
    have hlow := h.low
    have hback := @Pc.back_le_cleared pc
    have hgiven := @Pc.cleared_le_given pc
    have hlength : (s.received ++ [frame]).length = s.received.length + 1 := by simp
    have hfull : ∀ j prior, n + pc.cleared ≤ j → (s.received ++ [frame])[j]? = some prior →
        (setStatus s.desc s.rdh status (j % numRxDesc)).Done ∧ Holds s (j % numRxDesc) prior := by
      intro j prior hj hprior
      rcases Nat.lt_or_ge j s.received.length with hlt | hge
      · rw [List.getElem?_append_left hlt] at hprior
        have hne : j % numRxDesc ≠ s.rdh := by
          rw [h.head]
          exact slot_ne hlt (by omega)
        rw [setStatus_of_ne hne]
        exact h.full j prior hj hprior
      · have hj : j = s.received.length := by
          have hlt := (List.getElem?_eq_some_iff.mp hprior).1
          omega
        subst hj
        rw [List.getElem?_concat_length] at hprior
        cases hprior
        rw [← h.head]
        exact ⟨setStatus_done.mpr hstatus, hholds⟩
    exact {
      at_pc := h.at_pc
      tail := h.tail
      head := by
        show (s.rdh + 1) % numRxDesc = (s.received ++ [frame]).length % numRxDesc
        rw [hlength, h.head, Nat.mod_add_mod]
      last := h.last
      low := by
        show n + pc.given ≤ (s.received ++ [frame]).length
        omega
      high := by
        show (s.received ++ [frame]).length ≤ n + 7 + pc.back
        omega
      prior := by
        show s.delivered = (s.received ++ [frame]).take (n + pc.given)
        rw [List.take_append_of_le_length hlow, h.prior]
      full := fun j prior hj hprior => by
        obtain ⟨hdone, hlen, hbytes⟩ := hfull j prior hj hprior
        exact ⟨hdone, by rw [setStatus_length]; exact hlen, hbytes⟩
      empty := fun j hj hlt hdone => by
        have hj : (s.received ++ [frame]).length ≤ j := hj
        have hdone : (setStatus s.desc s.rdh status (j % numRxDesc)).Done := hdone
        have hne : j % numRxDesc ≠ s.rdh := by
          rw [h.head]
          exact (slot_ne (by omega) (by omega)).symm
        rw [setStatus_of_ne hne] at hdone
        exact h.empty j (by omega) hlt hdone
      stored := fun frame' hframe' => by cases hframe'
      knows := fun hbusy => by
        obtain ⟨prior, hprior, hknows⟩ := h.knows hbusy
        have hlt := (List.getElem?_eq_some_iff.mp hprior).1
        exact ⟨prior, by rw [List.getElem?_append_left hlt, hprior], hknows⟩
      pending := fun _ _ => icr_raised }

theorem Inv.handler (h : Inv n pc s) (hstep : handler s = some t) : ∃ m pc', Inv m pc' t := by
  have hpc := h.at_pc
  unfold E1000.handler at hstep
  cases pc with
  | idle =>
    rw [hpc] at hstep
    cases hstep
  | poll =>
    rw [hpc] at hstep
    cases hstep
    exact ⟨n, h.poll⟩
  | length =>
    rw [hpc] at hstep
    cases hstep
    exact ⟨n, _, h.length⟩
  | call len =>
    rw [hpc] at hstep
    cases hstep
    exact ⟨n, _, h.call⟩
  | receive len =>
    rw [hpc] at hstep
    cases hstep
    exact ⟨n, _, h.receive⟩
  | reset =>
    rw [hpc] at hstep
    cases hstep
    exact ⟨n, _, h.reset⟩
  | tail =>
    rw [hpc] at hstep
    cases hstep
    exact ⟨n, _, h.back⟩
  | advance =>
    rw [hpc] at hstep
    cases hstep
    exact ⟨n + 1, _, h.advance⟩

theorem irq_eq (h : irq s = some t) : s.pc = .idle ∧
    t = { s with icr := 0, pc := if s.icr &&& icrRxt0 ≠ 0 then .poll else .idle } := by
  unfold irq at h
  split at h
  case isFalse => cases h
  case isTrue hpc =>
    cases h
    exact ⟨hpc, rfl⟩

theorem Inv.step (h : Inv n pc s) (hstep : step s a = some t) : ∃ m pc', Inv m pc' t := by
  cases a with
  | irq =>
    obtain ⟨hpc, rfl⟩ := irq_eq hstep
    obtain rfl := h.at_pc.symm.trans hpc
    exact ⟨n, h.interrupt⟩
  | handler => exact h.handler hstep
  | store frame => exact ⟨n, pc, h.store hstep⟩
  | complete status => exact ⟨n, pc, h.complete hstep⟩
  | cause bits =>
    cases hstep
    obtain rfl := h.at_pc
    exact ⟨n, s.pc, h.moves rfl rfl rfl h.knows fun hidle hlt => icr_or (h.pending hidle hlt)⟩

/-- Every frame so far was delivered or is in the ring. -/
theorem Inv.delivered_length (h : Inv n pc s) : s.delivered.length = n + pc.given := by
  rw [h.prior, List.length_take]
  exact Nat.min_eq_left h.low

/-- Steps of the handler until the next delivery. -/
def Pc.distance : Pc → Nat
  | .idle => 4
  | .poll => 3
  | .length => 2
  | .call _ => 1
  | .receive _ => 7
  | .reset => 6
  | .tail => 5
  | .advance => 4

/-- Steps of the handler until `m` frames are delivered. -/
def remaining (m : Nat) (s : Rx) : Nat :=
  if s.delivered.length < m then 7 * (m - s.delivered.length - 1) + s.pc.distance else 0

/-- The steps that are the driver's. -/
def Action.cost : Action → Nat
  | .irq | .handler => 1
  | _ => 0

def handlerSteps (actions : List Action) : Nat := (actions.map Action.cost).sum

/-- Descriptor `i` is the NIC's: from `RDH` up to but not including `RDT`, and not done. -/
def OfNic (s : Rx) (i : Nat) : Prop :=
  (i + numRxDesc - s.rdh) % numRxDesc < (s.rdt + numRxDesc - s.rdh) % numRxDesc ∧
    ¬ (s.desc i).Done

/-- Each frame is delivered once, in order, with its own length. -/
structure Delivers (s : Rx) : Prop where
  order : s.delivered <+: s.received
  /-- Its buffer stays while `net_receive` runs. -/
  kept : ∀ len, s.pc = .receive len →
    s.delivered.getLast? = some (bytes (s.buffers s.rxTail) len.toNat)
  /-- The handler is running or will be called. -/
  called : s.delivered ≠ s.received → s.pc = .idle → s.icr &&& icrRxt0 ≠ 0
  able : (step s (if s.pc = .idle then .irq else .handler)).isSome
  /-- Whatever the NIC does meanwhile. -/
  progress : ∀ actions t, Run.run step s actions = some t →
    7 * (s.received.length - s.delivered.length) ≤ handlerSteps actions → s.received <+: t.delivered

/-- The handler leaves an empty ring to the NIC. -/
structure Drained (s : Rx) : Prop where
  all : s.delivered = s.received
  last : s.rdt = (s.rxTail + numRxDesc - 1) % numRxDesc
  others : ∀ i < numRxDesc, i ≠ s.rdt → OfNic s i

theorem received_step (h : step s a = some t) : s.received <+: t.received := by
  cases a with
  | irq =>
    obtain ⟨-, rfl⟩ := irq_eq h
    exact List.prefix_rfl
  | handler =>
    have hhandler : handler s = some t := h
    unfold handler at hhandler
    split at hhandler
    case h_1 => cases hhandler
    all_goals
      cases hhandler
      exact List.prefix_rfl
  | store frame =>
    have hstore : store s frame = some t := h
    unfold store at hstore
    split at hstore
    case isFalse => cases hstore
    case isTrue =>
      cases hstore
      exact List.prefix_rfl
  | complete status =>
    obtain ⟨frame, -, hcomplete⟩ := Option.bind_eq_some_iff.mp h
    split at hcomplete
    case isFalse => cases hcomplete
    case isTrue =>
      cases hcomplete
      exact List.prefix_append _ _
  | cause bits =>
    cases h
    exact List.prefix_rfl

/-- A step of the handler brings the next delivery closer. -/
theorem Inv.nearer {m : Nat} (h : Inv n pc s) (hm : m ≤ s.received.length)
    (hstep : E1000.handler s = some t) : remaining m t ≤ remaining m s - 1 := by
  have hpc := h.at_pc
  have hlength := h.delivered_length
  unfold E1000.handler at hstep
  unfold remaining
  cases pc with
  | idle =>
    rw [hpc] at hstep
    cases hstep
  | poll =>
    rw [hpc] at hstep ⊢
    cases hstep
    dsimp only
    by_cases hlt : s.delivered.length < m
    · have hn : n < s.received.length := by
        have hgiven : s.delivered.length = n := hlength
        omega
      rw [if_pos hlt, if_pos hlt, if_pos (h.done_iff.mpr hn)]
      exact le_refl _
    · rw [if_neg hlt]
      exact Nat.zero_le _
  | call len =>
    rw [hpc] at hstep ⊢
    cases hstep
    simp only [List.length_append, List.length_singleton, Pc.distance]
    split
    case isTrue => rw [if_pos (by omega)]; omega
    case isFalse => exact Nat.zero_le _
  | _ =>
    rw [hpc] at hstep ⊢
    cases hstep
    dsimp only [Pc.distance]
    split
    case isTrue => omega
    case isFalse => exact Nat.zero_le _

theorem Inv.remaining_step {m : Nat} (h : Inv n pc s) (hm : m ≤ s.received.length)
    (hstep : E1000.step s a = some t) : remaining m t ≤ remaining m s - a.cost := by
  have hlength := h.delivered_length
  cases a with
  | irq =>
    obtain ⟨hpc, rfl⟩ := irq_eq hstep
    obtain rfl := h.at_pc.symm.trans hpc
    unfold remaining
    rw [hpc]
    dsimp only
    by_cases hlt : s.delivered.length < m
    · have hn : n < s.received.length := by
        have hgiven : s.delivered.length = n := hlength
        omega
      rw [if_pos hlt, if_pos hlt, if_pos (h.pending rfl hn)]
      exact le_refl _
    · rw [if_neg hlt]
      exact Nat.zero_le _
  | handler => exact h.nearer hm hstep
  | store frame =>
    have hstore : E1000.store s frame = some t := hstep
    unfold E1000.store at hstore
    split at hstore
    case isFalse => cases hstore
    case isTrue =>
      cases hstore
      exact le_refl _
  | complete status =>
    obtain ⟨frame, -, hcomplete⟩ := Option.bind_eq_some_iff.mp hstep
    split at hcomplete
    case isFalse => cases hcomplete
    case isTrue =>
      cases hcomplete
      exact le_refl _
  | cause bits =>
    cases hstep
    exact le_refl _

theorem Inv.remaining_run {m : Nat} {actions : List Action} (h : Inv n pc s)
    (hm : m ≤ s.received.length) (hrun : Run.run E1000.step s actions = some t) :
    s.received <+: t.received ∧ remaining m t ≤ remaining m s - handlerSteps actions ∧
      ∃ n pc, Inv n pc t := by
  induction actions generalizing s n pc with
  | nil =>
    cases hrun
    exact ⟨List.prefix_rfl, le_refl _, n, pc, h⟩
  | cons a actions ih =>
    obtain ⟨u, hu, hrest⟩ := Option.bind_eq_some_iff.mp hrun
    obtain ⟨k, pc', hinv⟩ := h.step hu
    have hgrows := received_step hu
    obtain ⟨hreceived, hle, hlast⟩ := ih hinv (le_trans hm hgrows.length_le) hrest
    have hnear := h.remaining_step hm hu
    have hsteps : handlerSteps (a :: actions) = a.cost + handlerSteps actions := by
      unfold handlerSteps
      rw [List.map_cons, List.sum_cons]
    exact ⟨hgrows.trans hreceived, by omega, hlast⟩

theorem Inv.progress {actions : List Action} (h : Inv n pc s)
    (hrun : Run.run E1000.step s actions = some t)
    (hsteps : 7 * (s.received.length - s.delivered.length) ≤ handlerSteps actions) :
    s.received <+: t.delivered := by
  obtain ⟨hreceived, hle, k, pc', hinv⟩ := h.remaining_run (le_refl _) hrun
  have hdistance : pc.distance ≤ 7 := by
    cases pc with
    | _ => exact Nat.le_of_ble_eq_true rfl
  have hzero : remaining s.received.length t = 0 := by
    have hfirst : remaining s.received.length s ≤
        7 * (s.received.length - s.delivered.length) := by
      unfold remaining
      rw [h.at_pc]
      split <;> omega
    omega
  have hlength : s.received.length ≤ t.delivered.length := by
    unfold remaining at hzero
    split at hzero
    case isTrue =>
      have hpositive : 0 < t.pc.distance := by
        cases t.pc with
        | _ => exact Nat.le_of_ble_eq_true rfl
      omega
    case isFalse hge => omega
  have horder : t.delivered <+: t.received := by
    rw [hinv.prior]
    exact List.take_prefix _ _
  exact List.prefix_of_prefix_length_le hreceived horder hlength

theorem Inv.delivers (h : Inv n pc s) : Delivers s where
  order := by
    rw [h.prior]
    exact List.take_prefix _ _
  kept := by
    intro len hpc
    obtain rfl := h.at_pc.symm.trans hpc
    obtain ⟨frame, hframe, hlen, hholds⟩ := h.busy trivial rfl
    obtain ⟨hlt, hget⟩ := List.getElem?_eq_some_iff.mp hframe
    have hprior : s.delivered = s.received.take (n + 1) := h.prior
    have hlen : len.toNat = frame.length := hlen
    rw [hprior, List.take_succ_eq_append_getElem hlt, List.getLast?_concat, hlen, hholds.2, hget]
  called := by
    intro hne hpc
    obtain rfl := h.at_pc.symm.trans hpc
    have hprior : s.delivered = s.received.take n := h.prior
    have hlt : n < s.received.length := by
      by_contra hge
      exact hne (by rw [hprior, List.take_of_length_le (by omega)])
    exact h.pending rfl hlt
  able := by
    by_cases hpc : s.pc = .idle
    · rw [if_pos hpc]
      show (irq s).isSome
      unfold E1000.irq
      rw [if_pos hpc]
      rfl
    · rw [if_neg hpc]
      show (E1000.handler s).isSome
      unfold E1000.handler
      split
      case h_1 hidle => exact absurd hidle hpc
      all_goals rfl
  progress := fun _ _ hrun hsteps => h.progress hrun hsteps

theorem Inv.drained (h : Inv n .poll s) (hempty : ¬ (s.desc s.rxTail).Done) :
    Drained { s with pc := .idle } := by
  have hlow : n ≤ s.received.length := h.low
  have hlength : s.received.length = n := by
    by_contra hne
    exact hempty (h.done_iff.mpr (by omega))
  have hlast : s.rdt = (n + 7) % numRxDesc := h.last
  have hhead : s.rdh = n % numRxDesc := hlength ▸ h.head
  have htail := h.tail
  have hprior : s.delivered = s.received.take n := h.prior
  unfold numRxDesc at hlast hhead htail
  exact {
    all := by
      show s.delivered = s.received
      rw [hprior, List.take_of_length_le (le_of_eq hlength)]
    last := by
      show s.rdt = (s.rxTail + 8 - 1) % 8
      omega
    others := fun i hi hne => by
      have hi : i < 8 := hi
      have hne : i ≠ s.rdt := hne
      refine ⟨?_, ?_⟩
      · show (i + 8 - s.rdh) % 8 < (s.rdt + 8 - s.rdh) % 8
        omega
      · have hslot : (n + (i + 8 - s.rdh) % 8) % numRxDesc = i := by
          unfold numRxDesc
          omega
        rw [← hslot]
        refine h.empty _ (by omega) ?_
        show n + (i + 8 - s.rdh) % 8 < n + 0 + 8
        omega }

/-- The steps at which the handler finds no more frames. -/
def Drains (s : Rx) (_ : Action) (t : Rx) : Prop := s.pc = .poll → t.pc = .idle → Drained t

theorem Inv.drains (h : Inv n pc s) (hstep : E1000.step s a = some t) : Drains s a t := by
  intro hpc hidle
  obtain rfl := h.at_pc.symm.trans hpc
  cases a with
  | irq =>
    obtain ⟨hne, -⟩ := irq_eq hstep
    rw [hpc] at hne
    cases hne
  | handler =>
    have hhandler : E1000.handler s = some t := hstep
    unfold E1000.handler at hhandler
    rw [hpc] at hhandler
    cases hhandler
    by_cases hdone : (s.desc s.rxTail).Done
    · rw [if_pos hdone] at hidle
      cases hidle
    · rw [if_neg hdone]
      exact h.drained hdone
  | store frame =>
    have hinv := h.store hstep
    rw [hinv.at_pc] at hidle
    cases hidle
  | complete status =>
    have hinv := h.complete hstep
    rw [hinv.at_pc] at hidle
    cases hidle
  | cause bits =>
    cases hstep
    rw [hpc] at hidle
    cases hidle

/-- The receive ring, whatever the NIC and the handler do in which order. -/
theorem e1000_receive (desc : Nat → RxDesc) (buffers : Nat → Nat → Byte) (icr : BitVec 32)
    (actions : List Action) :
    Run.EveryState step Delivers (rxInit desc buffers icr) actions ∧
      Run.EveryStep step Drains (rxInit desc buffers icr) actions := by
  have hstep : ∀ s a t, (∃ n pc, Inv n pc s) → step s a = some t → True →
      (∃ n pc, Inv n pc t) ∧ Drains s a t := by
    rintro s a t ⟨n, pc, h⟩ hstep -
    exact ⟨h.step hstep, h.drains hstep⟩
  have hinit : ∃ n pc, Inv n pc (rxInit desc buffers icr) := ⟨0, .idle, inv_init⟩
  have hall : Run.EveryStep step (fun _ _ _ => True) (rxInit desc buffers icr) actions :=
    Run.everyStep_of_forall (A := fun _ => True) fun _ _ => trivial
  constructor
  · refine hall.everyState (fun s a t hs ht hq => (hstep s a t hs ht hq).1) ?_ hinit
    rintro s ⟨n, pc, h⟩
    exact h.delivers
  · exact hall.mono hstep hinit

end PinguinOS.Drivers.E1000
