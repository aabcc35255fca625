import Mathlib.Data.List.Infix
import Mathlib.Logic.Function.Basic
import PinguinOS.Lib.Ring
import PinguinOS.Lib.Run
import PinguinOS.Drivers.Buffer

/-! The transmit ring of `e1000.c`, filled by `e1000_send_frame` while the NIC empties it. -/
namespace PinguinOS.Drivers.E1000

def numTxDesc : Nat := 8
def txBufSize : Nat := 2048
def txdCmdEOP : Byte := 1 <<< 0
def txdCmdIFCS : Byte := 1 <<< 1
def txdCmdRS : Byte := 1 <<< 3
def txdStaDD : Byte := 1 <<< 0

/-- `e1000_tx_desc_t`: what the driver sets. `addr` is always that of `tx_buffers[i]`. -/
structure TxDesc where
  length : BitVec 16
  cmd : Byte
  status : Byte

/-- Where `e1000_send_frame` is, and with which frame. -/
inductive TxPc
  | idle
  | describe (frame : List Byte)
  | bump (frame : List Byte)
  | doorbell (frame : List Byte)

/-- The driver, the registers and the NIC. `fetching` is the frame that the NIC is sending;
`accepted` and `transmitted` are the frames that 0 was returned for and those on the wire. -/
structure Tx where
  present : Bool
  desc : Nat → TxDesc
  buffers : Nat → Nat → Byte
  txTail : Nat
  tdh : Nat
  tdt : Nat
  pc : TxPc
  fetching : Option (List Byte)
  accepted : List (List Byte)
  transmitted : List (List Byte)

/-- The ring as `e1000_init` sets it up. -/
def txInit (present : Bool) (buffers : Nat → Nat → Byte) : Tx where
  present := present
  desc := fun _ => ⟨0, 0, 0⟩
  buffers := buffers
  txTail := 0
  tdh := 0
  tdt := 0
  pc := .idle
  fetching := none
  accepted := []
  transmitted := []

/-- `e1000_send_frame` up to the copy. -/
def send (s : Tx) (frame : List Byte) : Option Tx :=
  match s.pc with
  | .idle =>
    if s.present = false ∨ frame.length > txBufSize then some s
    else
      some { s with
        buffers := Function.update s.buffers s.txTail (fill (s.buffers s.txTail) frame)
        pc := .describe frame }
  | _ => none

/-- And from there on, one access after the other. -/
def drive (s : Tx) : Option Tx :=
  match s.pc with
  | .idle => none
  | .describe frame =>
    some { s with
      desc := Function.update s.desc s.txTail
        ⟨BitVec.ofNat 16 frame.length, txdCmdEOP ||| txdCmdIFCS ||| txdCmdRS, 0⟩
      pc := .bump frame }
  | .bump frame => some { s with txTail := (s.txTail + 1) % numTxDesc, pc := .doorbell frame }
  | .doorbell frame =>
    some { s with tdt := s.txTail, accepted := s.accepted ++ [frame], pc := .idle }

/-- What descriptor `i` says to send. -/
def Tx.frameAt (s : Tx) (i : Nat) : List Byte := bytes (s.buffers i) (s.desc i).length.toNat

/-- The NIC reads the frame at `TDH`, unless that is `TDT`. -/
def fetch (s : Tx) : Option Tx :=
  if s.fetching = none ∧ s.tdh ≠ s.tdt then some { s with fetching := some (s.frameAt s.tdh) }
  else none

/-- `DD` is set when the command asked for it. -/
def TxDesc.report (d : TxDesc) : TxDesc :=
  if d.cmd &&& txdCmdRS ≠ 0 then { d with status := d.status ||| txdStaDD } else d

/-- It has sent the frame, reports that and moves on. -/
def finish (s : Tx) : Option Tx :=
  s.fetching.map fun frame =>
    { s with
      desc := Function.update s.desc s.tdh (s.desc s.tdh).report
      tdh := (s.tdh + 1) % numTxDesc
      fetching := none
      transmitted := s.transmitted ++ [frame] }

inductive TxAction
  | send (frame : List Byte)
  | drive
  | fetch
  | finish

def TxAction.ByNic : TxAction → Prop
  | .fetch | .finish => True
  | _ => False

def txStep (s : Tx) : TxAction → Option Tx
  | .send frame => send s frame
  | .drive => drive s
  | .fetch => fetch s
  | .finish => finish s

/-- The descriptor that the driver writes, or whose buffer it writes. -/
def Tx.rewrites (s : Tx) : TxAction → Option Nat
  | .send frame => if s.present = false ∨ frame.length > txBufSize then none else some s.txTail
  | .drive =>
    match s.pc with
    | .describe _ => some s.txTail
    | _ => none
  | _ => none

/-- One of the frames that are not completed was put into descriptor `i`. -/
def Tx.Busy (s : Tx) (i : Nat) : Prop :=
  ∃ k, s.transmitted.length ≤ k ∧ k < s.accepted.length ∧ k % numTxDesc = i

/-- What a step owes to the frames sent so far. -/
structure Sends (s : Tx) (a : TxAction) (t : Tx) : Prop where
  apart : ∀ i, s.rewrites a = some i → ¬ s.Busy i
  /-- `TDT` does not come to stand at `TDH` while frames are pending. -/
  tail : t.tdh = t.tdt → t.accepted.length ≤ t.transmitted.length
  order : t.transmitted <+: t.accepted
  /-- The NIC on its own sends what was accepted, and nothing else. -/
  rest : Run.Reaches txStep TxAction.ByNic (fun u => u.transmitted = t.accepted) t

/-- The tail is moved while at most six frames are pending. -/
def Roomy (s : Tx) (a : TxAction) (_ : Tx) : Prop :=
  ∀ frame, a = .drive → s.pc = .doorbell frame → s.accepted.length < s.transmitted.length + 7

/-- `tx_tail` is already past the frame. -/
def TxPc.bumped : TxPc → Nat
  | .doorbell _ => 1
  | _ => 0

/-- How far the frame being sent is: copied, then described. -/
def TxPc.Ready (s : Tx) (i : Nat) : TxPc → Prop
  | .idle => True
  | .describe frame => frame.length ≤ txBufSize ∧ bytes (s.buffers i) frame.length = frame
  | .bump frame | .doorbell frame => s.frameAt i = frame

structure TxInv (pc : TxPc) (s : Tx) : Prop where
  at_pc : s.pc = pc
  head : s.tdh = s.transmitted.length % numTxDesc
  last : s.tdt = s.accepted.length % numTxDesc
  tail : s.txTail = (s.accepted.length + pc.bumped) % numTxDesc
  high : s.accepted.length ≤ s.transmitted.length + 7
  order : s.transmitted <+: s.accepted
  held : ∀ k frame, s.transmitted.length ≤ k → s.accepted[k]? = some frame →
    s.frameAt (k % numTxDesc) = frame
  ready : pc.Ready s (s.accepted.length % numTxDesc)
  fetched : ∀ frame, s.fetching = some frame → s.accepted[s.transmitted.length]? = some frame

variable {s t : Tx} {pc : TxPc} {present : Bool} {buffers : Nat → Nat → Byte}
  {frame : List Byte} {a : TxAction}

theorem txInv_init : TxInv .idle (txInit present buffers) where
  at_pc := rfl
  head := rfl
  last := rfl
  tail := rfl
  high := Nat.zero_le _
  order := List.prefix_rfl
  held := by
    intro k frame _ h
    cases h
  ready := trivial
  fetched := by
    intro frame h
    cases h

/-- The descriptors of pending frames are not the next one. -/
theorem TxInv.slot_ne {k : Nat} (h : TxInv pc s) (hk : s.transmitted.length ≤ k)
    (hframe : s.accepted[k]? = some frame) :
    k % numTxDesc ≠ s.accepted.length % numTxDesc := by
  have hhigh := h.high
  exact Ring.slot_ne (List.getElem?_eq_some_iff.mp hframe).1 (by show _ < k + 8; omega)

theorem TxInv.send (h : TxInv .idle s) (hstep : send s frame = some t) : ∃ pc, TxInv pc t := by
  have hpc := h.at_pc
  unfold E1000.send at hstep
  rw [hpc] at hstep
  dsimp only at hstep
  split at hstep
  case isTrue =>
    cases hstep
    exact ⟨.idle, h⟩
  case isFalse hfits =>
    cases hstep
    have htail : s.txTail = s.accepted.length % numTxDesc := h.tail
    refine ⟨.describe frame, ?_⟩
    exact {
      at_pc := rfl
      head := h.head
      last := h.last
      tail := h.tail
      high := h.high
      order := h.order
      held := fun k prior hk hprior => by
        have hne := h.slot_ne hk hprior
        have hheld := h.held k prior hk hprior
        unfold Tx.frameAt at hheld ⊢
        dsimp only
        rw [htail, Function.update_of_ne hne, hheld]
      ready := by
        refine ⟨not_lt.mp fun hlt => hfits (Or.inr hlt), ?_⟩
        show bytes (Function.update s.buffers s.txTail _ _) frame.length = frame
        rw [htail, Function.update_self, bytes_fill]
      fetched := h.fetched }

theorem TxInv.describe (h : TxInv (.describe frame) s) : TxInv (.bump frame) { s with
    desc := Function.update s.desc s.txTail
      ⟨BitVec.ofNat 16 frame.length, txdCmdEOP ||| txdCmdIFCS ||| txdCmdRS, 0⟩
    pc := .bump frame } := by
  have htail : s.txTail = s.accepted.length % numTxDesc := h.tail
  obtain ⟨hfits, hcopied⟩ := h.ready
  have hlength : (BitVec.ofNat 16 frame.length).toNat = frame.length :=
    toNat_ofNat_16 (lt_of_le_of_lt hfits (by decide))
  exact {
    at_pc := rfl
    head := h.head
    last := h.last
    tail := h.tail
    high := h.high
    order := h.order
    held := fun k prior hk hprior => by
      have hne := h.slot_ne hk hprior
      have hheld := h.held k prior hk hprior
      unfold Tx.frameAt at hheld ⊢
      dsimp only
      rw [htail, Function.update_of_ne hne, hheld]
    ready := by
      show bytes (s.buffers _) (Function.update s.desc s.txTail _ _).length.toNat = frame
      rw [htail, Function.update_self]
      dsimp only
      rw [hlength, hcopied]
    fetched := h.fetched }

theorem TxInv.bump (h : TxInv (.bump frame) s) :
    TxInv (.doorbell frame)
      { s with txTail := (s.txTail + 1) % numTxDesc, pc := .doorbell frame } where
  at_pc := rfl
  head := h.head
  last := h.last
  tail := by
    have htail : s.txTail = s.accepted.length % numTxDesc := h.tail
    show (s.txTail + 1) % numTxDesc = (s.accepted.length + 1) % numTxDesc
    rw [htail, Nat.mod_add_mod]
  high := h.high
  order := h.order
  held := h.held
  ready := h.ready
  fetched := h.fetched

/-- The frame is the NIC's, while there is room for it. -/
theorem TxInv.doorbell (h : TxInv (.doorbell frame) s)
    (hroom : s.accepted.length < s.transmitted.length + 7) :
    TxInv .idle { s with tdt := s.txTail, accepted := s.accepted ++ [frame], pc := .idle } := by
  have hlength : (s.accepted ++ [frame]).length = s.accepted.length + 1 := by simp
  have hready : s.frameAt (s.accepted.length % numTxDesc) = frame := h.ready
  have htail : s.txTail = (s.accepted.length + 1) % numTxDesc := h.tail
  exact {
    at_pc := rfl
    head := h.head
    last := by
      show s.txTail = (s.accepted ++ [frame]).length % numTxDesc
      rw [hlength, htail]
    tail := by
      show s.txTail = ((s.accepted ++ [frame]).length + 0) % numTxDesc
      rw [hlength, htail]
    high := by
      show (s.accepted ++ [frame]).length ≤ s.transmitted.length + 7
      omega
    order := h.order.trans (List.prefix_append _ _)
    held := fun k prior hk hprior => by
      rcases Nat.lt_or_ge k s.accepted.length with hlt | hge
      · rw [List.getElem?_append_left hlt] at hprior
        exact h.held k prior hk hprior
      · have hlt : k < (s.accepted ++ [frame]).length := (List.getElem?_eq_some_iff.mp hprior).1
        obtain rfl : k = s.accepted.length := by omega
        rw [List.getElem?_concat_length] at hprior
        cases hprior
        exact hready
    ready := trivial
    fetched := fun prior hprior => by
      have hold := h.fetched prior hprior
      have hlt := (List.getElem?_eq_some_iff.mp hold).1
      exact (List.getElem?_append_left hlt).trans hold }

theorem TxInv.pending (h : TxInv pc s) (hne : s.tdh ≠ s.tdt) :
    s.transmitted.length < s.accepted.length := by
  refine lt_of_le_of_ne h.order.length_le fun heq => hne ?_
  rw [h.head, h.last, heq]

theorem TxInv.fetch (h : TxInv pc s) (hne : s.tdh ≠ s.tdt) :
    TxInv pc { s with fetching := some (s.frameAt s.tdh) } where
  at_pc := h.at_pc
  head := h.head
  last := h.last
  tail := h.tail
  high := h.high
  order := h.order
  held := h.held
  ready := by
    have hready := h.ready
    cases pc with
    | _ => exact hready
  fetched := fun frame hframe => by
    cases hframe
    have hget := List.getElem?_eq_getElem (h.pending hne)
    rw [h.head, h.held _ _ (le_refl _) hget]
    exact hget

/-- The report leaves the frame. -/
theorem frameAt_report {i k : Nat} :
    bytes (s.buffers k) (Function.update s.desc i (s.desc i).report k).length.toNat =
      s.frameAt k := by
  have hlength : (s.desc i).report.length = (s.desc i).length := by
    unfold TxDesc.report
    split <;> rfl
  unfold Tx.frameAt
  by_cases hk : k = i
  · rw [hk, Function.update_self, hlength]
  · rw [Function.update_of_ne hk]

theorem TxInv.finish (h : TxInv pc s) (hstep : finish s = some t) :
    TxInv pc t ∧ t.accepted = s.accepted ∧
      t.transmitted.length = s.transmitted.length + 1 ∧ t.fetching = none := by
  obtain ⟨frame, hfetching, rfl⟩ := Option.map_eq_some_iff.mp hstep
  have hget := h.fetched frame hfetching
  obtain ⟨hlt, hframe⟩ := List.getElem?_eq_some_iff.mp hget
  have hlength : (s.transmitted ++ [frame]).length = s.transmitted.length + 1 := by simp
  have hhigh := h.high
  refine ⟨?_, rfl, hlength, rfl⟩
  exact {
    at_pc := h.at_pc
    head := by
      show (s.tdh + 1) % numTxDesc = (s.transmitted ++ [frame]).length % numTxDesc
      rw [hlength, h.head, Nat.mod_add_mod]
    last := h.last
    tail := h.tail
    high := by
      show s.accepted.length ≤ (s.transmitted ++ [frame]).length + 7
      omega
    order := by
      show s.transmitted ++ [frame] <+: s.accepted
      rw [← hframe]
      exact List.concat_get_prefix h.order hlt
    held := fun k prior hk hprior => by
      have hk : (s.transmitted ++ [frame]).length ≤ k := hk
      rw [← h.held k prior (by omega) hprior]
      exact @frameAt_report s s.tdh (k % numTxDesc)
    ready := by
      have hready := h.ready
      cases pc with
      | bump _ => exact frameAt_report.trans hready
      | doorbell _ => exact frameAt_report.trans hready
      | _ => exact hready
    fetched := fun prior hprior => by cases hprior }

theorem fetch_eq (h : fetch s = some t) :
    s.fetching = none ∧ s.tdh ≠ s.tdt ∧ t = { s with fetching := some (s.frameAt s.tdh) } := by
  unfold fetch at h
  split at h
  case isFalse => cases h
  case isTrue hfree =>
    cases h
    exact ⟨hfree.1, hfree.2, rfl⟩

theorem TxInv.step (h : TxInv pc s) (hstep : txStep s a = some t) (hroom : Roomy s a t) :
    ∃ pc, TxInv pc t := by
  have hpc := h.at_pc
  cases a with
  | send frame =>
    cases pc with
    | idle => exact h.send hstep
    | _ =>
      have hsend : E1000.send s frame = some t := hstep
      unfold E1000.send at hsend
      rw [hpc] at hsend
      cases hsend
  | drive =>
    have hdrive : drive s = some t := hstep
    unfold drive at hdrive
    rw [hpc] at hdrive
    cases pc with
    | idle => cases hdrive
    | describe frame =>
      cases hdrive
      exact ⟨_, h.describe⟩
    | bump frame =>
      cases hdrive
      exact ⟨_, h.bump⟩
    | doorbell frame =>
      cases hdrive
      exact ⟨_, h.doorbell (hroom frame rfl hpc)⟩
  | fetch =>
    obtain ⟨-, hne, rfl⟩ := fetch_eq hstep
    exact ⟨pc, h.fetch hne⟩
  | finish => exact ⟨pc, (h.finish hstep).1⟩

/-- While a frame is pending, the NIC can send it. -/
theorem TxInv.next (h : TxInv pc s) (hpending : s.transmitted.length < s.accepted.length) :
    Run.Reaches txStep TxAction.ByNic (fun t => TxInv pc t ∧ t.accepted = s.accepted ∧
      t.transmitted.length = s.transmitted.length + 1) s := by
  have hbyFinish : TxAction.ByNic .finish := trivial
  have hbyFetch : TxAction.ByNic .fetch := trivial
  have hfinish : ∀ u : Tx, TxInv pc u → u.fetching.isSome →
      Run.Reaches txStep TxAction.ByNic (fun t => TxInv pc t ∧ t.accepted = u.accepted ∧
        t.transmitted.length = u.transmitted.length + 1) u := by
    intro u hu hsome
    obtain ⟨frame, hframe⟩ := Option.isSome_iff_exists.mp hsome
    obtain ⟨t, ht⟩ : ∃ t, E1000.finish u = some t := by
      unfold E1000.finish
      rw [hframe]
      exact ⟨_, rfl⟩
    obtain ⟨hinv, haccepted, hlength, -⟩ := hu.finish ht
    exact Run.reaches_step hbyFinish ht (Run.reaches_self ⟨hinv, haccepted, hlength⟩)
  by_cases hsome : s.fetching.isSome
  · exact hfinish s h hsome
  · have hne : s.tdh ≠ s.tdt := by
      rw [h.head, h.last]
      exact Ring.slot_ne hpending (by have := h.high; show _ < _ + 8; omega)
    have hnone : s.fetching = none := Option.not_isSome_iff_eq_none.mp hsome
    have ht : txStep s .fetch = some { s with fetching := some (s.frameAt s.tdh) } :=
      if_pos ⟨hnone, hne⟩
    exact Run.reaches_step hbyFetch ht (hfinish _ (h.fetch hne) rfl)

theorem TxInv.rest (h : TxInv pc s) :
    Run.Reaches txStep TxAction.ByNic (fun u => u.transmitted = s.accepted) s :=
  Run.reaches_all Tx.accepted Tx.transmitted (fun _ h => h.order) (fun _ h => h.next) h

/-- The driver only ever writes to a descriptor without a pending frame. -/
theorem TxInv.apart {i : Nat} (h : TxInv pc s) (hi : s.rewrites a = some i)
    (hstep : txStep s a = some t) : ¬ s.Busy i := by
  have hslot : i = s.accepted.length % numTxDesc := by
    cases a with
    | send frame =>
      have hsend : E1000.send s frame = some t := hstep
      cases pc with
      | idle =>
        dsimp only [Tx.rewrites] at hi
        split at hi
        case isTrue => cases hi
        case isFalse =>
          cases hi
          exact h.tail
      | _ =>
        unfold E1000.send at hsend
        rw [h.at_pc] at hsend
        cases hsend
    | drive =>
      unfold Tx.rewrites at hi
      rw [h.at_pc] at hi
      cases pc with
      | describe frame =>
        cases hi
        exact h.tail
      | _ => cases hi
    | _ => cases hi
  rintro ⟨k, hlow, hlt, rfl⟩
  exact h.slot_ne hlow (List.getElem?_eq_getElem hlt) hslot

theorem TxInv.sends (h : TxInv pc s) (hstep : txStep s a = some t) :
    Sends s a t ↔ Roomy s a t := by
  constructor
  · intro hsends frame ha hpc
    subst ha
    obtain rfl := h.at_pc.symm.trans hpc
    have hdrive : drive s = some t := hstep
    unfold drive at hdrive
    rw [hpc] at hdrive
    cases hdrive
    -- with seven frames pending, the tail comes to stand at the head
    by_contra hfull
    have hhigh := h.high
    have htail : s.txTail = (s.accepted.length + 1) % 8 := h.tail
    have hhead : s.tdh = s.transmitted.length % 8 := h.head
    have hle : (s.accepted ++ [frame]).length ≤ s.transmitted.length := by
      refine hsends.tail ?_
      show s.tdh = s.txTail
      omega
    rw [List.length_append] at hle
    omega
  · intro hroom
    obtain ⟨pc', hinv⟩ := h.step hstep hroom
    exact {
      apart := fun i hi => h.apart hi hstep
      tail := fun heq => by
        by_contra hlt
        have hhigh := hinv.high
        rw [hinv.head, hinv.last] at heq
        exact Ring.slot_ne (not_le.mp hlt) (by show _ < _ + 8; omega) heq
      order := hinv.order
      rest := hinv.rest }

/-- A run serves every frame exactly when it rings the bell for at most seven pending frames. -/
theorem sends_iff (actions : List TxAction) :
    Run.EveryStep txStep Sends (txInit present buffers) actions ↔
      Run.EveryStep txStep Roomy (txInit present buffers) actions := by
  refine Run.everyStep_iff (I := fun s => ∃ pc, TxInv pc s) ?_ ⟨.idle, txInv_init⟩
  rintro s a t ⟨pc, h⟩ hstep
  exact ⟨h.sends hstep, h.step hstep⟩

/-- Eight frames in a row, with nothing sent meanwhile. -/
def burst (frame : List Byte) : List TxAction :=
  (List.replicate 8 [.send frame, .drive, .drive, .drive]).flatten

theorem not_sends_burst : ¬ Run.EveryStep txStep Sends
    (txInit true fun _ _ => 0) (burst (List.replicate 60 0)) := by
  rw [sends_iff]
  intro hroomy
  have hsplit : burst (List.replicate 60 0) =
      (burst (List.replicate 60 0)).dropLast ++ [.drive] := rfl
  rw [hsplit] at hroomy
  have hrun : ((Run.run txStep (txInit true fun _ _ => 0)
      (burst (List.replicate 60 0)).dropLast).map
        fun s => (s.pc, s.accepted.length, s.transmitted.length)) =
      some (.doorbell (List.replicate 60 0), 7, 0) := rfl
  obtain ⟨s, hs, heq⟩ := Option.map_eq_some_iff.mp hrun
  have hpc : s.pc = .doorbell (List.replicate 60 0) := congrArg Prod.fst heq
  have haccepted : s.accepted.length = 7 := congrArg (fun p => p.2.1) heq
  have htransmitted : s.transmitted.length = 0 := congrArg (fun p => p.2.2) heq
  have hstep : txStep s .drive = some { s with
      tdt := s.txTail, accepted := s.accepted ++ [List.replicate 60 0], pc := .idle } := by
    show drive s = _
    unfold drive
    rw [hpc]
  have hroom := hroomy.last hs hstep _ rfl hpc
  omega

end PinguinOS.Drivers.E1000
