import PinguinOS.Drivers.E1000Transmit

/-! The transmit buffers of `rtl8139.c`, and what both drivers owe to the frames they accept. -/
namespace PinguinOS.Drivers.Rtl8139

def txBufs : Nat := 4
def txBufSize : Nat := 1536
/-- `OWN` and `TOK` of the status register, and its size field. -/
def tsdOwn : BitVec 32 := 1 <<< 13
def tsdTok : BitVec 32 := 1 <<< 15
def tsdSize : BitVec 32 := 0x1FFF

/-- Where `rtl8139_send_frame` is, and with which frame. -/
inductive TxPc
  | idle
  | kick (frame : List Byte)
  | next

/-- The driver, the status registers and the NIC, which sends from buffer `head`. -/
structure Tx where
  ioBase : BitVec 16
  buffers : Nat → Nat → Byte
  txStatus : Nat → BitVec 32
  txCur : Nat
  head : Nat
  pc : TxPc
  fetching : Option (List Byte)
  accepted : List (List Byte)
  transmitted : List (List Byte)

/-- After `rtl8139_init`: a reset leaves all buffers to the driver. -/
def txInit (ioBase : BitVec 16) (buffers : Nat → Nat → Byte) : Tx where
  ioBase := ioBase
  buffers := buffers
  txStatus := fun _ => tsdOwn
  txCur := 0
  head := 0
  pc := .idle
  fetching := none
  accepted := []
  transmitted := []

/-- `rtl8139_send_frame` up to the copy. -/
def send (s : Tx) (frame : List Byte) : Option Tx :=
  match s.pc with
  | .idle =>
    if s.ioBase = 0 ∨ frame.length > txBufSize then some s
    else
      some { s with
        buffers := Function.update s.buffers s.txCur (fill (s.buffers s.txCur) frame)
        pc := .kick frame }
  | _ => none

/-- And from there on: the length starts the NIC. -/
def drive (s : Tx) : Option Tx :=
  match s.pc with
  | .idle => none
  | .kick frame =>
    some { s with
      txStatus := Function.update s.txStatus s.txCur (BitVec.ofNat 32 frame.length)
      accepted := s.accepted ++ [frame]
      pc := .next }
  | .next => some { s with txCur := (s.txCur + 1) % txBufs, pc := .idle }

/-- What buffer `i` and its status register say to send. -/
def Tx.frameAt (s : Tx) (i : Nat) : List Byte :=
  bytes (s.buffers i) (s.txStatus i &&& tsdSize).toNat

def Tx.Owned (s : Tx) (i : Nat) : Prop := s.txStatus i &&& tsdOwn ≠ 0

instance (s : Tx) (i : Nat) : Decidable (s.Owned i) := inferInstanceAs (Decidable (_ ≠ _))

/-- The NIC reads the frame of its next buffer, unless the driver owns that. -/
def fetch (s : Tx) : Option Tx :=
  if s.fetching = none ∧ ¬ s.Owned s.head then
    some { s with fetching := some (s.frameAt s.head) }
  else none

/-- It has sent the frame, gives the buffer back and moves on. -/
def finish (s : Tx) : Option Tx :=
  s.fetching.map fun frame =>
    { s with
      txStatus := Function.update s.txStatus s.head (s.txStatus s.head ||| tsdOwn ||| tsdTok)
      head := (s.head + 1) % txBufs
      fetching := none
      transmitted := s.transmitted ++ [frame] }

inductive TxAction
  | send (frame : List Byte)
  | drive
  | fetch
  | finish

def TxAction.ByNic : TxAction → Prop
  | .fetch | .finish => True
  | _ => False

def txStep (s : Tx) : TxAction → Option Tx
  | .send frame => send s frame
  | .drive => drive s
  | .fetch => fetch s
  | .finish => finish s

/-- The buffer that the driver writes to. -/
def Tx.rewrites (s : Tx) : TxAction → Option Nat
  | .send frame => if s.ioBase = 0 ∨ frame.length > txBufSize then none else some s.txCur
  | _ => none

/-- One of the frames that are not completed was put into buffer `i`. -/
def Tx.Busy (s : Tx) (i : Nat) : Prop :=
  ∃ k, s.transmitted.length ≤ k ∧ k < s.accepted.length ∧ k % txBufs = i

/-- What a step owes to the frames sent so far. -/
structure Sends (s : Tx) (a : TxAction) (t : Tx) : Prop where
  apart : ∀ i, s.rewrites a = some i → ¬ s.Busy i
  order : t.transmitted <+: t.accepted
  /-- The NIC on its own sends what was accepted, and nothing else. -/
  rest : Run.Reaches txStep TxAction.ByNic (fun u => u.transmitted = t.accepted) t

/-- A frame is sent while at most three are pending. -/
def Roomy (s : Tx) (a : TxAction) (_ : Tx) : Prop :=
  ∀ frame, a = .send frame → s.ioBase ≠ 0 → frame.length ≤ txBufSize →
    s.accepted.length < s.transmitted.length + 4

/-- The frame at `tx_cur` is the NIC's already. -/
def TxPc.kicked : TxPc → Nat
  | .next => 1
  | _ => 0

def TxPc.Ready (s : Tx) (i : Nat) : TxPc → Prop
  | .kick frame => frame.length ≤ txBufSize ∧ bytes (s.buffers i) frame.length = frame ∧
      s.accepted.length < s.transmitted.length + 4
  | _ => True

structure TxInv (pc : TxPc) (s : Tx) : Prop where
  at_pc : s.pc = pc
  head : s.head = s.transmitted.length % txBufs
  cur : (s.txCur + pc.kicked) % txBufs = s.accepted.length % txBufs
  bound : s.txCur < txBufs
  high : s.accepted.length ≤ s.transmitted.length + 4
  order : s.transmitted <+: s.accepted
  held : ∀ k frame, s.transmitted.length ≤ k → s.accepted[k]? = some frame →
    ¬ s.Owned (k % txBufs) ∧ s.frameAt (k % txBufs) = frame
  free : ∀ k, s.accepted.length ≤ k → k < s.transmitted.length + 4 → s.Owned (k % txBufs)
  ready : pc.Ready s s.txCur
  fetched : ∀ frame, s.fetching = some frame → s.accepted[s.transmitted.length]? = some frame

variable {s t : Tx} {pc : TxPc} {ioBase : BitVec 16} {buffers : Nat → Nat → Byte}
  {frame : List Byte} {a : TxAction}

/-- The length that is written is the size, and clears `OWN`. -/
theorem size_ofNat {n : Nat} (h : n ≤ txBufSize) : (BitVec.ofNat 32 n &&& tsdSize).toNat = n := by
  unfold txBufSize at h
  have hsize : tsdSize.toNat = 2 ^ 13 - 1 := rfl
  rw [BitVec.toNat_and, hsize, Nat.and_two_pow_sub_one_eq_mod, BitVec.toNat_ofNat]
  omega

theorem own_ofNat {n : Nat} (h : n ≤ txBufSize) : BitVec.ofNat 32 n &&& tsdOwn = 0 := by
  unfold txBufSize at h
  have hown : tsdOwn.toNat = 2 ^ 13 := rfl
  have hbit : (n % 2 ^ 32).testBit 13 = false := Nat.testBit_lt_two_pow (by omega)
  refine BitVec.eq_of_toNat_eq ?_
  rw [BitVec.toNat_and, hown, BitVec.toNat_ofNat]
  refine Nat.eq_of_testBit_eq fun i => ?_
  rw [Nat.testBit_and, Nat.testBit_two_pow]
  by_cases hi : 13 = i
  · subst hi
    rw [hbit]
    rfl
  · rw [decide_eq_false hi, Bool.and_false]
    exact (Nat.zero_testBit i).symm

theorem own_given_back {x : BitVec 32} : (x ||| tsdOwn ||| tsdTok) &&& tsdOwn ≠ 0 := by
  intro hzero
  rw [BitVec.and_or_distrib_right, BitVec.and_or_distrib_right] at hzero
  have hown := (BitVec.or_eq_zero_iff.mp (BitVec.or_eq_zero_iff.mp hzero).1).2
  exact absurd hown (by decide)

theorem txInv_init : TxInv .idle (txInit ioBase buffers) where
  at_pc := rfl
  head := rfl
  cur := rfl
  bound := Nat.succ_pos 3
  high := Nat.zero_le _
  order := List.prefix_rfl
  held := by
    intro k frame _ h
    cases h
  free := by
    intro k _ _ hzero
    have hne : tsdOwn &&& tsdOwn ≠ 0 := by decide
    exact hne hzero
  ready := trivial
  fetched := by
    intro frame h
    cases h

/-- The buffers of pending frames are not the next one, while there is one. -/
theorem TxInv.slot_ne {k : Nat} (h : TxInv pc s) (hkicked : pc.kicked = 0)
    (hroom : s.accepted.length < s.transmitted.length + 4) (hk : s.transmitted.length ≤ k)
    (hframe : s.accepted[k]? = some frame) : k % txBufs ≠ s.txCur := by
  have hlt := (List.getElem?_eq_some_iff.mp hframe).1
  have hcur := h.cur
  rw [hkicked, Nat.add_zero, Nat.mod_eq_of_lt h.bound] at hcur
  rw [hcur]
  exact Ring.slot_ne hlt (by show _ < k + 4; omega)

theorem TxInv.send (h : TxInv .idle s) (hstep : send s frame = some t)
    (hroom : s.ioBase ≠ 0 → frame.length ≤ txBufSize →
      s.accepted.length < s.transmitted.length + 4) : ∃ pc, TxInv pc t := by
  have hpc := h.at_pc
  unfold Rtl8139.send at hstep
  rw [hpc] at hstep
  dsimp only at hstep
  split at hstep
  case isTrue =>
    cases hstep
    exact ⟨.idle, h⟩
  case isFalse hfits =>
    cases hstep
    have hlength : frame.length ≤ txBufSize := not_lt.mp fun hlt => hfits (Or.inr hlt)
    have hroom := hroom (fun hbase => hfits (Or.inl hbase)) hlength
    refine ⟨.kick frame, ?_⟩
    exact {
      at_pc := rfl
      head := h.head
      cur := h.cur
      bound := h.bound
      high := h.high
      order := h.order
      held := fun k prior hk hprior => by
        have hne := h.slot_ne rfl hroom hk hprior
        obtain ⟨howned, hheld⟩ := h.held k prior hk hprior
        refine ⟨howned, ?_⟩
        unfold Tx.frameAt at hheld ⊢
        dsimp only
        rw [Function.update_of_ne hne, hheld]
      free := h.free
      ready := by
        refine ⟨hlength, ?_, hroom⟩
        show bytes (Function.update s.buffers s.txCur _ s.txCur) frame.length = frame
        rw [Function.update_self, bytes_fill]
      fetched := h.fetched }

theorem TxInv.kick (h : TxInv (.kick frame) s) : TxInv .next { s with
    txStatus := Function.update s.txStatus s.txCur (BitVec.ofNat 32 frame.length)
    accepted := s.accepted ++ [frame]
    pc := .next } := by
  obtain ⟨hfits, hcopied, hroom⟩ := h.ready
  have hlength : (s.accepted ++ [frame]).length = s.accepted.length + 1 := by simp
  have hcur : s.accepted.length % txBufs = s.txCur := by
    have hcur := h.cur
    rw [show TxPc.kicked (.kick frame) = 0 from rfl, Nat.add_zero, Nat.mod_eq_of_lt h.bound] at hcur
    exact hcur.symm
  exact {
    at_pc := rfl
    head := h.head
    cur := by
      show (s.txCur + 1) % txBufs = (s.accepted ++ [frame]).length % txBufs
      rw [hlength, ← hcur, Nat.mod_add_mod]
    bound := h.bound
    high := by
      show (s.accepted ++ [frame]).length ≤ s.transmitted.length + 4
      omega
    order := h.order.trans (List.prefix_append _ _)
    held := fun k prior hk hprior => by
      have hlt : k < (s.accepted ++ [frame]).length := (List.getElem?_eq_some_iff.mp hprior).1
      unfold Tx.Owned Tx.frameAt
      dsimp only
      rcases Nat.lt_or_ge k s.accepted.length with hold | hge
      · rw [List.getElem?_append_left hold] at hprior
        rw [Function.update_of_ne (h.slot_ne rfl hroom hk hprior)]
        exact h.held k prior hk hprior
      · obtain rfl : k = s.accepted.length := by omega
        rw [List.getElem?_concat_length] at hprior
        cases hprior
        rw [hcur, Function.update_self, size_ofNat hfits, own_ofNat hfits]
        exact ⟨fun hne => hne rfl, hcopied⟩
    free := fun k hk hlt => by
      have hk : (s.accepted ++ [frame]).length ≤ k := hk
      have hlt : k < s.transmitted.length + 4 := hlt
      have horder := h.order.length_le
      have hne : k % txBufs ≠ s.txCur := by
        rw [← hcur]
        exact (Ring.slot_ne (by omega) (by show k < _ + 4; omega)).symm
      unfold Tx.Owned
      dsimp only
      rw [Function.update_of_ne hne]
      exact h.free k (by omega) hlt
    ready := trivial
    fetched := fun prior hprior => by
      have hold := h.fetched prior hprior
      have hlt := (List.getElem?_eq_some_iff.mp hold).1
      exact (List.getElem?_append_left hlt).trans hold }

theorem TxInv.advance (h : TxInv .next s) :
    TxInv .idle { s with txCur := (s.txCur + 1) % txBufs, pc := .idle } where
  at_pc := rfl
  head := h.head
  cur := (Nat.mod_mod _ _).trans h.cur
  bound := Nat.mod_lt _ (Nat.succ_pos 3)
  high := h.high
  order := h.order
  held := h.held
  free := h.free
  ready := trivial
  fetched := h.fetched

theorem TxInv.pending (h : TxInv pc s) (howned : ¬ s.Owned s.head) :
    s.transmitted.length < s.accepted.length := by
  refine lt_of_le_of_ne h.order.length_le fun heq => howned ?_
  rw [h.head]
  exact h.free _ (le_of_eq heq.symm) (Nat.lt_add_of_pos_right (Nat.succ_pos 3))

theorem TxInv.fetch (h : TxInv pc s) (howned : ¬ s.Owned s.head) :
    TxInv pc { s with fetching := some (s.frameAt s.head) } where
  at_pc := h.at_pc
  head := h.head
  cur := h.cur
  bound := h.bound
  high := h.high
  order := h.order
  held := h.held
  free := h.free
  ready := by
    have hready := h.ready
    cases pc with
    | _ => exact hready
  fetched := fun frame hframe => by
    cases hframe
    have hget := List.getElem?_eq_getElem (h.pending howned)
    rw [h.head, (h.held _ _ (le_refl _) hget).2]
    exact hget

theorem TxInv.finish (h : TxInv pc s) (hstep : finish s = some t) :
    TxInv pc t ∧ t.accepted = s.accepted ∧
      t.transmitted.length = s.transmitted.length + 1 := by
  obtain ⟨frame, hfetching, rfl⟩ := Option.map_eq_some_iff.mp hstep
  have hget := h.fetched frame hfetching
  obtain ⟨hlt, hframe⟩ := List.getElem?_eq_some_iff.mp hget
  have hlength : (s.transmitted ++ [frame]).length = s.transmitted.length + 1 := by simp
  have hhigh := h.high
  refine ⟨?_, rfl, hlength⟩
  exact {
    at_pc := h.at_pc
    head := by
      show (s.head + 1) % txBufs = (s.transmitted ++ [frame]).length % txBufs
      rw [hlength, h.head, Nat.mod_add_mod]
    cur := h.cur
    bound := h.bound
    high := by
      show s.accepted.length ≤ (s.transmitted ++ [frame]).length + 4
      omega
    order := by
      show s.transmitted ++ [frame] <+: s.accepted
      rw [← hframe]
      exact List.concat_get_prefix h.order hlt
    held := fun k prior hk hprior => by
      have hk : (s.transmitted ++ [frame]).length ≤ k := hk
      have hlow := (List.getElem?_eq_some_iff.mp hprior).1
      have hlow : k < s.accepted.length := hlow
      have hne : k % txBufs ≠ s.head := by
        rw [h.head]
        exact (Ring.slot_ne (by omega) (by show k < _ + 4; omega)).symm
      unfold Tx.Owned Tx.frameAt
      dsimp only
      rw [Function.update_of_ne hne]
      exact h.held k prior (by omega) hprior
    free := fun k hk hlt => by
      have hlt : k < (s.transmitted ++ [frame]).length + 4 := hlt
      unfold Tx.Owned
      dsimp only
      by_cases hslot : k % txBufs = s.head
      · rw [hslot, Function.update_self]
        exact own_given_back
      · have hne : k ≠ s.transmitted.length + 4 := by
          rintro rfl
          exact hslot (by rw [h.head]; exact Nat.add_mod_right _ 4)
        rw [Function.update_of_ne hslot]
        exact h.free k hk (by omega)
    ready := by
      have hready := h.ready
      cases pc with
      | kick _ =>
        obtain ⟨hfits, hcopied, hroom⟩ := hready
        refine ⟨hfits, hcopied, ?_⟩
        show s.accepted.length < (s.transmitted ++ [frame]).length + 4
        omega
      | _ => trivial
    fetched := fun prior hprior => by cases hprior }

theorem fetch_eq (h : fetch s = some t) :
    ¬ s.Owned s.head ∧ t = { s with fetching := some (s.frameAt s.head) } := by
  unfold fetch at h
  split at h
  case isFalse => cases h
  case isTrue hfree =>
    cases h
    exact ⟨hfree.2, rfl⟩

theorem TxInv.step (h : TxInv pc s) (hstep : txStep s a = some t) (hroom : Roomy s a t) :
    ∃ pc, TxInv pc t := by
  have hpc := h.at_pc
  cases a with
  | send frame =>
    cases pc with
    | idle => exact h.send hstep (hroom frame rfl)
    | _ =>
      have hsend : Rtl8139.send s frame = some t := hstep
      unfold Rtl8139.send at hsend
      rw [hpc] at hsend
      cases hsend
  | drive =>
    have hdrive : drive s = some t := hstep
    unfold drive at hdrive
    rw [hpc] at hdrive
    cases pc with
    | idle => cases hdrive
    | kick frame =>
      cases hdrive
      exact ⟨_, h.kick⟩
    | next =>
      cases hdrive
      exact ⟨_, h.advance⟩
  | fetch =>
    obtain ⟨howned, rfl⟩ := fetch_eq hstep
    exact ⟨pc, h.fetch howned⟩
  | finish => exact ⟨pc, (h.finish hstep).1⟩

/-- While a frame is pending, the NIC can send it. -/
theorem TxInv.next (h : TxInv pc s) (hpending : s.transmitted.length < s.accepted.length) :
    Run.Reaches txStep TxAction.ByNic (fun t => TxInv pc t ∧ t.accepted = s.accepted ∧
      t.transmitted.length = s.transmitted.length + 1) s := by
  have hbyFinish : TxAction.ByNic .finish := trivial
  have hbyFetch : TxAction.ByNic .fetch := trivial
  have hfinish : ∀ u : Tx, TxInv pc u → u.fetching.isSome →
      Run.Reaches txStep TxAction.ByNic (fun t => TxInv pc t ∧ t.accepted = u.accepted ∧
        t.transmitted.length = u.transmitted.length + 1) u := by
    intro u hu hsome
    obtain ⟨frame, hframe⟩ := Option.isSome_iff_exists.mp hsome
    obtain ⟨t, ht⟩ : ∃ t, Rtl8139.finish u = some t := by
      unfold Rtl8139.finish
      rw [hframe]
      exact ⟨_, rfl⟩
    exact Run.reaches_step hbyFinish ht (Run.reaches_self (hu.finish ht))
  by_cases hsome : s.fetching.isSome
  · exact hfinish s h hsome
  · have howned : ¬ s.Owned s.head := by
      rw [h.head]
      exact (h.held _ _ (le_refl _) (List.getElem?_eq_getElem hpending)).1
    have hnone : s.fetching = none := Option.not_isSome_iff_eq_none.mp hsome
    have ht : txStep s .fetch = some { s with fetching := some (s.frameAt s.head) } :=
      if_pos ⟨hnone, howned⟩
    exact Run.reaches_step hbyFetch ht (hfinish _ (h.fetch howned) rfl)

theorem TxInv.rest (h : TxInv pc s) :
    Run.Reaches txStep TxAction.ByNic (fun u => u.transmitted = s.accepted) s :=
  Run.reaches_all Tx.accepted Tx.transmitted (fun _ h => h.order) (fun _ h => h.next) h

/-- With four frames pending, `tx_cur` is the buffer of the first of them. -/
theorem TxInv.busy_iff (h : TxInv .idle s) :
    s.Busy s.txCur ↔ s.transmitted.length + 4 ≤ s.accepted.length := by
  have hcur : s.txCur % 4 = s.accepted.length % 4 := h.cur
  have hbound : s.txCur < 4 := h.bound
  have hhigh := h.high
  have hslot : ∀ k, k % txBufs = k % 4 := fun _ => rfl
  constructor
  · rintro ⟨k, hlow, hlt, hk⟩
    rw [hslot] at hk
    omega
  · intro hfull
    refine ⟨s.transmitted.length, le_refl _, by omega, ?_⟩
    rw [hslot]
    omega

/-- When the driver copies a frame, no call is under way and the frame fits. -/
theorem TxInv.send_idle (h : TxInv pc s) (hstep : txStep s (.send frame) = some t) :
    pc = .idle := by
  have hsend : Rtl8139.send s frame = some t := hstep
  unfold Rtl8139.send at hsend
  rw [h.at_pc] at hsend
  cases pc with
  | idle => rfl
  | _ => cases hsend

theorem TxInv.sends (h : TxInv pc s) (hstep : txStep s a = some t) :
    Sends s a t ↔ Roomy s a t := by
  constructor
  · intro hsends frame ha hbase hfits
    subst ha
    obtain rfl := h.send_idle hstep
    by_contra hfull
    refine hsends.apart s.txCur ?_ (h.busy_iff.mpr (not_lt.mp hfull))
    refine if_neg ?_
    rintro (hzero | hlong)
    · exact hbase hzero
    · exact absurd hfits (not_le.mpr hlong)
  · intro hroom
    obtain ⟨pc', hinv⟩ := h.step hstep hroom
    refine ⟨?_, hinv.order, hinv.rest⟩
    intro i hi hbusy
    cases a with
    | send frame =>
      obtain rfl := h.send_idle hstep
      dsimp only [Tx.rewrites] at hi
      split at hi
      case isTrue => cases hi
      case isFalse hfits =>
        cases hi
        have hlt := hroom frame rfl (fun hbase => hfits (Or.inl hbase))
          (not_lt.mp fun hlong => hfits (Or.inr hlong))
        exact absurd (h.busy_iff.mp hbusy) (not_le.mpr hlt)
    | _ => cases hi

/-- A run serves every frame exactly when it sends none while four are pending. -/
theorem sends_iff (actions : List TxAction) :
    Run.EveryStep txStep Sends (txInit ioBase buffers) actions ↔
      Run.EveryStep txStep Roomy (txInit ioBase buffers) actions := by
  refine Run.everyStep_iff (I := fun s => ∃ pc, TxInv pc s) ?_ ⟨.idle, txInv_init⟩
  rintro s a t ⟨pc, h⟩ hstep
  exact ⟨h.sends hstep, h.step hstep⟩

end PinguinOS.Drivers.Rtl8139

namespace PinguinOS.Drivers

/-- What both drivers do with the frames they accept, in any order with what the NIC does. -/
theorem transmit_iff (present : Bool) (ioBase : BitVec 16) (buffers : Nat → Nat → Byte)
    (actions : List E1000.TxAction) (actions' : List Rtl8139.TxAction) :
    (Run.EveryStep E1000.txStep E1000.Sends (E1000.txInit present buffers) actions ↔
      Run.EveryStep E1000.txStep E1000.Roomy (E1000.txInit present buffers) actions) ∧
    (Run.EveryStep Rtl8139.txStep Rtl8139.Sends (Rtl8139.txInit ioBase buffers) actions' ↔
      Run.EveryStep Rtl8139.txStep Rtl8139.Roomy (Rtl8139.txInit ioBase buffers) actions') :=
  ⟨E1000.sends_iff actions, Rtl8139.sends_iff actions'⟩

theorem not_forall_transmit :
    ¬ ∀ present buffers actions,
      Run.EveryStep E1000.txStep E1000.Sends (E1000.txInit present buffers) actions :=
  fun hall => E1000.not_sends_burst (hall true (fun _ _ => 0) _)

end PinguinOS.Drivers
