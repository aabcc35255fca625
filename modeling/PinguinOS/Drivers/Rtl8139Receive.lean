import PinguinOS.Lib.Run
import PinguinOS.Drivers.Buffer

/-! The receive ring of `rtl8139.c`, filled by the NIC while `rtl_irq_handler` empties it. -/
namespace PinguinOS.Drivers.Rtl8139

/-- The ring of the NIC (`RTL_RCR_RBLEN_8K`); with `RTL_RCR_WRAP` a frame may run past its end. -/
def ringSize : Nat := 8192
def isrRok : BitVec 16 := 1 <<< 0
def isrRer : BitVec 16 := 1 <<< 1

/-- What the NIC stores: a status, and the data with the CRC. -/
structure Frame where
  status : BitVec 16
  data : List Byte

def Frame.length (f : Frame) : BitVec 16 := BitVec.ofNat 16 f.data.length

def Frame.bytes (f : Frame) : List Byte :=
  f.status.extractLsb' 0 8 :: f.status.extractLsb' 8 8 ::
    f.length.extractLsb' 0 8 :: f.length.extractLsb' 8 8 :: f.data

def Frame.Good (f : Frame) : Prop := f.status &&& 1 ≠ 0

instance (f : Frame) : Decidable f.Good := inferInstanceAs (Decidable (_ ≠ _))

/-- The data without the CRC. -/
def Frame.payload (f : Frame) : List Byte := f.data.take (f.data.length - 4)

/-- Positions in the ring are multiples of 4. -/
def align (n : Nat) : Nat := (n + 3) / 4 * 4

def Frame.size (f : Frame) : Nat := align (4 + f.data.length)

/-- Where the NIC goes on after some frames, if nothing ever wrapped. -/
def place (frames : List Frame) : Nat := (frames.map Frame.size).sum

/-- Where `rtl_irq_handler` is; `receive` is the call of `net_receive`. -/
inductive RxPc
  | idle
  | poll
  | header
  | decide (status len : BitVec 16)
  | receive (len : BitVec 16)
  | advance (len : BitVec 16)
  | notify
  deriving DecidableEq

/-- The driver, the registers and the NIC. `storing` is the frame the NIC has written but not
completed; `frames`, `done` and `delivered` are the frames it completed, how many of them the
handler has dealt with, and what `net_receive` was given. -/
structure Rx where
  rxBuf : Nat → Byte
  rxPos : Nat
  capr : Nat
  cbr : Nat
  isr : BitVec 16
  pc : RxPc
  storing : Option Frame
  frames : List Frame
  done : Nat
  delivered : List (List Byte)

/-- After `rtl8139_init`; the reset sets `CAPR` to -16. -/
def rxInit : Rx where
  rxBuf := fun _ => 0
  rxPos := 0
  capr := 0xFFF0
  cbr := 0
  isr := 0
  pc := .idle
  storing := none
  frames := []
  done := 0
  delivered := []

/-- `rx_pos % (8192 + 16)` -/
def Rx.offset (s : Rx) : Nat := s.rxPos % (8192 + 16)

/-- Where the NIC believes the driver to be. -/
def Rx.nicRead (s : Rx) : Nat := (s.capr + 16) % ringSize

def word (buf : Nat → Byte) (i : Nat) : BitVec 16 := buf (i + 1) ++ buf i

/-- The handler starts: what it reads of `ISR` is acknowledged. -/
def rxIrq (s : Rx) : Option Rx :=
  match s.pc with
  | .idle => some { s with isr := 0, pc := .poll }
  | _ => none

/-- `rx_pos` is advanced by a header and `len` bytes. -/
def nextPos (rxPos : Nat) (len : BitVec 16) : Nat := (rxPos + len.toNat + 4 + 3) % 2 ^ 32 / 4 * 4

/-- One access of the handler. -/
def rxHandler (s : Rx) : Option Rx :=
  match s.pc with
  | .idle => none
  | .poll => some { s with pc := if s.cbr = s.nicRead then .idle else .header }
  | .header =>
    some { s with pc := .decide (word s.rxBuf s.offset) (word s.rxBuf (s.offset + 2)) }
  | .decide status len =>
    if status &&& 1 = 0 ∨ len.toNat > 1514 ∨ len.toNat < 4 then
      some { s with done := s.done + 1, pc := .advance len }
    else
      some { s with
        done := s.done + 1
        delivered := s.delivered ++
          [bytes (fun i => s.rxBuf (s.offset + 4 + i)) (len.toNat - 4)]
        pc := .receive len }
  | .receive len => some { s with pc := .advance len }
  | .advance len => some { s with rxPos := nextPos s.rxPos len, pc := .notify }
  | .notify => some { s with capr := (s.rxPos + 2 ^ 32 - 16) % 2 ^ 16, pc := .poll }

def put (buf : Nat → Byte) (o : Nat) (bytes : List Byte) : Nat → Byte :=
  fun i => if o ≤ i then bytes.getD (i - o) (buf i) else buf i

/-- The NIC writes a frame at its position, when the ring has room for it. -/
def rxStore (s : Rx) (f : Frame) : Option Rx :=
  if s.storing.isNone ∧ (s.cbr + ringSize - s.nicRead) % ringSize + f.size < ringSize then
    some { s with rxBuf := put s.rxBuf s.cbr f.bytes, storing := some f }
  else none

/-- It moves on and raises the interrupt. -/
def rxComplete (s : Rx) : Option Rx :=
  s.storing.map fun f =>
    { s with
      cbr := (s.cbr + f.size) % ringSize
      isr := s.isr ||| if f.Good then isrRok else isrRer
      storing := none
      frames := s.frames ++ [f] }

inductive RxAction
  | irq
  | handler
  | store (f : Frame)
  | complete
  /-- Other causes, such as a frame that was sent. -/
  | cause (bits : BitVec 16)

def rxStep (s : Rx) : RxAction → Option Rx
  | .irq => rxIrq s
  | .handler => rxHandler s
  | .store f => rxStore s f
  | .complete => rxComplete s
  | .cause bits => some { s with isr := s.isr ||| bits }

/-- What has to be delivered of some frames. -/
def goodPayloads (frames : List Frame) : List (List Byte) :=
  (frames.filter fun f => f.Good).map Frame.payload

/-- What a step owes to the frames received so far. -/
structure Reads (s : Rx) (a : RxAction) (t : Rx) : Prop where
  /-- The header is read where the NIC wrote it. -/
  position : a = .handler → s.pc = .header → s.offset = place (s.frames.take s.done) % ringSize
  /-- Each good frame that the handler is done with was delivered, with its data. -/
  payloads : t.delivered = goodPayloads (t.frames.take t.done)
  /-- The buffer stays while `net_receive` runs. -/
  kept : ∀ len, t.pc = .receive len → t.delivered.getLast? =
    some (bytes (fun i => t.rxBuf (t.offset + 4 + i)) (len.toNat - 4))
  /-- The handler ends when it is done with all frames. -/
  drained : a = .handler → s.pc = .poll → t.pc = .idle → t.done = t.frames.length
  /-- And is called again for others. -/
  called : t.pc = .idle → t.done < t.frames.length → t.isr ≠ 0

/-- Both moduli agree on the position, and a good frame is not too long for the handler. -/
def Fits (s : Rx) (a : RxAction) (_ : Rx) : Prop :=
  a = .handler → (s.pc = .header → s.rxPos % (8192 + 16) = s.rxPos % ringSize) ∧
    ∀ status len, s.pc = .decide status len → status &&& 1 ≠ 0 →
      4 ≤ len.toNat ∧ len.toNat ≤ 1514

variable {s t : Rx} {n k o o' : Nat} {pc pc' : RxPc} {f : Frame} {fs gs : List Frame}
  {buf : Nat → Byte} {xs ys : List Byte} {status len : BitVec 16} {isr : BitVec 16} {a : RxAction}

/-- The bytes from `o` on. -/
def At (buf : Nat → Byte) (o : Nat) (xs : List Byte) : Prop :=
  ∀ i b, xs[i]? = some b → buf (o + i) = b

theorem at_put : At (put buf o xs) o xs := by
  intro i b hb
  unfold put
  rw [if_pos (Nat.le_add_right o i), Nat.add_sub_cancel_left, List.getD_eq_getElem?_getD, hb]
  rfl

theorem at_put_apart (h : At buf o xs) (hapart : o + xs.length ≤ o' ∨ o' + ys.length ≤ o) :
    At (put buf o' ys) o xs := by
  intro i b hb
  have hi := (List.getElem?_eq_some_iff.mp hb).1
  rw [← h i b hb]
  unfold put
  split
  case isTrue hle =>
    rw [List.getD_eq_getElem?_getD, List.getElem?_eq_none (by omega)]
    rfl
  case isFalse => rfl

theorem length_frameBytes : f.bytes.length = 4 + f.data.length := by
  unfold Frame.bytes
  simp only [List.length_cons]
  omega

theorem at_status (h : At buf o f.bytes) : word buf o = f.status := by
  unfold word
  rw [h 1 _ rfl, show buf o = _ from h 0 _ rfl]
  exact BitVec.extractLsb'_append_extractLsb'

theorem at_length (h : At buf o f.bytes) : word buf (o + 2) = f.length := by
  unfold word
  rw [show buf (o + 2 + 1) = _ from h 3 _ rfl, h 2 _ rfl]
  exact BitVec.extractLsb'_append_extractLsb'

theorem at_payload (h : At buf o f.bytes) :
    bytes (fun i => buf (o + 4 + i)) (f.data.length - 4) = f.payload := by
  unfold bytes Frame.payload
  refine List.ext_getElem ?_ ?_
  · rw [List.length_map, List.length_range, List.length_take]
    omega
  · intro i hi _
    rw [List.length_map, List.length_range] at hi
    have hdata : f.data[i]? = some f.data[i] := List.getElem?_eq_getElem (by omega)
    have hget : f.bytes[4 + i]? = some f.data[i] := by
      rw [← hdata, Nat.add_comm]
      rfl
    rw [List.getElem_map, List.getElem_range, List.getElem_take, Nat.add_assoc]
    exact h _ _ hget

theorem size_ge : 4 + f.data.length ≤ f.size := by
  unfold Frame.size align
  omega

theorem size_mod : f.size % 4 = 0 := Nat.mul_mod_left _ 4

theorem length_of_size (h : f.size < ringSize) : f.length.toNat = f.data.length := by
  have hge := @size_ge f
  unfold ringSize at h
  exact toNat_ofNat_16 (by omega)

theorem place_append : place (fs ++ gs) = place fs + place gs := by
  unfold place
  rw [List.map_append, List.sum_append]

theorem place_mod : place fs % 4 = 0 := by
  induction fs with
  | nil => rfl
  | cons f fs ih =>
    have hcons : place (f :: fs) = f.size + place fs := by
      unfold place
      rw [List.map_cons, List.sum_cons]
    have hsize := @size_mod f
    omega

theorem place_take_le : place (fs.take k) ≤ place fs := by
  have hsplit := @place_append (fs.take k) (fs.drop k)
  rw [List.take_append_drop] at hsplit
  omega

theorem place_take_mono (h : n ≤ k) : place (fs.take n) ≤ place (fs.take k) := by
  have hle := @place_take_le n (fs.take k)
  rwa [List.take_take, Nat.min_eq_left h] at hle

theorem place_take_succ (h : fs[k]? = some f) :
    place (fs.take (k + 1)) = place (fs.take k) + f.size := by
  obtain ⟨hlt, hget⟩ := List.getElem?_eq_some_iff.mp h
  rw [List.take_succ_eq_append_getElem hlt, place_append, hget]
  rfl

theorem place_take_lt (h : k < fs.length) : place (fs.take k) < place fs := by
  have hsucc := place_take_succ (List.getElem?_eq_getElem h)
  have hle := @place_take_le (k + 1) fs
  have hsize := @size_ge fs[k]
  omega

theorem goodPayloads_append : goodPayloads (fs ++ gs) = goodPayloads fs ++ goodPayloads gs := by
  unfold goodPayloads
  rw [List.filter_append, List.map_append]

theorem goodPayloads_succ (h : fs[k]? = some f) : goodPayloads (fs.take (k + 1)) =
    goodPayloads (fs.take k) ++ if f.Good then [f.payload] else [] := by
  obtain ⟨hlt, hget⟩ := List.getElem?_eq_some_iff.mp h
  rw [List.take_succ_eq_append_getElem hlt, goodPayloads_append, hget]
  unfold goodPayloads
  by_cases hgood : f.Good
  · rw [if_pos hgood]
    simp [hgood]
  · rw [if_neg hgood]
    simp [hgood]

/-- The handler has decided on the frame. -/
def RxPc.past : RxPc → Nat
  | .receive _ | .advance _ | .notify => 1
  | _ => 0

/-- It has advanced `rx_pos`. -/
def RxPc.moved : RxPc → Nat
  | .notify => 1
  | _ => 0

/-- What the handler knows of the frame `f`, which is at the position `p`. -/
def RxPc.Knows (s : Rx) (f : Frame) (p : Nat) : RxPc → Prop
  | .decide status len => status = f.status ∧ len = f.length ∧ s.offset = p
  | .receive len => len = f.length ∧ f.Good ∧ s.offset = p
  | .advance len => len = f.length
  | _ => True

def RxPc.Busy : RxPc → Prop
  | .idle | .poll => False
  | _ => True

/-- After the handler gave back `n` frames. -/
structure RxInv (n : Nat) (pc : RxPc) (s : Rx) : Prop where
  at_pc : s.pc = pc
  pos : s.rxPos = place (s.frames.take (n + pc.moved)) % 2 ^ 32
  read : s.nicRead = place (s.frames.take n) % ringSize
  cbr : s.cbr = place s.frames % ringSize
  room : place s.frames < place (s.frames.take n) + ringSize
  low : n + pc.past ≤ s.frames.length
  done : s.done = n + pc.past
  prior : s.delivered = goodPayloads (s.frames.take (n + pc.past))
  held : ∀ k f, n ≤ k → s.frames[k]? = some f →
    At s.rxBuf (place (s.frames.take k) % ringSize) f.bytes ∧ f.size < ringSize
  stored : ∀ f, s.storing = some f → At s.rxBuf s.cbr f.bytes ∧
    place s.frames + f.size < place (s.frames.take n) + ringSize
  knows : pc.Busy → ∃ f, s.frames[n]? = some f ∧
    pc.Knows s f (place (s.frames.take n) % ringSize)
  pending : pc = .idle → n < s.frames.length → s.isr ≠ 0

theorem rxInv_init : RxInv 0 .idle rxInit where
  at_pc := rfl
  pos := rfl
  read := rfl
  cbr := rfl
  room := Nat.succ_pos 8191
  low := le_refl _
  done := rfl
  prior := rfl
  held := by
    intro k f _ h
    cases h
  stored := by
    intro f h
    cases h
  knows := fun h => h.elim
  pending := fun _ h => absurd h (Nat.not_lt_zero 0)

/-- The handler moves and touches nothing else. -/
theorem RxInv.moves (h : RxInv n pc s) (hpast : pc'.past = pc.past) (hmoved : pc'.moved = pc.moved)
    (hknows : pc'.Busy → ∃ f, s.frames[n]? = some f ∧
      pc'.Knows s f (place (s.frames.take n) % ringSize))
    (hpending : pc' = .idle → n < s.frames.length → isr ≠ 0) :
    RxInv n pc' { s with pc := pc', isr := isr } where
  at_pc := rfl
  pos := hmoved ▸ h.pos
  read := h.read
  cbr := h.cbr
  room := h.room
  low := hpast ▸ h.low
  done := hpast ▸ h.done
  prior := hpast ▸ h.prior
  held := h.held
  stored := h.stored
  knows := fun hbusy => by
    obtain ⟨f, hf, hk⟩ := hknows hbusy
    refine ⟨f, hf, ?_⟩
    cases pc' with
    | _ => exact hk
  pending := hpending

/-- The NIC says that its buffer is empty exactly when it is. -/
theorem RxInv.empty_iff (h : RxInv n .poll s) : s.cbr = s.nicRead ↔ n = s.frames.length := by
  have hroom := h.room
  have hlow : n ≤ s.frames.length := h.low
  rw [h.cbr, h.read]
  constructor
  · intro heq
    by_contra hne
    have hlt := @place_take_lt n s.frames (by omega)
    unfold ringSize at heq hroom
    omega
  · rintro rfl
    rw [List.take_length]

theorem RxInv.poll (h : RxInv n .poll s) :
    ∃ pc', RxInv n pc' { s with pc := if s.cbr = s.nicRead then .idle else .header } := by
  by_cases hempty : s.cbr = s.nicRead
  · rw [if_pos hempty]
    refine ⟨.idle, h.moves rfl rfl (fun hbusy => hbusy.elim) fun _ hlt => ?_⟩
    have hall := h.empty_iff.mp hempty
    omega
  · rw [if_neg hempty]
    have hlow : n ≤ s.frames.length := h.low
    have hlt : n < s.frames.length := lt_of_le_of_ne hlow fun heq => hempty (h.empty_iff.mpr heq)
    refine ⟨.header, h.moves rfl rfl (fun _ => ?_) fun hidle => by cases hidle⟩
    exact ⟨s.frames[n], List.getElem?_eq_getElem hlt, trivial⟩

/-- `rx_pos` is right for the NIC's modulus. -/
theorem RxInv.pos_mod (h : RxInv n pc s) (hmoved : pc.moved = 0) :
    s.rxPos % ringSize = place (s.frames.take n) % ringSize := by
  have hpos := h.pos
  rw [hmoved] at hpos
  rw [hpos]
  exact Nat.mod_mod_of_dvd _ ⟨2 ^ 19, rfl⟩

theorem RxInv.header (h : RxInv n .header s)
    (hagree : s.rxPos % (8192 + 16) = s.rxPos % ringSize) :
    RxInv n (.decide (word s.rxBuf s.offset) (word s.rxBuf (s.offset + 2)))
      { s with pc := .decide (word s.rxBuf s.offset) (word s.rxBuf (s.offset + 2)) } := by
  obtain ⟨f, hf, -⟩ := h.knows trivial
  have hoffset : s.offset = place (s.frames.take n) % ringSize := hagree.trans (h.pos_mod rfl)
  obtain ⟨hat, -⟩ := h.held n f (le_refl _) hf
  rw [← hoffset] at hat
  refine h.moves rfl rfl (fun _ => ?_) fun hidle => by cases hidle
  exact ⟨f, hf, at_status hat, at_length hat, hoffset⟩

/-- What the handler knows of the frame, with what the ring holds of it. -/
theorem RxInv.busy (h : RxInv n pc s) (hbusy : pc.Busy) :
    ∃ f, s.frames[n]? = some f ∧ pc.Knows s f (place (s.frames.take n) % ringSize) ∧
      At s.rxBuf (place (s.frames.take n) % ringSize) f.bytes ∧
      f.length.toNat = f.data.length := by
  obtain ⟨f, hf, hknows⟩ := h.knows hbusy
  obtain ⟨hat, hsize⟩ := h.held n f (le_refl _) hf
  exact ⟨f, hf, hknows, hat, length_of_size hsize⟩

/-- A frame that the handler skips is not a good one. -/
theorem RxInv.skip (h : RxInv n (.decide status len) s) (hbad : status &&& 1 = 0) :
    RxInv n (.advance len) { s with done := s.done + 1, pc := .advance len } := by
  obtain ⟨f, hf, ⟨hstatus, hlen, -⟩, -⟩ := h.busy trivial
  have hgood : ¬ f.Good := by
    rw [Frame.Good, ← hstatus, hbad]
    exact fun hne => hne rfl
  have hprior : s.delivered = goodPayloads (s.frames.take n) := h.prior
  have hdone : s.done = n := h.done
  exact {
    at_pc := rfl
    pos := h.pos
    read := h.read
    cbr := h.cbr
    room := h.room
    low := (List.getElem?_eq_some_iff.mp hf).1
    done := by
      show s.done + 1 = n + 1
      rw [hdone]
    prior := by
      show s.delivered = goodPayloads (s.frames.take (n + 1))
      rw [goodPayloads_succ hf, if_neg hgood, List.append_nil, hprior]
    held := h.held
    stored := h.stored
    knows := fun _ => ⟨f, hf, hlen⟩
    pending := fun hidle => by cases hidle }

theorem RxInv.deliver (h : RxInv n (.decide status len) s) (hgood : status &&& 1 ≠ 0) :
    RxInv n (.receive len) { s with
      done := s.done + 1
      delivered := s.delivered ++
        [bytes (fun i => s.rxBuf (s.offset + 4 + i)) (len.toNat - 4)]
      pc := .receive len } := by
  obtain ⟨f, hf, ⟨hstatus, hlen, hoffset⟩, hat, hlength⟩ := h.busy trivial
  have hgood : f.Good := by
    rw [hstatus] at hgood
    exact hgood
  have hprior : s.delivered = goodPayloads (s.frames.take n) := h.prior
  have hdone : s.done = n := h.done
  have hpayload := at_payload hat
  rw [← hoffset, ← hlength, ← hlen] at hpayload
  exact {
    at_pc := rfl
    pos := h.pos
    read := h.read
    cbr := h.cbr
    room := h.room
    low := (List.getElem?_eq_some_iff.mp hf).1
    done := by
      show s.done + 1 = n + 1
      rw [hdone]
    prior := by
      show s.delivered ++ [_] = goodPayloads (s.frames.take (n + 1))
      rw [goodPayloads_succ hf, if_pos hgood, hprior, hpayload]
    held := h.held
    stored := h.stored
    knows := fun _ => ⟨f, hf, hlen, hgood, hoffset⟩
    pending := fun hidle => by cases hidle }

/-- The arithmetic of `rx_pos` is that of the ring. -/
theorem nextPos_place {p : Nat} (hp : p % 4 = 0) (hlen : len.toNat = f.data.length) :
    nextPos (p % 2 ^ 32) len = (p + f.size) % 2 ^ 32 := by
  unfold nextPos Frame.size align
  rw [hlen]
  omega

theorem RxInv.advance (h : RxInv n (.advance len) s) :
    RxInv n .notify { s with rxPos := nextPos s.rxPos len, pc := .notify } := by
  obtain ⟨f, hf, hlen, -, hlength⟩ := h.busy trivial
  have hpos : s.rxPos = place (s.frames.take n) % 2 ^ 32 := h.pos
  have hlen : len.toNat = f.data.length := by
    rw [show len = f.length from hlen, hlength]
  exact {
    at_pc := rfl
    pos := by
      show nextPos s.rxPos len = place (s.frames.take (n + 1)) % 2 ^ 32
      rw [hpos, nextPos_place place_mod hlen, place_take_succ hf]
    read := h.read
    cbr := h.cbr
    room := h.room
    low := h.low
    done := h.done
    prior := h.prior
    held := h.held
    stored := h.stored
    knows := fun _ => ⟨f, hf, trivial⟩
    pending := fun hidle => by cases hidle }

theorem RxInv.notify (h : RxInv n .notify s) :
    RxInv (n + 1) .poll { s with capr := (s.rxPos + 2 ^ 32 - 16) % 2 ^ 16, pc := .poll } := by
  have hpos : s.rxPos = place (s.frames.take (n + 1)) % 2 ^ 32 := h.pos
  have hmono := @place_take_mono n (n + 1) s.frames (Nat.le_succ n)
  have hroom := h.room
  exact {
    at_pc := rfl
    pos := hpos
    read := by
      show ((s.rxPos + 2 ^ 32 - 16) % 2 ^ 16 + 16) % ringSize =
        place (s.frames.take (n + 1)) % ringSize
      rw [hpos]
      unfold ringSize
      omega
    cbr := h.cbr
    room := lt_of_lt_of_le hroom (Nat.add_le_add_right hmono _)
    low := h.low
    done := h.done
    prior := h.prior
    held := fun k f hk hf => h.held k f (le_trans (Nat.le_succ n) hk) hf
    stored := fun f hf => by
      obtain ⟨hat, hfits⟩ := h.stored f hf
      exact ⟨hat, lt_of_lt_of_le hfits (Nat.add_le_add_right hmono _)⟩
    knows := fun hbusy => hbusy.elim
    pending := fun hidle => by cases hidle }

/-- The NIC does not write to frames that it has not got back. -/
theorem RxInv.apart (h : RxInv n pc s) (hk : n ≤ k) (hget : s.frames[k]? = some f)
    {g : Frame} (hfits : place s.frames + g.size < place (s.frames.take n) + ringSize) :
    At (put s.rxBuf s.cbr g.bytes) (place (s.frames.take k) % ringSize) f.bytes := by
  obtain ⟨hat, -⟩ := h.held k f hk hget
  refine at_put_apart hat ?_
  have hsucc := place_take_succ hget
  have hle := @place_take_le (k + 1) s.frames
  have hmono := @place_take_mono n k s.frames hk
  have hf := @size_ge f
  have hg := @size_ge g
  rw [h.cbr, length_frameBytes, length_frameBytes]
  unfold ringSize at *
  omega

theorem RxInv.store (h : RxInv n pc s) (hstep : rxStore s f = some t) : RxInv n pc t := by
  unfold rxStore at hstep
  split at hstep
  case isFalse => cases hstep
  case isTrue hfree =>
    cases hstep
    have hle := @place_take_le n s.frames
    have hroom := h.room
    have hfits : place s.frames + f.size < place (s.frames.take n) + ringSize := by
      have hspace := hfree.2
      rw [h.cbr, h.read] at hspace
      unfold ringSize at *
      omega
    exact {
      at_pc := h.at_pc
      pos := h.pos
      read := h.read
      cbr := h.cbr
      room := h.room
      low := h.low
      done := h.done
      prior := h.prior
      held := fun k g hk hg => ⟨h.apart hk hg hfits, (h.held k g hk hg).2⟩
      stored := fun g hg => by
        cases hg
        exact ⟨at_put, hfits⟩
      knows := fun hbusy => by
        obtain ⟨g, hg, hk⟩ := h.knows hbusy
        refine ⟨g, hg, ?_⟩
        cases pc with
        | _ => exact hk
      pending := h.pending }

theorem isr_raised : isr ||| (if f.Good then isrRok else isrRer) ≠ 0 := by
  intro hzero
  have hbit := (BitVec.or_eq_zero_iff.mp hzero).2
  split at hbit
  case isTrue => exact absurd hbit (by decide)
  case isFalse => exact absurd hbit (by decide)

theorem RxInv.complete (h : RxInv n pc s) (hstep : rxComplete s = some t) : RxInv n pc t := by
  obtain ⟨f, hstoring, rfl⟩ := Option.map_eq_some_iff.mp hstep
  obtain ⟨hat, hfits⟩ := h.stored f hstoring
  have hlow := h.low
  have htake : ∀ k ≤ s.frames.length, (s.frames ++ [f]).take k = s.frames.take k :=
    fun k hk => List.take_append_of_le_length hk
  have hn : n ≤ s.frames.length := by omega
  have hmoved : n + pc.moved ≤ s.frames.length := by
    have hle : pc.moved ≤ pc.past := by
      cases pc with
      | notify => exact le_refl _
      | _ => exact Nat.zero_le _
    omega
  have hplace : place (s.frames ++ [f]) = place s.frames + f.size := place_append
  have hle := @place_take_le n s.frames
  exact {
    at_pc := h.at_pc
    pos := by
      show s.rxPos = place ((s.frames ++ [f]).take (n + pc.moved)) % 2 ^ 32
      rw [htake _ hmoved, h.pos]
    read := by
      show s.nicRead = place ((s.frames ++ [f]).take n) % ringSize
      rw [htake n hn, h.read]
    cbr := by
      show (s.cbr + f.size) % ringSize = place (s.frames ++ [f]) % ringSize
      rw [hplace, h.cbr, Nat.mod_add_mod]
    room := by
      show place (s.frames ++ [f]) < place ((s.frames ++ [f]).take n) + ringSize
      rw [htake n hn, hplace]
      exact hfits
    low := by
      show n + pc.past ≤ (s.frames ++ [f]).length
      rw [List.length_append]
      omega
    done := h.done
    prior := by
      show s.delivered = goodPayloads ((s.frames ++ [f]).take (n + pc.past))
      rw [htake _ hlow, h.prior]
    held := fun k g hk hg => by
      show At s.rxBuf (place ((s.frames ++ [f]).take k) % ringSize) g.bytes ∧ g.size < ringSize
      rcases Nat.lt_or_ge k s.frames.length with hlt | hge
      · rw [List.getElem?_append_left hlt] at hg
        rw [htake k (le_of_lt hlt)]
        exact h.held k g hk hg
      · have hlt : k < (s.frames ++ [f]).length := (List.getElem?_eq_some_iff.mp hg).1
        rw [List.length_append, List.length_singleton] at hlt
        obtain rfl : k = s.frames.length := by omega
        rw [List.getElem?_concat_length] at hg
        cases hg
        rw [htake _ (le_refl _), List.take_length, ← h.cbr]
        exact ⟨hat, by omega⟩
    stored := fun g hg => by cases hg
    knows := fun hbusy => by
      obtain ⟨g, hg, hk⟩ := h.knows hbusy
      have hlt := (List.getElem?_eq_some_iff.mp hg).1
      refine ⟨g, (List.getElem?_append_left hlt).trans hg, ?_⟩
      rw [htake n hn]
      cases pc with
      | _ => exact hk
    pending := fun _ _ => isr_raised }

theorem fits_header (h : Fits s .handler t) (hpc : s.pc = .header) :
    s.rxPos % (8192 + 16) = s.rxPos % ringSize := (h rfl).1 hpc

/-- The handler skips exactly the frames that are not good. -/
theorem fits_decide (h : Fits s .handler t) (hpc : s.pc = .decide status len) :
    (status &&& 1 = 0 ∨ len.toNat > 1514 ∨ len.toNat < 4) ↔ status &&& 1 = 0 := by
  constructor
  · rintro (hzero | hlong)
    · exact hzero
    · by_contra hgood
      have hlen := (h rfl).2 status len hpc hgood
      omega
  · exact Or.inl

theorem RxInv.handler (h : RxInv n pc s) (hstep : rxHandler s = some t)
    (hfits : Fits s .handler t) : ∃ n pc, RxInv n pc t := by
  have hpc := h.at_pc
  unfold rxHandler at hstep
  cases pc with
  | idle =>
    rw [hpc] at hstep
    cases hstep
  | poll =>
    rw [hpc] at hstep
    cases hstep
    exact ⟨n, h.poll⟩
  | header =>
    rw [hpc] at hstep
    cases hstep
    exact ⟨n, _, h.header (fits_header hfits hpc)⟩
  | decide status len =>
    have hiff := fits_decide hfits hpc
    rw [hpc] at hstep
    dsimp only at hstep
    split at hstep
    case isTrue hskip =>
      cases hstep
      exact ⟨n, _, h.skip (hiff.mp hskip)⟩
    case isFalse hskip =>
      cases hstep
      exact ⟨n, _, h.deliver fun hzero => hskip (hiff.mpr hzero)⟩
  | receive len =>
    rw [hpc] at hstep
    cases hstep
    obtain ⟨f, hf, hlen, -⟩ := h.knows trivial
    exact ⟨n, .advance len, h.moves rfl rfl (fun _ => ⟨f, hf, hlen⟩) fun hidle => by cases hidle⟩
  | advance len =>
    rw [hpc] at hstep
    cases hstep
    exact ⟨n, _, h.advance⟩
  | notify =>
    rw [hpc] at hstep
    cases hstep
    exact ⟨n + 1, _, h.notify⟩

theorem RxInv.step (h : RxInv n pc s) (hstep : rxStep s a = some t) (hfits : Fits s a t) :
    ∃ n pc, RxInv n pc t := by
  cases a with
  | irq =>
    have hirq : rxIrq s = some t := hstep
    unfold rxIrq at hirq
    rw [h.at_pc] at hirq
    cases pc with
    | idle =>
      cases hirq
      exact ⟨n, .poll, h.moves rfl rfl (fun hbusy => hbusy.elim) fun hidle => by cases hidle⟩
    | _ => cases hirq
  | handler => exact h.handler hstep hfits
  | store f => exact ⟨n, pc, h.store hstep⟩
  | complete => exact ⟨n, pc, h.complete hstep⟩
  | cause bits =>
    cases hstep
    obtain rfl := h.at_pc
    refine ⟨n, s.pc, h.moves rfl rfl h.knows fun hidle hlt hzero => ?_⟩
    exact h.pending hidle hlt (BitVec.or_eq_zero_iff.mp hzero).1

/-- The buffer of the frame that `net_receive` is working on. -/
theorem RxInv.kept (h : RxInv n (.receive len) s) : s.delivered.getLast? =
    some (bytes (fun i => s.rxBuf (s.offset + 4 + i)) (len.toNat - 4)) := by
  obtain ⟨f, hf, ⟨hlen, hgood, hoffset⟩, hat, hlength⟩ := h.busy trivial
  have hprior : s.delivered = goodPayloads (s.frames.take (n + 1)) := h.prior
  rw [hprior, goodPayloads_succ hf, if_pos hgood, List.getLast?_concat, hoffset, hlen, hlength,
    at_payload hat]

theorem RxInv.drained (h : RxInv n .poll s) (hstep : rxStep s .handler = some t)
    (hidle : t.pc = .idle) : t.done = t.frames.length := by
  have hhandler : rxHandler s = some t := hstep
  have hdone : s.done = n := h.done
  unfold rxHandler at hhandler
  rw [h.at_pc] at hhandler
  cases hhandler
  by_cases hempty : s.cbr = s.nicRead
  · exact hdone.trans (h.empty_iff.mp hempty)
  · rw [if_neg hempty] at hidle
    cases hidle

theorem RxInv.reads (h : RxInv n pc s) (hstep : rxStep s a = some t) :
    Reads s a t ↔ Fits s a t := by
  constructor
  · intro hreads ha
    subst ha
    constructor
    · intro hpc
      obtain rfl := h.at_pc.symm.trans hpc
      have hposition := hreads.position rfl hpc
      have hdone : s.done = n := h.done
      rw [hdone, ← h.pos_mod rfl] at hposition
      exact hposition
    · intro status len hpc hgood
      obtain rfl := h.at_pc.symm.trans hpc
      obtain ⟨f, hf, ⟨hstatus, -⟩, -⟩ := h.busy trivial
      have hgoodFrame : f.Good := by
        rw [hstatus] at hgood
        exact hgood
      -- a good frame that is skipped is missing in what was delivered
      by_contra hlen
      have hskip : status &&& 1 = 0 ∨ len.toNat > 1514 ∨ len.toNat < 4 := by
        right
        omega
      have hhandler : rxHandler s = some t := hstep
      unfold rxHandler at hhandler
      rw [hpc] at hhandler
      dsimp only at hhandler
      rw [if_pos hskip] at hhandler
      cases hhandler
      have hpayloads : s.delivered = goodPayloads (s.frames.take (s.done + 1)) := hreads.payloads
      have hprior : s.delivered = goodPayloads (s.frames.take n) := h.prior
      have hdone : s.done = n := h.done
      rw [hdone, goodPayloads_succ hf, if_pos hgoodFrame, hprior] at hpayloads
      have hlengths := congrArg List.length hpayloads
      rw [List.length_append, List.length_singleton] at hlengths
      omega
  · intro hfits
    obtain ⟨m, pc', hinv⟩ := h.step hstep hfits
    exact {
      position := fun ha hpc => by
        subst ha
        obtain rfl := h.at_pc.symm.trans hpc
        have hdone : s.done = n := h.done
        rw [hdone, ← h.pos_mod rfl]
        exact fits_header hfits hpc
      payloads := by rw [hinv.prior, hinv.done]
      kept := fun len hpc => by
        obtain rfl := hinv.at_pc.symm.trans hpc
        exact hinv.kept
      drained := fun ha hpc hidle => by
        subst ha
        obtain rfl := h.at_pc.symm.trans hpc
        exact h.drained hstep hidle
      called := fun hidle hlt => by
        obtain rfl := hinv.at_pc.symm.trans hidle
        have hdone : t.done = m := hinv.done
        exact hinv.pending rfl (hdone ▸ hlt) }

/-- The handler reads the frames that the NIC stored exactly in the runs in which both moduli
agree whenever a header is read, and in which it cuts no good frame off. -/
theorem rtl8139_receive_iff (actions : List RxAction) :
    Run.EveryStep rxStep Reads rxInit actions ↔ Run.EveryStep rxStep Fits rxInit actions := by
  refine Run.everyStep_iff (I := fun s => ∃ n pc, RxInv n pc s) ?_ ⟨0, .idle, rxInv_init⟩
  rintro s a t ⟨n, pc, h⟩ hstep
  exact ⟨h.reads hstep, h.step hstep⟩

/-- A good frame of 1020 bytes with its CRC, and the handler runs until the ring is empty. -/
def oneFrame : List RxAction :=
  [.store ⟨1, List.replicate 1020 0⟩, .complete, .irq, .handler, .handler, .handler, .handler,
    .handler, .handler, .handler]

/-- After eight of them the ring has wrapped, and a ninth arrives. -/
def wrapped : List RxAction := (List.replicate 8 oneFrame).flatten ++ oneFrame.take 4

theorem not_forall_reads : ¬ ∀ actions, Run.EveryStep rxStep Reads rxInit actions := by
  intro hall
  have hrun : ((Run.run rxStep rxInit wrapped).map fun s => (s.pc, s.rxPos)) =
      some (.header, 8192) := by decide +kernel
  obtain ⟨s, hs, heq⟩ := Option.map_eq_some_iff.mp hrun
  obtain ⟨hpc, hpos⟩ := Prod.mk.inj heq
  have hstep : rxStep s .handler = some { s with
      pc := .decide (word s.rxBuf s.offset) (word s.rxBuf (s.offset + 2)) } := by
    show rxHandler s = _
    unfold rxHandler
    rw [hpc]
  have hposition := ((hall (wrapped ++ [.handler])).last hs hstep).position rfl hpc
  unfold Rx.offset at hposition
  rw [hpos] at hposition
  have hlt : place (s.frames.take s.done) % ringSize < 8192 := Nat.mod_lt _ (Nat.succ_pos 8191)
  omega

end PinguinOS.Drivers.Rtl8139
