import PinguinOS.Lib.Ring
import PinguinOS.Lib.Run
import PinguinOS.Net.Wire

/-! The receive ring of a UDP socket, between the delivery of datagrams and `sock_recvfrom`. -/
namespace PinguinOS.Net

def ipProtoIcmp : BitVec 8 := 1
def ipProtoTcp : BitVec 8 := 6
def ipProtoUdp : BitVec 8 := 17

def sockRxbuf : Nat := 2048

/-- `socket_t`; nothing reads its remote address and port. -/
structure Socket where
  used : Bool
  protocol : BitVec 8
  localPort : BitVec 16
  rxBuf : Nat → BitVec 8
  rxHead : Nat
  rxTail : Nat

/-- A socket as `sock_open` leaves it. -/
def openSocket (protocol : BitVec 8) : Socket where
  used := true
  protocol := protocol
  localPort := 0
  rxBuf := fun _ => 0
  rxHead := 0
  rxTail := 0

/-- The loop of `ipv4_handle` over the bytes of a datagram, from byte `b` on. It reads a byte of
`udata` only when it has a cell for it, and nothing may be read behind `udata`. -/
def deliver (s : Socket) (udata : Packet) (b : Nat) : (dlen : Nat) → Option Socket
  | 0 => some s
  | dlen + 1 =>
    let next := (s.rxTail + 1) % sockRxbuf
    if next ≠ s.rxHead then do
      let byte ← udata[b]?
      deliver { s with rxBuf := Function.update s.rxBuf s.rxTail byte, rxTail := next }
        udata (b + 1) dlen
    else deliver { s with rxTail := next } udata (b + 1) dlen

/-- The loop of `sock_recvfrom`. -/
def sockRead (s : Socket) : (len : Nat) → Packet × Socket
  | 0 => ([], s)
  | len + 1 =>
    if s.rxHead ≠ s.rxTail then
      let (out, s') := sockRead { s with rxHead := (s.rxHead + 1) % sockRxbuf } len
      (s.rxBuf s.rxHead :: out, s')
    else ([], s)

/-! The ring and the bytes in it. -/

namespace Socket

def fill (s : Socket) : Nat := (s.rxTail + sockRxbuf - s.rxHead) % sockRxbuf

def room (s : Socket) : Nat := sockRxbuf - 1 - s.fill

def queued (s : Socket) : Packet := Ring.contents s.rxBuf sockRxbuf s.rxHead s.fill

structure Inv (s : Socket) : Prop where
  head : s.rxHead < sockRxbuf
  tail : s.rxTail < sockRxbuf

end Socket

variable {s s' : Socket} {udata : Packet} {b dlen len : Nat} {byte : BitVec 8}

theorem fill_lt : s.fill < sockRxbuf := Nat.mod_lt _ (by decide)

@[simp] theorem length_queued : s.queued.length = s.fill := Ring.length_contents

theorem openSocket_inv {protocol : BitVec 8} : (openSocket protocol).Inv := by
  constructor <;> exact Nat.zero_lt_succ _

theorem openSocket_queued {protocol : BitVec 8} : (openSocket protocol).queued = [] := by
  have hfill : (openSocket protocol).fill = 0 := by
    unfold Socket.fill openSocket
    exact Nat.mod_self sockRxbuf
  unfold Socket.queued
  rw [hfill]
  rfl

/-- The ring is full when the tail would come to the head. -/
theorem full_iff (hs : s.Inv) : (s.rxTail + 1) % sockRxbuf = s.rxHead ↔ s.room = 0 := by
  have hhead := hs.head
  have htail := hs.tail
  unfold Socket.room Socket.fill
  unfold sockRxbuf at *
  omega

/-- The tail goes on by one in any case. -/
theorem fill_next (hs : s.Inv) {buf : Nat → BitVec 8} :
    ({ s with rxBuf := buf, rxTail := (s.rxTail + 1) % sockRxbuf } : Socket).fill =
      (s.fill + 1) % sockRxbuf := by
  have hhead := hs.head
  have htail := hs.tail
  unfold Socket.fill
  unfold sockRxbuf at *
  dsimp only
  omega

theorem inv_next (hs : s.Inv) {buf : Nat → BitVec 8} :
    ({ s with rxBuf := buf, rxTail := (s.rxTail + 1) % sockRxbuf } : Socket).Inv :=
  ⟨hs.head, Nat.mod_lt _ (by decide)⟩

/-- A byte that has a cell is put behind the others. -/
theorem queued_push (hs : s.Inv) (hroom : 0 < s.room) :
    ({ s with
      rxBuf := Function.update s.rxBuf s.rxTail byte
      rxTail := (s.rxTail + 1) % sockRxbuf } : Socket).queued = s.queued ++ [byte] := by
  have hhead := hs.head
  have htail := hs.tail
  have hcell : (s.rxHead + s.fill) % sockRxbuf = s.rxTail := by
    unfold Socket.fill
    unfold sockRxbuf at *
    omega
  have hfill : (s.fill + 1) % sockRxbuf = s.fill + 1 := by
    unfold Socket.room at hroom
    exact Nat.mod_eq_of_lt (by omega)
  unfold Socket.queued
  rw [fill_next hs, hfill]
  dsimp only
  rw [← hcell, Ring.contents_push fill_lt]

/-- Bytes that fit are put behind the others. -/
theorem deliver_fits (hs : s.Inv) (hfit : dlen ≤ s.room) (hdata : b + dlen ≤ udata.length) :
    ∃ s', deliver s udata b dlen = some s' ∧ s'.Inv ∧
      s'.queued = s.queued ++ (udata.drop b).take dlen := by
  induction dlen generalizing s b with
  | zero => exact ⟨s, rfl, hs, by rw [List.take_zero, List.append_nil]⟩
  | succ dlen ih =>
    have hroom : ¬ (s.rxTail + 1) % sockRxbuf = s.rxHead := by
      rw [full_iff hs]
      omega
    have hb : b < udata.length := by omega
    have hbyte : udata[b]? = some udata[b] := List.getElem?_eq_getElem hb
    have hpush := @queued_push s udata[b] hs (by omega)
    have hfill := congrArg List.length hpush
    rw [List.length_append, length_queued, length_queued, List.length_singleton] at hfill
    obtain ⟨s', hdeliver, hinv, hqueued⟩ := @ih
      { s with
        rxBuf := Function.update s.rxBuf s.rxTail udata[b]
        rxTail := (s.rxTail + 1) % sockRxbuf } (b + 1) (inv_next hs)
      (by unfold Socket.room at hfit ⊢; omega) (by omega)
    refine ⟨s', ?_, hinv, ?_⟩
    · unfold deliver
      dsimp only
      rw [if_pos hroom, hbyte]
      exact hdeliver
    · rw [hqueued, hpush, List.append_assoc, List.drop_eq_getElem_cons hb, List.take_succ_cons]
      rfl

/-- Whatever is delivered, the tail has gone on by the length of the datagram. -/
theorem deliver_fill (hs : s.Inv) (hdeliver : deliver s udata b dlen = some s') :
    s'.Inv ∧ s'.fill = (s.fill + dlen) % sockRxbuf := by
  induction dlen generalizing s b with
  | zero =>
    cases hdeliver
    exact ⟨hs, (Nat.mod_eq_of_lt fill_lt).symm⟩
  | succ dlen ih =>
    have hall : ∀ {buf : Nat → BitVec 8},
        deliver { s with rxBuf := buf, rxTail := (s.rxTail + 1) % sockRxbuf } udata (b + 1) dlen =
          some s' → s'.Inv ∧ s'.fill = (s.fill + (dlen + 1)) % sockRxbuf := by
      intro buf hrest
      obtain ⟨hinv, hfill⟩ := ih (inv_next hs) hrest
      refine ⟨hinv, hfill.trans ?_⟩
      rw [fill_next hs, Nat.mod_add_mod, Nat.add_assoc, Nat.add_comm 1]
    unfold deliver at hdeliver
    dsimp only at hdeliver
    split at hdeliver
    case isTrue =>
      obtain ⟨byte, -, hrest⟩ := Option.bind_eq_some_iff.mp hdeliver
      exact hall hrest
    case isFalse => exact hall hdeliver

/-- A datagram is read to its end and no further. -/
theorem deliver_isSome (hdata : b + dlen ≤ udata.length) : (deliver s udata b dlen).isSome := by
  induction dlen generalizing s b with
  | zero => rfl
  | succ dlen ih =>
    have hb : b < udata.length := by omega
    unfold deliver
    dsimp only
    split
    case isTrue =>
      rw [List.getElem?_eq_getElem hb]
      exact ih (by omega)
    case isFalse => exact ih (by omega)

/-- Bytes are read from the front, as many as there are. -/
theorem sockRead_spec (hs : s.Inv) : (sockRead s len).2.Inv ∧
    (sockRead s len).1 = s.queued.take len ∧ (sockRead s len).2.queued = s.queued.drop len := by
  induction len generalizing s with
  | zero => exact ⟨hs, rfl, rfl⟩
  | succ len ih =>
    have hhead := hs.head
    have htail := hs.tail
    unfold sockRead
    split
    case isTrue hsome =>
      have hfill : s.fill =
          ({ s with rxHead := (s.rxHead + 1) % sockRxbuf } : Socket).fill + 1 := by
        unfold Socket.fill
        unfold sockRxbuf at *
        dsimp only
        omega
      have hfirst : s.queued = s.rxBuf s.rxHead ::
          ({ s with rxHead := (s.rxHead + 1) % sockRxbuf } : Socket).queued := by
        unfold Socket.queued
        rw [hfill, Ring.contents_cons, Nat.mod_eq_of_lt hhead]
        exact congrArg _ (Ring.contents_congr (Nat.mod_mod _ _).symm)
      have hnext : ({ s with rxHead := (s.rxHead + 1) % sockRxbuf } : Socket).Inv :=
        ⟨Nat.mod_lt _ (by decide), htail⟩
      obtain ⟨hinv, hout, hrest⟩ := ih hnext
      rw [hfirst]
      exact ⟨hinv, congrArg _ hout, hrest⟩
    case isFalse hnone =>
      have hempty : s.queued = [] := by
        apply List.eq_nil_of_length_eq_zero
        rw [length_queued]
        unfold Socket.fill
        unfold sockRxbuf at *
        omega
      refine ⟨hs, ?_, ?_⟩
      · rw [hempty]
        rfl
      · rw [hempty]
        rfl

end PinguinOS.Net
