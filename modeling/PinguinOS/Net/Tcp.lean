import PinguinOS.Lib.Ring
import PinguinOS.Lib.Run
import PinguinOS.Mm.Types

/-! The receive buffer of a TCP connection. -/
namespace PinguinOS.Net

open Mm (u32 sub32 int32)

def tcpFin : BitVec 8 := 0x01
def tcpSyn : BitVec 8 := 0x02
def tcpAck : BitVec 8 := 0x10

def tcpRxbufSize : Nat := 4096
def tcpDefaultWin : Nat := 8192

inductive TcpState
  | closed
  | listen
  | synSent
  | synReceived
  | established
  | finWait1
  | finWait2
  | closeWait
  | closing
  | lastAck
  | timeWait
  deriving DecidableEq

/-- `tcp_conn_t`, without addresses, the send buffer and retransmission. -/
structure TcpConn where
  used : Bool
  state : TcpState
  sndUna : Nat
  sndNxt : Nat
  sndWnd : Nat
  rcvNxt : Nat
  rcvWnd : Nat
  iss : Nat
  rxbuf : Nat → BitVec 8
  rxHead : Nat
  rxTail : Nat

/-- A segment for the connection. -/
structure TcpSegment where
  seq : Nat
  ack : Nat
  flags : BitVec 8
  window : Nat
  data : List (BitVec 8)

def rbUsed (head tail size : Nat) : Nat := u32 (sub32 head tail + size) % size

def rbFree (head tail size : Nat) : Nat := size - 1 - rbUsed head tail size

def TcpConn.rxUsed (c : TcpConn) : Nat := rbUsed c.rxHead c.rxTail tcpRxbufSize

def TcpConn.rxFree (c : TcpConn) : Nat := rbFree c.rxHead c.rxTail tcpRxbufSize

/-- `c->rcv_wnd = rb_free(..)` -/
def setRcvWnd (c : TcpConn) : TcpConn := { c with rcvWnd := c.rxFree }

/-- What sending a segment without data changes. -/
def tcpSendSegment (c : TcpConn) (flags : BitVec 8) : TcpConn :=
  let c := if flags &&& tcpSyn ≠ 0 then { c with sndNxt := u32 (c.sndNxt + 1) } else c
  if flags &&& tcpFin ≠ 0 then { c with sndNxt := u32 (c.sndNxt + 1) } else c

def tcpSocket : TcpConn where
  used := true
  state := .closed
  sndUna := 0
  sndNxt := 0
  sndWnd := 0
  rcvNxt := 0
  rcvWnd := tcpDefaultWin
  iss := 0
  rxbuf := fun _ => 0
  rxHead := 0
  rxTail := 0

/-- `tcp_connect` up to its wait; `iss` is what `tcp_isn` returns. -/
def tcpConnect (c : TcpConn) (iss : Nat) : TcpConn :=
  tcpSendSegment { c with iss := iss, sndUna := iss, sndNxt := iss, state := .synSent } tcpSyn

/-- The loop of `tcp_receive` that stores the data. -/
def storeBytes (c : TcpConn) : List (BitVec 8) → TcpConn
  | [] => c
  | byte :: data =>
    storeBytes
      { c with
        rxbuf := Function.update c.rxbuf (c.rxHead % tcpRxbufSize) byte
        rxHead := u32 (c.rxHead + 1) } data

/-- The loop of `tcp_recv`. -/
def loadBytes (c : TcpConn) : (n : Nat) → List (BitVec 8) × TcpConn
  | 0 => ([], c)
  | n + 1 =>
    let byte := c.rxbuf (c.rxHead % tcpRxbufSize)
    let (out, c) := loadBytes
      { c with rxHead := u32 (c.rxHead + 1), rxTail := u32 (c.rxTail + 1) } n
    (byte :: out, c)

/-- The bytes of a segment that an established connection takes. -/
def acceptedBytes (c : TcpConn) (seg : TcpSegment) : List (BitVec 8) :=
  if seg.data.length ≠ 0 ∧ seg.seq = c.rcvNxt then
    seg.data.take (if seg.data.length < c.rxFree then seg.data.length else c.rxFree)
  else []

/-- The data of a segment, in the state `TCP_ESTABLISHED`. -/
def deliverData (c : TcpConn) (seg : TcpSegment) : TcpConn :=
  if seg.data.length ≠ 0 ∧ seg.seq = c.rcvNxt then
    let bytes := acceptedBytes c seg
    let c := storeBytes c bytes
    let c := { c with rcvNxt := u32 (c.rcvNxt + bytes.length) }
    tcpSendSegment (setRcvWnd c) tcpAck
  else c

/-- `tcp_receive` in the state `TCP_ESTABLISHED` -/
def receiveEstablished (c : TcpConn) (seg : TcpSegment) : TcpConn :=
  let c := if seg.flags &&& tcpAck ≠ 0 then { c with sndUna := seg.ack } else c
  let c := deliverData c seg
  if seg.flags &&& tcpFin ≠ 0 then
    let c := tcpSendSegment { c with rcvNxt := u32 (c.rcvNxt + 1), state := .closeWait } tcpAck
    tcpSendSegment { c with state := .lastAck } (tcpFin ||| tcpAck)
  else c

/-- `tcp_receive`, for the connection that the segment is for. -/
def tcpReceive (c : TcpConn) (seg : TcpSegment) : TcpConn :=
  if ¬ c.used then c
  else
    let c := { c with sndWnd := seg.window }
    match c.state with
    | .synSent =>
      if seg.flags &&& (tcpSyn ||| tcpAck) = tcpSyn ||| tcpAck then
        tcpSendSegment
          { c with rcvNxt := u32 (seg.seq + 1), sndUna := seg.ack, state := .established } tcpAck
      else c
    | .established => receiveEstablished c seg
    | .lastAck =>
      if seg.flags &&& tcpAck ≠ 0 then { c with state := .closed, used := false } else c
    | .finWait1 => if seg.flags &&& tcpAck ≠ 0 then { c with state := .finWait2 } else c
    | .finWait2 =>
      if seg.flags &&& tcpFin ≠ 0 then
        let c := tcpSendSegment { c with rcvNxt := u32 (c.rcvNxt + 1) } tcpAck
        { c with state := .closed, used := false }
      else c
    | _ => c

/-- `tcp_recv` from the end of its wait on, which ends at its deadline when no data comes. -/
def tcpRecv (c : TcpConn) (len : Nat) : Int × List (BitVec 8) × TcpConn :=
  if ¬ c.used then (-1, [], c)
  else if c.rxUsed = 0 then
    if c.state = .closeWait ∨ c.state = .closed then (0, [], c) else (-1, [], c)
  else
    let avail := if c.rxUsed > len then len else c.rxUsed
    let read := loadBytes c avail
    (int32 avail, read.1, setRcvWnd read.2)

/-! Segments and calls, in any order. -/

/-- A connection, the bytes by which `rcv_nxt` went on, and the bytes that `tcp_recv` returned. -/
structure TcpLog where
  conn : TcpConn
  accepted : List (BitVec 8)
  returned : List (BitVec 8)

inductive TcpEvent
  | segment (seg : TcpSegment)
  | recv (len : Nat)

def tcpStep (s : TcpLog) : TcpEvent → Option TcpLog
  | .segment seg =>
    some
      { s with
        conn := tcpReceive s.conn seg
        accepted := s.accepted ++
          if s.conn.used ∧ s.conn.state = .established then acceptedBytes s.conn seg else [] }
  | .recv len =>
    let read := (tcpRecv s.conn len).2
    some { s with conn := read.2, returned := s.returned ++ read.1 }

/-- A connection that has just been established, with the answer to its `SYN`. -/
def established (iss : Nat) (synAck : TcpSegment) : TcpLog where
  conn := tcpReceive (tcpConnect tcpSocket iss) synAck
  accepted := []
  returned := []

/-- The stream of bytes: read in order, and what is not read yet is in the buffer. -/
structure TcpStreamOk (s : TcpLog) : Prop where
  inOrder : s.returned <+: s.accepted
  used : s.accepted.length = s.returned.length + s.conn.rxUsed
  kept : s.accepted.drop s.returned.length =
    Ring.contents s.conn.rxbuf tcpRxbufSize s.conn.rxTail s.conn.rxUsed

/-- The window that segments carry fits into the buffer. -/
def TcpWindowOk (s : TcpLog) : Prop := s.conn.rcvWnd ≤ s.conn.rxFree

structure TcpOk (s : TcpLog) : Prop where
  stream : TcpStreamOk s
  window : TcpWindowOk s

/-- No call of `tcp_recv` finds bytes for its buffer. -/
def NothingRead (s : TcpLog) (event : TcpEvent) (_ : TcpLog) : Prop :=
  ∀ len, event = .recv len → s.conn.used = false ∨ s.conn.rxUsed = 0 ∨ len = 0

/-! The loops work on the ring. -/

variable {c c' : TcpConn} {seg : TcpSegment} {bytes : List (BitVec 8)} {s t : TcpLog}
  {event : TcpEvent} {n len head tail : Nat} {flags : BitVec 8}

def TcpConn.ring (c : TcpConn) : (Nat → BitVec 8) × Nat × Nat := (c.rxbuf, c.rxHead, c.rxTail)

/-- The window is not part of the ring. -/
theorem ring_rcvWnd (window : Nat) : ({ c with rcvWnd := window } : TcpConn).ring = c.ring := rfl

theorem setRcvWnd_ring : (setRcvWnd c).ring = c.ring := ring_rcvWnd _

theorem rxbuf_congr (h : c'.ring = c.ring) : c'.rxbuf = c.rxbuf := congrArg Prod.fst h

theorem rxHead_congr (h : c'.ring = c.ring) : c'.rxHead = c.rxHead :=
  congrArg (fun ring => ring.2.1) h

theorem rxTail_congr (h : c'.ring = c.ring) : c'.rxTail = c.rxTail :=
  congrArg (fun ring => ring.2.2) h

theorem rxUsed_congr (h : c'.ring = c.ring) : c'.rxUsed = c.rxUsed := by
  unfold TcpConn.rxUsed
  rw [rxHead_congr h, rxTail_congr h]

/-- Both positions count modulo `2 ^ 32`, and so their distance is one modulo the size. -/
theorem rbUsed_eq :
    rbUsed head tail tcpRxbufSize = (head + 2 ^ 32 - tail) % tcpRxbufSize := by
  unfold rbUsed sub32 u32 tcpRxbufSize
  omega

theorem rbUsed_move (hhead : head < 2 ^ 32) (htail : tail < 2 ^ 32) :
    rbUsed (u32 (head + n)) (u32 (tail + n)) tcpRxbufSize = rbUsed head tail tcpRxbufSize := by
  rw [rbUsed_eq, rbUsed_eq]
  unfold tcpRxbufSize u32
  omega

theorem rxUsed_lt : c.rxUsed < tcpRxbufSize := Nat.mod_lt _ (by decide)

theorem mod_tcpRxbufSize_u32 (n : Nat) : u32 n % tcpRxbufSize = n % tcpRxbufSize :=
  Nat.mod_mod_of_dvd n (by decide)

@[simp] theorem tcpSendSegment_ring : (tcpSendSegment c flags).ring = c.ring := by
  unfold tcpSendSegment
  dsimp only
  split <;> split <;> rfl

theorem storeBytes_eq (hhead : c.rxHead < 2 ^ 32) :
    storeBytes c bytes =
      { c with
        rxbuf := Ring.pushAll c.rxbuf tcpRxbufSize c.rxHead bytes
        rxHead := u32 (c.rxHead + bytes.length) } := by
  induction bytes generalizing c with
  | nil =>
    unfold storeBytes
    rw [List.length_nil, Nat.add_zero, Mm.u32_of_lt hhead]
    rfl
  | cons byte bytes ih =>
    have hrest := @ih
      { c with
        rxbuf := Function.update c.rxbuf (c.rxHead % tcpRxbufSize) byte
        rxHead := u32 (c.rxHead + 1) } Mm.u32_lt
    have hpos : u32 (u32 (c.rxHead + 1) + bytes.length) = u32 (c.rxHead + (bytes.length + 1)) := by
      unfold u32
      omega
    unfold storeBytes
    rw [hrest]
    dsimp only
    rw [hpos, Ring.pushAll_congr (mod_tcpRxbufSize_u32 _)]
    rfl

theorem loadBytes_spec (hhead : c.rxHead < 2 ^ 32) (htail : c.rxTail < 2 ^ 32) :
    (loadBytes c n).1.length = n ∧
      (loadBytes c n).2 = { c with
        rxHead := u32 (c.rxHead + n)
        rxTail := u32 (c.rxTail + n) } := by
  induction n generalizing c with
  | zero =>
    unfold loadBytes
    rw [Nat.add_zero, Nat.add_zero, Mm.u32_of_lt hhead, Mm.u32_of_lt htail]
    exact ⟨rfl, rfl⟩
  | succ n ih =>
    obtain ⟨hlength, hconn⟩ := @ih
      { c with rxHead := u32 (c.rxHead + 1), rxTail := u32 (c.rxTail + 1) } Mm.u32_lt Mm.u32_lt
    have hpos : ∀ pos, u32 (u32 (pos + 1) + n) = u32 (pos + (n + 1)) := by
      intro pos
      unfold u32
      omega
    unfold loadBytes
    dsimp only
    refine ⟨by rw [List.length_cons, hlength], ?_⟩
    rw [hconn]
    dsimp only
    rw [hpos, hpos]

/-- The bytes that a segment adds to the buffer. -/
def newBytes (c : TcpConn) (seg : TcpSegment) : List (BitVec 8) :=
  if c.used ∧ c.state = .established then acceptedBytes c seg else []

theorem deliverData_ring : (deliverData c seg).ring = (storeBytes c (acceptedBytes c seg)).ring := by
  unfold deliverData
  split
  case isTrue =>
    dsimp only
    rw [tcpSendSegment_ring]
    rfl
  case isFalse hno =>
    have hnone : acceptedBytes c seg = [] := if_neg hno
    rw [hnone]
    rfl

theorem storeBytes_congr (hhead : c.rxHead < 2 ^ 32) (hring : c'.ring = c.ring) :
    (storeBytes c' bytes).ring = (storeBytes c bytes).ring := by
  rw [storeBytes_eq (rxHead_congr hring ▸ hhead), storeBytes_eq hhead]
  unfold TcpConn.ring
  dsimp only
  rw [rxbuf_congr hring, rxHead_congr hring, rxTail_congr hring]

theorem receiveEstablished_ring (hhead : c.rxHead < 2 ^ 32) :
    (receiveEstablished c seg).ring = (storeBytes c (acceptedBytes c seg)).ring := by
  have hdata : ∀ acked : TcpConn, acked.ring = c.ring → acked.rcvNxt = c.rcvNxt →
      (deliverData acked seg).ring = (storeBytes c (acceptedBytes c seg)).ring := by
    intro acked hring hnxt
    have hbytes : acceptedBytes acked seg = acceptedBytes c seg := by
      unfold acceptedBytes TcpConn.rxFree rbFree
      rw [hnxt, rxHead_congr hring, rxTail_congr hring]
    rw [deliverData_ring, hbytes, storeBytes_congr hhead hring]
  have hall : ∀ acked : TcpConn, (deliverData acked seg).ring =
      (storeBytes c (acceptedBytes c seg)).ring → (if seg.flags &&& tcpFin ≠ 0 then
        let c := tcpSendSegment
          { deliverData acked seg with
            rcvNxt := u32 ((deliverData acked seg).rcvNxt + 1)
            state := .closeWait } tcpAck
        tcpSendSegment { c with state := .lastAck } (tcpFin ||| tcpAck)
      else deliverData acked seg).ring = (storeBytes c (acceptedBytes c seg)).ring := by
    intro acked hacked
    split
    · exact tcpSendSegment_ring.trans (tcpSendSegment_ring.trans hacked)
    · exact hacked
  unfold receiveEstablished
  apply hall
  split
  · exact hdata _ rfl rfl
  · exact hdata _ rfl rfl

/-- What a segment does to the ring is to store its bytes. -/
theorem tcpReceive_ring (hhead : c.rxHead < 2 ^ 32) :
    (tcpReceive c seg).ring = (storeBytes c (newBytes c seg)).ring := by
  have hsame : ∀ {c' : TcpConn}, c'.ring = c.ring → ¬ (c.used ∧ c.state = .established) →
      c'.ring = (storeBytes c (newBytes c seg)).ring := by
    intro c' hring hno
    have hnone : newBytes c seg = [] := if_neg hno
    rw [hnone, hring]
    rfl
  unfold tcpReceive
  by_cases hused : c.used
  · rw [if_neg (not_not_intro hused)]
    dsimp only
    cases hstate : c.state with
    | synSent =>
      refine hsame ?_ fun h => by rw [hstate] at h; cases h.2
      dsimp only
      split
      · exact tcpSendSegment_ring
      · rfl
    | established =>
      have hnew : newBytes c seg = acceptedBytes c seg := if_pos ⟨hused, hstate⟩
      dsimp only
      rw [hnew, receiveEstablished_ring]
      · exact storeBytes_congr hhead rfl
      · exact hhead
    | lastAck =>
      refine hsame ?_ fun h => by rw [hstate] at h; cases h.2
      dsimp only
      split <;> rfl
    | finWait1 =>
      refine hsame ?_ fun h => by rw [hstate] at h; cases h.2
      dsimp only
      split <;> rfl
    | finWait2 =>
      refine hsame ?_ fun h => by rw [hstate] at h; cases h.2
      dsimp only
      split
      · exact tcpSendSegment_ring
      · rfl
    | closed => exact hsame rfl fun h => by rw [hstate] at h; cases h.2
    | listen => exact hsame rfl fun h => by rw [hstate] at h; cases h.2
    | synReceived => exact hsame rfl fun h => by rw [hstate] at h; cases h.2
    | closeWait => exact hsame rfl fun h => by rw [hstate] at h; cases h.2
    | closing => exact hsame rfl fun h => by rw [hstate] at h; cases h.2
    | timeWait => exact hsame rfl fun h => by rw [hstate] at h; cases h.2
  · rw [if_pos hused]
    exact hsame rfl fun h => hused h.1

/-! One segment, one call. -/

theorem newBytes_length_le : (newBytes c seg).length ≤ c.rxFree := by
  unfold newBytes
  split
  · unfold acceptedBytes
    split
    · rw [List.length_take]
      split <;> omega
    · exact Nat.zero_le _
  · exact Nat.zero_le _

structure TcpConn.Inv (c : TcpConn) : Prop where
  head : c.rxHead < 2 ^ 32
  tail : c.rxTail < 2 ^ 32

/-- Bytes that fit are put behind those that are in the buffer. -/
theorem storeBytes_spec (hc : c.Inv) (hfit : bytes.length ≤ c.rxFree) :
    (storeBytes c bytes).Inv ∧ (storeBytes c bytes).rxUsed = c.rxUsed + bytes.length ∧
      Ring.contents (storeBytes c bytes).rxbuf tcpRxbufSize (storeBytes c bytes).rxTail
        (storeBytes c bytes).rxUsed =
      Ring.contents c.rxbuf tcpRxbufSize c.rxTail c.rxUsed ++ bytes := by
  have hlt := @rxUsed_lt c
  have htail := hc.tail
  have hhead := hc.head
  unfold TcpConn.rxFree rbFree at hfit
  have hroom : c.rxUsed + bytes.length < tcpRxbufSize := by
    unfold TcpConn.rxUsed at hlt ⊢
    omega
  have husedNow : c.rxUsed = (c.rxHead + 2 ^ 32 - c.rxTail) % tcpRxbufSize := rbUsed_eq
  have hused : (storeBytes c bytes).rxUsed = c.rxUsed + bytes.length := by
    rw [storeBytes_eq hhead]
    refine Eq.trans rbUsed_eq ?_
    dsimp only
    unfold tcpRxbufSize u32 at *
    omega
  have hplace : Ring.pushAll c.rxbuf tcpRxbufSize c.rxHead bytes =
      Ring.pushAll c.rxbuf tcpRxbufSize (c.rxTail + c.rxUsed) bytes := by
    apply Ring.pushAll_congr
    unfold tcpRxbufSize at *
    omega
  refine ⟨?_, hused, ?_⟩
  · rw [storeBytes_eq hhead]
    exact ⟨Mm.u32_lt, htail⟩
  · rw [hused, storeBytes_eq hhead]
    dsimp only
    rw [hplace, Ring.contents_pushAll (Nat.le_of_lt hroom)]

theorem tcpStreamOk_segment (hc : s.conn.Inv) (hs : TcpStreamOk s) {seg : TcpSegment}
    (hstep : tcpStep s (.segment seg) = some t) : TcpStreamOk t := by
  cases hstep
  obtain ⟨-, hused, hcontents⟩ := storeBytes_spec hc (@newBytes_length_le s.conn seg)
  have hring := @tcpReceive_ring s.conn seg hc.head
  have hle : s.returned.length ≤ s.accepted.length := hs.inOrder.length_le
  constructor
  case inOrder => exact hs.inOrder.trans (List.prefix_append _ _)
  case used =>
    dsimp only
    rw [rxUsed_congr hring, hused, List.length_append, hs.used]
    exact Nat.add_assoc _ _ _
  case kept =>
    dsimp only
    rw [rxbuf_congr hring, rxTail_congr hring, rxUsed_congr hring, hcontents,
      List.drop_append_of_le_length hle, hs.kept]
    rfl

theorem tcpRecv_nothing (h : c.used = false ∨ c.rxUsed = 0 ∨ len = 0) :
    (tcpRecv c len).2.1 = [] ∧ (tcpRecv c len).2.2.ring = c.ring := by
  unfold tcpRecv
  by_cases hused : c.used
  · rw [if_neg (not_not_intro hused)]
    by_cases hnone : c.rxUsed = 0
    · rw [if_pos hnone]
      split <;> exact ⟨rfl, rfl⟩
    · have hlen : len = 0 := by
        rcases h with h | h | h
        · rw [hused] at h
          cases h
        · exact absurd h hnone
        · exact h
      have havail : (if c.rxUsed > len then len else c.rxUsed) = 0 := by
        rw [if_pos (by omega)]
        exact hlen
      rw [if_neg hnone, havail]
      exact ⟨rfl, setRcvWnd_ring⟩
  · rw [if_pos hused]
    exact ⟨rfl, rfl⟩

theorem parts_of_eq {α β γ : Type*} {read : α × β × γ} {x : α} {y : β} {z : γ}
    (h : read = (x, y, z)) : read.2.1 = y ∧ read.2.2 = z := by
  subst h
  exact ⟨rfl, rfl⟩

theorem tcpRecv_some (hused : c.used = true) (hsome : c.rxUsed ≠ 0)
    (hn : n = if c.rxUsed > len then len else c.rxUsed) :
    (tcpRecv c len).2.1 = (loadBytes c n).1 ∧
      (tcpRecv c len).2.2 = setRcvWnd (loadBytes c n).2 := by
  apply parts_of_eq
  unfold tcpRecv
  rw [if_neg (not_not_intro hused), if_neg hsome, ← hn]

/-- A call that returns bytes takes none from the buffer: both positions move. -/
theorem tcpRecv_bytes (hc : c.Inv) (hused : c.used = true) (hsome : c.rxUsed ≠ 0)
    (hlen : len ≠ 0) :
    (tcpRecv c len).2.1.length ≠ 0 ∧ (tcpRecv c len).2.2.rxUsed = c.rxUsed := by
  obtain ⟨n, hn, hmin⟩ : ∃ n, n ≠ 0 ∧ n = if c.rxUsed > len then len else c.rxUsed := by
    refine ⟨_, ?_, rfl⟩
    split <;> omega
  obtain ⟨hlength, hconn⟩ := loadBytes_spec (n := n) hc.head hc.tail
  obtain ⟨hout, hafter⟩ := tcpRecv_some hused hsome hmin
  constructor
  · rw [hout, hlength]
    exact hn
  · rw [hafter, rxUsed_congr setRcvWnd_ring, hconn]
    exact rbUsed_move hc.head hc.tail

theorem tcpStep_recv : tcpStep s (.recv len) =
    some { s with
      conn := (tcpRecv s.conn len).2.2
      returned := s.returned ++ (tcpRecv s.conn len).2.1 } := rfl

theorem tcpStreamOk_recv (hc : s.conn.Inv) (hs : TcpStreamOk s)
    (hstep : tcpStep s (.recv len) = some t) :
    NothingRead s (.recv len) t ↔ TcpStreamOk t := by
  rw [tcpStep_recv] at hstep
  injection hstep with hstep
  subst hstep
  constructor
  · intro hcond
    obtain ⟨hout, hring⟩ := tcpRecv_nothing (hcond len rfl)
    constructor
    case inOrder =>
      dsimp only
      rw [hout, List.append_nil]
      exact hs.inOrder
    case used =>
      dsimp only
      rw [hout, List.append_nil, rxUsed_congr hring]
      exact hs.used
    case kept =>
      dsimp only
      rw [hout, List.append_nil, rxbuf_congr hring, rxTail_congr hring, rxUsed_congr hring]
      exact hs.kept
  · rintro hok len' hcall
    cases hcall
    by_contra hnot
    rw [not_or, not_or] at hnot
    obtain ⟨hused, hsome, hlen⟩ := hnot
    obtain ⟨hlength, hsame⟩ := tcpRecv_bytes hc (Bool.eq_true_of_not_eq_false hused) hsome hlen
    have hafter := hok.used
    have hbefore := hs.used
    dsimp only at hafter
    rw [List.length_append, hsame] at hafter
    omega

theorem TcpConn.Inv.step (hc : s.conn.Inv) (hstep : tcpStep s event = some t) : t.conn.Inv := by
  cases event with
  | segment seg =>
    cases hstep
    have hring := @tcpReceive_ring s.conn seg hc.head
    obtain ⟨hinv, -⟩ := storeBytes_spec hc (@newBytes_length_le s.conn seg)
    refine ⟨?_, ?_⟩
    · dsimp only
      rw [rxHead_congr hring]
      exact hinv.head
    · dsimp only
      rw [rxTail_congr hring]
      exact hinv.tail
  | recv len =>
    rw [tcpStep_recv] at hstep
    injection hstep with hstep
    subst hstep
    dsimp only
    unfold tcpRecv
    split
    · exact hc
    · split
      · split <;> exact hc
      · obtain ⟨-, hconn⟩ := loadBytes_spec
          (n := if s.conn.rxUsed > len then len else s.conn.rxUsed) hc.head hc.tail
        constructor
        · dsimp only
          rw [rxHead_congr setRcvWnd_ring, hconn]
          exact Mm.u32_lt
        · dsimp only
          rw [rxTail_congr setRcvWnd_ring, hconn]
          exact Mm.u32_lt

theorem tcpSendSegment_same : (tcpSendSegment c flags).used = c.used ∧
    (tcpSendSegment c flags).state = c.state ∧ (tcpSendSegment c flags).rcvWnd = c.rcvWnd := by
  unfold tcpSendSegment
  dsimp only
  split <;> split <;> exact ⟨rfl, rfl, rfl⟩

theorem tcpReceive_synSent (hused : c.used = true) (hstate : c.state = .synSent) :
    (tcpReceive c seg).ring = c.ring ∧ (tcpReceive c seg).rcvWnd = c.rcvWnd := by
  unfold tcpReceive
  rw [if_neg (not_not_intro hused)]
  dsimp only
  rw [hstate]
  dsimp only
  split
  case isTrue => exact ⟨tcpSendSegment_ring, tcpSendSegment_same.2.2⟩
  case isFalse => exact ⟨rfl, rfl⟩

/-- The connection starts with an empty buffer and the default window. -/
theorem established_spec {iss : Nat} {synAck : TcpSegment} :
    (established iss synAck).conn.ring = tcpSocket.ring ∧
      (established iss synAck).conn.rcvWnd = tcpDefaultWin := by
  obtain ⟨hused, hstate, hwindow⟩ := @tcpSendSegment_same
    { tcpSocket with iss := iss, sndUna := iss, sndNxt := iss, state := .synSent } tcpSyn
  obtain ⟨hring, hkeep⟩ := @tcpReceive_synSent _ synAck hused hstate
  exact ⟨hring.trans tcpSendSegment_ring, hkeep.trans hwindow⟩

theorem established_inv {iss : Nat} {synAck : TcpSegment} : (established iss synAck).conn.Inv := by
  obtain ⟨hring, -⟩ := @established_spec iss synAck
  constructor
  · rw [rxHead_congr hring]
    decide
  · rw [rxTail_congr hring]
    decide

theorem established_streamOk {iss : Nat} {synAck : TcpSegment} :
    TcpStreamOk (established iss synAck) := by
  obtain ⟨hring, -⟩ := @established_spec iss synAck
  have hnone : (established iss synAck).conn.rxUsed = 0 := by
    rw [rxUsed_congr hring]
    decide
  refine ⟨List.prefix_refl _, ?_, ?_⟩
  · rw [hnone]
    rfl
  · rw [hnone]
    rfl

/-- The default window is twice the buffer, and so no connection starts well; the stream alone is
right exactly as long as nothing is read. -/
theorem tcp_stream_iff (iss : Nat) (synAck : TcpSegment) (events : List TcpEvent) :
    ¬ Run.EveryState tcpStep TcpOk (established iss synAck) events ∧
      (Run.EveryState tcpStep TcpStreamOk (established iss synAck) events ↔
        Run.EveryStep tcpStep NothingRead (established iss synAck) events) := by
  constructor
  · intro hstates
    obtain ⟨hring, hwindow⟩ := @established_spec iss synAck
    have hfits := hstates.first.window
    unfold TcpWindowOk TcpConn.rxFree at hfits
    rw [hwindow, rxHead_congr hring, rxTail_congr hring] at hfits
    exact absurd hfits (by decide)
  · refine Run.everyState_iff_everyStep (A := fun _ => True) (I := fun s => s.conn.Inv)
      (fun _ _ => trivial) (fun s event t _ hc hs hstep => ?_)
      (fun s event t _ hc hstep => hc.step hstep) established_inv established_streamOk
    cases event with
    | segment seg =>
      exact iff_of_true (fun len hcall => (nomatch hcall)) (tcpStreamOk_segment hc hs hstep)
    | recv len => exact tcpStreamOk_recv hc hs hstep

/-- Three bytes arrive; `tcp_recv` returns the three bytes behind them. -/
theorem not_tcp_stream_three : ¬ Run.EveryState tcpStep TcpOk
    (established 0 ⟨100, 1, tcpSyn ||| tcpAck, 1000, []⟩)
    [.segment ⟨101, 1, tcpAck, 1000, [1, 2, 3]⟩, .recv 3] := by
  intro hstates
  have hlast := ((hstates.2 _ rfl).2 _ rfl).stream.inOrder
  exact absurd hlast (by decide +kernel)

end PinguinOS.Net
