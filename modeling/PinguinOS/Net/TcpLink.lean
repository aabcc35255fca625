import PinguinOS.Lib.Pieces
import PinguinOS.Net.TcpChecksum
import PinguinOS.Net.TcpStates

/-! The segments that a connection sends, and what of them a receiver reads. -/
namespace PinguinOS.Net

open Mm (u32)

def tcpPsh : BitVec 8 := 0x08

/-- The fields that `tcp_send_segment` fills in. -/
def segmentFrom (c : TcpConn) (flags : BitVec 8) (data : List (BitVec 8)) : TcpSegment where
  seq := c.sndNxt
  ack := if flags &&& tcpAck ≠ 0 then c.rcvNxt else 0
  flags := flags
  window := c.rcvWnd % 2 ^ 16
  data := data

/-- What `tcp_receive` sends in the state `TCP_ESTABLISHED`. -/
def receiveEstablishedSends (c : TcpConn) (seg : TcpSegment) : List TcpSegment :=
  let c := if seg.flags &&& tcpAck ≠ 0 then { c with sndUna := seg.ack } else c
  let delivered := deliverData c seg
  (if seg.data.length ≠ 0 ∧ seg.seq = c.rcvNxt then [segmentFrom delivered tcpAck []] else []) ++
    if seg.flags &&& tcpFin ≠ 0 then
      let waiting := { delivered with rcvNxt := u32 (delivered.rcvNxt + 1), state := .closeWait }
      [segmentFrom waiting tcpAck [],
        segmentFrom { tcpSendSegment waiting tcpAck with state := .lastAck } (tcpFin ||| tcpAck) []]
    else []

/-- What `tcp_receive` sends. -/
def tcpReceiveSends (c : TcpConn) (seg : TcpSegment) : List TcpSegment :=
  if ¬ c.used then []
  else
    let c := { c with sndWnd := seg.window }
    match c.state with
    | .synSent =>
      if seg.flags &&& (tcpSyn ||| tcpAck) = tcpSyn ||| tcpAck then
        [segmentFrom { c with rcvNxt := u32 (seg.seq + 1), sndUna := seg.ack, state := .established }
          tcpAck []]
      else []
    | .established => receiveEstablishedSends c seg
    | .finWait2 =>
      if seg.flags &&& tcpFin ≠ 0 then
        [segmentFrom { c with rcvNxt := u32 (c.rcvNxt + 1) } tcpAck []]
      else []
    | _ => []

/-- What `tcp_close` sends. -/
def tcpCloseSends (c : TcpConn) : List TcpSegment :=
  if c.used ∧ (c.state = .established ∨ c.state = .closeWait) then
    [segmentFrom { c with state := .finWait1 } (tcpFin ||| tcpAck) []]
  else []

/-- What `tcp_connect` sends. -/
def tcpConnectSends (c : TcpConn) (iss : Nat) : List TcpSegment :=
  [segmentFrom { c with iss := iss, sndUna := iss, sndNxt := iss, state := .synSent } tcpSyn []]

/-- What a round of `tcp_send` sends: nothing while the window is closed. -/
def tcpRoundSends (c : TcpConn) (data : List (BitVec 8)) : List TcpSegment :=
  if data.length = 0 then [] else [segmentFrom c (tcpAck ||| tcpPsh) data]

/-! The bytes of a segment. -/

variable {t : TcpSlot} {flags : BitVec 8} {data : Packet} {x : BitVec 16} {y : BitVec 32}

theorem exists_bytes16 (x : BitVec 16) : ∃ b0 b1 : BitVec 8, x = b1 ++ b0 := by
  have hsplit : x.extractLsb' 8 8 ++ x.extractLsb' 0 8 = x := BitVec.extractLsb'_append_extractLsb'
  exact ⟨_, _, hsplit.symm⟩

theorem bytes16_append {b0 b1 : BitVec 8} : bytes16 (b1 ++ b0) = [b0, b1] := by
  unfold bytes16
  rw [BitVec.extractLsb'_append_eq_right, BitVec.extractLsb'_append_eq_left]

/-- A field that is stored in network order is loaded as the bytes lie there. -/
theorem bytes16_htons_eq (x : BitVec 16) :
    ∃ b0 b1 : BitVec 8, bytes16 (htons x) = [b1, b0] ∧ htons (b0 ++ b1) = x := by
  obtain ⟨b0, b1, rfl⟩ := exists_bytes16 x
  refine ⟨b0, b1, ?_, htons_append⟩
  rw [bytes16_htons, bytes16_append]
  rfl

theorem bytes32_htonl_eq (y : BitVec 32) : ∃ b0 b1 b2 b3 : BitVec 8,
    bytes32 (htonl y) = [b3, b2, b1, b0] ∧ htonl (b0 ++ b1 ++ b2 ++ b3) = y := by
  obtain ⟨b0, b1, b2, b3, rfl⟩ := exists_bytes32 y
  refine ⟨b0, b1, b2, b3, ?_, htonl_append⟩
  rw [bytes32_htonl, bytes32_append]
  rfl

theorem htonl_zero : htonl 0 = 0 := by decide

/-- What a receiver reads out of a header. -/
theorem tcpParse_header {b0 b1 b2 b3 c0 c1 c2 c3 d0 d1 d2 d3 w0 w1 k0 k1 u0 u1 flags : BitVec 8} :
    tcpParse ([b0, b1] ++ [b2, b3] ++ [c0, c1, c2, c3] ++ [d0, d1, d2, d3] ++ [(5 : BitVec 8) <<< 4, flags] ++
        [w0, w1] ++ ([k0, k1] ++ ([u0, u1] ++ data))) =
      some (htons (b1 ++ b0), htons (b3 ++ b2),
        ⟨(htonl (c3 ++ c2 ++ c1 ++ c0)).toNat, (htonl (d3 ++ d2 ++ d1 ++ d0)).toNat, flags,
          (htons (w1 ++ w0)).toNat, data⟩) := by
  unfold tcpParse load16 load32
  simp

/-- What `tcp_send_segment` writes, `tcp_receive` reads back: the ports, the fields and the data,
whatever the checksum is. -/
theorem tcpParse_tcpPacket (hsnd : t.conn.sndNxt < 2 ^ 32) (hrcv : t.conn.rcvNxt < 2 ^ 32) :
    tcpParse (tcpPacket t flags data x) =
      some (t.localPort, t.remotePort, segmentFrom t.conn flags data) := by
  obtain ⟨b0, b1, hlocal, hlocal'⟩ := bytes16_htons_eq t.localPort
  obtain ⟨b2, b3, hremote, hremote'⟩ := bytes16_htons_eq t.remotePort
  obtain ⟨c0, c1, c2, c3, hseq, hseq'⟩ := bytes32_htonl_eq (BitVec.ofNat 32 t.conn.sndNxt)
  obtain ⟨d0, d1, d2, d3, hack, hack'⟩ :=
    bytes32_htonl_eq (if flags &&& tcpAck ≠ 0 then BitVec.ofNat 32 t.conn.rcvNxt else 0)
  obtain ⟨w0, w1, hwnd, hwnd'⟩ := bytes16_htons_eq (BitVec.ofNat 16 t.conn.rcvWnd)
  obtain ⟨k0, k1, rfl⟩ := exists_bytes16 x
  have hackField : (if flags &&& tcpAck ≠ 0 then htonl (BitVec.ofNat 32 t.conn.rcvNxt) else 0) =
      htonl (if flags &&& tcpAck ≠ 0 then BitVec.ofNat 32 t.conn.rcvNxt else 0) := by
    split
    · rfl
    · exact htonl_zero.symm
  have hurgent : bytes16 0 = [0, 0] := by decide
  unfold tcpPacket
  rw [hackField, hlocal, hremote, hseq, hack, hwnd, bytes16_append, hurgent,
    tcpParse_header, hlocal', hremote', hseq', hack', hwnd']
  have hackNat : (if flags &&& tcpAck ≠ 0 then BitVec.ofNat 32 t.conn.rcvNxt else 0).toNat =
      if flags &&& tcpAck ≠ 0 then t.conn.rcvNxt else 0 := by
    split
    · exact Mm.u32_of_lt hrcv
    · rfl
  unfold segmentFrom
  rw [hackNat, BitVec.toNat_ofNat, BitVec.toNat_ofNat, Nat.mod_eq_of_lt hsnd]

/-- Three bytes, of a connection that has numbers of its own. -/
theorem tcpParse_tcpPacket_data :
    tcpParse (tcpPacket ⟨{ tcpSocket with sndNxt := 0x01020304, rcvNxt := 0xFFFFFFFF }, 1, 49152, 2,
        80⟩ (tcpAck ||| tcpPsh) [1, 2, 3] 0) =
      some (49152, 80, ⟨0x01020304, 0xFFFFFFFF, tcpAck ||| tcpPsh, tcpDefaultWin, [1, 2, 3]⟩) :=
  tcpParse_tcpPacket (by decide) (by decide)

end PinguinOS.Net

/-! A connection, its peer, and the network between them: segments get lost, arrive more than once
and in any order. -/
namespace PinguinOS.Net

open Mm (u32 sub32)

/-- What has a number in a stream. -/
inductive Item
  | syn
  | byte (b : BitVec 8)
  | fin
  deriving DecidableEq

def Item.data : Item → Option (BitVec 8)
  | .byte b => some b
  | _ => none

/-- What the numbers of a segment, from its first on, are for. -/
def TcpSegment.items (seg : TcpSegment) : List Item :=
  (if seg.flags &&& tcpSyn ≠ 0 then [.syn] else []) ++ seg.data.map .byte ++
    if seg.flags &&& tcpFin ≠ 0 then [.fin] else []

/-- The stream of a peer: its `SYN`, its bytes and its `FIN`. -/
def peerStream (peer : List (BitVec 8)) : List Item := .syn :: (peer.map .byte ++ [.fin])

/-- A segment of the peer carries a piece of its stream, of any length and as often as it likes;
segments that only acknowledge carry none. -/
def FromPeer (irs : Nat) (peer : List (BitVec 8)) (seg : TcpSegment) : Prop :=
  ∃ pos, seg.seq = u32 (irs + pos) ∧ seg.items <+: (peerStream peer).drop pos

/-- A connection; the bytes that its calls of `tcp_send` have left; the segments and the bytes that
it has sent; the bytes that it has stored; and what the peer has of its stream. -/
structure TcpLink where
  conn : TcpConn
  calls : List (List (BitVec 8))
  wire : List TcpSegment
  sent : List (BitVec 8)
  accepted : List (BitVec 8)
  peerGot : List Item

/-- A call, a round of a call of `tcp_send`, a segment of the peer, or the arrival of segment `n` at
the peer, which takes `k` items of it at most. -/
inductive LinkEvent
  | send (data : List (BitVec 8))
  | round (call : Nat)
  | recv (len : Nat)
  | close
  | deadline
  | segment (seg : TcpSegment)
  | arrive (n k : Nat)

/-- The peer compares the number of a segment with the one that it expects, modulo `2 ^ 32`. -/
def peerTakes (iss : Nat) (got : List Item) (seg : TcpSegment) (k : Nat) : List Item :=
  let old := sub32 (u32 (iss + got.length)) seg.seq
  if old < seg.items.length then Pieces.take got seg.items old k else got

def linkStep (iss : Nat) (s : TcpLink) : LinkEvent → Option TcpLink
  | .send data =>
    if s.conn.used ∧ s.conn.state = .established then some { s with calls := s.calls ++ [data] }
    else some s
  | .round call => do
    let left ← s.calls[call]?
    let chunk := left.take (sendChunk s.conn left.length)
    some { s with
      conn := tcpSendData s.conn chunk.length
      calls := s.calls.set call (left.drop chunk.length)
      wire := s.wire ++ tcpRoundSends s.conn chunk
      sent := s.sent ++ chunk }
  | .recv len => some { s with conn := (tcpRecv s.conn len).2.2 }
  | .close => some { s with conn := tcpClose s.conn, wire := s.wire ++ tcpCloseSends s.conn }
  | .deadline => some { s with conn := { s.conn with state := .closed } }
  | .segment seg =>
    some { s with
      conn := tcpReceive s.conn seg
      wire := s.wire ++ tcpReceiveSends s.conn seg
      accepted := s.accepted ++ newBytes s.conn seg }
  | .arrive n k => do
    let seg ← s.wire[n]?
    some { s with peerGot := peerTakes iss s.peerGot seg k }

/-- After the `SYN` of `tcp_connect`. -/
def linkStart (iss : Nat) : TcpLink where
  conn := tcpConnect tcpSocket iss
  calls := []
  wire := tcpConnectSends tcpSocket iss
  sent := []
  accepted := []
  peerGot := []

/-- Everything that the connection has sent, in order. -/
def TcpLink.pieces (s : TcpLink) : List (List Item) := s.wire.map TcpSegment.items

/-- Where segment `n` begins in the stream. -/
def TcpLink.position (s : TcpLink) (n : Nat) : Nat := Pieces.position s.pieces n

/-- No byte is lost, repeated or out of place on either side. -/
structure InOrder (peer : List (BitVec 8)) (s : TcpLink) : Prop where
  received : s.accepted <+: peer
  sent : s.peerGot.filterMap Item.data <+: s.sent

/-! Segments in a row. -/

variable {iss irs n n' k : Nat} {peer bytes data : List (BitVec 8)} {s t : TcpLink}
  {c c' : TcpConn} {seg : TcpSegment} {segs segs' : List TcpSegment} {event : LinkEvent}
  {flags : BitVec 8} {got : List Item}

/-- Each segment begins with the number behind the one before. -/
def Chained : (n : Nat) → List TcpSegment → (n' : Nat) → Prop
  | n, [], n' => n' = n
  | n, seg :: segs, n' => seg.seq = n ∧ Chained (u32 (n + seg.items.length)) segs n'

theorem Chained.append (h : Chained n segs n') {n'' : Nat} (h' : Chained n' segs' n'') :
    Chained n (segs ++ segs') n'' := by
  induction segs generalizing n with
  | nil =>
    cases h
    exact h'
  | cons seg segs ih => exact ⟨h.1, ih h.2⟩

theorem u32_add_u32 (a b : Nat) : u32 (u32 a + b) = u32 (a + b) := Nat.mod_add_mod a (2 ^ 32) b

/-- The numbers of segments in a row are their positions. -/
theorem Chained.seq (h : Chained n segs n') (hn : n < 2 ^ 32) {i : Nat} (hi : segs[i]? = some seg) :
    seg.seq = u32 (n + Pieces.position (segs.map TcpSegment.items) i) := by
  induction segs generalizing n i with
  | nil => cases hi
  | cons head segs ih =>
    cases i with
    | zero =>
      cases hi
      exact h.1.trans (Mm.u32_of_lt hn).symm
    | succ i =>
      rw [ih h.2 Mm.u32_lt hi, u32_add_u32]
      unfold Pieces.position
      rw [List.map_cons, List.take_succ_cons, List.flatten_cons, List.length_append, Nat.add_assoc]

theorem Chained.last (h : Chained n segs n') (hn : n < 2 ^ 32) :
    n' = u32 (n + (segs.map TcpSegment.items).flatten.length) := by
  induction segs generalizing n with
  | nil =>
    cases h
    exact (Mm.u32_of_lt hn).symm
  | cons head segs ih =>
    rw [ih h.2 Mm.u32_lt, u32_add_u32, List.map_cons, List.flatten_cons, List.length_append,
      Nat.add_assoc]

theorem chained_one (hseq : seg.seq = n) (hlast : n' = u32 (n + seg.items.length)) :
    Chained n [seg] n' := ⟨hseq, hlast⟩

/-! What the functions send is in a row, and `snd_nxt` is behind it. -/

theorem items_segmentFrom : (segmentFrom c flags data).items =
    (if flags &&& tcpSyn ≠ 0 then [.syn] else []) ++ data.map .byte ++
      if flags &&& tcpFin ≠ 0 then [.fin] else [] := rfl

theorem items_ack : (segmentFrom c tcpAck []).items = [] := by
  rw [items_segmentFrom]
  decide

theorem items_finAck : (segmentFrom c (tcpFin ||| tcpAck) []).items = [.fin] := by
  rw [items_segmentFrom]
  decide

theorem items_syn : (segmentFrom c tcpSyn []).items = [.syn] := by
  rw [items_segmentFrom]
  decide

theorem items_data : (segmentFrom c (tcpAck ||| tcpPsh) data).items = data.map .byte := by
  have hsyn : (tcpAck ||| tcpPsh) &&& tcpSyn = 0 := by decide
  have hfin : (tcpAck ||| tcpPsh) &&& tcpFin = 0 := by decide
  rw [items_segmentFrom, hsyn, hfin]
  exact List.append_nil _

/-- A segment that only acknowledges has no number of its own. -/
theorem chained_ack (hn : c.sndNxt < 2 ^ 32) (hseq : c.sndNxt = n) :
    Chained n [segmentFrom c tcpAck []] n := by
  refine chained_one hseq ?_
  rw [items_ack, ← hseq]
  exact (Mm.u32_of_lt hn).symm

theorem tcpSendSegment_ack : tcpSendSegment c tcpAck = c := by
  have hsyn : tcpAck &&& tcpSyn = 0 := by decide
  have hfin : tcpAck &&& tcpFin = 0 := by decide
  unfold tcpSendSegment
  rw [hsyn, hfin]
  rfl

theorem sndNxt_finAck : (tcpSendSegment c (tcpFin ||| tcpAck)).sndNxt = u32 (c.sndNxt + 1) := by
  have hsyn : (tcpFin ||| tcpAck) &&& tcpSyn = 0 := by decide
  have hfin : (tcpFin ||| tcpAck) &&& tcpFin ≠ 0 := by decide
  unfold tcpSendSegment
  rw [hsyn, if_pos hfin]
  rfl

/-- A `FIN` takes one number. -/
theorem chained_finAck (hseq : c.sndNxt = n) : Chained n [segmentFrom c (tcpFin ||| tcpAck) []]
    (tcpSendSegment c (tcpFin ||| tcpAck)).sndNxt := by
  refine chained_one hseq ?_
  rw [items_finAck, sndNxt_finAck, hseq]
  rfl

theorem chained_connect : Chained iss (tcpConnectSends c iss) (tcpConnect c iss).sndNxt := by
  refine chained_one rfl ?_
  rw [items_syn]
  rfl

theorem chained_round :
    Chained c.sndNxt (tcpRoundSends c data) (tcpSendData c data.length).sndNxt := by
  unfold tcpRoundSends tcpSendData
  by_cases hnone : data.length = 0
  · rw [if_pos hnone, if_neg (not_not_intro hnone)]
    rfl
  · rw [if_neg hnone, if_pos hnone]
    refine chained_one rfl ?_
    rw [items_data, List.length_map]

theorem chained_close :
    Chained c.sndNxt (tcpCloseSends c) (tcpClose c).sndNxt := by
  unfold tcpCloseSends tcpClose
  by_cases hused : c.used
  · rw [if_neg (not_not_intro hused)]
    by_cases hopen : c.state = .established ∨ c.state = .closeWait
    · rw [if_pos ⟨hused, hopen⟩, if_pos hopen]
      exact chained_finAck rfl
    · rw [if_neg fun h => hopen h.2, if_neg hopen]
      rfl
  · rw [if_pos hused, if_neg fun h => hused h.1]
    rfl

theorem sndNxt_deliverData (hrcv : c.rcvNxt < 2 ^ 32) : (deliverData c seg).sndNxt = c.sndNxt :=
  congrArg TcpNumbers.sndNxt (numbers_deliverData hrcv)

theorem chained_receiveEstablished (hn : c.sndNxt < 2 ^ 32) (hrcv : c.rcvNxt < 2 ^ 32) :
    Chained c.sndNxt (receiveEstablishedSends c seg) (receiveEstablished c seg).sndNxt := by
  unfold receiveEstablishedSends receiveEstablished
  dsimp only
  generalize hacked : (if seg.flags &&& tcpAck ≠ 0 then { c with sndUna := seg.ack } else c) = acked
  have hsame : acked.sndNxt = c.sndNxt ∧ acked.rcvNxt = c.rcvNxt := by
    subst hacked
    split <;> exact ⟨rfl, rfl⟩
  have hdelivered : (deliverData acked seg).sndNxt = c.sndNxt :=
    (sndNxt_deliverData (hsame.2 ▸ hrcv)).trans hsame.1
  generalize deliverData acked seg = delivered at *
  have hack : ∀ waiting : TcpConn, waiting.sndNxt = c.sndNxt →
      Chained c.sndNxt [segmentFrom waiting tcpAck []] c.sndNxt := by
    intro waiting hwaiting
    exact chained_ack (hwaiting ▸ hn) hwaiting
  have hdata : Chained c.sndNxt
      (if seg.data.length ≠ 0 ∧ seg.seq = acked.rcvNxt then [segmentFrom delivered tcpAck []]
        else []) c.sndNxt := by
    split
    · exact hack _ hdelivered
    · rfl
  refine hdata.append ?_
  split
  · rw [tcpSendSegment_ack]
    exact (hack _ hdelivered).append (chained_finAck hdelivered)
  · exact hdelivered

/-- What `tcp_receive` sends continues the numbers. -/
theorem chained_receive (hn : c.sndNxt < 2 ^ 32) (hrcv : c.rcvNxt < 2 ^ 32) :
    Chained c.sndNxt (tcpReceiveSends c seg) (tcpReceive c seg).sndNxt := by
  unfold tcpReceiveSends tcpReceive
  by_cases hused : c.used
  · rw [if_neg (not_not_intro hused), if_neg (not_not_intro hused)]
    dsimp only
    cases hstate : c.state with
    | synSent =>
      dsimp only
      split
      · exact chained_ack hn rfl
      · rfl
    | established =>
      exact @chained_receiveEstablished { c with sndWnd := seg.window, state := .established } seg
        hn hrcv
    | lastAck =>
      dsimp only
      split <;> rfl
    | finWait1 =>
      dsimp only
      split <;> rfl
    | finWait2 =>
      dsimp only
      split
      · exact chained_ack hn rfl
      · rfl
    | closed => rfl
    | listen => rfl
    | synReceived => rfl
    | closeWait => rfl
    | closing => rfl
    | timeWait => rfl
  · rw [if_pos hused, if_pos hused]
    rfl

end PinguinOS.Net
