import PinguinOS.Net.TcpSequence

/-! `snd_una`, `snd_nxt` and the window of the peer. -/
namespace PinguinOS.Net

open Mm (u32 sub32)

/-- The bytes of one round of `tcp_send`. -/
def sendChunk (c : TcpConn) (left : Nat) : Nat :=
  let chunk := if left > tcpMss then tcpMss else left
  if chunk > c.sndWnd then c.sndWnd else chunk

/-- What sending a segment with `len` bytes of data changes. -/
def tcpSendData (c : TcpConn) (len : Nat) : TcpConn :=
  if len ≠ 0 then { c with sndNxt := u32 (c.sndNxt + len) } else c

/-- A call of `tcp_connect`, the end of its wait without an answer, a call of `tcp_send`, a round
of one of the calls that are under way, or a segment. -/
inductive SenderEvent
  | connect (iss : Nat)
  | deadline
  | send (len : Nat)
  | round (call : Nat)
  | segment (seg : TcpSegment)

/-- The values have the sizes that they have in the code. -/
def SenderEvent.Wf : SenderEvent → Prop
  | .connect iss => iss < 2 ^ 32
  | .segment seg => seg.Wf
  | _ => True

/-- A connection; the bytes that each call of `tcp_send` has left; and how far `snd_nxt` and
`snd_una` have gone on from `iss`. -/
structure SendLog where
  conn : TcpConn
  calls : List Nat
  sent : Nat
  acked : Nat

/-- The connection has changed, other than by `tcp_connect`. -/
def SendLog.moved (s : SendLog) (c : TcpConn) : SendLog :=
  { s with
    conn := c
    sent := s.sent + sub32 c.sndNxt s.conn.sndNxt
    acked := s.acked + sub32 c.sndUna s.conn.sndUna }

/-- `tcp_connect` -/
def SendLog.connect (s : SendLog) (iss : Nat) : SendLog :=
  if s.conn.used then ⟨tcpConnect s.conn iss, s.calls, 1, 0⟩ else s

/-- `tcp_send` up to its loop -/
def SendLog.send (s : SendLog) (len : Nat) : SendLog :=
  if s.conn.used ∧ s.conn.state = .established then { s with calls := s.calls ++ [len] } else s

def senderStep (s : SendLog) : SenderEvent → Option SendLog
  | .connect iss => some (s.connect iss)
  | .deadline => some (s.moved { s.conn with state := .closed })
  | .send len => some (s.send len)
  | .round call => do
    let left ← s.calls[call]?
    let chunk := sendChunk s.conn left
    some { s.moved (tcpSendData s.conn chunk) with calls := s.calls.set call (left - chunk) }
  | .segment seg => some (s.moved (tcpReceive s.conn seg))

def senderStart : SendLog := ⟨tcpSocket, [], 0, 0⟩

/-- The `ACK` of the segment is for something that was sent and is not acknowledged yet. -/
def Acks (c : TcpConn) (seg : TcpSegment) : Prop :=
  0 < sub32 seg.ack c.sndUna ∧ sub32 seg.ack c.sndUna ≤ sub32 c.sndNxt c.sndUna

def TcpSegment.withoutAck (seg : TcpSegment) : TcpSegment :=
  { seg with flags := seg.flags &&& ~~~ tcpAck }

/-- `snd_una` goes on from `iss` and stays behind `snd_nxt`, an `ACK` for something else has no
effect, and the bytes on their way are within the window when some are sent. -/
structure SenderOk (s : SendLog) (event : SenderEvent) (t : SendLog) : Prop where
  una : t.conn.sndUna = u32 (t.conn.iss + t.acked)
  nxt : t.conn.sndNxt = u32 (t.conn.iss + t.sent)
  between : t.acked ≤ t.sent
  ignored : ∀ seg, event = .segment seg → seg.flags &&& tcpAck ≠ 0 → ¬ Acks s.conn seg →
    t.conn.sndUna = s.conn.sndUna ∧ t.conn.state = (tcpReceive s.conn seg.withoutAck).state
  window : ∀ call, event = .round call → t.conn.sndNxt ≠ s.conn.sndNxt →
    sub32 t.conn.sndNxt t.conn.sndUna ≤ s.conn.sndWnd

/-- An `ACK` that the code uses is for something on its way, and one that repeats the last is the
only other in an established connection. -/
structure AckUsed (c : TcpConn) (seg : TcpSegment) : Prop where
  synSent : c.state = .synSent → seg.flags &&& (tcpSyn ||| tcpAck) = tcpSyn ||| tcpAck → Acks c seg
  established : c.state = .established → seg.flags &&& tcpAck ≠ 0 →
    Acks c seg ∨ seg.ack = c.sndUna
  lastAck : c.state = .lastAck → seg.flags &&& tcpAck ≠ 0 → Acks c seg

/-- There is nothing to send, nothing on its way, or room for both. -/
def RoundFits (c : TcpConn) (left : Nat) : Prop :=
  left = 0 ∨ c.sndWnd = 0 ∨ c.sndNxt = c.sndUna ∨
    sub32 c.sndNxt c.sndUna + min left tcpMss ≤ c.sndWnd

def SenderCan (s : SendLog) (event : SenderEvent) (_ : SendLog) : Prop :=
  (∀ seg, event = .segment seg → s.conn.used → AckUsed s.conn seg) ∧
    ∀ call left, event = .round call → s.calls[call]? = some left → RoundFits s.conn left

structure SendLog.Inv (s : SendLog) : Prop where
  una : s.conn.sndUna = u32 (s.conn.iss + s.acked)
  nxt : s.conn.sndNxt = u32 (s.conn.iss + s.sent)
  between : s.acked ≤ s.sent
  inFlight : s.sent ≤ s.acked + 65536
  open_ : s.conn.state = .established ∨ s.conn.state = .synSent → s.sent ≤ s.acked + 65535
  wnd : s.conn.sndWnd < 2 ^ 16
  rcv : s.conn.rcvNxt < 2 ^ 32
  states : s.conn.state = .closed ∨ s.conn.state = .synSent ∨ s.conn.state = .established ∨
    s.conn.state = .lastAck

variable {s t : SendLog} {seg : TcpSegment} {event : SenderEvent} {iss left n : Nat}
  {c : TcpConn} {q : TcpNumbers}

theorem senderStart_inv : senderStart.Inv := by
  constructor
  case una => rfl
  case nxt => rfl
  case between => exact Nat.le_refl _
  case inFlight => exact Nat.zero_le _
  case open_ => exact fun _ => Nat.zero_le _
  case wnd => exact (by decide : 0 < 2 ^ 16)
  case rcv => exact (by decide : 0 < 2 ^ 32)
  case states => exact .inl rfl

theorem sub32_self (n : Nat) : sub32 n n = 0 := by
  unfold sub32 u32
  omega

theorem SendLog.Inv.inFlight_eq (hs : s.Inv) :
    sub32 s.conn.sndNxt s.conn.sndUna = s.sent - s.acked := by
  have hbetween := hs.between
  have hfew := hs.inFlight
  rw [hs.nxt, hs.una]
  unfold sub32 u32
  omega

/-- The two sides of a segment or a call that does nothing to what is acknowledged. -/
theorem SenderOk.of_inv (ht : t.Inv)
    (hseg : ∀ seg, event = .segment seg → seg.flags &&& tcpAck ≠ 0 → ¬ Acks s.conn seg →
      t.conn.sndUna = s.conn.sndUna ∧ t.conn.state = (tcpReceive s.conn seg.withoutAck).state)
    (hround : ∀ call, event = .round call → t.conn.sndNxt ≠ s.conn.sndNxt →
      sub32 t.conn.sndNxt t.conn.sndUna ≤ s.conn.sndWnd) : SenderOk s event t where
  una := ht.una
  nxt := ht.nxt
  between := ht.between
  ignored := hseg
  window := hround

/-! Calls. -/

theorem connect_inv (hs : s.Inv) (hiss : iss < 2 ^ 32) : (s.connect iss).Inv := by
  unfold SendLog.connect
  split
  case isTrue =>
    constructor
    case una => exact (Mm.u32_of_lt hiss).symm
    case nxt => rfl
    case between => exact Nat.zero_le _
    case inFlight => exact (by decide : 1 ≤ 0 + 65536)
    case open_ => exact fun _ => (by decide : 1 ≤ 0 + 65535)
    case wnd => exact hs.wnd
    case rcv => exact hs.rcv
    case states => exact .inr (.inl rfl)
  case isFalse => exact hs

theorem deadline_inv (hs : s.Inv) : (s.moved { s.conn with state := .closed }).Inv := by
  have hsent : (s.moved { s.conn with state := .closed }).sent = s.sent := by
    unfold SendLog.moved
    exact congrArg (s.sent + ·) (sub32_self _)
  have hacked : (s.moved { s.conn with state := .closed }).acked = s.acked := by
    unfold SendLog.moved
    exact congrArg (s.acked + ·) (sub32_self _)
  constructor
  case una => exact hacked ▸ hs.una
  case nxt => exact hsent ▸ hs.nxt
  case between =>
    rw [hsent, hacked]
    exact hs.between
  case inFlight =>
    rw [hsent, hacked]
    exact hs.inFlight
  case open_ => exact fun hopen => hopen.elim (fun h => nomatch h) (fun h => nomatch h)
  case wnd => exact hs.wnd
  case rcv => exact hs.rcv
  case states => exact .inl rfl

theorem send_inv (hs : s.Inv) : (s.send n).Inv := by
  unfold SendLog.send
  split
  case isTrue =>
    exact ⟨hs.una, hs.nxt, hs.between, hs.inFlight, hs.open_, hs.wnd, hs.rcv, hs.states⟩
  case isFalse => exact hs

/-! One round of `tcp_send`. -/

theorem sendChunk_eq : sendChunk c left = min (min left tcpMss) c.sndWnd := by
  unfold sendChunk
  dsimp only
  split <;> split <;> omega

/-- The log after a round. -/
def SendLog.round (s : SendLog) (call left : Nat) : SendLog :=
  { s.moved (tcpSendData s.conn (sendChunk s.conn left)) with
    calls := s.calls.set call (left - sendChunk s.conn left) }

theorem tcpSendData_eq (hnxt : c.sndNxt < 2 ^ 32) :
    tcpSendData c n = { c with sndNxt := u32 (c.sndNxt + n) } := by
  unfold tcpSendData
  split
  case isTrue => rfl
  case isFalse hnone =>
    have hzero : n = 0 := not_not.mp hnone
    rw [hzero, Nat.add_zero, Mm.u32_of_lt hnxt]

theorem sendChunk_le : sendChunk c left ≤ tcpMss := by
  rw [sendChunk_eq]
  omega

/-- A round moves `snd_nxt` on by its bytes, and changes nothing else. -/
theorem round_eq (hs : s.Inv) {call : Nat} : s.round call left =
    { s with
      conn := { s.conn with sndNxt := u32 (s.conn.iss + (s.sent + sendChunk s.conn left)) }
      calls := s.calls.set call (left - sendChunk s.conn left)
      sent := s.sent + sendChunk s.conn left } := by
  have hfew := @sendChunk_le left s.conn
  have hnxt := hs.nxt
  have hlt : s.conn.sndNxt < 2 ^ 32 := hnxt ▸ Mm.u32_lt
  have hnew : u32 (s.conn.sndNxt + sendChunk s.conn left) =
      u32 (s.conn.iss + (s.sent + sendChunk s.conn left)) := by
    rw [hnxt]
    unfold u32
    omega
  have hmoved : sub32 (u32 (s.conn.sndNxt + sendChunk s.conn left)) s.conn.sndNxt =
      sendChunk s.conn left := by
    unfold tcpMss at hfew
    unfold sub32 u32
    omega
  unfold SendLog.round SendLog.moved
  rw [tcpSendData_eq hlt]
  dsimp only
  rw [hmoved, sub32_self, hnew, Nat.add_zero]

/-- Room for a round, in terms of what is on its way. -/
theorem SendLog.Inv.roundFits_iff (hs : s.Inv) : RoundFits s.conn left ↔
    sendChunk s.conn left = 0 ∨ s.sent - s.acked + sendChunk s.conn left ≤ s.conn.sndWnd := by
  have hbetween := hs.between
  have hfew := hs.inFlight
  have hsame : s.conn.sndNxt = s.conn.sndUna ↔ s.sent - s.acked = 0 := by
    rw [hs.nxt, hs.una]
    unfold u32
    omega
  unfold RoundFits
  rw [hsame, hs.inFlight_eq, sendChunk_eq]
  unfold tcpMss
  omega

theorem round_inv (hs : s.Inv) {call : Nat} (hfits : RoundFits s.conn left) :
    (s.round call left).Inv := by
  have hbetween := hs.between
  have hfew := hs.inFlight
  have hwnd := hs.wnd
  have hroom := hs.roundFits_iff.mp hfits
  rw [round_eq hs]
  constructor
  case una => exact hs.una
  case nxt => rfl
  case between =>
    dsimp only
    omega
  case inFlight =>
    dsimp only
    omega
  case open_ =>
    intro hopen
    have hmost := hs.open_ hopen
    dsimp only
    omega
  case wnd => exact hs.wnd
  case rcv => exact hs.rcv
  case states => exact hs.states

theorem round_ok_iff (hs : s.Inv) {call : Nat} :
    SenderOk s (.round call) (s.round call left) ↔ RoundFits s.conn left := by
  have hbetween := hs.between
  have hfew := hs.inFlight
  have hchunk := @sendChunk_le left s.conn
  have hway : sub32 (s.round call left).conn.sndNxt (s.round call left).conn.sndUna =
      s.sent - s.acked + sendChunk s.conn left := by
    rw [round_eq hs]
    dsimp only
    rw [hs.una]
    unfold tcpMss at hchunk
    unfold sub32 u32
    omega
  constructor
  · intro hok
    refine hs.roundFits_iff.mpr ?_
    by_cases hnone : sendChunk s.conn left = 0
    · exact .inl hnone
    · have hchanged : (s.round call left).conn.sndNxt ≠ s.conn.sndNxt := by
        rw [round_eq hs]
        dsimp only
        rw [hs.nxt]
        unfold tcpMss at hchunk
        unfold u32
        omega
      have hwindow := hok.window call rfl hchanged
      rw [hway] at hwindow
      exact .inr hwindow
  · intro hfits
    refine SenderOk.of_inv (round_inv hs hfits) (fun _ hcall => nomatch hcall) ?_
    intro _ _ hchanged
    rw [hway]
    rcases hs.roundFits_iff.mp hfits with hnone | hroom
    · refine absurd ?_ hchanged
      rw [round_eq hs]
      dsimp only
      rw [hnone, Nat.add_zero]
      exact hs.nxt.symm
    · exact hroom

/-! One segment. -/

/-- The numbers of a connection go on: `snd_una` within what is on its way, `snd_nxt` by a `FIN` at
most, which an established connection sends as its last. -/
theorem moved_inv (hs : s.Inv) {fin : Nat} (hq : c.numbers = q) (hiss : q.iss = s.conn.iss)
    (huna : q.sndUna < 2 ^ 32)
    (hmove : sub32 q.sndUna s.conn.sndUna ≤ sub32 s.conn.sndNxt s.conn.sndUna)
    (hnxt : q.sndNxt = u32 (s.conn.sndNxt + fin))
    (hfin : fin = 0 ∨ fin = 1 ∧ s.conn.state = .established)
    (hopen : q.state = .established ∨ q.state = .synSent →
      fin = 0 ∧ (s.conn.state = .established ∨ s.conn.state = .synSent))
    (hwnd : q.sndWnd < 2 ^ 16) (hrcv : q.rcvNxt < 2 ^ 32)
    (hstates : q.state = .closed ∨ q.state = .synSent ∨ q.state = .established ∨
      q.state = .lastAck) : (s.moved c).Inv := by
  subst hq
  unfold TcpConn.numbers at hiss huna hmove hnxt
  dsimp only at hiss huna hmove hnxt
  have hbetween := hs.between
  have hfew := hs.inFlight
  have hfin' : fin = 0 ∨ fin = 1 ∧ s.sent ≤ s.acked + 65535 := by
    rcases hfin with hnone | ⟨hone, hstate⟩
    · exact .inl hnone
    · exact .inr ⟨hone, hs.open_ (.inl hstate)⟩
  have hsent : sub32 c.sndNxt s.conn.sndNxt = fin := by
    rw [hnxt, hs.nxt]
    unfold sub32 u32
    omega
  rw [hs.inFlight_eq] at hmove
  unfold SendLog.moved
  constructor
  case una =>
    dsimp only
    rw [hiss, hs.una]
    unfold sub32 u32
    omega
  case nxt =>
    dsimp only
    rw [hsent, hnxt, hiss, hs.nxt]
    unfold u32
    omega
  case between =>
    dsimp only
    omega
  case inFlight =>
    dsimp only
    omega
  case open_ =>
    intro hstate
    obtain ⟨hnone, hbefore⟩ := hopen hstate
    have hmost := hs.open_ hbefore
    dsimp only
    omega
  case wnd => exact hwnd
  case rcv => exact hrcv
  case states => exact hstates

theorem SendLog.Inv.nxt_stays (hs : s.Inv) : s.conn.sndNxt = u32 (s.conn.sndNxt + 0) := by
  rw [Nat.add_zero, hs.nxt, Mm.u32_of_lt Mm.u32_lt]

/-- The same when both stay where they are. -/
theorem still_inv (hs : s.Inv) (hq : c.numbers = q) (hiss : q.iss = s.conn.iss)
    (huna : q.sndUna = s.conn.sndUna) (hnxt : q.sndNxt = s.conn.sndNxt)
    (hopen : q.state = .established ∨ q.state = .synSent →
      s.conn.state = .established ∨ s.conn.state = .synSent)
    (hwnd : q.sndWnd < 2 ^ 16) (hrcv : q.rcvNxt < 2 ^ 32)
    (hstates : q.state = .closed ∨ q.state = .synSent ∨ q.state = .established ∨
      q.state = .lastAck) : (s.moved c).Inv := by
  refine @moved_inv s c q hs 0 hq hiss ?_ ?_ ?_ (.inl rfl) (fun h => ⟨rfl, hopen h⟩) hwnd hrcv
    hstates
  · rw [huna, hs.una]
    exact Mm.u32_lt
  · rw [huna, sub32_self]
    exact Nat.zero_le _
  · rw [hnxt]
    exact hs.nxt_stays

theorem withoutAck_ack : seg.withoutAck.flags &&& tcpAck = 0 := by
  have hnone : ~~~ tcpAck &&& tcpAck = 0#8 := by decide
  calc seg.flags &&& ~~~ tcpAck &&& tcpAck
      = seg.flags &&& (~~~ tcpAck &&& tcpAck) := BitVec.and_assoc _ _ _
    _ = seg.flags &&& 0#8 := by rw [hnone]
    _ = 0 := BitVec.and_zero

theorem withoutAck_fin : seg.withoutAck.flags &&& tcpFin = seg.flags &&& tcpFin := by
  have hall : ~~~ tcpAck &&& tcpFin = tcpFin := by decide
  calc seg.flags &&& ~~~ tcpAck &&& tcpFin
      = seg.flags &&& (~~~ tcpAck &&& tcpFin) := BitVec.and_assoc _ _ _
    _ = seg.flags &&& tcpFin := by rw [hall]

/-- Both flags are there, and so the `ACK` is. -/
theorem ack_of_synAck (h : seg.flags &&& (tcpSyn ||| tcpAck) = tcpSyn ||| tcpAck) :
    seg.flags &&& tcpAck ≠ 0 := by
  have hpart : (tcpSyn ||| tcpAck) &&& tcpAck = tcpAck := by decide
  have hack : seg.flags &&& tcpAck = tcpAck := by
    calc seg.flags &&& tcpAck
        = seg.flags &&& ((tcpSyn ||| tcpAck) &&& tcpAck) := by rw [hpart]
      _ = seg.flags &&& (tcpSyn ||| tcpAck) &&& tcpAck := (BitVec.and_assoc _ _ _).symm
      _ = tcpAck := by rw [h, hpart]
  rw [hack]
  decide

/-- The numbers after a segment, and after the same one without its `ACK`. -/
theorem SendLog.Inv.receive (hs : s.Inv) : (tcpReceive s.conn seg).numbers =
    s.conn.numbers.receive seg (newBytes s.conn seg).length := numbers_tcpReceive hs.rcv

theorem SendLog.Inv.receive_withoutAck (hs : s.Inv) :
    (tcpReceive s.conn seg.withoutAck).numbers =
      s.conn.numbers.receive seg.withoutAck (newBytes s.conn seg).length :=
  numbers_tcpReceive hs.rcv

/-- A segment that at most gives a window. -/
theorem quiet_inv (hs : s.Inv) (hwf : seg.Wf) (hnumbers : (tcpReceive s.conn seg).numbers =
      { s.conn.numbers with sndWnd := seg.window }) : (s.moved (tcpReceive s.conn seg)).Inv :=
  still_inv hs hnumbers rfl rfl rfl id hwf.window hs.rcv hs.states

/-- An `ACK` for something that is not on its way has no effect. -/
def AckIgnored (s : SendLog) (seg : TcpSegment) : Prop :=
  seg.flags &&& tcpAck ≠ 0 → ¬ Acks s.conn seg →
    (tcpReceive s.conn seg).sndUna = s.conn.sndUna ∧
      (tcpReceive s.conn seg).state = (tcpReceive s.conn seg.withoutAck).state

theorem AckUsed.of_synSent (hstate : c.state = .synSent)
    (h : seg.flags &&& (tcpSyn ||| tcpAck) = tcpSyn ||| tcpAck → Acks c seg) : AckUsed c seg := by
  constructor
  case synSent => exact fun _ => h
  case established => exact fun hother => nomatch hstate.symm.trans hother
  case lastAck => exact fun hother => nomatch hstate.symm.trans hother

theorem AckUsed.of_established (hstate : c.state = .established)
    (h : seg.flags &&& tcpAck ≠ 0 → Acks c seg ∨ seg.ack = c.sndUna) : AckUsed c seg := by
  constructor
  case synSent => exact fun hother => nomatch hstate.symm.trans hother
  case established => exact fun _ => h
  case lastAck => exact fun hother => nomatch hstate.symm.trans hother

theorem AckUsed.of_lastAck (hstate : c.state = .lastAck)
    (h : seg.flags &&& tcpAck ≠ 0 → Acks c seg) : AckUsed c seg := by
  constructor
  case synSent => exact fun hother => nomatch hstate.symm.trans hother
  case established => exact fun hother => nomatch hstate.symm.trans hother
  case lastAck => exact fun _ => h

theorem AckUsed.of_closed (hstate : c.state = .closed) : AckUsed c seg := by
  constructor
  case synSent => exact fun hother => nomatch hstate.symm.trans hother
  case established => exact fun hother => nomatch hstate.symm.trans hother
  case lastAck => exact fun hother => nomatch hstate.symm.trans hother

/-- The answer to the `SYN` has to acknowledge it. -/
theorem segment_synSent (hs : s.Inv) (hwf : seg.Wf) (hused : s.conn.used)
    (hstate : s.conn.state = .synSent) :
    (AckIgnored s seg ↔ AckUsed s.conn seg) ∧
      (AckUsed s.conn seg → (s.moved (tcpReceive s.conn seg)).Inv) := by
  have hnumbers := @SendLog.Inv.receive s seg hs
  have hwithout := @SendLog.Inv.receive_withoutAck s seg hs
  rw [TcpNumbers.receive_synSent hused hstate] at hnumbers hwithout
  have hno : seg.withoutAck.flags &&& (tcpSyn ||| tcpAck) ≠ tcpSyn ||| tcpAck :=
    fun h => ack_of_synAck h withoutAck_ack
  rw [if_neg hno] at hwithout
  have hstays : (tcpReceive s.conn seg.withoutAck).state = .synSent :=
    (congrArg TcpNumbers.state hwithout).trans hstate
  by_cases hboth : seg.flags &&& (tcpSyn ||| tcpAck) = tcpSyn ||| tcpAck
  · rw [if_pos hboth] at hnumbers
    have hopened : (tcpReceive s.conn seg).state = .established :=
      congrArg TcpNumbers.state hnumbers
    constructor
    · constructor
      · intro hignored
        have hacks : Acks s.conn seg := by
          by_contra hnone
          have hsame := (hignored (ack_of_synAck hboth) hnone).2
          rw [hopened, hstays] at hsame
          cases hsame
        exact AckUsed.of_synSent hstate fun _ => hacks
      · intro hack _ hnone
        exact absurd (hack.synSent hstate hboth) hnone
    · intro hack
      have hacks : Acks s.conn seg := hack.synSent hstate hboth
      exact @moved_inv s _ _ hs 0 hnumbers rfl hwf.ack hacks.2 hs.nxt_stays (.inl rfl)
        (fun _ => ⟨rfl, .inr hstate⟩) hwf.window Mm.u32_lt (.inr (.inr (.inl rfl)))
  · rw [if_neg hboth] at hnumbers
    have huna : (tcpReceive s.conn seg).sndUna = s.conn.sndUna :=
      congrArg TcpNumbers.sndUna hnumbers
    have hsame : (tcpReceive s.conn seg).state = .synSent :=
      (congrArg TcpNumbers.state hnumbers).trans hstate
    refine ⟨iff_of_true ?_ ?_, fun _ => quiet_inv hs hwf hnumbers⟩
    · exact fun _ _ => ⟨huna, hsame.trans hstays.symm⟩
    · exact AckUsed.of_synSent hstate fun h => absurd h hboth

/-- The `ACK` that closes the connection has to acknowledge something. -/
theorem segment_lastAck (hs : s.Inv) (hwf : seg.Wf) (hused : s.conn.used)
    (hstate : s.conn.state = .lastAck) :
    (AckIgnored s seg ↔ AckUsed s.conn seg) ∧ (s.moved (tcpReceive s.conn seg)).Inv := by
  have hnumbers := @SendLog.Inv.receive s seg hs
  have hwithout := @SendLog.Inv.receive_withoutAck s seg hs
  rw [TcpNumbers.receive_lastAck hused hstate] at hnumbers hwithout
  rw [if_neg (not_not_intro withoutAck_ack)] at hwithout
  have hstays : (tcpReceive s.conn seg.withoutAck).state = .lastAck :=
    (congrArg TcpNumbers.state hwithout).trans hstate
  by_cases hflag : seg.flags &&& tcpAck ≠ 0
  · rw [if_pos hflag] at hnumbers
    have hclosed : (tcpReceive s.conn seg).state = .closed := congrArg TcpNumbers.state hnumbers
    constructor
    · constructor
      · intro hignored
        have hacks : Acks s.conn seg := by
          by_contra hnone
          have hsame := (hignored hflag hnone).2
          rw [hclosed, hstays] at hsame
          cases hsame
        exact AckUsed.of_lastAck hstate fun _ => hacks
      · intro hack _ hnone
        exact absurd (hack.lastAck hstate hflag) hnone
    · refine still_inv hs hnumbers rfl rfl rfl ?_ hwf.window hs.rcv (.inl rfl)
      rintro (hopen | hopen)
      · cases hopen
      · cases hopen
  · rw [if_neg hflag] at hnumbers
    refine ⟨iff_of_true (fun h => absurd h hflag) ?_, quiet_inv hs hwf hnumbers⟩
    exact AckUsed.of_lastAck hstate fun h => absurd h hflag

/-- An `ACK` of an established connection is stored as it is; a `FIN` is answered by another. -/
theorem segment_established (hs : s.Inv) (hwf : seg.Wf) (hused : s.conn.used)
    (hstate : s.conn.state = .established) :
    (AckIgnored s seg ↔ AckUsed s.conn seg) ∧
      (AckUsed s.conn seg → (s.moved (tcpReceive s.conn seg)).Inv) := by
  have hnumbers := @SendLog.Inv.receive s seg hs
  have hwithout := @SendLog.Inv.receive_withoutAck s seg hs
  rw [TcpNumbers.receive_established hused hstate] at hnumbers hwithout
  dsimp only at hnumbers hwithout
  rw [withoutAck_fin] at hwithout
  have huna : (tcpReceive s.conn seg).sndUna =
      if seg.flags &&& tcpAck ≠ 0 then seg.ack else s.conn.sndUna := by
    refine (congrArg TcpNumbers.sndUna hnumbers).trans ?_
    split <;> rfl
  have hsame : (tcpReceive s.conn seg).state = (tcpReceive s.conn seg.withoutAck).state := by
    refine (congrArg TcpNumbers.state hnumbers).trans
      (.trans ?_ (congrArg TcpNumbers.state hwithout).symm)
    split <;> rfl
  constructor
  · constructor
    · intro hignored
      refine AckUsed.of_established hstate fun hflag => ?_
      by_cases hacks : Acks s.conn seg
      · exact .inl hacks
      · have hkept := (hignored hflag hacks).1
        rw [huna, if_pos hflag] at hkept
        exact .inr hkept
    · intro hack hflag hnone
      rcases hack.established hstate hflag with hacks | hagain
      · exact absurd hacks hnone
      · rw [huna, if_pos hflag]
        exact ⟨hagain, hsame⟩
  · intro hack
    have hbound : (if seg.flags &&& tcpAck ≠ 0 then seg.ack else s.conn.sndUna) < 2 ^ 32 := by
      split
      · exact hwf.ack
      · exact hs.una ▸ Mm.u32_lt
    have hmove : sub32 (if seg.flags &&& tcpAck ≠ 0 then seg.ack else s.conn.sndUna)
        s.conn.sndUna ≤ sub32 s.conn.sndNxt s.conn.sndUna := by
      split
      case isTrue hflag =>
        rcases hack.established hstate hflag with hacks | hagain
        · exact hacks.2
        · rw [hagain, sub32_self]
          exact Nat.zero_le _
      case isFalse =>
        rw [sub32_self]
        exact Nat.zero_le _
    by_cases hfin : seg.flags &&& tcpFin ≠ 0
    · rw [if_pos hfin] at hnumbers
      refine @moved_inv s _ _ hs 1 hnumbers rfl hbound hmove rfl (.inr ⟨rfl, hstate⟩) ?_
        hwf.window Mm.u32_lt (.inr (.inr (.inr rfl)))
      rintro (hopen | hopen)
      · cases hopen
      · cases hopen
    · rw [if_neg hfin] at hnumbers
      refine @moved_inv s _ _ hs 0 hnumbers rfl hbound hmove hs.nxt_stays (.inl rfl)
        (fun _ => ⟨rfl, .inl hstate⟩) hwf.window ?_ (.inr (.inr (.inl hstate)))
      dsimp only
      split
      · exact hs.rcv
      · exact Mm.u32_lt

/-- No other segment has an effect. -/
theorem segment_other (hs : s.Inv) (hwf : seg.Wf)
    (hidle : ¬ s.conn.used ∨ s.conn.state = .closed) :
    AckIgnored s seg ∧ (s.moved (tcpReceive s.conn seg)).Inv := by
  by_cases hused : s.conn.used
  · have hstate := hidle.resolve_left (not_not_intro hused)
    have hnumbers := @SendLog.Inv.receive s seg hs
    have hwithout := @SendLog.Inv.receive_withoutAck s seg hs
    rw [TcpNumbers.receive_closed hused hstate] at hnumbers hwithout
    refine ⟨fun _ _ => ⟨congrArg TcpNumbers.sndUna hnumbers, ?_⟩, quiet_inv hs hwf hnumbers⟩
    exact (congrArg TcpNumbers.state hnumbers).trans (congrArg TcpNumbers.state hwithout).symm
  · have hsame : tcpReceive s.conn seg = s.conn := if_pos hused
    have hsame' : tcpReceive s.conn seg.withoutAck = s.conn := if_pos hused
    refine ⟨fun _ _ => ?_, ?_⟩
    · rw [hsame, hsame']
      exact ⟨rfl, rfl⟩
    · rw [hsame]
      exact still_inv hs rfl rfl rfl rfl id hs.wnd hs.rcv hs.states

theorem segment_ok_iff (hs : s.Inv) (hwf : seg.Wf) :
    (AckIgnored s seg ↔ (s.conn.used → AckUsed s.conn seg)) ∧
      ((s.conn.used → AckUsed s.conn seg) → (s.moved (tcpReceive s.conn seg)).Inv) := by
  by_cases hused : s.conn.used
  · rw [forall_prop_of_true hused]
    rcases hs.states with hstate | hstate | hstate | hstate
    · obtain ⟨hignored, hinv⟩ := segment_other hs hwf (.inr hstate)
      exact ⟨iff_of_true hignored (AckUsed.of_closed hstate), fun _ => hinv⟩
    · exact segment_synSent hs hwf hused hstate
    · exact segment_established hs hwf hused hstate
    · obtain ⟨hiff, hinv⟩ := segment_lastAck hs hwf hused hstate
      exact ⟨hiff, fun _ => hinv⟩
  · obtain ⟨hignored, hinv⟩ := segment_other hs hwf (.inl hused)
    exact ⟨iff_of_true hignored fun h => absurd h hused, fun _ => hinv⟩

/-- In every run the sender keeps to its numbers and to the window, as long as the peer's `ACK`s do
and each round finds room. -/
theorem sender_window_iff (events : List SenderEvent) (hwf : ∀ event ∈ events, event.Wf) :
    Run.EveryStep senderStep SenderOk senderStart events ↔
      Run.EveryStep senderStep SenderCan senderStart events := by
  refine Run.everyStep_iff_of_forall (I := SendLog.Inv) hwf ?_ senderStart_inv
  intro s event t hevent hs hstep
  cases event with
  | connect iss =>
    cases hstep
    have hinv := connect_inv hs hevent
    refine ⟨iff_of_true (SenderOk.of_inv hinv ?_ ?_) ⟨?_, ?_⟩, fun _ => hinv⟩
    all_goals exact fun _ => nofun
  | deadline =>
    cases hstep
    have hinv := deadline_inv hs
    refine ⟨iff_of_true (SenderOk.of_inv hinv ?_ ?_) ⟨?_, ?_⟩, fun _ => hinv⟩
    all_goals exact fun _ => nofun
  | send len =>
    cases hstep
    have hinv := @send_inv s len hs
    refine ⟨iff_of_true (SenderOk.of_inv hinv ?_ ?_) ⟨?_, ?_⟩, fun _ => hinv⟩
    all_goals exact fun _ => nofun
  | round call =>
    obtain ⟨left, hleft, hround⟩ := Option.bind_eq_some_iff.mp hstep
    have ht : s.round call left = t := Option.some.inj hround
    rw [← ht]
    have hcan : SenderCan s (.round call) (s.round call left) ↔ RoundFits s.conn left := by
      constructor
      · exact fun hcan => hcan.2 call left rfl hleft
      · rintro hfits
        refine ⟨fun _ hcall => (nomatch hcall), ?_⟩
        rintro _ left' ⟨⟩ hleft'
        cases hleft.symm.trans hleft'
        exact hfits
    exact ⟨(round_ok_iff hs).trans hcan.symm, fun h => round_inv hs (hcan.mp h)⟩
  | segment seg =>
    cases hstep
    obtain ⟨hiff, hinv⟩ := segment_ok_iff hs hevent
    have hcan : SenderCan s (.segment seg) (s.moved (tcpReceive s.conn seg)) ↔
        (s.conn.used → AckUsed s.conn seg) := by
      constructor
      · exact fun hcan => hcan.1 seg rfl
      · intro hack
        refine ⟨?_, fun _ _ hcall => nomatch hcall⟩
        rintro _ ⟨⟩
        exact hack
    refine ⟨⟨fun hok => ?_, fun h => ?_⟩, fun h => hinv (hcan.mp h)⟩
    · exact hcan.mpr (hiff.mp (hok.ignored seg rfl))
    · refine SenderOk.of_inv (hinv (hcan.mp h)) ?_ fun _ hcall => nomatch hcall
      rintro _ ⟨⟩
      exact hiff.mpr (hcan.mp h)

theorem synAck_wf {seq ack window : Nat} (hseq : seq < 2 ^ 32) (hack : ack < 2 ^ 32)
    (hwindow : window < 2 ^ 16) : (synAck seq ack window).Wf := by
  constructor
  case seq => exact hseq
  case ack => exact hack
  case window => exact hwindow
  case length => exact (by decide : 0 < 2 ^ 32)

/-- 1000 bytes fit into a window of 1000. -/
theorem sender_window_iff_one : Run.EveryStep senderStep SenderOk senderStart
    [.connect 7, .segment (synAck 100 8 1000), .send 1000, .round 0] := by
  refine (sender_window_iff
    [.connect 7, .segment (synAck 100 8 1000), .send 1000, .round 0] ?_).mpr ?_
  · intro event hmem
    have hcases : event = .connect 7 ∨ event = .segment (synAck 100 8 1000) ∨
        event = .send 1000 ∨ event = .round 0 := by simpa using hmem
    rcases hcases with rfl | rfl | rfl | rfl
    · exact (by decide : 7 < 2 ^ 32)
    · exact synAck_wf (by decide) (by decide) (by decide)
    · trivial
    · trivial
  · rintro _ ⟨⟩
    refine ⟨⟨fun _ => nofun, fun _ _ => nofun⟩, ?_⟩
    rintro _ ⟨⟩
    refine ⟨⟨?_, fun _ _ => nofun⟩, ?_⟩
    · rintro _ ⟨⟩ -
      exact AckUsed.of_synSent rfl fun _ => ⟨by decide, by decide⟩
    rintro _ ⟨⟩
    refine ⟨⟨fun _ => nofun, fun _ _ => nofun⟩, ?_⟩
    rintro _ ⟨⟩
    refine ⟨⟨fun _ => nofun, ?_⟩, trivial⟩
    rintro _ left ⟨⟩ hleft
    exact .inr (.inr (.inl rfl))

/-- A second round puts 2000 bytes on their way. -/
theorem not_sender_window_two : ¬ Run.EveryStep senderStep SenderOk senderStart
    [.connect 7, .segment (synAck 100 8 1000), .send 2000, .round 0, .round 0] := by
  intro h
  obtain ⟨before, hbefore⟩ : ∃ before, Run.run senderStep senderStart
      [.connect 7, .segment (synAck 100 8 1000), .send 2000, .round 0] = some before :=
    ⟨_, rfl⟩
  obtain ⟨after, hafter⟩ : ∃ after, senderStep before (.round 0) = some after := by
    cases hbefore
    exact ⟨_, rfl⟩
  have hok := h.last hbefore hafter
  cases hbefore
  cases hafter
  have hwindow := hok.window 0 rfl (by decide)
  revert hwindow
  decide

end PinguinOS.Net
