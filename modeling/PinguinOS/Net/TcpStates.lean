import PinguinOS.Net.TcpWindow
import Mathlib.Logic.Relation

/-! The states of a connection: what the code does to them, and the edges of RFC 793. -/
namespace PinguinOS.Net

open Mm (u32 sub32)

/-- The number behind the `FIN` that the connection has sent; whether it was acknowledged; whether
the peer's was seen; whether the connection has timed out. -/
structure FinMarks where
  sent : Option Nat
  acked : Bool
  peer : Bool
  timedOut : Bool

def FinMarks.clear : FinMarks := ⟨none, false, false, false⟩

/-- The connections, the waiting calls of `tcp_connect` for each, and the connection and the bytes
left for each call of `tcp_send`. -/
structure TcpSystem where
  conns : TcpTable
  marks : Nat → FinMarks
  waiting : Nat → Nat
  sends : List (Nat × Nat)

/-- A call, a round of a call that waits or sends, or a segment; `iface` is the address of what
`net_get_primary` returns. -/
inductive TcpSystemEvent
  | socket
  | connect (sock : Int) (iface : Option Ip4Addr) (remoteIp : Ip4Addr) (remotePort : BitVec 16)
      (rand iss : Nat)
  | poll (sock : Nat)
  | deadline (sock : Nat)
  | send (sock : Int) (len : Nat)
  | round (call : Nat)
  | recv (sock : Int) (len : Nat)
  | close (sock : Int)
  | segment (srcIp : Ip4Addr) (srcPort dstPort : BitVec 16) (seg : TcpSegment)

/-- The check of a socket that every call starts with. -/
def TcpTable.opened (conns : TcpTable) (sock : Int) : Option Nat :=
  if sock < 0 ∨ sock ≥ tcpMaxConns ∨ ¬ (conns sock.toNat).conn.used then none
  else some sock.toNat

/-- The `ACK` of the segment covers the `FIN`. -/
def AcksFin (c : TcpConn) (marks : FinMarks) (seg : TcpSegment) : Prop :=
  seg.flags &&& tcpAck ≠ 0 ∧ Acks c seg ∧
    ∃ last ∈ marks.sent, sub32 last c.sndUna ≤ sub32 seg.ack c.sndUna

instance {c : TcpConn} {seg : TcpSegment} : Decidable (Acks c seg) :=
  inferInstanceAs (Decidable (_ ∧ _))

instance {c : TcpConn} {marks : FinMarks} {seg : TcpSegment} : Decidable (AcksFin c marks seg) :=
  inferInstanceAs (Decidable (_ ∧ _ ∧ _))

/-- `tcp_close` sends a `FIN` in two of the states. -/
def FinMarks.close (marks : FinMarks) (c : TcpConn) : FinMarks :=
  if c.state = .established ∨ c.state = .closeWait then
    { marks with sent := some (u32 (c.sndNxt + 1)) }
  else marks

/-- `tcp_receive` sends one when it gets one. -/
def FinMarks.hear (marks : FinMarks) (c : TcpConn) (seg : TcpSegment) : FinMarks where
  sent := if c.state = .established ∧ seg.flags &&& tcpFin ≠ 0 then some (u32 (c.sndNxt + 1))
    else marks.sent
  acked := marks.acked || decide (AcksFin c marks seg)
  peer := marks.peer || decide (c.state ≠ .closed ∧ c.state ≠ .synSent ∧ seg.flags &&& tcpFin ≠ 0)
  timedOut := marks.timedOut

/-- A slot and its marks have changed. -/
def TcpSystem.put (s : TcpSystem) (i : Nat) (slot : TcpSlot) (marks : FinMarks) : TcpSystem :=
  { s with conns := Function.update s.conns i slot, marks := Function.update s.marks i marks }

/-- Another connection in the slot. -/
def TcpSystem.setConn (s : TcpSystem) (i : Nat) (c : TcpConn) : TcpSystem :=
  { s with conns := s.conns.setConn i c }

def tcpSystemStep (s : TcpSystem) : TcpSystemEvent → Option TcpSystem
  | .socket =>
    match s.conns.free with
    | some i => some { s with
        conns := (tcpOpen s.conns).2, marks := Function.update s.marks i .clear }
    | none => some s
  | .connect sock iface remoteIp remotePort rand iss =>
    match s.conns.opened sock, iface with
    | some i, some localIp =>
      let localPort := BitVec.ofNat 16 (49152 + rand % 16383)
      some { s.put i ⟨tcpConnect (s.conns i).conn iss, localIp, localPort, remoteIp, remotePort⟩
          .clear with waiting := Function.update s.waiting i (s.waiting i + 1) }
    | _, _ => some s
  | .poll i =>
    if s.waiting i = 0 then none
    else if (s.conns i).conn.state = .established ∨ (s.conns i).conn.state = .closed then
      some { s with waiting := Function.update s.waiting i (s.waiting i - 1) }
    else some s
  | .deadline i =>
    if s.waiting i = 0 then none
    else
      some { s.put i { s.conns i with conn := { (s.conns i).conn with state := .closed } }
          { s.marks i with timedOut := true } with
        waiting := Function.update s.waiting i (s.waiting i - 1) }
  | .send sock len =>
    match s.conns.opened sock with
    | some i =>
      if (s.conns i).conn.state = .established then some { s with sends := s.sends ++ [(i, len)] }
      else some s
    | none => some s
  | .round call => do
    let (i, left) ← s.sends[call]?
    let chunk := sendChunk (s.conns i).conn left
    some { s.setConn i (tcpSendData (s.conns i).conn chunk) with
      sends := s.sends.set call (i, left - chunk) }
  | .recv sock len =>
    match s.conns.opened sock with
    | some i => some (s.setConn i (tcpRecv (s.conns i).conn len).2.2)
    | none => some s
  | .close sock =>
    match s.conns.opened sock with
    | some i => some (s.put i { s.conns i with conn := tcpClose (s.conns i).conn }
        ((s.marks i).close (s.conns i).conn))
    | none => some s
  | .segment srcIp srcPort dstPort seg =>
    match s.conns.lookup srcIp srcPort dstPort with
    | some i => some { s with
        conns := tcpDispatch s.conns srcIp srcPort dstPort seg
        marks := Function.update s.marks i ((s.marks i).hear (s.conns i).conn seg) }
    | none => some s

def tcpSystemStart : TcpSystem := ⟨tcpInit, fun _ => .clear, fun _ => 0, []⟩

/-! The state diagram. -/

/-- What happens to one of the connections. -/
inductive TcpCause
  | connect
  | close
  | timeout
  | segment (seg : TcpSegment)
  | other

/-- The edges that a cause has in RFC 793. -/
inductive Edge (c : TcpConn) (marks : FinMarks) : TcpCause → TcpState → TcpState → Prop
  | connect : Edge c marks .connect .closed .synSent
  | closeListen : Edge c marks .close .listen .closed
  | closeSynSent : Edge c marks .close .synSent .closed
  | closeSynReceived : Edge c marks .close .synReceived .finWait1
  | closeEstablished : Edge c marks .close .established .finWait1
  | closeCloseWait : Edge c marks .close .closeWait .lastAck
  | timeoutSynSent : Edge c marks .timeout .synSent .closed
  | timeoutTimeWait : Edge c marks .timeout .timeWait .closed
  | syn {seg : TcpSegment} {state : TcpState} (hstate : state = .listen ∨ state = .synSent)
      (hsyn : seg.flags &&& tcpSyn ≠ 0) : Edge c marks (.segment seg) state .synReceived
  | synAck {seg : TcpSegment} (hboth : seg.flags &&& (tcpSyn ||| tcpAck) = tcpSyn ||| tcpAck)
      (hacks : Acks c seg) : Edge c marks (.segment seg) .synSent .established
  | ackSyn {seg : TcpSegment} (hack : seg.flags &&& tcpAck ≠ 0) (hacks : Acks c seg) :
      Edge c marks (.segment seg) .synReceived .established
  | finEstablished {seg : TcpSegment} (hfin : seg.flags &&& tcpFin ≠ 0) :
      Edge c marks (.segment seg) .established .closeWait
  | ackFinWait1 {seg : TcpSegment} (hacks : AcksFin c marks seg) :
      Edge c marks (.segment seg) .finWait1 .finWait2
  | finWait1 {seg : TcpSegment} (hfin : seg.flags &&& tcpFin ≠ 0) :
      Edge c marks (.segment seg) .finWait1 .closing
  | finWait2 {seg : TcpSegment} (hfin : seg.flags &&& tcpFin ≠ 0) :
      Edge c marks (.segment seg) .finWait2 .timeWait
  | ackClosing {seg : TcpSegment} (hacks : AcksFin c marks seg) :
      Edge c marks (.segment seg) .closing .timeWait
  | ackLastAck {seg : TcpSegment} (hacks : AcksFin c marks seg) :
      Edge c marks (.segment seg) .lastAck .closed

/-- What the step is for the connection in slot `i`. -/
def TcpSystem.cause (s : TcpSystem) (event : TcpSystemEvent) (i : Nat) : TcpCause :=
  match event with
  | .connect sock iface _ _ _ _ =>
    if s.conns.opened sock = some i ∧ iface ≠ none then .connect else .other
  | .deadline sock => if sock = i then .timeout else .other
  | .close sock => if s.conns.opened sock = some i then .close else .other
  | .segment srcIp srcPort dstPort seg =>
    if s.conns.lookup srcIp srcPort dstPort = some i then .segment seg else .other
  | _ => .other

/-- The change is along the edges for its cause, a `FIN` in `FIN_WAIT_1` or `FIN_WAIT_2` is
acknowledged, and a connection that has sent its `FIN` is released when both are done with. -/
structure SlotOk (c : TcpConn) (marks : FinMarks) (cause : TcpCause) (c' : TcpConn)
    (marks' : FinMarks) : Prop where
  edges : Relation.ReflTransGen (Edge c marks cause) c.state c'.state
  answered : ∀ seg, cause = .segment seg → c.state = .finWait1 ∨ c.state = .finWait2 →
    seg.flags &&& tcpFin ≠ 0 → c'.rcvNxt = u32 (seg.seq + seg.data.length + 1)
  released : c.used → ¬ c'.used → marks'.sent ≠ none →
    marks'.acked ∧ marks'.peer ∨ marks'.timedOut

def StatesOk (s : TcpSystem) (event : TcpSystemEvent) (t : TcpSystem) : Prop :=
  ∀ i, SlotOk (s.conns i).conn (s.marks i) (s.cause event i) (t.conns i).conn (t.marks i)

/-- An established connection only gets segments without a `FIN`, and the answer to a `SYN`
acknowledges it. -/
structure CauseOk (c : TcpConn) (cause : TcpCause) : Prop where
  stays : c.state = .established →
    cause = .other ∨ ∃ seg, cause = .segment seg ∧ seg.flags &&& tcpFin = 0
  answer : ∀ seg, cause = .segment seg → c.state = .synSent →
    seg.flags &&& (tcpSyn ||| tcpAck) = tcpSyn ||| tcpAck → Acks c seg

def StaysOpen (s : TcpSystem) (event : TcpSystemEvent) (_ : TcpSystem) : Prop :=
  ∀ i, CauseOk (s.conns i).conn (s.cause event i)

/-! What a step does to one slot. -/

inductive SlotStep (c : TcpConn) (marks : FinMarks) : TcpCause → TcpConn → FinMarks → Prop
  | connect (iss : Nat) (hused : c.used) : SlotStep c marks .connect (tcpConnect c iss) .clear
  | close (hused : c.used) : SlotStep c marks .close (tcpClose c) (marks.close c)
  | timeout : SlotStep c marks .timeout { c with state := .closed } { marks with timedOut := true }
  | segment (seg : TcpSegment) (hused : c.used) :
      SlotStep c marks (.segment seg) (tcpReceive c seg) (marks.hear c seg)
  | socket (hfree : ¬ c.used) : SlotStep c marks .other tcpSocket .clear
  | other {c' : TcpConn} (hused : c'.used = c.used) (hstate : c'.state = c.state)
      (hrcv : c'.rcvNxt = c.rcvNxt) : SlotStep c marks .other c' marks

variable {s t : TcpSystem} {event : TcpSystemEvent} {c c' : TcpConn} {marks marks' : FinMarks}
  {cause : TcpCause} {seg : TcpSegment} {sock : Int} {i j n : Nat} {slot : TcpSlot}

theorem opened_spec {conns : TcpTable} (h : conns.opened sock = some i) :
    (conns i).conn.used := by
  unfold TcpTable.opened at h
  split at h
  case isTrue => cases h
  case isFalse hno =>
    cases h
    by_contra hunused
    exact hno (.inr (.inr hunused))

theorem free_spec {conns : TcpTable} (h : conns.free = some i) : ¬ (conns i).conn.used := by
  have hfree := List.find?_some h
  exact of_decide_eq_true hfree

theorem lookup_spec {conns : TcpTable} {srcIp : Ip4Addr} {srcPort dstPort : BitVec 16}
    (h : conns.lookup srcIp srcPort dstPort = some i) : (conns i).conn.used := by
  have hfound := List.find?_some h
  exact (of_decide_eq_true hfound).1

/-- A slot that is not concerned stays as it is. -/
theorem SlotStep.same (h : c' = c) : SlotStep c marks .other c' marks := by
  rw [h]
  exact .other rfl rfl rfl

/-- One slot has changed, and its cause is known. -/
theorem SlotStep.of_put {conns : TcpTable} {table : Nat → FinMarks}
    (hstep : i = j → SlotStep (conns i).conn (table i) cause slot.conn marks)
    (hother : i ≠ j → cause = .other) :
    SlotStep (conns j).conn (table j) cause (Function.update conns i slot j).conn
      (Function.update table i marks j) := by
  by_cases hj : i = j
  · rw [← hj, Function.update_self, Function.update_self]
    exact hstep hj
  · rw [Function.update_of_ne (Ne.symm hj), Function.update_of_ne (Ne.symm hj), hother hj]
    exact .same rfl

/-- The same when the marks stay. -/
theorem SlotStep.of_setConn {conns : TcpTable} {table : Nat → FinMarks}
    (hused : c'.used = (conns i).conn.used) (hstate : c'.state = (conns i).conn.state)
    (hrcv : c'.rcvNxt = (conns i).conn.rcvNxt) :
    SlotStep (conns j).conn (table j) .other (conns.setConn i c' j).conn (table j) := by
  unfold TcpTable.setConn
  by_cases hj : j = i
  · rw [hj, Function.update_self]
    exact .other hused hstate hrcv
  · rw [Function.update_of_ne hj]
    exact .same rfl

theorem numbers_loadBytes : (loadBytes c n).2.numbers = c.numbers := by
  induction n generalizing c with
  | zero => rfl
  | succ n ih =>
    have hrest := @ih { c with rxHead := u32 (c.rxHead + 1), rxTail := u32 (c.rxTail + 1) }
    unfold loadBytes
    dsimp only
    rw [hrest]
    rfl

theorem numbers_setRcvWnd : (setRcvWnd c).numbers = c.numbers := by
  unfold setRcvWnd TcpConn.numbers
  rfl

theorem numbers_tcpRecv : (tcpRecv c n).2.2.numbers = c.numbers := by
  unfold tcpRecv
  split
  · rfl
  · split
    · split <;> rfl
    · dsimp only
      rw [numbers_setRcvWnd, numbers_loadBytes]

theorem SlotStep.of_numbers {conns : TcpTable} {table : Nat → FinMarks}
    (hnumbers : c'.numbers = (conns i).conn.numbers) :
    SlotStep (conns j).conn (table j) .other (conns.setConn i c' j).conn (table j) :=
  .of_setConn (congrArg TcpNumbers.used hnumbers) (congrArg TcpNumbers.state hnumbers)
    (congrArg TcpNumbers.rcvNxt hnumbers)

theorem numbers_tcpSendData : (tcpSendData c n).numbers =
    { c.numbers with sndNxt := (tcpSendData c n).sndNxt } := by
  unfold tcpSendData
  split <;> rfl

/-- What a step does to a slot, from the slot, its marks and the cause alone. -/
theorem tcpSystemStep_slot (hstep : tcpSystemStep s event = some t) (j : Nat) :
    SlotStep (s.conns j).conn (s.marks j) (s.cause event j) (t.conns j).conn (t.marks j) := by
  cases event with
  | socket =>
    unfold tcpSystemStep at hstep
    dsimp only at hstep
    cases hfree : s.conns.free with
    | none =>
      rw [hfree] at hstep
      cases hstep
      exact .same rfl
    | some i =>
      rw [hfree] at hstep
      cases hstep
      unfold tcpOpen
      rw [hfree]
      exact .of_put (fun _ => .socket (free_spec hfree)) fun _ => rfl
  | connect sock iface remoteIp remotePort rand iss =>
    unfold tcpSystemStep at hstep
    unfold TcpSystem.cause
    dsimp only at hstep ⊢
    cases hsock : s.conns.opened sock with
    | none =>
      rw [hsock] at hstep
      cases hstep
      rw [if_neg fun h => nomatch h.1]
      exact .same rfl
    | some i =>
      rw [hsock] at hstep
      cases iface with
      | none =>
        cases hstep
        rw [if_neg fun h => h.2 rfl]
        exact .same rfl
      | some localIp =>
        cases hstep
        refine SlotStep.of_put ?_ ?_
        · rintro rfl
          rw [if_pos ⟨rfl, Option.some_ne_none _⟩]
          exact .connect iss (opened_spec hsock)
        · exact fun hne => if_neg fun h => hne (Option.some.inj h.1)
  | poll i =>
    unfold tcpSystemStep at hstep
    dsimp only at hstep
    split at hstep
    · cases hstep
    · split at hstep <;> cases hstep <;> exact .same rfl
  | deadline i =>
    unfold tcpSystemStep at hstep
    unfold TcpSystem.cause
    dsimp only at hstep ⊢
    split at hstep
    · cases hstep
    · cases hstep
      refine SlotStep.of_put ?_ ?_
      · rintro rfl
        rw [if_pos rfl]
        exact .timeout
      · exact fun hne => if_neg hne
  | send sock len =>
    unfold tcpSystemStep at hstep
    dsimp only at hstep
    split at hstep
    · split at hstep <;> cases hstep <;> exact .same rfl
    · cases hstep
      exact .same rfl
  | round call =>
    obtain ⟨⟨i, left⟩, -, hround⟩ := Option.bind_eq_some_iff.mp hstep
    cases hround
    have hnumbers := @numbers_tcpSendData (s.conns i).conn (sendChunk (s.conns i).conn left)
    exact .of_setConn (congrArg TcpNumbers.used hnumbers) (congrArg TcpNumbers.state hnumbers)
      (congrArg TcpNumbers.rcvNxt hnumbers)
  | recv sock len =>
    unfold tcpSystemStep at hstep
    dsimp only at hstep
    split at hstep
    · cases hstep
      exact .of_numbers numbers_tcpRecv
    · cases hstep
      exact .same rfl
  | close sock =>
    unfold tcpSystemStep at hstep
    unfold TcpSystem.cause
    dsimp only at hstep ⊢
    cases hsock : s.conns.opened sock with
    | none =>
      rw [hsock] at hstep
      cases hstep
      rw [if_neg fun h => nomatch h]
      exact .same rfl
    | some i =>
      rw [hsock] at hstep
      cases hstep
      refine SlotStep.of_put ?_ ?_
      · rintro rfl
        rw [if_pos rfl]
        exact .close (opened_spec hsock)
      · exact fun hne => if_neg fun h => hne (Option.some.inj h)
  | segment srcIp srcPort dstPort seg =>
    unfold tcpSystemStep at hstep
    unfold TcpSystem.cause
    dsimp only at hstep ⊢
    cases hlookup : s.conns.lookup srcIp srcPort dstPort with
    | none =>
      rw [hlookup] at hstep
      cases hstep
      rw [if_neg fun h => nomatch h]
      exact .same rfl
    | some i =>
      rw [hlookup] at hstep
      cases hstep
      unfold tcpDispatch
      rw [hlookup]
      refine SlotStep.of_put ?_ ?_
      · rintro rfl
        rw [if_pos rfl]
        exact .segment seg (lookup_spec hlookup)
      · exact fun hne => if_neg fun h => hne (Option.some.inj h)

/-! One slot. -/

/-- No established connection has been ended. -/
structure SlotInv (c : TcpConn) (marks : FinMarks) : Prop where
  states : c.state = .closed ∨ c.state = .synSent ∨ c.state = .established
  free : ¬ c.used → c.state = .closed
  noFin : marks.sent = none
  rcv : c.rcvNxt < 2 ^ 32

/-- Where the edges of one cause lead from `ESTABLISHED`. -/
theorem established_edges {state : TcpState}
    (h : Relation.ReflTransGen (Edge c marks cause) .established state) :
    state = .established ∨ cause = .close ∧ state = .finWait1 ∨
      (∃ seg, cause = .segment seg) ∧ state = .closeWait := by
  induction h with
  | refl => exact .inl rfl
  | tail _ hedge ih =>
    rcases ih with rfl | ⟨rfl, rfl⟩ | ⟨⟨seg, rfl⟩, rfl⟩
    · cases hedge with
      | closeEstablished => exact .inr (.inl ⟨rfl, rfl⟩)
      | finEstablished hfin => exact .inr (.inr ⟨⟨_, rfl⟩, rfl⟩)
      | syn hstate => rcases hstate with h | h <;> cases h
    · cases hedge
    · cases hedge with
      | syn hstate => rcases hstate with h | h <;> cases h

/-- Where they lead from `SYN_SENT` when nothing is acknowledged. -/
theorem synSent_edges {state : TcpState} (hnone : ¬ Acks c seg)
    (h : Relation.ReflTransGen (Edge c marks (.segment seg)) .synSent state) :
    state = .synSent ∨ state = .synReceived := by
  induction h with
  | refl => exact .inl rfl
  | tail _ hedge ih =>
    rcases ih with rfl | rfl
    · cases hedge with
      | syn => exact .inr rfl
      | synAck hboth hacks => exact absurd hacks hnone
    · cases hedge with
      | syn => exact .inr rfl
      | ackSyn hack hacks => exact absurd hacks hnone

/-- One cause does not lead from `ESTABLISHED` to one of these states. -/
theorem SlotOk.not_established (hok : SlotOk c marks cause c' marks')
    (hstate : c'.state = .closed ∨ c'.state = .synSent ∨ c'.state = .lastAck) :
    c.state ≠ .established := by
  intro hopen
  have hedges := hok.edges
  rw [hopen] at hedges
  rcases established_edges hedges with hsame | ⟨-, hsame⟩ | ⟨-, hsame⟩
  all_goals
    rw [hsame] at hstate
    rcases hstate with h | h | h <;> cases h

/-- In these states only the edges and the marks are left to check. -/
theorem SlotInv.slotOk (h : SlotInv c marks)
    (hedges : Relation.ReflTransGen (Edge c marks cause) c.state c'.state)
    (hmarks : marks'.sent = none) : SlotOk c marks cause c' marks' := by
  constructor
  case edges => exact hedges
  case answered =>
    rintro seg - (hstate | hstate) -
    · rcases h.states with hs | hs | hs <;> cases hs.symm.trans hstate
    · rcases h.states with hs | hs | hs <;> cases hs.symm.trans hstate
  case released => exact fun _ _ hsent => absurd hmarks hsent

theorem CauseOk.not_established (h : CauseOk c cause)
    (hcause : cause ≠ .other) (hseg : ∀ seg, cause ≠ .segment seg) : c.state ≠ .established := by
  intro hstate
  rcases h.stays hstate with hother | ⟨seg, hother, -⟩
  · exact hcause hother
  · exact hseg seg hother

theorem connect_slot {iss : Nat} (h : SlotInv c marks) (hused : c.used) :
    (SlotOk c marks .connect (tcpConnect c iss) .clear ↔ CauseOk c .connect) ∧
      (CauseOk c .connect → SlotInv (tcpConnect c iss) .clear) := by
  refine ⟨⟨fun hok => ⟨fun hstate => ?_, fun _ => nofun⟩, fun hcause => ?_⟩, fun _ => ?_⟩
  · exact absurd hstate (hok.not_established (.inr (.inl rfl)))
  · refine h.slotOk ?_ rfl
    rcases h.states with hstate | hstate | hstate
    · rw [hstate]
      exact .single .connect
    · rw [hstate]
      exact .refl
    · exact absurd hstate (hcause.not_established nofun nofun)
  · exact ⟨.inr (.inl rfl), fun hfree => absurd hused hfree, rfl, h.rcv⟩

theorem timeout_slot (h : SlotInv c marks) :
    (SlotOk c marks .timeout { c with state := .closed } { marks with timedOut := true } ↔
        CauseOk c .timeout) ∧
      (CauseOk c .timeout →
        SlotInv { c with state := .closed } { marks with timedOut := true }) := by
  refine ⟨⟨fun hok => ⟨fun hstate => ?_, fun _ => nofun⟩, fun hcause => ?_⟩, fun _ => ?_⟩
  · exact absurd hstate (hok.not_established (.inl rfl))
  · refine h.slotOk ?_ h.noFin
    rcases h.states with hstate | hstate | hstate
    · rw [hstate]
    · rw [hstate]
      exact .single .timeoutSynSent
    · exact absurd hstate (hcause.not_established nofun nofun)
  · exact ⟨.inl rfl, fun _ => rfl, h.noFin, h.rcv⟩

theorem tcpClose_state (hused : c.used) : (tcpClose c).state = .closed := by
  unfold tcpClose
  rw [if_neg (not_not_intro hused)]

theorem close_slot (h : SlotInv c marks) (hused : c.used) :
    (SlotOk c marks .close (tcpClose c) (marks.close c) ↔ CauseOk c .close) ∧
      (CauseOk c .close → SlotInv (tcpClose c) (marks.close c)) := by
  have hclosed := tcpClose_state hused
  have hkept : CauseOk c .close → (marks.close c).sent = none ∧ (tcpClose c).rcvNxt = c.rcvNxt := by
    intro hcause
    have hno : ¬ (c.state = .established ∨ c.state = .closeWait) := by
      rintro (hstate | hstate)
      · exact hcause.not_established nofun nofun hstate
      · rcases h.states with hs | hs | hs <;> cases hs.symm.trans hstate
    unfold FinMarks.close tcpClose
    rw [if_neg hno, if_neg (not_not_intro hused), if_neg hno]
    exact ⟨h.noFin, rfl⟩
  refine ⟨⟨fun hok => ⟨fun hstate => ?_, fun _ => nofun⟩, fun hcause => ?_⟩, fun hcause => ?_⟩
  · exact absurd hstate (hok.not_established (.inl hclosed))
  · refine h.slotOk ?_ (hkept hcause).1
    rw [hclosed]
    rcases h.states with hstate | hstate | hstate
    · rw [hstate]
    · rw [hstate]
      exact .single .closeSynSent
    · exact absurd hstate (hcause.not_established nofun nofun)
  · obtain ⟨hnone, hrcv⟩ := hkept hcause
    exact ⟨.inl hclosed, fun _ => hclosed, hnone, hrcv ▸ h.rcv⟩

/-- A connection that has not been ended sends no `FIN` for a segment without one. -/
theorem SlotInv.hear (h : SlotInv c marks)
    (hfin : c.state = .established → seg.flags &&& tcpFin = 0) :
    (marks.hear c seg).sent = none := by
  have hno : ¬ (c.state = .established ∧ seg.flags &&& tcpFin ≠ 0) :=
    fun hboth => hboth.2 (hfin hboth.1)
  exact (if_neg hno).trans h.noFin

theorem receive_slot_closed (h : SlotInv c marks) (hused : c.used) (hstate : c.state = .closed) :
    SlotOk c marks (.segment seg) (tcpReceive c seg) (marks.hear c seg) ∧
      CauseOk c (.segment seg) ∧ SlotInv (tcpReceive c seg) (marks.hear c seg) := by
  have hnumbers := @numbers_tcpReceive c seg h.rcv
  rw [TcpNumbers.receive_closed hused hstate] at hnumbers
  have hsame : (tcpReceive c seg).state = c.state := congrArg TcpNumbers.state hnumbers
  have hrcv : (tcpReceive c seg).rcvNxt = c.rcvNxt := congrArg TcpNumbers.rcvNxt hnumbers
  have hmarks := @SlotInv.hear c marks seg h fun hopen => nomatch hstate.symm.trans hopen
  refine ⟨h.slotOk ?_ hmarks, ⟨?_, ?_⟩, ⟨.inl (hsame.trans hstate), ?_, hmarks, hrcv ▸ h.rcv⟩⟩
  · rw [hsame]
  · exact fun hopen => nomatch hstate.symm.trans hopen
  · exact fun _ _ hsyn => nomatch hstate.symm.trans hsyn
  · exact fun _ => hsame.trans hstate

theorem receive_slot_synSent (h : SlotInv c marks) (hused : c.used) (hstate : c.state = .synSent) :
    (SlotOk c marks (.segment seg) (tcpReceive c seg) (marks.hear c seg) ↔
        CauseOk c (.segment seg)) ∧ SlotInv (tcpReceive c seg) (marks.hear c seg) := by
  have hnumbers := @numbers_tcpReceive c seg h.rcv
  rw [TcpNumbers.receive_synSent hused hstate] at hnumbers
  have hmarks := @SlotInv.hear c marks seg h fun hopen => nomatch hstate.symm.trans hopen
  have hcause : CauseOk c (.segment seg) ↔
      (seg.flags &&& (tcpSyn ||| tcpAck) = tcpSyn ||| tcpAck → Acks c seg) := by
    constructor
    · exact fun hcause => hcause.answer seg rfl hstate
    · intro hacks
      constructor
      case stays => exact fun hopen => nomatch hstate.symm.trans hopen
      case answer =>
        rintro _ ⟨⟩ -
        exact hacks
  have hkept : (tcpReceive c seg).used = c.used := by
    refine (congrArg TcpNumbers.used hnumbers).trans ?_
    split <;> rfl
  by_cases hboth : seg.flags &&& (tcpSyn ||| tcpAck) = tcpSyn ||| tcpAck
  · rw [if_pos hboth] at hnumbers
    have hopened : (tcpReceive c seg).state = .established := congrArg TcpNumbers.state hnumbers
    have hrcv : (tcpReceive c seg).rcvNxt = u32 (seg.seq + 1) :=
      congrArg TcpNumbers.rcvNxt hnumbers
    refine ⟨⟨fun hok => hcause.mpr fun _ => ?_, fun hacks => h.slotOk ?_ hmarks⟩, ?_⟩
    · by_contra hnone
      have hedges := hok.edges
      rw [hstate, hopened] at hedges
      rcases synSent_edges hnone hedges with hsame | hsame <;> cases hsame
    · rw [hstate, hopened]
      exact .single (.synAck hboth (hcause.mp hacks hboth))
    · exact ⟨.inr (.inr hopened), fun hfree => absurd (hkept.trans hused) hfree, hmarks,
        hrcv ▸ Mm.u32_lt⟩
  · rw [if_neg hboth] at hnumbers
    have hsame : (tcpReceive c seg).state = c.state := congrArg TcpNumbers.state hnumbers
    have hrcv : (tcpReceive c seg).rcvNxt = c.rcvNxt := congrArg TcpNumbers.rcvNxt hnumbers
    refine ⟨iff_of_true (h.slotOk ?_ hmarks) (hcause.mpr fun hyes => absurd hyes hboth), ?_⟩
    · rw [hsame]
    · exact ⟨.inr (.inl (hsame.trans hstate)), fun hfree => absurd (hkept.trans hused) hfree,
        hmarks, hrcv ▸ h.rcv⟩

theorem receive_slot_established (h : SlotInv c marks) (hused : c.used)
    (hstate : c.state = .established) :
    (SlotOk c marks (.segment seg) (tcpReceive c seg) (marks.hear c seg) ↔
        CauseOk c (.segment seg)) ∧
      (CauseOk c (.segment seg) → SlotInv (tcpReceive c seg) (marks.hear c seg)) := by
  have hnumbers := @numbers_tcpReceive c seg h.rcv
  rw [TcpNumbers.receive_established hused hstate] at hnumbers
  dsimp only at hnumbers
  have hcause : CauseOk c (.segment seg) ↔ seg.flags &&& tcpFin = 0 := by
    constructor
    · intro hcause
      rcases hcause.stays hstate with hother | ⟨_, ⟨⟩, hnone⟩
      · cases hother
      · exact hnone
    · intro hnone
      constructor
      case stays => exact fun _ => .inr ⟨seg, rfl, hnone⟩
      case answer => exact fun _ _ hsyn => nomatch hstate.symm.trans hsyn
  by_cases hfin : seg.flags &&& tcpFin ≠ 0
  · rw [if_pos hfin] at hnumbers
    have hlast : (tcpReceive c seg).state = .lastAck := congrArg TcpNumbers.state hnumbers
    refine ⟨iff_of_false (fun hok => ?_) fun hyes => hfin (hcause.mp hyes),
      fun hyes => absurd (hcause.mp hyes) hfin⟩
    exact hok.not_established (.inr (.inr hlast)) hstate
  · have hnone : seg.flags &&& tcpFin = 0 := not_not.mp hfin
    rw [if_neg hfin] at hnumbers
    have hsame : (tcpReceive c seg).state = c.state := congrArg TcpNumbers.state hnumbers
    have hkept : (tcpReceive c seg).used = c.used := congrArg TcpNumbers.used hnumbers
    have hrcv : (tcpReceive c seg).rcvNxt < 2 ^ 32 := by
      refine lt_of_eq_of_lt (congrArg TcpNumbers.rcvNxt hnumbers) ?_
      dsimp only
      split
      · exact h.rcv
      · exact Mm.u32_lt
    have hmarks := @SlotInv.hear c marks seg h fun _ => hnone
    refine ⟨iff_of_true (h.slotOk ?_ hmarks) (hcause.mpr hnone), fun _ => ?_⟩
    · rw [hsame]
    · exact ⟨.inr (.inr (hsame.trans hstate)), fun hfree => absurd (hkept.trans hused) hfree,
        hmarks, hrcv⟩

/-- A step keeps to the diagram for one slot exactly when its cause is one of those. -/
theorem slotStep_iff (h : SlotInv c marks) (hstep : SlotStep c marks cause c' marks') :
    (SlotOk c marks cause c' marks' ↔ CauseOk c cause) ∧
      (CauseOk c cause → SlotInv c' marks') := by
  have hother : CauseOk c .other := ⟨fun _ => .inl rfl, fun _ => nofun⟩
  cases hstep with
  | connect iss hused => exact connect_slot h hused
  | close hused => exact close_slot h hused
  | timeout => exact timeout_slot h
  | segment seg hused =>
    rcases h.states with hstate | hstate | hstate
    · obtain ⟨hok, hcause, hinv⟩ := @receive_slot_closed c marks seg h hused hstate
      exact ⟨iff_of_true hok hcause, fun _ => hinv⟩
    · obtain ⟨hiff, hinv⟩ := @receive_slot_synSent c marks seg h hused hstate
      exact ⟨hiff, fun _ => hinv⟩
    · exact receive_slot_established h hused hstate
  | socket hfree =>
    have hstate := h.free hfree
    refine ⟨iff_of_true (h.slotOk ?_ rfl) hother, fun _ => ?_⟩
    · rw [hstate]
      exact .refl
    · exact ⟨.inl rfl, fun _ => rfl, rfl, (by decide : 0 < 2 ^ 32)⟩
  | other hused hstate hrcv =>
    refine ⟨iff_of_true (h.slotOk ?_ h.noFin) hother, fun _ => ?_⟩
    · rw [hstate]
    · exact ⟨hstate ▸ h.states, fun hfree => hstate.trans (h.free (hused ▸ hfree)), h.noFin,
        hrcv ▸ h.rcv⟩

/-! Runs. -/

/-- Every run keeps to the diagram as long as no established connection is ended. -/
theorem tcp_states_iff (events : List TcpSystemEvent) :
    Run.EveryStep tcpSystemStep StatesOk tcpSystemStart events ↔
      Run.EveryStep tcpSystemStep StaysOpen tcpSystemStart events := by
  refine Run.everyStep_iff
    (I := fun s : TcpSystem => ∀ i, SlotInv (s.conns i).conn (s.marks i)) ?_ ?_
  · intro s event t h hstep
    refine ⟨forall_congr' fun i => (slotStep_iff (h i) (tcpSystemStep_slot hstep i)).1, ?_⟩
    exact fun hcause i => (slotStep_iff (h i) (tcpSystemStep_slot hstep i)).2 (hcause i)
  · exact fun i => ⟨.inl rfl, fun _ => rfl, rfl, (by decide : 0 < 2 ^ 32)⟩

/-- The peer 10.0.0.2 answers, and the connection is closed: its slot is free at once. -/
theorem not_tcp_states_close : ¬ Run.EveryStep tcpSystemStep StatesOk tcpSystemStart
    [.socket, .connect 0 (some 0x0A000001) 0x0A000002 80 0 7,
      .segment 0x0A000002 80 49152 (synAck 100 8 8192), .close 0] := by
  intro h
  obtain ⟨before, hbefore⟩ : ∃ before, Run.run tcpSystemStep tcpSystemStart
      [.socket, .connect 0 (some 0x0A000001) 0x0A000002 80 0 7,
        .segment 0x0A000002 80 49152 (synAck 100 8 8192)] = some before := ⟨_, rfl⟩
  obtain ⟨after, hafter⟩ : ∃ after, tcpSystemStep before (.close 0) = some after := by
    cases hbefore
    exact ⟨_, rfl⟩
  have hok := h.last hbefore hafter 0
  cases hbefore
  cases hafter
  have hreleased := hok.released (by decide) (by decide) (by decide)
  revert hreleased
  decide

end PinguinOS.Net
