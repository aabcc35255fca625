import PinguinOS.Net.TcpLink

/-! What both sides of a connection have of each other's stream. -/
namespace PinguinOS.Net

open Mm (u32 sub32)

variable {iss irs n n' k pos : Nat} {peer bytes data : List (BitVec 8)} {s t : TcpLink}
  {c c' : TcpConn} {seg : TcpSegment} {segs : List TcpSegment} {event : LinkEvent}
  {events : List LinkEvent} {got : List Item} {q : TcpNumbers}

/-! The bytes in a piece of a stream. -/

theorem filterMap_byte : (data.map Item.byte).filterMap Item.data = data := by
  rw [List.filterMap_map]
  exact List.filterMap_some

theorem filterMap_items : seg.items.filterMap Item.data = seg.data := by
  unfold TcpSegment.items
  have hnone : ∀ (p : Prop) [Decidable p] (x : Item), x.data = none →
      (if p then [x] else []).filterMap Item.data = [] := by
    intro p _ x hx
    split
    · rw [List.filterMap_cons_none hx]
      rfl
    · rfl
  rw [List.filterMap_append, List.filterMap_append, filterMap_byte, hnone _ _ rfl, hnone _ _ rfl]
  exact List.append_nil _

theorem filterMap_wire : ((segs.map TcpSegment.items).flatten).filterMap Item.data =
    segs.flatMap TcpSegment.data := by
  induction segs with
  | nil => rfl
  | cons seg segs ih =>
    rw [List.map_cons, List.flatten_cons, List.filterMap_append, filterMap_items, ih,
      List.flatMap_cons]

theorem length_data_le : seg.data.length ≤ seg.items.length := by
  unfold TcpSegment.items
  rw [List.length_append, List.length_append, List.length_map]
  omega

theorem length_peerStream : (peerStream peer).length = peer.length + 2 := by
  unfold peerStream
  rw [List.length_cons, List.length_append, List.length_map]
  rfl

/-- Behind the `SYN` are the bytes. -/
theorem filterMap_peerStream (h : n ≤ peer.length) :
    ((peerStream peer).drop (n + 1)).filterMap Item.data = peer.drop n := by
  unfold peerStream
  rw [List.drop_succ_cons, List.drop_append_of_le_length (by rwa [List.length_map]),
    ← List.map_drop, List.filterMap_append, filterMap_byte]
  exact List.append_nil _

/-- The `SYN` of the peer has the first number. -/
theorem FromPeer.syn (h : FromPeer irs peer seg) (hsyn : seg.flags &&& tcpSyn ≠ 0) :
    seg.seq = u32 irs := by
  obtain ⟨pos, hseq, hitems⟩ := h
  have hfirst : Item.syn ∈ (peerStream peer).drop pos := by
    refine hitems.subset ?_
    unfold TcpSegment.items
    rw [if_pos hsyn]
    exact List.mem_cons_self
  have hpos : pos = 0 := by
    cases pos with
    | zero => rfl
    | succ pos =>
      have hmem : Item.syn ∈ peer.map Item.byte ++ [Item.fin] := List.mem_of_mem_drop hfirst
      simp at hmem
  rw [hseq, hpos, Nat.add_zero]

/-- Data with the number behind `n` bytes is what the peer has behind `n` bytes. -/
theorem FromPeer.prefix_drop (h : FromPeer irs peer seg) (hshort : peer.length + 2 ≤ 2 ^ 32)
    (hn : n ≤ peer.length) (hsome : seg.data.length ≠ 0) (hseq : seg.seq = u32 (irs + 1 + n)) :
    seg.data <+: peer.drop n := by
  obtain ⟨pos, hpos, hitems⟩ := h
  have hlength := hitems.length_le
  have hdata := @length_data_le seg
  rw [List.length_drop, length_peerStream] at hlength
  have hplace : pos = n + 1 := by
    have heq := hpos.symm.trans hseq
    unfold u32 at heq
    omega
  have hbytes := hitems.filterMap Item.data
  rwa [filterMap_items, hplace, filterMap_peerStream hn] at hbytes

/-! What a segment does to the numbers. -/

theorem TcpNumbers.receive_rcvNxt_lt (h : q.rcvNxt < 2 ^ 32) : (q.receive seg n).rcvNxt < 2 ^ 32 := by
  unfold TcpNumbers.receive
  split
  · exact h
  · dsimp only
    split
    · split
      · exact Mm.u32_lt
      · exact h
    · have hnext : (if n = 0 then q.rcvNxt else u32 (q.rcvNxt + n)) < 2 ^ 32 := by
        split
        · exact h
        · exact Mm.u32_lt
      split
      · exact Mm.u32_lt
      · exact hnext
    · split <;> exact h
    · split <;> exact h
    · split
      · exact Mm.u32_lt
      · exact h
    · exact h

/-- A connection stays in the two states in which it can still be opened, or gets from the first
into the second. -/
theorem TcpNumbers.receive_state :
    ((q.receive seg n).state = .synSent → q.state = .synSent) ∧
      ((q.receive seg n).state = .established → q.state = .synSent ∨ q.state = .established) := by
  unfold TcpNumbers.receive
  split
  · exact ⟨id, .inr⟩
  · dsimp only
    split
    case h_1 hstate => exact ⟨fun _ => hstate, fun _ => .inl hstate⟩
    case h_2 hstate =>
      refine ⟨fun h => ?_, fun _ => .inr hstate⟩
      split at h
      · cases h
      · exact h
    case h_3 hstate =>
      split
      · exact ⟨fun h => (by cases h), fun h => (by cases h)⟩
      · exact ⟨fun h => h, fun h => .inr h⟩
    case h_4 hstate =>
      split
      · exact ⟨fun h => (by cases h), fun h => (by cases h)⟩
      · exact ⟨fun h => h, fun h => .inr h⟩
    case h_5 hstate =>
      split
      · exact ⟨fun h => (by cases h), fun h => (by cases h)⟩
      · exact ⟨fun h => h, fun h => .inr h⟩
    case h_6 => exact ⟨id, .inr⟩

/-- An established connection has just been opened, or its number has gone on by what it took. -/
theorem TcpNumbers.receive_next (hused : q.used) (h : (q.receive seg n).state = .established) :
    (q.state = .synSent ∧ seg.flags &&& (tcpSyn ||| tcpAck) = tcpSyn ||| tcpAck ∧
        (q.receive seg n).rcvNxt = u32 (seg.seq + 1)) ∨
      (q.state = .established ∧
        (q.receive seg n).rcvNxt = if n = 0 then q.rcvNxt else u32 (q.rcvNxt + n)) := by
  rcases receive_state.2 h with hstate | hstate
  · rw [receive_synSent hused hstate] at h ⊢
    by_cases hboth : seg.flags &&& (tcpSyn ||| tcpAck) = tcpSyn ||| tcpAck
    · rw [if_pos hboth]
      exact .inl ⟨hstate, hboth, rfl⟩
    · rw [if_neg hboth] at h
      exact absurd (hstate.symm.trans h) (by decide)
  · rw [receive_established hused hstate] at h ⊢
    dsimp only at h ⊢
    by_cases hfin : seg.flags &&& tcpFin ≠ 0
    · rw [if_pos hfin] at h
      cases h
    · rw [if_neg hfin]
      exact .inr ⟨hstate, rfl⟩

theorem syn_of_synAck (h : seg.flags &&& (tcpSyn ||| tcpAck) = tcpSyn ||| tcpAck) :
    seg.flags &&& tcpSyn ≠ 0 := by
  have hpart : (tcpSyn ||| tcpAck) &&& tcpSyn = tcpSyn := by decide
  have hsyn : seg.flags &&& tcpSyn = tcpSyn := by
    calc seg.flags &&& tcpSyn
        = seg.flags &&& ((tcpSyn ||| tcpAck) &&& tcpSyn) := by rw [hpart]
      _ = seg.flags &&& (tcpSyn ||| tcpAck) &&& tcpSyn := (BitVec.and_assoc _ _ _).symm
      _ = tcpSyn := by rw [h, hpart]
  rw [hsyn]
  decide

/-! What the connection has of the stream of its peer. -/

structure LinkIn (irs : Nat) (peer : List (BitVec 8)) (s : TcpLink) : Prop where
  received : s.accepted <+: peer
  fresh : s.conn.state = .synSent → s.accepted = []
  next : s.conn.state = .established → s.conn.rcvNxt = u32 (irs + 1 + s.accepted.length)

theorem LinkIn.closed (h : LinkIn irs peer s) (haccepted : t.accepted = s.accepted)
    (hstate : t.conn.state = .closed) : LinkIn irs peer t := by
  refine ⟨haccepted ▸ h.received, fun hsyn => ?_, fun hopen => ?_⟩
  · rw [hstate] at hsyn
    cases hsyn
  · rw [hstate] at hopen
    cases hopen

theorem LinkIn.same (h : LinkIn irs peer s) (haccepted : t.accepted = s.accepted)
    (hstate : t.conn.state = s.conn.state) (hrcv : t.conn.rcvNxt = s.conn.rcvNxt) :
    LinkIn irs peer t := by
  refine ⟨haccepted ▸ h.received, fun hsyn => ?_, fun hopen => ?_⟩
  · rw [haccepted]
    exact h.fresh (hstate ▸ hsyn)
  · rw [haccepted, hrcv]
    exact h.next (hstate ▸ hopen)

theorem newBytes_of_ne (h : c.state ≠ .established) : newBytes c seg = [] :=
  if_neg fun hboth => h hboth.2

/-- What an established connection takes is the front of the data, at the number that is next. -/
theorem newBytes_spec (h : newBytes c seg ≠ []) :
    c.state = .established ∧ seg.data.length ≠ 0 ∧ seg.seq = c.rcvNxt ∧
      newBytes c seg <+: seg.data := by
  unfold newBytes at h ⊢
  by_cases hopen : c.used ∧ c.state = .established
  · rw [if_pos hopen] at h ⊢
    unfold acceptedBytes at h ⊢
    by_cases horder : seg.data.length ≠ 0 ∧ seg.seq = c.rcvNxt
    · rw [if_pos horder]
      exact ⟨hopen.2, horder.1, horder.2, List.take_prefix _ _⟩
    · rw [if_neg horder] at h
      exact absurd rfl h
  · rw [if_neg hopen] at h
    exact absurd rfl h

theorem LinkIn.received_segment (h : LinkIn irs peer s) (hshort : peer.length + 2 ≤ 2 ^ 32)
    (hfrom : FromPeer irs peer seg) : s.accepted ++ newBytes s.conn seg <+: peer := by
  by_cases hnone : newBytes s.conn seg = []
  · rw [hnone, List.append_nil]
    exact h.received
  · obtain ⟨hstate, hsome, hseq, hfront⟩ := newBytes_spec hnone
    refine (Pieces.append_prefix_iff h.received).mpr (hfront.trans ?_)
    exact hfrom.prefix_drop hshort h.received.length_le hsome (hseq.trans (h.next hstate))

/-- A segment of the peer. -/
theorem LinkIn.segment (h : LinkIn irs peer s) (hshort : peer.length + 2 ≤ 2 ^ 32)
    (hrcv : s.conn.rcvNxt < 2 ^ 32) (hfrom : FromPeer irs peer seg)
    (hconn : t.conn = tcpReceive s.conn seg)
    (haccepted : t.accepted = s.accepted ++ newBytes s.conn seg) : LinkIn irs peer t := by
  have hnumbers : t.conn.numbers = s.conn.numbers.receive seg (newBytes s.conn seg).length := by
    rw [hconn, numbers_tcpReceive hrcv]
  have hstate : t.conn.state =
      (s.conn.numbers.receive seg (newBytes s.conn seg).length).state :=
    congrArg TcpNumbers.state hnumbers
  constructor
  case received =>
    rw [haccepted]
    exact h.received_segment hshort hfrom
  case fresh =>
    intro hsyn
    have hbefore : s.conn.state = .synSent := TcpNumbers.receive_state.1 (hstate ▸ hsyn)
    have hnone : newBytes s.conn seg = [] := newBytes_of_ne (by rw [hbefore]; decide)
    rw [haccepted, hnone, List.append_nil]
    exact h.fresh hbefore
  case next =>
    intro hopen
    by_cases hused : s.conn.used
    · have hrcv' : t.conn.rcvNxt =
          (s.conn.numbers.receive seg (newBytes s.conn seg).length).rcvNxt :=
        congrArg TcpNumbers.rcvNxt hnumbers
      rw [hrcv', haccepted, List.length_append]
      rcases TcpNumbers.receive_next hused (hstate ▸ hopen) with
        ⟨hbefore, hboth, hnext⟩ | ⟨hbefore, hnext⟩
      · have hnone : newBytes s.conn seg = [] := newBytes_of_ne fun hne => by
          rw [show s.conn.state = .synSent from hbefore] at hne
          cases hne
        rw [hnext, hfrom.syn (syn_of_synAck hboth), hnone, h.fresh hbefore, u32_add_u32]
        rfl
      · have hsame := h.next hbefore
        rw [hnext]
        split
        case isTrue hnone => rw [hnone, Nat.add_zero]; exact hsame
        case isFalse =>
          rw [show s.conn.numbers.rcvNxt = s.conn.rcvNxt from rfl, hsame, u32_add_u32,
            Nat.add_assoc]
    · have hkeep : t.conn = s.conn := by
        rw [hconn]
        exact if_pos hused
      have hnone : newBytes s.conn seg = [] := if_neg fun hboth => hused hboth.1
      rw [hkeep, haccepted, hnone, List.append_nil]
      exact h.next (hkeep ▸ hopen)

/-! What the peer has of the stream of the connection. -/

structure LinkOut (iss : Nat) (s : TcpLink) : Prop where
  chained : Chained iss s.wire s.conn.sndNxt
  rcv : s.conn.rcvNxt < 2 ^ 32
  bytes : s.wire.flatMap TcpSegment.data = s.sent
  got : s.pieces.flatten.length < 2 ^ 32 → s.peerGot <+: s.pieces.flatten

theorem LinkOut.sndNxt_lt (h : LinkOut iss s) (hiss : iss < 2 ^ 32) : s.conn.sndNxt < 2 ^ 32 := by
  rw [h.chained.last hiss]
  exact Mm.u32_lt

theorem pieces_append (hwire : t.wire = s.wire ++ segs) :
    t.pieces = s.pieces ++ segs.map TcpSegment.items := by
  unfold TcpLink.pieces
  rw [hwire, List.map_append]

/-- More segments are sent. -/
theorem LinkOut.sends (h : LinkOut iss s) (hchained : Chained s.conn.sndNxt segs t.conn.sndNxt)
    (hwire : t.wire = s.wire ++ segs) (hsent : t.sent = s.sent ++ segs.flatMap TcpSegment.data)
    (hgot : t.peerGot = s.peerGot) (hrcv : t.conn.rcvNxt < 2 ^ 32) : LinkOut iss t := by
  constructor
  case chained =>
    rw [hwire]
    exact h.chained.append hchained
  case rcv => exact hrcv
  case bytes => rw [hwire, hsent, List.flatMap_append, h.bytes]
  case got =>
    intro hlen
    rw [pieces_append hwire, List.flatten_append, List.length_append] at hlen
    rw [hgot, pieces_append hwire, List.flatten_append]
    exact (h.got (by omega)).trans (List.prefix_append _ _)

theorem LinkOut.quiet (h : LinkOut iss s) (hsnd : t.conn.sndNxt = s.conn.sndNxt)
    (hrcv : t.conn.rcvNxt = s.conn.rcvNxt) (hwire : t.wire = s.wire) (hsent : t.sent = s.sent)
    (hgot : t.peerGot = s.peerGot) : LinkOut iss t := by
  refine @LinkOut.sends _ _ _ [] h hsnd ?_ ?_ hgot (hrcv ▸ h.rcv)
  · rw [hwire, List.append_nil]
  · rw [hsent]
    exact (List.append_nil _).symm

/-- A segment without data among those that are sent. -/
theorem data_of_noData (h : ∀ seg ∈ segs, seg.data = []) : segs.flatMap TcpSegment.data = [] :=
  List.flatMap_eq_nil_iff.mpr h

theorem receiveSends_data : (tcpReceiveSends c seg).flatMap TcpSegment.data = [] := by
  refine data_of_noData fun sent hsent => ?_
  unfold tcpReceiveSends receiveEstablishedSends at hsent
  split at hsent
  · cases hsent
  · dsimp only at hsent
    split at hsent
    case h_1 => split at hsent <;> simp_all [segmentFrom]
    case h_2 =>
      rcases List.mem_append.mp hsent with hsent | hsent
      · split at hsent <;> simp_all [segmentFrom]
      · split at hsent
        · simp only [List.mem_cons, List.not_mem_nil, or_false] at hsent
          rcases hsent with rfl | rfl <;> rfl
        · cases hsent
    case h_3 => split at hsent <;> simp_all [segmentFrom]
    case h_4 => cases hsent

theorem closeSends_data : (tcpCloseSends c).flatMap TcpSegment.data = [] := by
  unfold tcpCloseSends
  split <;> rfl

theorem roundSends_data : (tcpRoundSends c data).flatMap TcpSegment.data = data := by
  unfold tcpRoundSends
  split
  case isTrue hnone => exact (List.length_eq_zero_iff.mp hnone).symm
  case isFalse => exact List.append_nil data

/-- Where the numbers are fewer than `2 ^ 32`, the peer finds the place of a segment. -/
theorem old_eq (hn : n < 2 ^ 32) :
    sub32 (u32 (iss + got.length)) (u32 (iss + n)) = (got.length + 2 ^ 32 - n) % 2 ^ 32 := by
  unfold sub32 u32
  omega

/-- A segment arrives: the peer has what it had, or it takes some from where the piece is. -/
theorem LinkOut.arrives (h : LinkOut iss s) (hiss : iss < 2 ^ 32)
    (hlen : s.pieces.flatten.length < 2 ^ 32) (hseg : s.wire[n]? = some seg) :
    s.pieces[n]? = some seg.items ∧
      (peerTakes iss s.peerGot seg k = s.peerGot ∨
        s.position n ≤ s.peerGot.length ∧ s.peerGot.length < s.position n + seg.items.length ∧
        peerTakes iss s.peerGot seg k =
          Pieces.take s.peerGot seg.items (s.peerGot.length - s.position n) k) := by
  have hpiece : s.pieces[n]? = some seg.items := by
    unfold TcpLink.pieces
    rw [List.getElem?_map, hseg]
    rfl
  have hend : s.position n + seg.items.length ≤ s.pieces.flatten.length :=
    Pieces.position_add_le hpiece
  have hseq : seg.seq = u32 (iss + s.position n) := h.chained.seq hiss hseg
  have hplace : s.position n < 2 ^ 32 := by omega
  refine ⟨hpiece, ?_⟩
  unfold peerTakes
  dsimp only
  rw [hseq, old_eq hplace]
  by_cases hold : (s.peerGot.length + 2 ^ 32 - s.position n) % 2 ^ 32 < seg.items.length
  · obtain ⟨hpos, hdist⟩ := Pieces.sub_eq_of_mod_lt (h.got hlen).length_le hend hlen hold
    rw [if_pos hold]
    refine .inr ⟨hpos, ?_, by rw [hdist]⟩
    rw [hdist] at hold
    omega
  · rw [if_neg hold]
    exact .inl rfl

theorem LinkOut.arrive (h : LinkOut iss s) (hiss : iss < 2 ^ 32) (hseg : s.wire[n]? = some seg)
    (hconn : t.conn = s.conn) (hwire : t.wire = s.wire) (hsent : t.sent = s.sent)
    (hgot : t.peerGot = peerTakes iss s.peerGot seg k) : LinkOut iss t := by
  have hpieces : t.pieces = s.pieces := congrArg (List.map TcpSegment.items) hwire
  constructor
  case chained =>
    rw [hwire, hconn]
    exact h.chained
  case rcv => exact hconn ▸ h.rcv
  case bytes =>
    rw [hwire, hsent]
    exact h.bytes
  case got =>
    rw [hpieces, hgot]
    intro hlen
    obtain ⟨hpiece, hsame | ⟨hpos, -, htake⟩⟩ := @LinkOut.arrives _ n k _ _ h hiss hlen hseg
    · rw [hsame]
      exact h.got hlen
    · rw [htake]
      exact Pieces.take_prefix (h.got hlen) (Pieces.prefix_drop_position hpiece) hpos

theorem tcpSendSegment_rcvNxt {flags : BitVec 8} : (tcpSendSegment c flags).rcvNxt = c.rcvNxt := by
  unfold tcpSendSegment
  dsimp only
  split <;> split <;> rfl

theorem tcpClose_rcvNxt : (tcpClose c).rcvNxt = c.rcvNxt := by
  unfold tcpClose
  split
  · rfl
  · dsimp only
    split
    · exact tcpSendSegment_rcvNxt
    · rfl

/-! One step. -/

theorem linkStep_send (h : linkStep iss s (.send data) = some t) : t.conn = s.conn ∧
    t.wire = s.wire ∧ t.sent = s.sent ∧ t.accepted = s.accepted ∧ t.peerGot = s.peerGot := by
  simp only [linkStep] at h
  split at h
  · cases h
    exact ⟨rfl, rfl, rfl, rfl, rfl⟩
  · cases h
    exact ⟨rfl, rfl, rfl, rfl, rfl⟩

/-- A round of `tcp_send` sends the next bytes of its call. -/
theorem linkStep_round {call : Nat} (h : linkStep iss s (.round call) = some t) : ∃ chunk,
    t.conn = tcpSendData s.conn chunk.length ∧ t.wire = s.wire ++ tcpRoundSends s.conn chunk ∧
      t.sent = s.sent ++ chunk ∧ t.accepted = s.accepted ∧ t.peerGot = s.peerGot := by
  simp only [linkStep, Option.bind_eq_bind, Option.bind_eq_some_iff] at h
  obtain ⟨left, -, hleft⟩ := h
  cases hleft
  exact ⟨left.take (sendChunk s.conn left.length), rfl, rfl, rfl, rfl, rfl⟩

theorem linkStep_arrive (h : linkStep iss s (.arrive n k) = some t) : ∃ seg,
    s.wire[n]? = some seg ∧ t = { s with peerGot := peerTakes iss s.peerGot seg k } := by
  simp only [linkStep, Option.bind_eq_bind, Option.bind_eq_some_iff] at h
  obtain ⟨seg, hseg, hgot⟩ := h
  cases hgot
  exact ⟨seg, hseg, rfl⟩

theorem linkOut_start : LinkOut iss (linkStart iss) :=
  ⟨chained_connect, (by decide : 0 < 2 ^ 32), rfl, fun _ => List.nil_prefix⟩

theorem linkIn_start : LinkIn irs peer (linkStart iss) :=
  ⟨List.nil_prefix, fun _ => rfl, fun h => (by cases h)⟩

theorem linkOut_step (hiss : iss < 2 ^ 32) (h : LinkOut iss s)
    (hstep : linkStep iss s event = some t) : LinkOut iss t := by
  cases event with
  | send data =>
    obtain ⟨hconn, hwire, hsent, -, hgot⟩ := linkStep_send hstep
    exact h.quiet (congrArg TcpConn.sndNxt hconn) (congrArg TcpConn.rcvNxt hconn) hwire hsent hgot
  | round call =>
    obtain ⟨chunk, hconn, hwire, hsent, -, hgot⟩ := linkStep_round hstep
    have hrcv : (tcpSendData s.conn chunk.length).rcvNxt = s.conn.rcvNxt :=
      congrArg TcpNumbers.rcvNxt numbers_tcpSendData
    refine h.sends (hconn ▸ chained_round) hwire ?_ hgot ?_
    · rw [hsent, roundSends_data]
    · rw [hconn, hrcv]
      exact h.rcv
  | recv len =>
    cases hstep
    have hnumbers := @numbers_tcpRecv s.conn len
    exact h.quiet (congrArg TcpNumbers.sndNxt hnumbers) (congrArg TcpNumbers.rcvNxt hnumbers)
      rfl rfl rfl
  | close =>
    cases hstep
    refine h.sends chained_close rfl ?_ rfl (lt_of_eq_of_lt tcpClose_rcvNxt h.rcv)
    rw [closeSends_data, List.append_nil]
  | deadline =>
    cases hstep
    exact h.quiet rfl rfl rfl rfl rfl
  | segment seg =>
    cases hstep
    have hrcv := congrArg TcpNumbers.rcvNxt (@numbers_tcpReceive s.conn seg h.rcv)
    refine h.sends (chained_receive (h.sndNxt_lt hiss) h.rcv) rfl ?_ rfl
      (lt_of_eq_of_lt hrcv (TcpNumbers.receive_rcvNxt_lt h.rcv))
    rw [receiveSends_data, List.append_nil]
  | arrive n k =>
    obtain ⟨seg, hseg, rfl⟩ := linkStep_arrive hstep
    exact h.arrive hiss hseg rfl rfl rfl rfl

theorem linkIn_step (hshort : peer.length + 2 ≤ 2 ^ 32) (hrcv : s.conn.rcvNxt < 2 ^ 32)
    (h : LinkIn irs peer s) (hfrom : ∀ seg, event = .segment seg → FromPeer irs peer seg)
    (hstep : linkStep iss s event = some t) : LinkIn irs peer t := by
  cases event with
  | send data =>
    obtain ⟨hconn, -, -, haccepted, -⟩ := linkStep_send hstep
    exact h.same haccepted (congrArg TcpConn.state hconn) (congrArg TcpConn.rcvNxt hconn)
  | round call =>
    obtain ⟨chunk, hconn, -, -, haccepted, -⟩ := linkStep_round hstep
    have hnumbers := @numbers_tcpSendData s.conn chunk.length
    rw [← hconn] at hnumbers
    exact h.same haccepted (congrArg TcpNumbers.state hnumbers)
      (congrArg TcpNumbers.rcvNxt hnumbers)
  | recv len =>
    cases hstep
    have hnumbers := @numbers_tcpRecv s.conn len
    exact h.same rfl (congrArg TcpNumbers.state hnumbers) (congrArg TcpNumbers.rcvNxt hnumbers)
  | close =>
    cases hstep
    by_cases hused : s.conn.used
    · exact h.closed rfl (tcpClose_state hused)
    · have hkeep : tcpClose s.conn = s.conn := if_pos hused
      exact h.same rfl (congrArg TcpConn.state hkeep) tcpClose_rcvNxt
  | deadline =>
    cases hstep
    exact h.closed rfl rfl
  | segment seg =>
    cases hstep
    exact h.segment hshort hrcv (hfrom seg rfl) rfl rfl
  | arrive n k =>
    obtain ⟨seg, -, rfl⟩ := linkStep_arrive hstep
    exact h.same rfl rfl rfl

/-! A run. -/

theorem linkOut_run (hiss : iss < 2 ^ 32)
    (hrun : Run.run (linkStep iss) (linkStart iss) events = some s) : LinkOut iss s :=
  Run.run_invariant (fun _ _ _ h hstep => linkOut_step hiss h hstep) linkOut_start hrun

/-- Whatever the network does with the segments of both sides, neither gets bytes that the other
has not sent there, as long as the numbers do not come round. -/
theorem tcp_transfer_inOrder (hiss : iss < 2 ^ 32) (hshort : peer.length + 2 ≤ 2 ^ 32)
    (hfrom : ∀ seg, .segment seg ∈ events → FromPeer irs peer seg)
    (hrun : Run.run (linkStep iss) (linkStart iss) events = some s)
    (hlen : s.pieces.flatten.length < 2 ^ 32) : InOrder peer s := by
  have hevery : Run.EveryStep (linkStep iss)
      (fun _ event _ => ∀ seg, event = .segment seg → FromPeer irs peer seg) (linkStart iss) events :=
    Run.everyStep_of_forall fun event hevent seg hseg => hfrom seg (hseg ▸ hevent)
  have hin : LinkIn irs peer s := by
    have hstates := hevery.everyState (I := fun s => LinkOut iss s ∧ LinkIn irs peer s)
      (fun s event t h hstep hpeer =>
        ⟨linkOut_step hiss h.1 hstep, linkIn_step hshort h.1.rcv h.2 hpeer hstep⟩)
      (fun s h => h.2) ⟨linkOut_start, linkIn_start⟩
    exact hstates.last hrun
  have hout := linkOut_run hiss hrun
  refine ⟨hin.received, ?_⟩
  have hbytes := (hout.got hlen).filterMap Item.data
  unfold TcpLink.pieces at hbytes
  rwa [filterMap_wire, hout.bytes] at hbytes

/-- Two bytes each way, and the second arrives first. -/
def swapped : List LinkEvent :=
  [.segment ⟨100, 8, tcpSyn ||| tcpAck, 1000, []⟩, .arrive 0 1, .send [1], .round 0, .send [2],
    .round 1, .arrive 3 5, .arrive 2 5, .arrive 3 5, .arrive 3 5,
    .segment ⟨102, 8, tcpAck, 1000, [4]⟩, .segment ⟨101, 8, tcpAck, 1000, [3, 4]⟩]

theorem tcp_transfer_inOrder_swapped :
    ∃ s, Run.run (linkStep 7) (linkStart 7) swapped = some s ∧ InOrder [3, 4] s := by
  refine ⟨_, rfl, @tcp_transfer_inOrder 7 100 [3, 4] _ swapped (by decide) (by decide) ?_ rfl ?_⟩
  · intro seg hseg
    simp only [swapped, List.mem_cons, List.not_mem_nil, or_false, reduceCtorEq, false_or,
      LinkEvent.segment.injEq] at hseg
    rcases hseg with rfl | rfl | rfl
    · exact ⟨0, rfl, by decide⟩
    · exact ⟨2, rfl, by decide⟩
    · exact ⟨1, rfl, by decide⟩
  · decide

/-! A segment that is lost. -/

/-- The peer does not get behind the beginning of segment `n`. -/
def Stopped (n : Nat) (s : TcpLink) : Prop :=
  s.pieces[n]? ≠ some [] → s.pieces.flatten.length < 2 ^ 32 → s.peerGot.length ≤ s.position n

theorem Stopped.more {more : List (List Item)} (h : Stopped n s)
    (hpieces : t.pieces = s.pieces ++ more) (hgot : t.peerGot = s.peerGot) : Stopped n t := by
  intro hsome hlen
  have hbefore : s.pieces[n]? ≠ some [] := by
    intro hnone
    refine hsome ?_
    rw [hpieces, List.getElem?_append_left (List.getElem?_eq_some_iff.mp hnone).1]
    exact hnone
  rw [hpieces, List.flatten_append, List.length_append] at hlen
  have hle := h hbefore (by omega)
  rw [hgot]
  unfold TcpLink.position at *
  rw [hpieces]
  exact hle.trans Pieces.position_le_append

/-- Another segment arrives. -/
theorem Stopped.arrive {m : Nat} (h : Stopped n s) (hout : LinkOut iss s) (hiss : iss < 2 ^ 32)
    (hseg : s.wire[m]? = some seg) (hne : m ≠ n) (hwire : t.wire = s.wire)
    (hgot : t.peerGot = peerTakes iss s.peerGot seg k) : Stopped n t := by
  have hpieces : t.pieces = s.pieces := congrArg (List.map TcpSegment.items) hwire
  have hplace : t.position n = s.position n := congrArg (fun p => Pieces.position p n) hpieces
  intro hsome hlen
  rw [hpieces] at hsome hlen
  have hbefore := h hsome hlen
  rw [hplace, hgot]
  obtain ⟨hpiece, hsame | ⟨hpos, hend, htake⟩⟩ := @LinkOut.arrives _ m k _ _ hout hiss hlen hseg
  · rw [hsame]
    exact hbefore
  · rw [htake]
    rcases Nat.lt_or_gt_of_ne hne with hlt | hgt
    · exact (Pieces.length_take_le hpos hend.le).trans (Pieces.position_add_le_position hpiece hlt)
    · exfalso
      have hm := (List.getElem?_eq_some_iff.mp hpiece).1
      obtain ⟨lost, hlost⟩ : ∃ lost, s.pieces[n]? = some lost :=
        ⟨_, List.getElem?_eq_getElem (by omega)⟩
      have hlast : s.position n + lost.length ≤ s.position m :=
        Pieces.position_add_le_position hlost hgt
      have hpositive : 0 < lost.length :=
        List.length_pos_iff.mpr fun hnil => hsome (hnil ▸ hlost)
      omega

theorem stopped_step (hiss : iss < 2 ^ 32) (hout : LinkOut iss s) (h : Stopped n s)
    (hother : ∀ k, event ≠ .arrive n k) (hstep : linkStep iss s event = some t) : Stopped n t := by
  have hquiet : t.wire = s.wire → t.peerGot = s.peerGot → Stopped n t := by
    intro hwire hgot
    refine @Stopped.more _ _ _ [] h ?_ hgot
    rw [List.append_nil]
    exact congrArg (List.map TcpSegment.items) hwire
  cases event with
  | send data =>
    obtain ⟨-, hwire, -, -, hgot⟩ := linkStep_send hstep
    exact hquiet hwire hgot
  | round call =>
    obtain ⟨chunk, -, hwire, -, -, hgot⟩ := linkStep_round hstep
    exact h.more (pieces_append hwire) hgot
  | recv len =>
    cases hstep
    exact hquiet rfl rfl
  | close =>
    cases hstep
    exact h.more (pieces_append rfl) rfl
  | deadline =>
    cases hstep
    exact hquiet rfl rfl
  | segment seg =>
    cases hstep
    exact h.more (pieces_append rfl) rfl
  | arrive m k =>
    obtain ⟨seg, hseg, rfl⟩ := linkStep_arrive hstep
    exact h.arrive hout hiss hseg (fun hmn => hother k (hmn ▸ rfl)) rfl rfl

/-- No segment is sent again: when one with a number of its own does not arrive, the peer gets
nothing from behind it, whatever is sent later. -/
theorem tcp_loss_final (hiss : iss < 2 ^ 32) (hlost : ∀ k, .arrive n k ∉ events)
    (hrun : Run.run (linkStep iss) (linkStart iss) events = some s)
    (hlen : s.pieces.flatten.length < 2 ^ 32) (hseg : s.wire[n]? = some seg)
    (hitems : seg.items ≠ []) :
    s.peerGot.filterMap Item.data <+: (s.wire.take n).flatMap TcpSegment.data := by
  have hevery : Run.EveryStep (linkStep iss) (fun _ event _ => ∀ k, event ≠ .arrive n k)
      (linkStart iss) events :=
    Run.everyStep_of_forall fun event hevent k heq => hlost k (heq ▸ hevent)
  have hstopped : Stopped n s := by
    have hstates := hevery.everyState (I := fun s => LinkOut iss s ∧ Stopped n s)
      (fun s event t h hstep hother =>
        ⟨linkOut_step hiss h.1 hstep, stopped_step hiss h.1 h.2 hother hstep⟩)
      (fun s h => h.2) ⟨linkOut_start, fun _ _ => Nat.zero_le _⟩
    exact hstates.last hrun
  have hpiece : s.pieces[n]? ≠ some [] := by
    unfold TcpLink.pieces
    rw [List.getElem?_map, hseg]
    exact fun h => hitems (Option.some.inj h)
  have hfront := Pieces.prefix_flatten_take ((linkOut_run hiss hrun).got hlen)
    (hstopped hpiece hlen)
  have hbytes := hfront.filterMap Item.data
  unfold TcpLink.pieces at hbytes
  rwa [← List.map_take, filterMap_wire] at hbytes

/-- The first of two segments is lost, and the second arrives. -/
def firstLost : List LinkEvent :=
  [.segment ⟨100, 8, tcpSyn ||| tcpAck, 1000, []⟩, .arrive 0 1, .send [1], .round 0, .send [2],
    .round 1, .arrive 3 5, .arrive 3 5]

theorem tcp_loss_final_first : ∃ s, Run.run (linkStep 7) (linkStart 7) firstLost = some s ∧
    s.sent = [1, 2] ∧ s.peerGot.filterMap Item.data <+: [] := by
  refine ⟨_, rfl, rfl, @tcp_loss_final 7 2 _ _ firstLost (by decide) ?_ rfl ?_ rfl ?_⟩
  · intro k hk
    simp [firstLost] at hk
  · decide
  · decide

end PinguinOS.Net
