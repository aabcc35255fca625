import PinguinOS.Net.TcpSteps

/-! `rcv_nxt`: what the connection has told its peer that it got. -/
namespace PinguinOS.Net

open Mm (u32)

/-- The fields of a segment have the sizes of `tcp_hdr_t`, and its length that of `len`. -/
structure TcpSegment.Wf (seg : TcpSegment) : Prop where
  seq : seg.seq < 2 ^ 32
  ack : seg.ack < 2 ^ 32
  window : seg.window < 2 ^ 16
  length : seg.data.length < 2 ^ 32

/-- A call of `tcp_connect`, the end of its wait without an answer, or a segment. -/
inductive PeerEvent
  | connect (iss : Nat)
  | deadline
  | segment (seg : TcpSegment)

/-- The segment answers the `SYN`. -/
def TakesSyn (c : TcpConn) (seg : TcpSegment) : Prop :=
  c.used ∧ c.state = .synSent ∧ seg.flags &&& (tcpSyn ||| tcpAck) = tcpSyn ||| tcpAck

/-- The segment has a `FIN` that moves the connection on. -/
def TakesFin (c : TcpConn) (seg : TcpSegment) : Prop :=
  c.used ∧ (c.state = .established ∨ c.state = .finWait2) ∧ seg.flags &&& tcpFin ≠ 0

instance {c : TcpConn} {seg : TcpSegment} : Decidable (TakesSyn c seg) :=
  inferInstanceAs (Decidable (_ ∧ _ ∧ _))

instance {c : TcpConn} {seg : TcpSegment} : Decidable (TakesFin c seg) :=
  inferInstanceAs (Decidable (_ ∧ _ ∧ _))

/-- A connection; the number of the peer's `SYN`, those of the bytes that were stored, and those
of the `FIN`s that were taken. -/
structure SeqLog where
  conn : TcpConn
  irs : Option Nat
  stored : List Nat
  fins : List Nat

/-- `tcp_connect` -/
def SeqLog.connect (s : SeqLog) (iss : Nat) : SeqLog :=
  if s.conn.used then ⟨tcpConnect s.conn iss, none, [], []⟩ else s

/-- `tcp_receive` -/
def SeqLog.receive (s : SeqLog) (seg : TcpSegment) : SeqLog where
  conn := tcpReceive s.conn seg
  irs := if TakesSyn s.conn seg then some seg.seq else s.irs
  stored := s.stored ++ (List.range (newBytes s.conn seg).length).map fun i => u32 (seg.seq + i)
  fins := s.fins ++ if TakesFin s.conn seg then [u32 (seg.seq + seg.data.length)] else []

def seqStep (s : SeqLog) : PeerEvent → Option SeqLog
  | .connect iss => some (s.connect iss)
  | .deadline => some { s with conn := { s.conn with state := .closed } }
  | .segment seg => some (s.receive seg)

def seqStart : SeqLog := ⟨tcpSocket, none, [], []⟩

/-- The bytes follow the `SYN` without a gap, one `FIN` at most follows them, and `rcv_nxt` is
behind all of that. -/
structure RcvNxtOk (s : SeqLog) : Prop where
  known : s.irs = none → s.conn.state = .synSent ∨ s.conn.state = .closed
  counts : ∀ irs, s.irs = some irs →
    s.conn.rcvNxt = u32 (irs + 1 + s.stored.length + s.fins.length)
  inOrder : ∀ irs, s.irs = some irs →
    s.stored = (List.range s.stored.length).map fun i => u32 (irs + 1 + i)
  once : s.fins.length ≤ 1
  complete : ∀ irs, s.irs = some irs → ∀ fin ∈ s.fins, fin = u32 (irs + 1 + s.stored.length)

/-- An established connection gets a `FIN` only when it has everything before it: all bytes of the
segment are new and fit, or all of them are old. -/
def FinInOrder (s : SeqLog) (event : PeerEvent) (_ : SeqLog) : Prop :=
  ∀ seg, event = .segment seg → s.conn.used → s.conn.state = .established →
    seg.flags &&& tcpFin ≠ 0 →
      u32 (seg.seq + seg.data.length) = s.conn.rcvNxt ∨
        seg.seq = s.conn.rcvNxt ∧ seg.data.length ≤ s.conn.rxFree

structure SeqLog.Inv (s : SeqLog) : Prop where
  bound : s.conn.rcvNxt < 2 ^ 32
  fresh : s.conn.state = .synSent → s.irs = none ∧ s.stored = [] ∧ s.fins = []
  open_ : s.conn.state = .established → s.irs ≠ none ∧ s.fins = []
  states : s.conn.state = .closed ∨ s.conn.state = .synSent ∨ s.conn.state = .established ∨
    s.conn.state = .lastAck

variable {s t : SeqLog} {seg : TcpSegment} {event : PeerEvent} {iss : Nat}

theorem seqStart_inv : seqStart.Inv := by
  constructor
  case bound => decide
  case fresh => exact fun h => (nomatch h)
  case open_ => exact fun h => (nomatch h)
  case states => exact .inl rfl

theorem seqStart_ok : RcvNxtOk seqStart := by
  constructor
  case known => exact fun _ => .inr rfl
  case counts => exact fun _ h => (nomatch h)
  case inOrder => exact fun _ h => (nomatch h)
  case once => decide
  case complete => exact fun _ h => (nomatch h)

/-- A step that takes nothing leaves the count as it is. -/
theorem RcvNxtOk.quiet (h : RcvNxtOk s) (hirs : t.irs = s.irs) (hstored : t.stored = s.stored)
    (hfins : t.fins = s.fins) (hnxt : t.conn.rcvNxt = s.conn.rcvNxt)
    (hstate : t.conn.state = s.conn.state ∨ t.conn.state = .closed) : RcvNxtOk t := by
  constructor
  case known =>
    rw [hirs]
    intro hnone
    rcases hstate with hsame | hclosed
    · rw [hsame]
      exact h.known hnone
    · exact .inr hclosed
  case counts =>
    rw [hirs, hstored, hfins, hnxt]
    exact h.counts
  case inOrder =>
    rw [hirs, hstored]
    exact h.inOrder
  case once =>
    rw [hfins]
    exact h.once
  case complete =>
    rw [hirs, hstored, hfins]
    exact h.complete

theorem SeqLog.Inv.quiet (hs : s.Inv) (hirs : t.irs = s.irs) (hstored : t.stored = s.stored)
    (hfins : t.fins = s.fins) (hnxt : t.conn.rcvNxt = s.conn.rcvNxt)
    (hstate : t.conn.state = s.conn.state ∨ t.conn.state = .closed) : t.Inv := by
  constructor
  case bound =>
    rw [hnxt]
    exact hs.bound
  case fresh =>
    intro hsyn
    rw [hirs, hstored, hfins]
    rcases hstate with hsame | hclosed
    · exact hs.fresh (hsame ▸ hsyn)
    · rw [hclosed] at hsyn
      cases hsyn
  case open_ =>
    intro hopen
    rw [hirs, hfins]
    rcases hstate with hsame | hclosed
    · exact hs.open_ (hsame ▸ hopen)
    · rw [hclosed] at hopen
      cases hopen
  case states =>
    rcases hstate with hsame | hclosed
    · rw [hsame]
      exact hs.states
    · exact .inl hclosed

/-- What there is to check once the number of the peer's `SYN` is known. -/
theorem RcvNxtOk.of_irs {irs : Nat} (hirs : s.irs = some irs)
    (hcounts : s.conn.rcvNxt = u32 (irs + 1 + s.stored.length + s.fins.length))
    (hinOrder : s.stored = (List.range s.stored.length).map fun i => u32 (irs + 1 + i))
    (honce : s.fins.length ≤ 1)
    (hcomplete : ∀ fin ∈ s.fins, fin = u32 (irs + 1 + s.stored.length)) : RcvNxtOk s := by
  constructor
  case known =>
    rw [hirs]
    exact fun h => (nomatch h)
  case counts =>
    rw [hirs]
    rintro _ ⟨⟩
    exact hcounts
  case inOrder =>
    rw [hirs]
    rintro _ ⟨⟩
    exact hinOrder
  case once => exact honce
  case complete =>
    rw [hirs]
    rintro _ ⟨⟩
    exact hcomplete

theorem connect_ok (hs : s.Inv) (h : RcvNxtOk s) :
    (s.connect iss).Inv ∧ RcvNxtOk (s.connect iss) := by
  unfold SeqLog.connect
  split
  case isTrue =>
    constructor
    · constructor
      case bound => exact hs.bound
      case fresh => exact fun _ => ⟨rfl, rfl, rfl⟩
      case open_ => exact fun hopen => (nomatch hopen)
      case states => exact .inr (.inl rfl)
    · constructor
      case known => exact fun _ => .inl rfl
      case counts => exact fun _ hirs => (nomatch hirs)
      case inOrder => exact fun _ hirs => (nomatch hirs)
      case once => exact Nat.zero_le _
      case complete => exact fun _ hirs => (nomatch hirs)
  case isFalse => exact ⟨hs, h⟩

theorem deadline_ok (hs : s.Inv) (h : RcvNxtOk s) (hstep : seqStep s .deadline = some t) :
    t.Inv ∧ RcvNxtOk t := by
  cases hstep
  exact ⟨hs.quiet rfl rfl rfl rfl (.inr rfl), h.quiet rfl rfl rfl rfl (.inr rfl)⟩

/-! One segment. -/

variable {q : TcpNumbers} {c : TcpConn} {n : Nat}

/-- Outside of these cases a segment at most closes the connection. -/
theorem TcpNumbers.receive_quiet (h : ¬ q.used ∨ q.state = .closed ∨ q.state = .lastAck ∨
      q.state = .synSent ∧ seg.flags &&& (tcpSyn ||| tcpAck) ≠ tcpSyn ||| tcpAck) :
    (q.receive seg n).rcvNxt = q.rcvNxt ∧
      ((q.receive seg n).state = q.state ∨ (q.receive seg n).state = .closed) := by
  by_cases hused : q.used
  · rcases h with hunused | hstate | hstate | ⟨hstate, hflags⟩
    · exact absurd hused hunused
    · rw [TcpNumbers.receive_closed hused hstate]
      exact ⟨rfl, .inl rfl⟩
    · rw [TcpNumbers.receive_lastAck hused hstate]
      split
      · exact ⟨rfl, .inr rfl⟩
      · exact ⟨rfl, .inl rfl⟩
    · rw [TcpNumbers.receive_synSent hused hstate, if_neg hflags]
      exact ⟨rfl, .inl rfl⟩
  · rw [TcpNumbers.receive_unused hused]
    exact ⟨rfl, .inl rfl⟩

/-- Only an established connection stores bytes. -/
theorem receive_stored (hopen : ¬ (s.conn.used ∧ s.conn.state = .established)) :
    (s.receive seg).stored = s.stored := by
  have hnew : newBytes s.conn seg = [] := if_neg hopen
  unfold SeqLog.receive
  rw [hnew]
  exact List.append_nil _

theorem receive_fins (hfin : ¬ TakesFin s.conn seg) : (s.receive seg).fins = s.fins := by
  unfold SeqLog.receive
  rw [if_neg hfin]
  exact List.append_nil _

theorem receive_quiet (hs : s.Inv) (hsyn : ¬ TakesSyn s.conn seg)
    (hopen : ¬ (s.conn.used ∧ s.conn.state = .established)) :
    (s.receive seg).irs = s.irs ∧ (s.receive seg).stored = s.stored ∧
      (s.receive seg).fins = s.fins ∧ (s.receive seg).conn.rcvNxt = s.conn.rcvNxt ∧
      ((s.receive seg).conn.state = s.conn.state ∨ (s.receive seg).conn.state = .closed) := by
  have hfin : ¬ TakesFin s.conn seg := by
    rintro ⟨hused, hstate | hstate, -⟩
    · exact hopen ⟨hused, hstate⟩
    · have hstates := hs.states
      rw [hstate] at hstates
      rcases hstates with h | h | h | h <;> cases h
  have hcase : ¬ s.conn.numbers.used ∨ s.conn.numbers.state = .closed ∨
      s.conn.numbers.state = .lastAck ∨ s.conn.numbers.state = .synSent ∧
        seg.flags &&& (tcpSyn ||| tcpAck) ≠ tcpSyn ||| tcpAck := by
    by_cases hused : s.conn.used
    · rcases hs.states with h | h | h | h
      · exact .inr (.inl h)
      · exact .inr (.inr (.inr ⟨h, fun hflags => hsyn ⟨hused, h, hflags⟩⟩))
      · exact absurd ⟨hused, h⟩ hopen
      · exact .inr (.inr (.inl h))
    · exact .inl hused
  obtain ⟨hnxt, hstate⟩ := @TcpNumbers.receive_quiet seg s.conn.numbers
    (newBytes s.conn seg).length hcase
  rw [← numbers_tcpReceive hs.bound] at hnxt hstate
  exact ⟨if_neg hsyn, receive_stored hopen, receive_fins hfin, hnxt, hstate⟩

/-- The answer to the `SYN` starts the count. -/
theorem receive_syn (hs : s.Inv) (hsyn : TakesSyn s.conn seg) :
    (s.receive seg).Inv ∧ RcvNxtOk (s.receive seg) := by
  obtain ⟨hused, hstate, hflags⟩ := hsyn
  obtain ⟨-, hstored, hfins⟩ := hs.fresh hstate
  have hopen : ¬ (s.conn.used ∧ s.conn.state = .established) :=
    fun h => nomatch hstate.symm.trans h.2
  have hfin : ¬ TakesFin s.conn seg := by
    rintro ⟨-, h | h, -⟩
    · cases hstate.symm.trans h
    · cases hstate.symm.trans h
  have hnumbers : (s.receive seg).conn.numbers = { s.conn.numbers with
      sndWnd := seg.window, rcvNxt := u32 (seg.seq + 1), sndUna := seg.ack
      state := .established } := by
    refine (numbers_tcpReceive hs.bound).trans ?_
    rw [TcpNumbers.receive_synSent hused hstate, if_pos hflags]
  have hnxt : (s.receive seg).conn.rcvNxt = u32 (seg.seq + 1) := congrArg TcpNumbers.rcvNxt hnumbers
  have hopened : (s.receive seg).conn.state = .established := congrArg TcpNumbers.state hnumbers
  have hirs : (s.receive seg).irs = some seg.seq := if_pos ⟨hused, hstate, hflags⟩
  have hstored' : (s.receive seg).stored = [] := (receive_stored hopen).trans hstored
  have hfins' : (s.receive seg).fins = [] := (receive_fins hfin).trans hfins
  constructor
  · constructor
    case bound =>
      rw [hnxt]
      exact Mm.u32_lt
    case fresh => exact fun h => (nomatch hopened.symm.trans h)
    case open_ =>
      rw [hirs, hfins']
      exact fun _ => ⟨Option.some_ne_none _, rfl⟩
    case states => exact .inr (.inr (.inl hopened))
  · refine RcvNxtOk.of_irs hirs ?_ ?_ ?_ ?_
    · rw [hstored', hfins', hnxt]
      rfl
    · rw [hstored']
      rfl
    · rw [hfins']
      exact Nat.zero_le _
    · rw [hfins']
      exact fun _ h => (nomatch h)

/-- Bytes are taken only from the number that comes next. -/
theorem newBytes_seq (h : (newBytes s.conn seg).length ≠ 0) : seg.seq = s.conn.rcvNxt := by
  by_contra hseq
  refine h ?_
  have hnone : acceptedBytes s.conn seg = [] := if_neg fun hboth => hseq hboth.2
  unfold newBytes
  split
  · rw [hnone]
    rfl
  · rfl

/-- The number behind the bytes that are taken. -/
def nextNumber (c : TcpConn) (seg : TcpSegment) : Nat :=
  if (newBytes c seg).length = 0 then c.rcvNxt else u32 (c.rcvNxt + (newBytes c seg).length)

theorem nextNumber_lt (hs : s.Inv) : nextNumber s.conn seg < 2 ^ 32 := by
  unfold nextNumber
  split
  · exact hs.bound
  · exact Mm.u32_lt

/-- Stored bytes go on where the others end. -/
theorem stored_inOrder {irs : Nat} (h : RcvNxtOk s) (hirs : s.irs = some irs)
    (hfins : s.fins = []) :
    (s.receive seg).stored =
      ((List.range (s.receive seg).stored.length).map fun i => u32 (irs + 1 + i)) ∧
    nextNumber s.conn seg = u32 (irs + 1 + (s.receive seg).stored.length) := by
  have hcount := h.counts irs hirs
  rw [hfins, List.length_nil, Nat.add_zero] at hcount
  have hlength : (s.receive seg).stored.length =
      s.stored.length + (newBytes s.conn seg).length := by
    unfold SeqLog.receive
    rw [List.length_append, List.length_map, List.length_range]
  rw [hlength]
  by_cases hnew : (newBytes s.conn seg).length = 0
  · have hsame : (s.receive seg).stored = s.stored := by
      unfold SeqLog.receive
      rw [hnew]
      exact List.append_nil _
    unfold nextNumber
    rw [hnew, hsame, if_pos rfl, Nat.add_zero]
    exact ⟨h.inOrder irs hirs, hcount⟩
  · have hseq := newBytes_seq hnew
    constructor
    · unfold SeqLog.receive
      dsimp only
      rw [List.range_add, List.map_append, List.map_map, ← h.inOrder irs hirs]
      congr 1
      refine List.map_congr_left fun i _ => ?_
      rw [Function.comp_apply, hseq, hcount]
      unfold u32
      omega
    · unfold nextNumber
      rw [if_neg hnew, hcount]
      unfold u32
      omega

theorem length_newBytes (hused : c.used) (hstate : c.state = .established) :
    (newBytes c seg).length =
      if seg.data.length ≠ 0 ∧ seg.seq = c.rcvNxt then min seg.data.length c.rxFree else 0 := by
  have hnew : newBytes c seg = acceptedBytes c seg := if_pos ⟨hused, hstate⟩
  rw [hnew]
  unfold acceptedBytes
  split
  · rw [List.length_take]
    split <;> omega
  · rfl

/-- The `FIN` comes next exactly when the segment is all new and fits, or is all old. -/
theorem fin_next_iff (hbound : c.rcvNxt < 2 ^ 32) (hwf : seg.Wf) (hused : c.used)
    (hstate : c.state = .established) :
    u32 (seg.seq + seg.data.length) = nextNumber c seg ↔
      u32 (seg.seq + seg.data.length) = c.rcvNxt ∨
        seg.seq = c.rcvNxt ∧ seg.data.length ≤ c.rxFree := by
  have hlen := hwf.length
  unfold nextNumber
  rw [length_newBytes hused hstate]
  by_cases hnew : seg.data.length ≠ 0 ∧ seg.seq = c.rcvNxt
  · rw [if_pos hnew]
    obtain ⟨hsome, hseq⟩ := hnew
    rw [hseq]
    unfold u32
    by_cases hfree : c.rxFree = 0
    · rw [hfree, Nat.min_zero, if_pos rfl]
      omega
    · rw [if_neg (by omega)]
      omega
  · rw [if_neg hnew, if_pos rfl]
    constructor
    · exact .inl
    · rintro (hold | ⟨hseq, -⟩)
      · exact hold
      · have hnone : seg.data.length = 0 := by
          by_contra hsome
          exact hnew ⟨hsome, hseq⟩
        rw [hnone, Nat.add_zero, hseq, Mm.u32_of_lt hbound]

/-- An established connection keeps its start, and what it stores is in order. -/
theorem receive_inOrder (hs : s.Inv) (h : RcvNxtOk s) (hstate : s.conn.state = .established) :
    s.fins = [] ∧ ∃ irs, (s.receive seg).irs = some irs ∧
      (s.receive seg).stored =
        ((List.range (s.receive seg).stored.length).map fun i => u32 (irs + 1 + i)) ∧
      nextNumber s.conn seg = u32 (irs + 1 + (s.receive seg).stored.length) := by
  obtain ⟨hknown, hfins⟩ := hs.open_ hstate
  obtain ⟨irs, hirs⟩ := Option.ne_none_iff_exists'.mp hknown
  have hsyn : ¬ TakesSyn s.conn seg := by
    rintro ⟨-, hsent, -⟩
    rw [hstate] at hsent
    cases hsent
  exact ⟨hfins, irs, (if_neg hsyn).trans hirs, stored_inOrder h hirs hfins⟩

/-- A segment with a `FIN`: its number is to be the next one. -/
theorem receive_fin (hs : s.Inv) (h : RcvNxtOk s) (hwf : seg.Wf) (hused : s.conn.used)
    (hstate : s.conn.state = .established) (hfin : seg.flags &&& tcpFin ≠ 0) :
    (s.receive seg).Inv ∧
      (FinInOrder s (.segment seg) (s.receive seg) ↔ RcvNxtOk (s.receive seg)) := by
  obtain ⟨hfins, irs, hirs, hinOrder, hnext⟩ := @receive_inOrder s seg hs h hstate
  have hnumbers := @numbers_tcpReceive s.conn seg hs.bound
  rw [TcpNumbers.receive_established hused hstate] at hnumbers
  dsimp only at hnumbers
  rw [if_pos hfin] at hnumbers
  have hfinIff := fin_next_iff hs.bound hwf hused hstate
  have hnxt : (s.receive seg).conn.rcvNxt = u32 (nextNumber s.conn seg + 1) :=
    congrArg TcpNumbers.rcvNxt hnumbers
  have hlast : (s.receive seg).conn.state = .lastAck := congrArg TcpNumbers.state hnumbers
  have htakes : TakesFin s.conn seg := ⟨hused, .inl hstate, hfin⟩
  have hfins' : (s.receive seg).fins = [u32 (seg.seq + seg.data.length)] := by
    unfold SeqLog.receive
    rw [if_pos htakes, hfins]
    rfl
  refine ⟨⟨?_, ?_, ?_, .inr (.inr (.inr hlast))⟩, ?_⟩
  · rw [hnxt]
    exact Mm.u32_lt
  · rw [hlast]
    exact fun h => (nomatch h)
  · rw [hlast]
    exact fun h => (nomatch h)
  · constructor
    · intro hcond
      have hplace := hfinIff.mpr (hcond seg rfl hused hstate hfin)
      refine RcvNxtOk.of_irs hirs ?_ hinOrder ?_ ?_
      · rw [hfins', hnxt, hnext, List.length_singleton]
        unfold u32
        omega
      · rw [hfins']
        exact Nat.le_refl _
      · rw [hfins']
        intro fin hmem
        rw [List.mem_singleton.mp hmem, hplace, hnext]
    · rintro hok _ ⟨⟩ - - -
      have hplace := hok.complete irs hirs (u32 (seg.seq + seg.data.length))
        (by rw [hfins']; exact List.mem_singleton_self _)
      exact hfinIff.mp (hplace.trans hnext.symm)

/-- A segment without one. -/
theorem receive_data (hs : s.Inv) (h : RcvNxtOk s) (hused : s.conn.used)
    (hstate : s.conn.state = .established) (hfin : ¬ seg.flags &&& tcpFin ≠ 0) :
    (s.receive seg).Inv ∧
      (FinInOrder s (.segment seg) (s.receive seg) ↔ RcvNxtOk (s.receive seg)) := by
  obtain ⟨hfins, irs, hirs, hinOrder, hnext⟩ := @receive_inOrder s seg hs h hstate
  have hnumbers := @numbers_tcpReceive s.conn seg hs.bound
  rw [TcpNumbers.receive_established hused hstate] at hnumbers
  dsimp only at hnumbers
  rw [if_neg hfin] at hnumbers
  have hnxt : (s.receive seg).conn.rcvNxt = nextNumber s.conn seg :=
    congrArg TcpNumbers.rcvNxt hnumbers
  have hopen : (s.receive seg).conn.state = .established :=
    (congrArg TcpNumbers.state hnumbers).trans hstate
  have hkeeps : ¬ TakesFin s.conn seg := fun htakes => hfin htakes.2.2
  have hfins' : (s.receive seg).fins = [] := (receive_fins hkeeps).trans hfins
  refine ⟨⟨?_, ?_, ?_, .inr (.inr (.inl hopen))⟩, iff_of_true ?_ ?_⟩
  · rw [hnxt]
    exact nextNumber_lt hs
  · rw [hopen]
    exact fun h => (nomatch h)
  · rw [hirs, hfins']
    exact fun _ => ⟨Option.some_ne_none _, rfl⟩
  · rintro _ ⟨⟩ - - hflag
    exact absurd hflag hfin
  · refine RcvNxtOk.of_irs hirs ?_ hinOrder ?_ ?_
    · rw [hfins', hnxt, hnext]
      rfl
    · rw [hfins']
      exact Nat.zero_le _
    · rw [hfins']
      exact fun _ hmem => (nomatch hmem)

/-- A segment of an established connection. -/
theorem receive_open (hs : s.Inv) (h : RcvNxtOk s) (hwf : seg.Wf) (hused : s.conn.used)
    (hstate : s.conn.state = .established) :
    (s.receive seg).Inv ∧
      (FinInOrder s (.segment seg) (s.receive seg) ↔ RcvNxtOk (s.receive seg)) := by
  by_cases hfin : seg.flags &&& tcpFin ≠ 0
  · exact receive_fin hs h hwf hused hstate hfin
  · exact receive_data hs h hused hstate hfin

theorem seqStep_segment (hs : s.Inv) (h : RcvNxtOk s) (hwf : seg.Wf)
    (hstep : seqStep s (.segment seg) = some t) :
    t.Inv ∧ (FinInOrder s (.segment seg) t ↔ RcvNxtOk t) := by
  cases hstep
  by_cases hopen : s.conn.used ∧ s.conn.state = .established
  · exact receive_open hs h hwf hopen.1 hopen.2
  · have hcond : FinInOrder s (.segment seg) (s.receive seg) := by
      rintro _ ⟨⟩ hused hstate
      exact absurd ⟨hused, hstate⟩ hopen
    by_cases hsyn : TakesSyn s.conn seg
    · obtain ⟨hinv, hok⟩ := receive_syn hs hsyn
      exact ⟨hinv, iff_of_true hcond hok⟩
    · obtain ⟨hirs, hstored, hfins, hnxt, hstate⟩ := receive_quiet hs hsyn hopen
      exact ⟨hs.quiet hirs hstored hfins hnxt hstate,
        iff_of_true hcond (h.quiet hirs hstored hfins hnxt hstate)⟩

/-- `rcv_nxt` is exact in every state of a run as long as each `FIN` comes in order. -/
theorem rcv_nxt_iff (events : List PeerEvent) (hwf : ∀ seg, .segment seg ∈ events → seg.Wf) :
    Run.EveryState seqStep RcvNxtOk seqStart events ↔
      Run.EveryStep seqStep FinInOrder seqStart events := by
  refine Run.everyState_iff (A := fun event => ∀ seg, event = .segment seg → seg.Wf)
    (I := SeqLog.Inv) ?_ ?_ seqStart_inv seqStart_ok
  · rintro event hevent seg rfl
    exact hwf seg hevent
  · intro s event t hevent hs h hstep
    cases event with
    | connect iss =>
      cases hstep
      obtain ⟨hinv, hok⟩ := @connect_ok s iss hs h
      exact ⟨hinv, iff_of_true (fun _ hcall => (nomatch hcall)) hok⟩
    | deadline =>
      obtain ⟨hinv, hok⟩ := deadline_ok hs h hstep
      exact ⟨hinv, iff_of_true (fun _ hcall => (nomatch hcall)) hok⟩
    | segment seg => exact seqStep_segment hs h (hevent seg rfl) hstep

def synAck (seq ack window : Nat) : TcpSegment := ⟨seq, ack, tcpSyn ||| tcpAck, window, []⟩

def finAck (seq ack : Nat) : TcpSegment := ⟨seq, ack, tcpFin ||| tcpAck, 8192, []⟩

theorem finAck_wf {seq ack : Nat} (hseq : seq < 2 ^ 32) (hack : ack < 2 ^ 32) :
    (finAck seq ack).Wf := by
  constructor
  case seq => exact hseq
  case ack => exact hack
  case window => exact (by decide : 8192 < 2 ^ 16)
  case length => exact (by decide : 0 < 2 ^ 32)

/-- A `FIN` that comes before any answer is not taken. -/
theorem rcv_nxt_iff_early : Run.EveryState seqStep RcvNxtOk seqStart
    [.connect 7, .segment (finAck 100 8)] := by
  refine (rcv_nxt_iff [.connect 7, .segment (finAck 100 8)] ?_).mpr ?_
  · intro seg hmem
    rcases List.mem_cons.mp hmem with hfirst | hmem
    · cases hfirst
    · cases List.mem_singleton.mp hmem
      exact finAck_wf (by decide) (by decide)
  · rintro _ ⟨⟩
    refine ⟨fun _ hcall => (nomatch hcall), ?_⟩
    rintro _ ⟨⟩
    refine ⟨?_, trivial⟩
    rintro _ ⟨⟩ - hstate
    cases hstate

/-- The peer sends its bytes 101 to 104 and a `FIN`, and the bytes are lost. -/
theorem not_rcv_nxt_lost : ¬ Run.EveryState seqStep RcvNxtOk seqStart
    [.connect 7, .segment (synAck 100 8 8192), .segment (finAck 105 8)] := by
  intro h
  obtain ⟨last, hlast⟩ : ∃ last, Run.run seqStep seqStart
      [.connect 7, .segment (synAck 100 8 8192), .segment (finAck 105 8)] = some last := ⟨_, rfl⟩
  have hok := h.last hlast
  cases hlast
  have hplace := hok.complete 100 rfl 105 (by decide)
  revert hplace
  decide

end PinguinOS.Net
