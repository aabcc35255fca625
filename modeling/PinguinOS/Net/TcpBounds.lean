import PinguinOS.Net.TcpSteps

/-! What `tcp_receive` reads of a segment, and what becomes of a malformed one. -/
namespace PinguinOS.Net

open Mm (u32 sub32 u32_of_lt)

/-- A slot of `conns` with the time of its last segment. -/
structure TcpEntry extends TcpSlot where
  retxLastMs : Nat

/-- `hdr_len` -/
def tcpHdrLen (hdr : Nat → BitVec 8) : Nat := (hdr 12 >>> 4).toNat * 4

def tcpSrcPort (hdr : Nat → BitVec 8) : BitVec 16 := htons (hdr 1 ++ hdr 0)

def tcpDstPort (hdr : Nat → BitVec 8) : BitVec 16 := htons (hdr 3 ++ hdr 2)

/-- The segment of `len` bytes in memory from `hdr` on; the length of its data wraps. -/
def tcpSegmentAt (hdr : Nat → BitVec 8) (len : Nat) : TcpSegment where
  seq := (htonl (hdr 7 ++ hdr 6 ++ hdr 5 ++ hdr 4)).toNat
  ack := (htonl (hdr 11 ++ hdr 10 ++ hdr 9 ++ hdr 8)).toNat
  flags := hdr 13
  window := (htons (hdr 15 ++ hdr 14)).toNat
  data := (List.range (sub32 len (tcpHdrLen hdr))).map fun i => hdr (tcpHdrLen hdr + i)

/-- `tcp_receive` calls `tcp_send_segment`. -/
def Sends (c : TcpConn) (seg : TcpSegment) : Prop :=
  match c.state with
  | .synSent => seg.flags &&& (tcpSyn ||| tcpAck) = tcpSyn ||| tcpAck
  | .established => (seg.data.length ≠ 0 ∧ seg.seq = c.rcvNxt) ∨ seg.flags &&& tcpFin ≠ 0
  | .finWait2 => seg.flags &&& tcpFin ≠ 0
  | _ => False

instance {c : TcpConn} {seg : TcpSegment} : Decidable (Sends c seg) := by
  unfold Sends
  cases c.state
  all_goals infer_instance

/-- What comes of a segment: the cells of it that are read, those that are taken as payload, and
the connections. -/
structure TcpReceipt where
  reads : List Nat
  payload : List Nat
  conns : Nat → TcpEntry

/-- `tcp_receive` for a segment of `len` bytes, at the time `now`. -/
def tcpReceiveAt (now : Nat) (conns : Nat → TcpEntry) (srcIp : Ip4Addr) (hdr : Nat → BitVec 8)
    (len : Nat) : TcpReceipt :=
  let seg := tcpSegmentAt hdr len
  match TcpTable.lookup (fun i => (conns i).toTcpSlot) srcIp (tcpSrcPort hdr) (tcpDstPort hdr) with
  | none => { reads := List.range 16, payload := [], conns := conns }
  | some i =>
    let e := conns i
    let payload := (List.range (newBytes e.conn seg).length).map (tcpHdrLen hdr + ·)
    { reads := List.range 16 ++ payload
      payload := payload
      conns := Function.update conns i
        { e with
          conn := tcpReceive e.conn seg
          retxLastMs := if Sends e.conn seg then now else e.retxLastMs } }

/-- The data offset is one of a segment of `len` bytes. -/
structure HeaderFits (hdr : Nat → BitVec 8) (len : Nat) : Prop where
  least : tcpHdrSize ≤ tcpHdrLen hdr
  most : tcpHdrLen hdr ≤ len

/-- The segment is read inside its bytes, its payload lies behind its header, and if the header
does not fit, no connection changes. -/
structure ParsedInside (now : Nat) (conns : Nat → TcpEntry) (srcIp : Ip4Addr)
    (hdr : Nat → BitVec 8) (len : Nat) : Prop where
  reads : ∀ a ∈ (tcpReceiveAt now conns srcIp hdr len).reads, a < len
  payload : ∀ a ∈ (tcpReceiveAt now conns srcIp hdr len).payload,
    tcpHdrSize ≤ tcpHdrLen hdr ∧ tcpHdrLen hdr ≤ a ∧ a < len
  malformed : ¬ HeaderFits hdr len → (tcpReceiveAt now conns srcIp hdr len).conns = conns

/-- The segment tells the connection nothing new. -/
def Quiet (now : Nat) (seg : TcpSegment) (e : TcpEntry) : Prop :=
  e.conn.sndWnd = seg.window ∧
    match e.conn.state with
    | .synSent => ¬ seg.flags &&& (tcpSyn ||| tcpAck) = tcpSyn ||| tcpAck
    | .established => seg.flags &&& tcpFin = 0 ∧
      (seg.flags &&& tcpAck ≠ 0 → e.conn.sndUna = seg.ack) ∧
      (seg.data.length ≠ 0 → seg.seq = e.conn.rcvNxt →
        e.conn.rxFree = 0 ∧ e.conn.rcvWnd = 0 ∧ e.retxLastMs = now)
    | .lastAck => seg.flags &&& tcpAck = 0
    | .finWait1 => seg.flags &&& tcpAck = 0
    | .finWait2 => seg.flags &&& tcpFin = 0
    | _ => True

/-- The fields of the header are there, and its data offset is one of this segment, or there is no
connection for it, or it tells this one nothing new. -/
def SegmentOk (now : Nat) (conns : Nat → TcpEntry) (srcIp : Ip4Addr) (hdr : Nat → BitVec 8)
    (len : Nat) : Prop :=
  16 ≤ len ∧ (HeaderFits hdr len ∨ ∀ i, TcpTable.lookup (fun i => (conns i).toTcpSlot) srcIp
    (tcpSrcPort hdr) (tcpDstPort hdr) = some i → Quiet now (tcpSegmentAt hdr len) (conns i))

variable {now i len : Nat} {c : TcpConn} {seg : TcpSegment} {e : TcpEntry} {conns : Nat → TcpEntry}
  {srcIp : Ip4Addr} {hdr : Nat → BitVec 8} {bytes : List (BitVec 8)}

/-! What changes a connection. -/

theorem storeBytes_rxHead_ne (hsome : bytes ≠ []) (hshort : bytes.length < 2 ^ 32) :
    (storeBytes c bytes).rxHead ≠ c.rxHead := by
  obtain ⟨byte, bytes, rfl⟩ := List.exists_cons_of_ne_nil hsome
  rw [List.length_cons] at hshort
  have hrest := @storeBytes_eq { c with
    rxbuf := Function.update c.rxbuf (c.rxHead % tcpRxbufSize) byte
    rxHead := u32 (c.rxHead + 1) } bytes Mm.u32_lt
  have hhead := congrArg TcpConn.rxHead hrest
  have hhead : (storeBytes c (byte :: bytes)).rxHead = u32 (u32 (c.rxHead + 1) + bytes.length) :=
    hhead
  rw [hhead]
  unfold u32
  omega

theorem rxFree_lt : c.rxFree < tcpRxbufSize := Nat.lt_succ_of_le (Nat.sub_le _ _)

/-- Data in order is taken as far as there is room. -/
theorem length_acceptedBytes (horder : seg.data.length ≠ 0 ∧ seg.seq = c.rcvNxt) :
    (acceptedBytes c seg).length = min seg.data.length c.rxFree := by
  unfold acceptedBytes
  rw [if_pos horder, List.length_take]
  split <;> omega

theorem deliverData_frame : (deliverData c seg).sndUna = c.sndUna ∧
    (deliverData c seg).sndWnd = c.sndWnd ∧ (deliverData c seg).state = c.state := by
  have hstored := @numbers_storeBytes c (acceptedBytes c seg)
  unfold deliverData
  split
  · exact ⟨congrArg TcpNumbers.sndUna hstored, congrArg TcpNumbers.sndWnd hstored,
      congrArg TcpNumbers.state hstored⟩
  · exact ⟨rfl, rfl, rfl⟩

/-- Data in order that changes nothing finds neither room nor an open window. -/
theorem deliverData_eq_iff (hseq : seg.seq < 2 ^ 32) : deliverData c seg = c ↔
    (seg.data.length ≠ 0 → seg.seq = c.rcvNxt → c.rxFree = 0 ∧ c.rcvWnd = 0) := by
  by_cases horder : seg.data.length ≠ 0 ∧ seg.seq = c.rcvNxt
  · have hlength := length_acceptedBytes horder
    have hroom : c.rxFree < 4096 := rxFree_lt
    have hdeliver : ∀ bytes, acceptedBytes c seg = bytes → deliverData c seg = setRcvWnd
        { storeBytes c bytes with
          rcvNxt := u32 ((storeBytes c bytes).rcvNxt + bytes.length) } := by
      rintro bytes rfl
      exact if_pos horder
    have hnothing : acceptedBytes c seg = [] →
        deliverData c seg = { c with rcvNxt := u32 (c.rcvNxt + 0), rcvWnd := c.rxFree } :=
      fun hnone => hdeliver [] hnone
    constructor
    · intro hsame _ _
      have hnone : acceptedBytes c seg = [] := by
        by_contra hsome
        have hne := @storeBytes_rxHead_ne c _ hsome (by omega)
        have hhead := congrArg TcpConn.rxHead ((hdeliver _ rfl).symm.trans hsame)
        exact hne hhead
      have hfree : c.rxFree = 0 := by
        rw [hnone, List.length_nil] at hlength
        omega
      have hwnd := congrArg TcpConn.rcvWnd ((hnothing hnone).symm.trans hsame)
      exact ⟨hfree, hwnd.symm.trans hfree⟩
    · intro hquiet
      obtain ⟨hfree, hwnd⟩ := hquiet horder.1 horder.2
      have hnone : acceptedBytes c seg = [] := by
        rw [← List.length_eq_zero_iff]
        omega
      have hnxt : u32 (c.rcvNxt + 0) = c.rcvNxt := u32_of_lt (by omega)
      rw [hnothing hnone, hnxt, hfree, ← hwnd]
  · have hsame : deliverData c seg = c := if_neg horder
    exact iff_of_true hsame fun hdata hnxt => absurd ⟨hdata, hnxt⟩ horder

theorem window_eq_iff {window : Nat} {state : TcpState} (hstate : c.state = state) :
    ({ c with state := state, sndWnd := window } : TcpConn) = c ↔ c.sndWnd = window := by
  subst hstate
  constructor
  · intro hsame
    exact (congrArg TcpConn.sndWnd hsame).symm
  · rintro rfl
    rfl

theorem receiveEstablished_eq_iff {window : Nat} (hstate : c.state = .established)
    (hseq : seg.seq < 2 ^ 32) :
    receiveEstablished { c with state := .established, sndWnd := window } seg = c ↔
    c.sndWnd = window ∧ seg.flags &&& tcpFin = 0 ∧
      (seg.flags &&& tcpAck ≠ 0 → c.sndUna = seg.ack) ∧
      (seg.data.length ≠ 0 → seg.seq = c.rcvNxt → c.rxFree = 0 ∧ c.rcvWnd = 0) := by
  obtain ⟨una, huna⟩ : ∃ una, una = if seg.flags &&& tcpAck ≠ 0 then seg.ack else c.sndUna :=
    ⟨_, rfl⟩
  have hacked : (if seg.flags &&& tcpAck ≠ 0 then { c with sndWnd := window, sndUna := seg.ack }
      else { c with sndWnd := window }) = { c with sndWnd := window, sndUna := una } := by
    rw [huna]
    split <;> rfl
  have hunaIff : (seg.flags &&& tcpAck ≠ 0 → c.sndUna = seg.ack) ↔ c.sndUna = una := by
    rw [huna]
    split
    case isTrue hack => exact ⟨fun h => h hack, fun h _ => h⟩
    case isFalse hack => exact iff_of_true (fun h => absurd h hack) rfl
  have hframe := @deliverData_frame { c with sndWnd := window, sndUna := una } seg
  rw [hunaIff, ← deliverData_eq_iff hseq, ← hstate]
  unfold receiveEstablished
  dsimp only
  rw [hacked]
  by_cases hfin : seg.flags &&& tcpFin = 0
  · rw [if_neg (not_not_intro hfin)]
    constructor
    · intro hsame
      have hwindow : c.sndWnd = window :=
        (congrArg TcpConn.sndWnd hsame).symm.trans hframe.2.1
      have hunaSame : c.sndUna = una := (congrArg TcpConn.sndUna hsame).symm.trans hframe.1
      refine ⟨hwindow, hfin, hunaSame, ?_⟩
      rw [← hwindow, ← hunaSame] at hsame
      exact hsame
    · rintro ⟨rfl, -, rfl, hsame⟩
      exact hsame
  · rw [if_pos hfin]
    refine iff_of_false (fun hsame => ?_) fun h => hfin h.2.1
    have hlast := congrArg TcpConn.state hsame
    rw [hstate] at hlast
    cases hlast

theorem changed_iff {next : TcpConn} {window : Nat} {P S : Prop} (hnext : next.state ≠ c.state)
    (hP : ¬ P) : (c.sndWnd = window ∧ P) ↔ (next = c ∧ S) :=
  iff_of_false (fun h => hP h.2) fun h => hnext (congrArg TcpConn.state h.1)

theorem kept_iff {window : Nat} {state : TcpState} {P Q S : Prop} (hstate : c.state = state)
    (hP : P) (hS : ¬ S) : (c.sndWnd = window ∧ P) ↔
      (({ c with state := state, sndWnd := window } : TcpConn) = c ∧ (S → Q)) :=
  and_congr (window_eq_iff hstate).symm (iff_of_true hP fun h => absurd h hS)

/-- A connection that sent or received nothing new stays as it was. -/
theorem quiet_iff (hused : e.conn.used) (hseq : seg.seq < 2 ^ 32) : Quiet now seg e ↔
    tcpReceive e.conn seg = e.conn ∧ (Sends e.conn seg → e.retxLastMs = now) := by
  unfold Quiet tcpReceive Sends
  rw [if_neg (not_not_intro hused)]
  dsimp only
  cases hstate : e.conn.state with
  | synSent =>
    dsimp only
    split
    case isTrue hsynAck =>
      exact changed_iff (by rw [hstate]; exact TcpState.noConfusion) (not_not_intro hsynAck)
    case isFalse hsynAck => exact kept_iff hstate hsynAck hsynAck
  | established =>
    have hest := @receiveEstablished_eq_iff e.conn seg seg.window hstate hseq
    dsimp only
    constructor
    · rintro ⟨hwindow, hfin, huna, hdata⟩
      refine ⟨hest.mpr ⟨hwindow, hfin, huna, fun hsome hnxt => ?_⟩, ?_⟩
      · exact ⟨(hdata hsome hnxt).1, (hdata hsome hnxt).2.1⟩
      · rintro (⟨hsome, hnxt⟩ | hfin')
        · exact (hdata hsome hnxt).2.2
        · exact absurd hfin hfin'
    · rintro ⟨hsame, hsend⟩
      obtain ⟨hwindow, hfin, huna, hdata⟩ := hest.mp hsame
      refine ⟨hwindow, hfin, huna, fun hsome hnxt => ?_⟩
      exact ⟨(hdata hsome hnxt).1, (hdata hsome hnxt).2, hsend (.inl ⟨hsome, hnxt⟩)⟩
  | lastAck =>
    dsimp only
    split
    case isTrue hack => exact changed_iff (by rw [hstate]; exact TcpState.noConfusion) hack
    case isFalse hack => exact kept_iff hstate (not_not.mp hack) not_false
  | finWait1 =>
    dsimp only
    split
    case isTrue hack => exact changed_iff (by rw [hstate]; exact TcpState.noConfusion) hack
    case isFalse hack => exact kept_iff hstate (not_not.mp hack) not_false
  | finWait2 =>
    dsimp only
    split
    case isTrue hfin => exact changed_iff (by rw [hstate]; exact TcpState.noConfusion) hfin
    case isFalse hfin => exact kept_iff hstate (not_not.mp hfin) hfin
  | closed => exact kept_iff hstate trivial not_false
  | listen => exact kept_iff hstate trivial not_false
  | synReceived => exact kept_iff hstate trivial not_false
  | closeWait => exact kept_iff hstate trivial not_false
  | closing => exact kept_iff hstate trivial not_false
  | timeWait => exact kept_iff hstate trivial not_false

/-! The table and the places of the payload. -/

theorem tcpSegmentAt_seq_lt : (tcpSegmentAt hdr len).seq < 2 ^ 32 := BitVec.isLt _

theorem length_tcpSegmentAt : (tcpSegmentAt hdr len).data.length = sub32 len (tcpHdrLen hdr) := by
  unfold tcpSegmentAt
  rw [List.length_map, List.length_range]

theorem length_newBytes_le : (newBytes c seg).length ≤ seg.data.length := by
  unfold newBytes
  split
  · by_cases horder : seg.data.length ≠ 0 ∧ seg.seq = c.rcvNxt
    · rw [length_acceptedBytes horder]
      exact Nat.min_le_left _ _
    · rw [acceptedBytes, if_neg horder]
      exact Nat.zero_le _
  · exact Nat.zero_le _

theorem quiet_newBytes (h : Quiet now seg e) : newBytes e.conn seg = [] := by
  unfold newBytes
  split
  case isTrue hopen =>
    by_cases horder : seg.data.length ≠ 0 ∧ seg.seq = e.conn.rcvNxt
    · have hquiet := h.2
      rw [hopen.2] at hquiet
      have hlength := length_acceptedBytes horder
      rw [(hquiet.2.2 horder.1 horder.2).1, Nat.min_zero] at hlength
      exact List.length_eq_zero_iff.mp hlength
    · exact if_neg horder
  case isFalse => rfl

theorem lookup_used {table : TcpTable} {srcPort dstPort : BitVec 16}
    (hlookup : table.lookup srcIp srcPort dstPort = some i) : (table i).conn.used := by
  have hfound := List.find?_some hlookup
  exact (of_decide_eq_true hfound).1

theorem update_entry_eq_iff {c' : TcpConn} {S : Prop} [Decidable S] :
    Function.update conns i
        { conns i with conn := c', retxLastMs := if S then now else (conns i).retxLastMs } = conns ↔
      c' = (conns i).conn ∧ (S → (conns i).retxLastMs = now) := by
  rw [Function.update_eq_self_iff]
  constructor
  · intro hsame
    refine ⟨congrArg (fun e : TcpEntry => e.conn) hsame, fun hS => ?_⟩
    have htime := congrArg TcpEntry.retxLastMs hsame
    rw [if_pos hS] at htime
    exact htime.symm
  · rintro ⟨rfl, htime⟩
    have hnow : (if S then now else (conns i).retxLastMs) = (conns i).retxLastMs := by
      split
      case isTrue hS => exact (htime hS).symm
      case isFalse => rfl
    rw [hnow]

/-! A segment that is not shorter than its header says. -/

theorem load16_getD {p : Packet} {off : Nat} {x : BitVec 16} (h : load16 p off = some x) :
    p.getD (off + 1) 0 ++ p.getD off 0 = x := by
  obtain ⟨b0, h0, h⟩ := Option.bind_eq_some_iff.mp h
  obtain ⟨b1, h1, h⟩ := Option.bind_eq_some_iff.mp h
  rw [List.getD_eq_getElem?_getD, List.getD_eq_getElem?_getD, h0, h1]
  exact Option.some.inj h

theorem load32_getD {p : Packet} {off : Nat} {x : BitVec 32} (h : load32 p off = some x) :
    p.getD (off + 3) 0 ++ p.getD (off + 2) 0 ++ p.getD (off + 1) 0 ++ p.getD off 0 = x := by
  obtain ⟨b0, h0, h⟩ := Option.bind_eq_some_iff.mp h
  obtain ⟨b1, h1, h⟩ := Option.bind_eq_some_iff.mp h
  obtain ⟨b2, h2, h⟩ := Option.bind_eq_some_iff.mp h
  obtain ⟨b3, h3, h⟩ := Option.bind_eq_some_iff.mp h
  simp only [List.getD_eq_getElem?_getD, h0, h1, h2, h3]
  exact Option.some.inj h

theorem drop_eq_map_range {p : Packet} {off : Nat} (h : off ≤ p.length) :
    p.drop off = (List.range (p.length - off)).map fun i => p.getD (off + i) 0 := by
  refine List.ext_getElem ?_ fun k hk hk' => ?_
  · rw [List.length_drop, List.length_map, List.length_range]
  · rw [List.length_drop] at hk
    rw [List.getElem_drop, List.getElem_map, List.getElem_range,
      List.getD_eq_getElem _ _ (by omega)]

/-- In memory, the segment is the one that is parsed. -/
theorem tcpSegmentAt_eq {p : Packet} {srcPort dstPort : BitVec 16} (hlen : p.length < 2 ^ 32)
    (h : tcpParse p = some (srcPort, dstPort, seg)) :
    tcpSrcPort (p.getD · 0) = srcPort ∧ tcpDstPort (p.getD · 0) = dstPort ∧
      tcpSegmentAt (p.getD · 0) p.length = seg := by
  obtain ⟨src, hsrc, h⟩ := Option.bind_eq_some_iff.mp h
  obtain ⟨dst, hdst, h⟩ := Option.bind_eq_some_iff.mp h
  obtain ⟨seq, hseq, h⟩ := Option.bind_eq_some_iff.mp h
  obtain ⟨ack, hack, h⟩ := Option.bind_eq_some_iff.mp h
  obtain ⟨dataOffset, hoffset, h⟩ := Option.bind_eq_some_iff.mp h
  obtain ⟨flags, hflags, h⟩ := Option.bind_eq_some_iff.mp h
  obtain ⟨window, hwindow, h⟩ := Option.bind_eq_some_iff.mp h
  have hbyte : ∀ {k : Nat} {b : BitVec 8}, p[k]? = some b → p.getD k 0 = b := by
    intro k b hb
    rw [List.getD_eq_getElem?_getD, hb]
    rfl
  have hhdrLen : tcpHdrLen (p.getD · 0) = (dataOffset >>> 4).toNat * 4 := by
    unfold tcpHdrLen
    dsimp only
    rw [hbyte hoffset]
  dsimp only at h
  split at h
  case isTrue => cases h
  case isFalse hfits =>
    cases h
    refine ⟨congrArg htons (load16_getD hsrc), congrArg htons (load16_getD hdst), ?_⟩
    have hcount : sub32 p.length (tcpHdrLen (p.getD · 0)) =
        p.length - (dataOffset >>> 4).toNat * 4 := by
      rw [hhdrLen]
      simp only [sub32, u32]
      omega
    unfold tcpSegmentAt
    dsimp only
    rw [hcount, hhdrLen, drop_eq_map_range (Nat.le_of_not_lt hfits), load32_getD hseq,
      load32_getD hack, load16_getD hwindow, hbyte hflags]

/-- On the table, `tcp_receive` does what is stated of parsed segments. -/
theorem tcpReceiveAt_conns {p : Packet} {srcPort dstPort : BitVec 16} (hlen : p.length < 2 ^ 32)
    (h : tcpParse p = some (srcPort, dstPort, seg)) :
    (fun i => ((tcpReceiveAt now conns srcIp (p.getD · 0) p.length).conns i).toTcpSlot) =
      tcpDispatch (fun i => (conns i).toTcpSlot) srcIp srcPort dstPort seg := by
  obtain ⟨hsrc, hdst, hseg⟩ := tcpSegmentAt_eq hlen h
  unfold tcpReceiveAt tcpDispatch
  dsimp only
  rw [hsrc, hdst, hseg]
  split
  case h_1 hlookup =>
    rw [hlookup]
  case h_2 i hlookup =>
    rw [hlookup]
    funext j
    unfold TcpTable.setConn
    dsimp only
    by_cases hj : j = i
    · subst hj
      rw [Function.update_self, Function.update_self]
    · rw [Function.update_of_ne hj, Function.update_of_ne hj]

/-! Which segments are harmless. -/

theorem header_inside_iff : (∀ a ∈ List.range 16, a < len) ↔ 16 ≤ len := by
  simp only [List.mem_range]
  constructor
  · intro h
    have hlast := h 15 (by decide)
    omega
  · intro h a ha
    omega

/-- Payload behind a header that fits lies inside the segment. -/
theorem payload_inside (hlen : len < 2 ^ 32) (hfits : HeaderFits hdr len) :
    ∀ a ∈ (List.range (newBytes c (tcpSegmentAt hdr len)).length).map (tcpHdrLen hdr + ·),
      tcpHdrLen hdr ≤ a ∧ a < len := by
  have hmost := hfits.most
  have hle := @length_newBytes_le c (tcpSegmentAt hdr len)
  have hdata : sub32 len (tcpHdrLen hdr) = len - tcpHdrLen hdr := by
    simp only [sub32, u32]
    omega
  rw [length_tcpSegmentAt, hdata] at hle
  intro a ha
  obtain ⟨k, hk, rfl⟩ := List.mem_map.mp ha
  rw [List.mem_range] at hk
  omega

theorem tcpReceiveAt_none (hlookup : TcpTable.lookup (fun i => (conns i).toTcpSlot) srcIp
    (tcpSrcPort hdr) (tcpDstPort hdr) = none) :
    tcpReceiveAt now conns srcIp hdr len =
      { reads := List.range 16, payload := [], conns := conns } := by
  unfold tcpReceiveAt
  dsimp only
  rw [hlookup]

/-- A segment that no connection takes. -/
theorem parsedInside_none (hlookup : TcpTable.lookup (fun i => (conns i).toTcpSlot) srcIp
    (tcpSrcPort hdr) (tcpDstPort hdr) = none) :
    ParsedInside now conns srcIp hdr len ↔ 16 ≤ len := by
  have hreceive := @tcpReceiveAt_none now len conns srcIp hdr hlookup
  constructor
  · rintro ⟨hreads, -, -⟩
    rw [hreceive] at hreads
    exact header_inside_iff.mp hreads
  · intro hheader
    constructor
    case reads =>
      rw [hreceive]
      exact header_inside_iff.mpr hheader
    case payload =>
      rw [hreceive]
      exact fun a ha => nomatch ha
    case malformed =>
      rw [hreceive]
      exact fun _ => rfl

/-- A segment for the connection `i`. -/
theorem parsedInside_some (hlen : len < 2 ^ 32)
    (hlookup : TcpTable.lookup (fun i => (conns i).toTcpSlot) srcIp (tcpSrcPort hdr)
      (tcpDstPort hdr) = some i) :
    ParsedInside now conns srcIp hdr len ↔
      16 ≤ len ∧ (HeaderFits hdr len ∨ Quiet now (tcpSegmentAt hdr len) (conns i)) := by
  obtain ⟨payload, hpayload⟩ : ∃ payload, payload =
    (List.range (newBytes (conns i).conn (tcpSegmentAt hdr len)).length).map
      (tcpHdrLen hdr + ·) := ⟨_, rfl⟩
  have hreceive : tcpReceiveAt now conns srcIp hdr len =
      { reads := List.range 16 ++ payload
        payload := payload
        conns := Function.update conns i
          { conns i with
            conn := tcpReceive (conns i).conn (tcpSegmentAt hdr len)
            retxLastMs := if Sends (conns i).conn (tcpSegmentAt hdr len) then now
              else (conns i).retxLastMs } } := by
    unfold tcpReceiveAt
    dsimp only
    rw [hlookup, hpayload]
  have hquiet : Function.update conns i
      { conns i with
        conn := tcpReceive (conns i).conn (tcpSegmentAt hdr len)
        retxLastMs := if Sends (conns i).conn (tcpSegmentAt hdr len) then now
          else (conns i).retxLastMs } = conns ↔ Quiet now (tcpSegmentAt hdr len) (conns i) :=
    update_entry_eq_iff.trans (quiet_iff (lookup_used hlookup) tcpSegmentAt_seq_lt).symm
  constructor
  · rintro ⟨hreads, -, hmalformed⟩
    rw [hreceive] at hreads hmalformed
    refine ⟨header_inside_iff.mp fun a ha => hreads a (List.mem_append_left _ ha), ?_⟩
    by_cases hfits : HeaderFits hdr len
    · exact .inl hfits
    · exact .inr (hquiet.mp (hmalformed hfits))
  · rintro ⟨hheader, hcase⟩
    have hcells : ∀ a ∈ payload, tcpHdrSize ≤ tcpHdrLen hdr ∧ tcpHdrLen hdr ≤ a ∧ a < len := by
      intro a ha
      rcases hcase with hfits | hsilent
      · rw [hpayload] at ha
        exact ⟨hfits.least, payload_inside hlen hfits a ha⟩
      · rw [hpayload, quiet_newBytes hsilent] at ha
        cases ha
    constructor
    case reads =>
      rw [hreceive]
      intro a ha
      rcases List.mem_append.mp ha with ha | ha
      · exact header_inside_iff.mpr hheader a ha
      · exact (hcells a ha).2.2
    case payload =>
      rw [hreceive]
      exact hcells
    case malformed =>
      rw [hreceive]
      intro hfits
      exact hquiet.mpr (hcase.resolve_left hfits)

/-- `tcp_receive` tests neither the length of a segment nor its data offset. -/
theorem parsedInside_iff (hlen : len < 2 ^ 32) :
    ParsedInside now conns srcIp hdr len ↔ SegmentOk now conns srcIp hdr len := by
  unfold SegmentOk
  cases hlookup : TcpTable.lookup (fun i => (conns i).toTcpSlot) srcIp (tcpSrcPort hdr)
      (tcpDstPort hdr) with
  | none =>
    rw [parsedInside_none hlookup]
    exact (and_iff_left (.inr fun i hi => nomatch hi)).symm
  | some i =>
    rw [parsedInside_some hlen hlookup]
    refine and_congr_right fun _ => or_congr_right ?_
    constructor
    · rintro hquiet j hj
      cases hj
      exact hquiet
    · exact fun hquiet => hquiet i rfl

/-- An established connection in the first slot. -/
def openTable : Nat → TcpEntry := fun i =>
  ⟨⟨{ tcpSocket with used := i = 0, state := .established }, 0, 0, 0, 0⟩, 0⟩

/-- A segment of 24 bytes with a header of 20. -/
theorem parsedInside_plain :
    ParsedInside 1 openTable 0 (fun a => if a = 12 then 0x50 else 0) 24 :=
  (parsedInside_iff (by decide)).mpr ⟨by decide, .inl ⟨by decide, by decide⟩⟩

/-- With a data offset of zero, the header is taken for data. -/
theorem not_parsedInside_noHeader :
    ¬ ∀ (now : Nat) (conns : Nat → TcpEntry) (srcIp : Ip4Addr) (hdr : Nat → BitVec 8) (len : Nat),
      len < 2 ^ 32 → ParsedInside now conns srcIp hdr len := by
  intro hall
  have hinside := hall 1 openTable 0 (fun _ => 0) 20 (by decide)
  have htaken : 0 ∈ (tcpReceiveAt 1 openTable 0 (fun _ => 0) 20).payload := by decide +kernel
  exact absurd (hinside.payload 0 htaken).1 (by decide)

end PinguinOS.Net
