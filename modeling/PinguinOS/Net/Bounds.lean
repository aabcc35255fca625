import PinguinOS.Net.Stack

/-! Which frames `net_receive` reads within their bounds. -/
namespace PinguinOS.Net

open Mm (sub32)

/-! The fields that `ipv4_handle` goes by. -/

def ip4Ihl (data : Packet) : Nat := (data.getD 0 0 &&& 0x0F).toNat * 4

def ip4Totlen (data : Packet) : Nat := (htons ((load16 data 2).getD 0)).toNat

def ip4Dst (data : Packet) : Ip4Addr := htonl ((load32 data 16).getD 0)

def ip4Protocol (data : Packet) : BitVec 8 := data.getD 9 0

/-- `plen`, which wraps when the header is longer than the packet. -/
def ip4Plen (data : Packet) : Nat := sub32 (ip4Totlen data) (ip4Ihl data)

/-- `dlen`, which wraps when the field is less than its header. -/
def udpDlen (payload : Packet) : Nat := sub32 (htons ((load16 payload 4).getD 0)).toNat udpHdrSize

/-- The frame gets past the filters of `net_receive` and `ipv4_handle`. -/
structure Handled (iface : NetIface) (frame : Packet) : Prop where
  ethernet : ethHdrSize ≤ frame.length
  type : htons ((load16 frame 12).getD 0) = ethTypeIpv4
  header : ip4HdrSize ≤ (frame.drop ethHdrSize).length
  total : ip4Totlen (frame.drop ethHdrSize) ≤ (frame.drop ethHdrSize).length
  ihl : 20 ≤ ip4Ihl (frame.drop ethHdrSize)
  dst : iface.ip = 0 ∨ ip4Dst (frame.drop ethHdrSize) = iface.ip ∨
    ip4Dst (frame.drop ethHdrSize) = 0xFFFFFFFF

/-- Where a handler relies on the length fields of a frame, they agree with what is there. -/
def LengthsAgree (iface : NetIface) (frame : Packet) : Prop :=
  let data := frame.drop ethHdrSize
  let payload := data.drop (ip4Ihl data)
  Handled iface frame →
    (ip4Protocol data = ipProtoIcmp → icmpHdrSize ≤ ip4Plen data →
      payload ≠ [] ∧ (payload.getD 0 0 = icmpEchoRequest → ip4Plen data ≤ payload.length)) ∧
    (ip4Protocol data = ipProtoUdp → udpHdrSize ≤ ip4Plen data →
      6 ≤ payload.length ∧ udpDlen payload ≤ (payload.drop udpHdrSize).length)

/-- The frame is read within its bounds, and only its bytes are written to the sockets. -/
def ReadsInside (kmalloc : Nat → Bool) (iface : NetIface) (frame : Packet) (net : NetState) :
    Prop :=
  ∃ net', netReceive kmalloc iface frame net = some net' ∧
    ∀ i k, (net'.sockets i).rxBuf k = (net.sockets i).rxBuf k ∨ (net'.sockets i).rxBuf k ∈ frame

variable {kmalloc : Nat → Bool} {iface : NetIface} {frame data payload ip udata : Packet}
  {net net' : NetState} {s s' : Socket} {b j dlen len plen : Nat} {dst targetIp : Ip4Addr}
  {proto : BitVec 8} {dport : BitVec 16} {l : List Nat}

/-! Sending leaves the sockets alone. -/

@[simp] theorem transmit_sockets : (transmit iface frame net).sockets = net.sockets := by
  unfold transmit
  split <;> rfl

@[simp] theorem arpSendRequest_sockets :
    (arpSendRequest iface targetIp net).sockets = net.sockets := transmit_sockets

@[simp] theorem ip4Send_sockets :
    (ip4Send kmalloc iface dst proto payload net).2.sockets = net.sockets := by
  unfold ip4Send
  split
  case h_1 => rfl
  case h_2 =>
    dsimp only
    split
    case isTrue => rfl
    case isFalse =>
      split
      case h_1 => exact arpSendRequest_sockets
      case h_2 => exact transmit_sockets

/-- A packet of the right size has all the fields that are read. -/
theorem arpHandle_reads (hlen : len ≤ data.length) :
    ∃ net', arpHandle iface data len net = some net' ∧ net'.sockets = net.sockets := by
  unfold arpHandle
  split
  case isTrue => exact ⟨net, rfl, rfl⟩
  case isFalse hsize =>
    unfold arpPktSize at hsize
    obtain ⟨senderIp, hip⟩ := @load32_some data 14 (by omega)
    obtain ⟨senderMac, hmac⟩ := @loadMac_some data 8 (by omega)
    obtain ⟨opcode, hopcode⟩ := @load16_some data 6 (by omega)
    obtain ⟨targetIp, htarget⟩ := @load32_some data 24 (by omega)
    rw [hip, hmac, hopcode, htarget]
    simp only [Option.bind_eq_bind, Option.bind_some]
    split
    case isTrue =>
      split
      case isTrue => exact ⟨_, rfl, rfl⟩
      case isFalse => exact ⟨_, rfl, transmit_sockets⟩
    case isFalse => exact ⟨_, rfl, rfl⟩

/-- An echo request is copied as a whole. -/
theorem icmpHandle_reads (hip : 16 ≤ ip.length)
    (hlen : icmpHdrSize ≤ len → data ≠ [] ∧
      (data.getD 0 0 = icmpEchoRequest → len ≤ data.length)) :
    ∃ net', icmpHandle kmalloc iface ip data len net = some net' ∧
      net'.sockets = net.sockets := by
  unfold icmpHandle
  split
  case isTrue => exact ⟨net, rfl, rfl⟩
  case isFalse hsize =>
    obtain ⟨hsome, hcopy⟩ := hlen (Nat.le_of_not_lt hsize)
    obtain ⟨type, rest, rfl⟩ := List.exists_cons_of_ne_nil hsome
    obtain ⟨src, hsrc⟩ := @load32_some ip 12 (by omega)
    simp only [List.getElem?_cons_zero, Option.bind_eq_bind, Option.bind_some]
    split
    case isTrue htype =>
      split
      case isTrue => exact ⟨_, rfl, rfl⟩
      case isFalse =>
        unfold copyBytes
        rw [if_pos (hcopy htype), hsrc]
        simp only [Option.bind_some]
        exact ⟨_, rfl, ip4Send_sockets⟩
    case isFalse => exact ⟨_, rfl, rfl⟩

/-- What a delivery writes comes from the datagram. -/
theorem deliver_bytes (h : deliver s udata b dlen = some s') (k : Nat) :
    s'.rxBuf k = s.rxBuf k ∨ s'.rxBuf k ∈ udata := by
  induction dlen generalizing s b with
  | zero =>
    cases h
    exact .inl rfl
  | succ dlen ih =>
    unfold deliver at h
    dsimp only at h
    split at h
    case isTrue =>
      obtain ⟨byte, hbyte, hrest⟩ := Option.bind_eq_some_iff.mp h
      rcases ih hrest with hold | hnew
      · dsimp only at hold
        by_cases hk : k = s.rxTail
        · rw [hk, Function.update_self] at hold
          rw [hk, hold]
          exact .inr (List.mem_of_getElem? hbyte)
        · rw [Function.update_of_ne hk] at hold
          exact .inl hold
      · exact .inr hnew
    case isFalse =>
      have hrest := ih h
      exact hrest

/-- A byte behind the datagram is read, unless the ring is full when it is its turn. -/
theorem deliver_outside (hj : j < dlen) (hend : udata.length ≤ b + j)
    (hroom : (s.rxTail + j + 1) % sockRxbuf ≠ s.rxHead) : deliver s udata b dlen = none := by
  induction j generalizing s b dlen with
  | zero =>
    obtain ⟨dlen, rfl⟩ : ∃ d, dlen = d + 1 := ⟨dlen - 1, by omega⟩
    have hbyte : udata[b]? = none := List.getElem?_eq_none hend
    unfold deliver
    dsimp only
    rw [if_pos hroom, hbyte]
    rfl
  | succ j ih =>
    obtain ⟨dlen, rfl⟩ : ∃ d, dlen = d + 1 := ⟨dlen - 1, by omega⟩
    have hnext : ((s.rxTail + 1) % sockRxbuf + j + 1) % sockRxbuf ≠ s.rxHead := by
      rw [Nat.add_assoc, Nat.mod_add_mod]
      have hsum : s.rxTail + 1 + (j + 1) = s.rxTail + (j + 1) + 1 := by omega
      rwa [hsum]
    have hrest : ∀ {buf : Nat → BitVec 8},
        deliver { s with rxBuf := buf, rxTail := (s.rxTail + 1) % sockRxbuf } udata (b + 1) dlen =
          none := fun {buf} => ih (by omega) (by omega) hnext
    unfold deliver
    dsimp only
    split
    case isTrue =>
      cases udata[b]? with
      | none => rfl
      | some byte => exact hrest
    case isFalse => exact hrest

/-- The loop over the sockets delivers to every socket of the port, and to no other. -/
theorem udpDeliver_reads (hlen : dlen ≤ udata.length) (hl : l.Nodup) :
    ∃ net', l.foldlM (udpDeliver dport udata dlen) net = some net' ∧
      ∀ i, (i ∈ l ∧ (net.sockets i).Bound dport →
          deliver (net.sockets i) udata 0 dlen = some (net'.sockets i)) ∧
        (¬ (i ∈ l ∧ (net.sockets i).Bound dport) → net'.sockets i = net.sockets i) := by
  induction l generalizing net with
  | nil => exact ⟨net, rfl, fun i => ⟨fun h => (nomatch h.1), fun _ => rfl⟩⟩
  | cons n l ih =>
    obtain ⟨hn, hl⟩ := List.nodup_cons.mp hl
    rw [List.foldlM_cons]
    by_cases hbound : (net.sockets n).Bound dport
    · obtain ⟨socket, hdeliver⟩ := Option.isSome_iff_exists.mp
        (@deliver_isSome (net.sockets n) udata 0 dlen (by omega))
      obtain ⟨one, hone, hsockets⟩ : ∃ one, udpDeliver dport udata dlen net n = some one ∧
          one.sockets = Function.update net.sockets n socket := by
        unfold udpDeliver
        rw [if_pos hbound, hdeliver]
        exact ⟨_, rfl, rfl⟩
      obtain ⟨net', hrest, hdelivered⟩ := @ih one hl
      rw [hone]
      refine ⟨net', hrest, fun i => ?_⟩
      obtain ⟨hhere, hother⟩ := hdelivered i
      rw [hsockets] at hhere hother
      by_cases hi : i = n
      · subst hi
        rw [Function.update_self] at hother
        have hlast := hother fun h => hn h.1
        rw [hlast]
        exact ⟨fun _ => hdeliver, fun hnot => absurd ⟨List.mem_cons_self, hbound⟩ hnot⟩
      · rw [Function.update_of_ne hi] at hhere hother
        rw [List.mem_cons, or_iff_right hi]
        exact ⟨hhere, hother⟩
    · have hnone : udpDeliver dport udata dlen net n = some net := if_neg hbound
      obtain ⟨net', hrest, hdelivered⟩ := @ih net hl
      rw [hnone]
      refine ⟨net', hrest, fun i => ?_⟩
      obtain ⟨hhere, hother⟩ := hdelivered i
      by_cases hi : i = n
      · subst hi
        exact ⟨fun h => absurd h.2 hbound, fun _ => hother fun h => hbound h.2⟩
      · rw [List.mem_cons, or_iff_right hi]
        exact ⟨hhere, hother⟩

/-- A datagram is taken into the ring of every UDP socket of its port. -/
theorem udpHandle_delivers (hsize : udpHdrSize ≤ plen) (hfields : 6 ≤ payload.length)
    (hdata : udpDlen payload ≤ (payload.drop udpHdrSize).length) :
    ∃ net', udpHandle payload plen net = some net' ∧
      ∀ i, (i < sockMax ∧ (net.sockets i).Bound (htons ((load16 payload 2).getD 0)) →
          deliver (net.sockets i) (payload.drop udpHdrSize) 0 (udpDlen payload) =
            some (net'.sockets i)) ∧
        (¬ (i < sockMax ∧ (net.sockets i).Bound (htons ((load16 payload 2).getD 0))) →
          net'.sockets i = net.sockets i) := by
  obtain ⟨dport, hdport⟩ := @load16_some payload 2 (by omega)
  obtain ⟨length, hlength⟩ := @load16_some payload 4 (by omega)
  unfold udpHandle
  unfold udpDlen at hdata ⊢
  rw [hlength, Option.getD_some] at hdata ⊢
  rw [if_neg (Nat.not_lt.mpr hsize), hdport, Option.getD_some]
  obtain ⟨net', hfold, hdelivered⟩ := @udpDeliver_reads (payload.drop udpHdrSize) net _
    (htons dport) (List.range sockMax) hdata List.nodup_range
  simp only [List.mem_range] at hdelivered
  exact ⟨net', hfold, hdelivered⟩

theorem udpHandle_reads (hlen : udpHdrSize ≤ plen →
      6 ≤ payload.length ∧ udpDlen payload ≤ (payload.drop udpHdrSize).length) :
    ∃ net', udpHandle payload plen net = some net' ∧
      ∀ i k, (net'.sockets i).rxBuf k = (net.sockets i).rxBuf k ∨
        (net'.sockets i).rxBuf k ∈ payload := by
  by_cases hsize : plen < udpHdrSize
  · exact ⟨net, if_pos hsize, fun i k => .inl rfl⟩
  · obtain ⟨hfields, hdata⟩ := hlen (Nat.le_of_not_lt hsize)
    obtain ⟨net', hsome, hdelivered⟩ :=
      @udpHandle_delivers _ net _ (Nat.le_of_not_lt hsize) hfields hdata
    refine ⟨net', hsome, fun i k => ?_⟩
    obtain ⟨hhere, hother⟩ := hdelivered i
    by_cases hi : i < sockMax ∧ (net.sockets i).Bound (htons ((load16 payload 2).getD 0))
    · exact (deliver_bytes (hhere hi) k).imp id List.mem_of_mem_drop
    · left
      rw [hother hi]

/-! The filters, and what comes behind them. -/

/-- The switch of `ipv4_handle`. -/
def ip4Dispatch (kmalloc : Nat → Bool) (iface : NetIface) (data : Packet) (net : NetState) :
    Option NetState :=
  let payload := data.drop (ip4Ihl data)
  if ip4Protocol data = ipProtoIcmp then
    icmpHandle kmalloc iface data payload (ip4Plen data) net
  else if ip4Protocol data = ipProtoUdp then udpHandle payload (ip4Plen data) net
  else some net

theorem ipv4Handle_eq (hsize : ip4HdrSize ≤ data.length) :
    ipv4Handle kmalloc iface data data.length net =
      if ip4Totlen data > data.length ∨ ip4Ihl data < 20 then some net
      else if iface.ip ≠ 0 ∧ ip4Dst data ≠ iface.ip ∧ ip4Dst data ≠ 0xFFFFFFFF then some net
      else ip4Dispatch kmalloc iface data net := by
  have hlen := hsize
  unfold ip4HdrSize at hlen
  obtain ⟨totalLen, htotal⟩ := @load16_some data 2 (by omega)
  obtain ⟨dst, hdst⟩ := @load32_some data 16 (by omega)
  have hfirst : data[0]? = some (data.getD 0 0) := by
    rw [List.getD_eq_getElem?_getD, List.getElem?_eq_getElem (by omega)]
    rfl
  have hproto : data[9]? = some (data.getD 9 0) := by
    rw [List.getD_eq_getElem?_getD, List.getElem?_eq_getElem (by omega)]
    rfl
  unfold ipv4Handle ip4Dispatch ip4Plen ip4Totlen ip4Dst ip4Protocol ip4Ihl
  rw [if_neg (Nat.not_lt.mpr hsize), hfirst, htotal, hdst, hproto]
  rfl

/-- A frame is handled, or it leaves the sockets as they were. -/
theorem netReceive_cases :
    (¬ Handled iface frame ∧ ∃ net', netReceive kmalloc iface frame net = some net' ∧
      net'.sockets = net.sockets) ∨
    (Handled iface frame ∧ ∃ counted : NetState, counted.sockets = net.sockets ∧
      netReceive kmalloc iface frame net =
        ip4Dispatch kmalloc iface (frame.drop ethHdrSize) counted) := by
  by_cases hether : frame.length < ethHdrSize
  · exact .inl ⟨fun h => absurd h.ethernet (Nat.not_le.mpr hether), net, if_pos hether, rfl⟩
  · have hsize := Nat.le_of_not_lt hether
    have hlen := hsize
    unfold ethHdrSize at hlen
    obtain ⟨type, htype⟩ := @load16_some frame 12 (by omega)
    obtain ⟨counted, hcounted, heq⟩ : ∃ counted : NetState, counted.sockets = net.sockets ∧
        netReceive kmalloc iface frame net =
          if htons type = ethTypeArp then
            arpHandle iface (frame.drop ethHdrSize) (frame.length - ethHdrSize) counted
          else if htons type = ethTypeIpv4 then
            ipv4Handle kmalloc iface (frame.drop ethHdrSize) (frame.length - ethHdrSize) counted
          else
            some
              { counted with
                stats := { counted.stats with rxDropped := counted.stats.rxDropped + 1 } } := by
      refine ⟨{ net with
        stats := { net.stats with
          rxPackets := net.stats.rxPackets + 1
          rxBytes := net.stats.rxBytes + frame.length } }, rfl, ?_⟩
      unfold netReceive
      rw [if_neg hether, htype]
      rfl
    have htypes : ∀ h : Handled iface frame, htons type = ethTypeIpv4 := by
      intro h
      have hfield := h.type
      rwa [htype] at hfield
    rw [heq, ← hcounted, ← List.length_drop]
    split
    case isTrue harp =>
      left
      refine ⟨fun h => ?_, arpHandle_reads (Nat.le_refl _)⟩
      rw [htypes h] at harp
      exact absurd harp (by decide)
    case isFalse =>
      split
      case isFalse hother => exact .inl ⟨fun h => hother (htypes h), _, rfl, rfl⟩
      case isTrue hip =>
        by_cases hheader : (frame.drop ethHdrSize).length < ip4HdrSize
        · refine .inl ⟨fun h => absurd h.header (Nat.not_le.mpr hheader), counted, ?_, rfl⟩
          unfold ipv4Handle
          rw [if_pos hheader]
        · rw [ipv4Handle_eq (Nat.le_of_not_lt hheader)]
          split
          case isTrue hbad =>
            refine .inl ⟨fun h => ?_, counted, rfl, rfl⟩
            rcases hbad with hbad | hbad
            · exact absurd h.total (Nat.not_le.mpr hbad)
            · exact absurd h.ihl (Nat.not_le.mpr hbad)
          case isFalse hgood =>
            obtain ⟨htotal, hihl⟩ := not_or.mp hgood
            split
            case isTrue hforeign =>
              refine .inl ⟨fun h => ?_, counted, rfl, rfl⟩
              obtain ⟨hany, hown, hall⟩ := hforeign
              exact h.dst.elim hany fun hdst => hdst.elim hown hall
            case isFalse hown =>
              refine .inr ⟨⟨hsize, ?_, Nat.le_of_not_lt hheader, Nat.le_of_not_lt htotal,
                Nat.le_of_not_lt hihl, ?_⟩, counted, rfl, rfl⟩
              · rw [htype]
                exact hip
              · by_contra hnot
                obtain ⟨hany, hrest⟩ := not_or.mp hnot
                exact hown ⟨hany, not_or.mp hrest⟩

/-- Lengths that agree keep every handler inside. -/
theorem readsInside_of_agree (h : LengthsAgree iface frame) :
    ReadsInside kmalloc iface frame net := by
  rcases @netReceive_cases kmalloc iface frame net with
    ⟨-, net', hsome, hsockets⟩ | ⟨hhandled, counted, hsockets, heq⟩
  · refine ⟨net', hsome, fun i k => .inl ?_⟩
    rw [hsockets]
  · obtain ⟨hicmp, hudp⟩ := h hhandled
    have hheader := hhandled.header
    unfold ip4HdrSize at hheader
    unfold ReadsInside
    rw [heq, ← hsockets]
    unfold ip4Dispatch
    dsimp only
    split
    case isTrue hproto =>
      obtain ⟨net', hsome, hsame⟩ := @icmpHandle_reads kmalloc iface _ (frame.drop ethHdrSize)
        counted (ip4Plen (frame.drop ethHdrSize)) (by omega) (hicmp hproto)
      refine ⟨net', hsome, fun i k => .inl ?_⟩
      rw [hsame]
    case isFalse =>
      split
      case isTrue hproto =>
        obtain ⟨net', hsome, hbytes⟩ := @udpHandle_reads _ counted _ (hudp hproto)
        refine ⟨net', hsome, fun i k => (hbytes i k).imp id fun hmem => ?_⟩
        exact List.mem_of_mem_drop (List.mem_of_mem_drop hmem)
      case isFalse => exact ⟨counted, rfl, fun i k => .inl rfl⟩

/-! Lengths that do not agree: in some state of the stack they lead outside. -/

theorem icmpHandle_inside (h : icmpHandle (fun _ => true) iface ip data len net = some net')
    (hlen : icmpHdrSize ≤ len) :
    data ≠ [] ∧ (data.getD 0 0 = icmpEchoRequest → len ≤ data.length) := by
  unfold icmpHandle at h
  rw [if_neg (Nat.not_lt.mpr hlen)] at h
  obtain ⟨type, htype, hrest⟩ := Option.bind_eq_some_iff.mp h
  obtain ⟨rest, rfl⟩ : ∃ rest, data = type :: rest := by
    cases data with
    | nil => cases htype
    | cons first rest =>
      cases htype
      exact ⟨rest, rfl⟩
  refine ⟨List.cons_ne_nil _ _, fun hecho => ?_⟩
  have hecho : type = icmpEchoRequest := hecho
  rw [if_pos hecho] at hrest
  dsimp only at hrest
  rw [if_neg (not_not_intro rfl)] at hrest
  obtain ⟨request, hcopy, -⟩ := Option.bind_eq_some_iff.mp hrest
  unfold copyBytes at hcopy
  by_contra hshort
  rw [if_neg hshort] at hcopy
  cases hcopy

/-- One socket is open, at a port; its ring holds the bytes before `tail`. -/
def listening (port : BitVec 16) (tail : Nat) : NetState :=
  let socket := { openSocket ipProtoUdp with localPort := port, rxTail := tail }
  { netInit with sockets := Function.update netInit.sockets 0 socket }

theorem udpHandle_inside (hlen : udpHdrSize ≤ plen)
    (h : ∀ tail, ∃ net : NetState,
      net.sockets = (listening (htons ((load16 payload 2).getD 0)) tail).sockets ∧
        udpHandle payload plen net ≠ none) :
    6 ≤ payload.length ∧ udpDlen payload ≤ (payload.drop udpHdrSize).length := by
  have hfields : 6 ≤ payload.length := by
    by_contra hshort
    obtain ⟨net, -, hread⟩ := h 0
    refine hread ?_
    unfold udpHandle
    rw [if_neg (Nat.not_lt.mpr hlen), @load16_none payload 4 (by omega)]
    cases load16 payload 2 with
    | none => rfl
    | some dport => rfl
  refine ⟨hfields, ?_⟩
  by_contra hlong
  obtain ⟨dport, hdport⟩ := @load16_some payload 2 (by omega)
  obtain ⟨length, hlength⟩ := @load16_some payload 4 (by omega)
  unfold udpDlen at hlong
  rw [hlength, Option.getD_some] at hlong
  rw [hdport, Option.getD_some] at h
  -- The ring is not full when the first byte behind the datagram has its turn.
  obtain ⟨tail, htail⟩ : ∃ tail, (tail + (payload.drop udpHdrSize).length + 1) % sockRxbuf ≠ 0 := by
    by_cases hfull : (0 + (payload.drop udpHdrSize).length + 1) % sockRxbuf = 0
    · refine ⟨1, ?_⟩
      unfold sockRxbuf at hfull ⊢
      omega
    · exact ⟨0, hfull⟩
  obtain ⟨net, hsockets, hread⟩ := h tail
  refine hread ?_
  have hsocket : net.sockets 0 =
      { openSocket ipProtoUdp with localPort := htons dport, rxTail := tail } := by
    rw [hsockets]
    unfold listening
    dsimp only
    rw [Function.update_self]
  have hfirst : ∀ dlen, (payload.drop udpHdrSize).length < dlen →
      udpDeliver (htons dport) (payload.drop udpHdrSize) dlen net 0 = none := by
    intro dlen hdlen
    have hbound : (net.sockets 0).Bound (htons dport) := by
      rw [hsocket]
      exact ⟨rfl, rfl, rfl⟩
    have houtside := @deliver_outside (payload.drop udpHdrSize) (net.sockets 0) 0 _ dlen hdlen
      (by omega) (by rw [hsocket]; exact htail)
    unfold udpDeliver
    rw [if_pos hbound, houtside]
    rfl
  have hrange : List.range sockMax = 0 :: List.range' 1 15 := rfl
  unfold udpHandle
  rw [if_neg (Nat.not_lt.mpr hlen), hdport, hlength, hrange]
  simp only [Option.bind_eq_bind, Option.bind_some, List.foldlM_cons]
  rw [hfirst _ (Nat.lt_of_not_le hlong)]
  rfl

/-- `net_receive` reads inside of a frame in every state exactly when the lengths in it agree. -/
theorem reads_inside_iff (iface : NetIface) (frame : Packet) :
    (∀ kmalloc net, ReadsInside kmalloc iface frame net) ↔ LengthsAgree iface frame := by
  constructor
  · intro hinside hhandled
    constructor
    · intro hproto hlen
      obtain ⟨net', hsome, -⟩ := hinside (fun _ => true) netInit
      rcases @netReceive_cases (fun _ => true) iface frame netInit with
        ⟨hnot, -⟩ | ⟨-, counted, -, heq⟩
      · exact absurd hhandled hnot
      · rw [heq] at hsome
        unfold ip4Dispatch at hsome
        dsimp only at hsome
        rw [if_pos hproto] at hsome
        exact icmpHandle_inside hsome hlen
    · intro hproto hlen
      refine udpHandle_inside hlen fun tail => ?_
      obtain ⟨net', hsome, -⟩ := hinside (fun _ => true) (listening _ tail)
      rcases @netReceive_cases (fun _ => true) iface frame (listening _ tail) with
        ⟨hnot, -⟩ | ⟨-, counted, hsockets, heq⟩
      · exact absurd hhandled hnot
      · have hudp : ip4Protocol (frame.drop ethHdrSize) ≠ ipProtoIcmp := by
          rw [hproto]
          decide
        rw [heq] at hsome
        unfold ip4Dispatch at hsome
        dsimp only at hsome
        rw [if_neg hudp, if_pos hproto] at hsome
        refine ⟨counted, hsockets, ?_⟩
        rw [hsome]
        exact Option.some_ne_none net'
  · intro hagree kmalloc net
    exact readsInside_of_agree hagree

/-- A packet of 20 bytes says that its header has 60: its payload begins behind the frame. -/
theorem not_reads_inside_header : ¬ ∀ kmalloc net, ReadsInside kmalloc
    ⟨Vector.replicate 6 2, 0, 0, 0, none⟩
    (List.replicate 12 0 ++ [0x08, 0x00] ++ [0x4F, 0, 0, 20, 0, 0, 0, 0, 64, 1] ++
      List.replicate 10 0) net := by
  intro hinside
  obtain ⟨net', hsome, -⟩ := hinside (fun _ => true) netInit
  have hnone : netReceive (fun _ => true) ⟨Vector.replicate 6 2, 0, 0, 0, none⟩
      (List.replicate 12 0 ++ [0x08, 0x00] ++ [0x4F, 0, 0, 20, 0, 0, 0, 0, 64, 1] ++
        List.replicate 10 0) netInit = none := by
    refine Option.not_isSome_iff_eq_none.mp ?_
    decide +kernel
  rw [hnone] at hsome
  cases hsome

end PinguinOS.Net
