import PinguinOS.Net.Bounds
import PinguinOS.Net.NextHop

/-! The loopback interface: whatever it is given to send is received again at once. -/
namespace PinguinOS.Net

open Mm (u32)

/-- `LO_BUF_SIZE` -/
def loBufSize : Nat := ethMtu + ethHdrSize + 64

/-- What `lo_send` returns. -/
def loResult (data : Packet) : Int := if loBufSize < data.length then -1 else 0

/-- `lo_iface` after `loopback_init` -/
def loIface : NetIface where
  mac := Vector.replicate 6 0
  ip := 0x7F000001
  netmask := 0xFF000000
  gateway := 0x7F000001
  send := some loResult

/-- The frame that `lo_send` builds around its data. -/
def loFrame (data : Packet) : Packet :=
  ethHeader (Vector.replicate 6 0) (Vector.replicate 6 0) ethTypeIpv4 ++
    data.take (loBufSize - ethHdrSize)

/-- `lo_send`, with at most `depth` calls inside of one another: what the handlers send in their
turn goes the same way. -/
def loSend (kmalloc : Nat → Bool) : (depth : Nat) → Packet → NetState → Option NetState
  | 0, _, _ => none
  | depth + 1, data, net =>
    if loBufSize < data.length then some net
    else do
      let after ← netReceive kmalloc loIface (loFrame data) net
      (after.sent.drop net.sent.length).foldlM (fun net data => loSend kmalloc depth data net)
        after

/-- The header that `udp_send` writes. -/
def udpHeader (srcPort dstPort length : BitVec 16) : Packet :=
  bytes16 (htons srcPort) ++ bytes16 (htons dstPort) ++ bytes16 (htons length) ++ bytes16 0

def udpSend (kmalloc : Nat → Bool) (iface : NetIface) (dst : Ip4Addr) (srcPort dstPort : BitVec 16)
    (data : Packet) (net : NetState) : Int × NetState :=
  let total := u32 (udpHdrSize + data.length)
  if ¬ kmalloc total then (-1, net)
  else
    ip4Send kmalloc iface dst ipProtoUdp
      (udpHeader srcPort dstPort (BitVec.ofNat 16 total) ++ data) net

/-- `udp_send` over the loopback interface; nothing that `ip4_send` does after the call of the
driver is read by the receive path. -/
def loUdpSend (kmalloc : Nat → Bool) (depth : Nat) (dst : Ip4Addr) (srcPort dstPort : BitVec 16)
    (data : Packet) (net : NetState) : Option (Int × NetState) := do
  let (ret, after) := udpSend kmalloc loIface dst srcPort dstPort data net
  let after ← (after.sent.drop net.sent.length).foldlM
    (fun net data => loSend kmalloc depth data net) after
  return (ret, after)

/-- A datagram to `127.0.0.1` ends up in the ring of socket `i`. -/
def LoDelivers (kmalloc : Nat → Bool) (depth : Nat) (srcPort dstPort : BitVec 16) (data : Packet)
    (net : NetState) (i : Nat) : Prop :=
  ∃ ret after,
    loUdpSend kmalloc depth 0x7F000001 srcPort dstPort data net = some (ret, after) ∧
      (after.sockets i).queued = (net.sockets i).queued ++ data

variable {kmalloc : Nat → Bool} {data payload frame : Packet} {net : NetState} {mac : MacAddr}
  {dst hop : Ip4Addr} {proto : BitVec 8} {depth i : Nat} {srcPort dstPort : BitVec 16}

/-! The receive path takes the inner Ethernet header for an IP header. -/

theorem ip4Dst_eq {b0 b1 b2 b3 : BitVec 8} {front rest : Packet} (hfront : front.length = 16) :
    ip4Dst (front ++ ([b0, b1, b2, b3] ++ rest)) = b0 ++ b1 ++ b2 ++ b3 := by
  have hbyte : ∀ n, (front ++ ([b0, b1, b2, b3] ++ rest))[16 + n]? =
      ([b0, b1, b2, b3] ++ rest)[n]? := by
    intro n
    rw [List.getElem?_append_right (by omega), hfront, Nat.add_sub_cancel_left]
  unfold ip4Dst load32
  rw [hbyte 0, hbyte 1, hbyte 2, hbyte 3]
  exact htonl_append

/-- Where a destination address should be, there are the length and the number of the packet. -/
theorem Carries.foreign (h : Carries loIface mac dst proto payload frame)
    (hfit : ip4HdrSize + payload.length ≤ ethMtu) :
    ip4Dst frame ≠ loIface.ip ∧ ip4Dst frame ≠ 0xFFFFFFFF := by
  obtain ⟨header, hheader, rfl⟩ := h
  obtain ⟨size, hlength, hsize⟩ := hheader.length
  obtain ⟨b2, b3, tail, hsplit⟩ : ∃ b2 b3 tail, header =
      header.take 2 ++ ((bytes16 size).reverse ++ (b2 :: b3 :: tail)) := by
    have hrest : 8 ≤ (header.drop 4).length := by
      have haddr := congrArg List.length hheader.addresses
      rw [List.length_drop] at haddr ⊢
      unfold netBytes bytes32 at haddr
      simp only [List.length_append, List.length_reverse, List.length_cons, List.length_nil] at haddr
      omega
    obtain ⟨b2, b3, tail, htail⟩ : ∃ b2 b3 tail, header.drop 4 = b2 :: b3 :: tail := by
      match hdrop : header.drop 4, hrest with
      | b2 :: b3 :: tail, _ => exact ⟨b2, b3, tail, rfl⟩
    refine ⟨b2, b3, tail, ?_⟩
    rw [← htail, ← hlength, show header.drop 4 = (header.drop 2).drop 2 by rw [List.drop_drop],
      List.take_append_drop, List.take_append_drop]
  have hfront : (mac.toList ++ loIface.mac.toList ++ [0x08, 0x00] ++ header.take 2).length = 16 := by
    rw [hheader.version, List.length_append, List.length_append, length_macs]
    rfl
  have hdst : ip4Dst (mac.toList ++ loIface.mac.toList ++ [0x08, 0x00] ++ header ++ payload) =
      size.extractLsb' 8 8 ++ size.extractLsb' 0 8 ++ b2 ++ b3 := by
    rw [hsplit]
    have hfield := @ip4Dst_eq (size.extractLsb' 8 8) (size.extractLsb' 0 8) b2 b3 _
      (tail ++ payload) hfront
    rw [← hfield]
    unfold bytes16
    simp only [List.append_assoc, List.cons_append, List.nil_append, List.reverse_cons,
      List.reverse_nil]
  have hjoin : size.extractLsb' 8 8 ++ size.extractLsb' 0 8 = size :=
    BitVec.extractLsb'_append_extractLsb'
  rw [hdst, hjoin]
  have hvalue : (size ++ b2 ++ b3).toNat = 256 * (256 * size.toNat + b2.toNat) + b3.toNat := by
    rw [toNat_append, toNat_append]
  unfold ip4HdrSize at hsize hfit
  unfold ethMtu at hfit
  have hlow2 := b2.isLt
  have hlow3 := b3.isLt
  constructor
  · intro heq
    have hnat := congrArg BitVec.toNat heq
    have hip : loIface.ip.toNat = 0x7F000001 := rfl
    omega
  · intro heq
    have hnat := congrArg BitVec.toNat heq
    have hall : (0xFFFFFFFF : BitVec 32).toNat = 0xFFFFFFFF := rfl
    omega

theorem AsksFor.foreign (h : AsksFor loIface hop frame) :
    ip4Dst frame ≠ loIface.ip ∧ ip4Dst frame ≠ 0xFFFFFFFF := by
  subst h
  have hfront : (macBroadcast.toList ++ loIface.mac.toList ++ [0x08, 0x06] ++ [0, 1]).length = 16 :=
    rfl
  have hdst := @ip4Dst_eq 0x08 0x00 6 4 _ ([0, 1] ++ loIface.mac.toList ++ netBytes loIface.ip ++
      [0, 0, 0, 0, 0, 0] ++ netBytes hop) hfront
  have hframe : macBroadcast.toList ++ loIface.mac.toList ++ [0x08, 0x06] ++
      ([0, 1, 0x08, 0x00, 6, 4, 0, 1] ++ loIface.mac.toList ++ netBytes loIface.ip ++
        [0, 0, 0, 0, 0, 0] ++ netBytes hop) =
      macBroadcast.toList ++ loIface.mac.toList ++ [0x08, 0x06] ++ [0, 1] ++
        ([0x08, 0x00, 6, 4] ++ ([0, 1] ++ loIface.mac.toList ++ netBytes loIface.ip ++
          [0, 0, 0, 0, 0, 0] ++ netBytes hop)) := by
    simp only [List.append_assoc, List.cons_append, List.nil_append]
  rw [hframe, hdst]
  exact ⟨by decide, by decide⟩

/-- A frame that does not seem to be for this host is dropped. -/
theorem netReceive_foreign (hlow : ip4HdrSize ≤ data.length)
    (hhigh : data.length ≤ loBufSize - ethHdrSize)
    (hdst : ip4Dst data ≠ loIface.ip ∧ ip4Dst data ≠ 0xFFFFFFFF) :
    ∃ after, netReceive kmalloc loIface (loFrame data) net = some after ∧
      after.sockets = net.sockets ∧ after.sent = net.sent := by
  have hframe : loFrame data = List.replicate 12 0 ++ ([0x08, 0x00] ++ data) := by
    unfold loFrame
    rw [List.take_of_length_le hhigh]
    rfl
  have hlength : (loFrame data).length = ethHdrSize + data.length := by
    rw [hframe]
    simp only [List.length_append, List.length_replicate, List.length_cons, List.length_nil]
    unfold ethHdrSize
    omega
  have hpayload : (loFrame data).drop ethHdrSize = data := by
    rw [hframe]
    rfl
  have htype : load16 (loFrame data) 12 = some 0x0008 := by
    rw [hframe]
    rfl
  have hown : loIface.ip ≠ 0 := by decide
  unfold netReceive
  rw [if_neg (by rw [hlength]; omega), htype, hpayload, hlength, Nat.add_sub_cancel_left]
  simp only [Option.bind_eq_bind, Option.bind_some]
  rw [if_neg (by decide), if_pos (by decide), ipv4Handle_eq hlow]
  split
  case isTrue => exact ⟨_, rfl, rfl, rfl⟩
  case isFalse =>
    rw [if_pos ⟨hown, hdst⟩]
    exact ⟨_, rfl, rfl, rfl⟩

theorem loSend_foreign (hlow : ip4HdrSize ≤ data.length)
    (hhigh : data.length ≤ loBufSize - ethHdrSize)
    (hdst : ip4Dst data ≠ loIface.ip ∧ ip4Dst data ≠ 0xFFFFFFFF) :
    ∃ after, loSend kmalloc (depth + 1) data net = some after ∧ after.sockets = net.sockets := by
  obtain ⟨after, hreceive, hsockets, hsent⟩ :=
    @netReceive_foreign kmalloc data net hlow hhigh hdst
  refine ⟨after, ?_, hsockets⟩
  unfold loSend
  rw [if_neg (by omega), hreceive]
  simp only [Option.bind_eq_bind, Option.bind_some]
  rw [hsent, List.drop_length]
  rfl

theorem HeaderOk.size {iface : NetIface} {header : Packet}
    (h : HeaderOk iface dst proto payload header) : header.length = ip4HdrSize := by
  have haddr := congrArg List.length h.addresses
  unfold netBytes bytes32 at haddr
  simp only [List.length_drop, List.length_append, List.length_reverse, List.length_cons,
    List.length_nil] at haddr
  unfold ip4HdrSize
  omega

/-- The frames that `ip4_send` makes fit into the buffer and do not seem to be for this host. -/
theorem frame_foreign (hfit : ip4HdrSize + payload.length ≤ ethMtu)
    (h : Carries loIface mac dst proto payload frame ∨ AsksFor loIface hop frame) :
    ip4HdrSize ≤ frame.length ∧ frame.length ≤ loBufSize - ethHdrSize ∧
      ip4Dst frame ≠ loIface.ip ∧ ip4Dst frame ≠ 0xFFFFFFFF := by
  rcases h with hcarries | hask
  · have hlength : frame.length = ethHdrSize + ip4HdrSize + payload.length := by
      obtain ⟨header, hheader, rfl⟩ := hcarries
      rw [List.length_append, List.length_append, List.length_append, length_macs, hheader.size]
      rfl
    unfold ip4HdrSize ethMtu at hfit
    unfold ethHdrSize ip4HdrSize at hlength
    refine ⟨?_, ?_, hcarries.foreign hfit⟩
    · unfold ip4HdrSize
      omega
    · unfold loBufSize ethMtu ethHdrSize
      omega
  · have hlength : frame.length = 42 := by
      rw [hask]
      rfl
    refine ⟨?_, ?_, hask.foreign⟩
    · rw [hlength]
      decide
    · rw [hlength]
      decide

/-- Over the loopback interface, no socket ever gets anything. -/
theorem loUdpSend_sockets (hfit : ip4HdrSize + udpHdrSize + data.length ≤ ethMtu) :
    ∃ ret after,
      loUdpSend kmalloc (depth + 1) 0x7F000001 srcPort dstPort data net = some (ret, after) ∧
        after.sockets = net.sockets := by
  have hnothing : (net.sent.drop net.sent.length).foldlM
      (fun net data => loSend kmalloc (depth + 1) data net) net = some net := by
    rw [List.drop_length]
    rfl
  unfold loUdpSend udpSend
  dsimp only
  split
  case isTrue =>
    refine ⟨-1, net, ?_, rfl⟩
    dsimp only
    rw [hnothing]
    rfl
  case isFalse =>
    obtain ⟨datagram, hdatagram⟩ : ∃ datagram, datagram = udpHeader srcPort dstPort
        (BitVec.ofNat 16 (u32 (udpHdrSize + data.length))) ++ data := ⟨_, rfl⟩
    have hsize : ip4HdrSize + datagram.length ≤ ethMtu := by
      rw [hdatagram, List.length_append]
      have hheader : (udpHeader srcPort dstPort
        (BitVec.ofNat 16 (u32 (udpHdrSize + data.length)))).length = udpHdrSize := rfl
      omega
    have hwhole : ip4HdrSize + datagram.length ≤ 65535 := hsize.trans (by decide)
    rw [← hdatagram]
    by_cases hmem : kmalloc (ethHdrSize + ip4HdrSize + datagram.length)
    · obtain ⟨frame, hsent, hframe⟩ := @ip4Send_sends kmalloc loIface 0x7F000001 ipProtoUdp datagram
        net loResult hwhole rfl hmem
      have hmade : (∃ mac, Carries loIface mac 0x7F000001 ipProtoUdp datagram frame) ∨
          AsksFor loIface (loIface.nextHop 0x7F000001) frame := by
        revert hframe
        cases arpLookup net.arpCache (loIface.nextHop 0x7F000001) with
        | none => exact fun h => .inr h.1
        | some mac => exact fun h => .inl ⟨mac, h.1⟩
      have hforeign : ip4HdrSize ≤ frame.length ∧ frame.length ≤ loBufSize - ethHdrSize ∧
          ip4Dst frame ≠ loIface.ip ∧ ip4Dst frame ≠ 0xFFFFFFFF := by
        rcases hmade with ⟨mac, hcarries⟩ | hask
        · exact @frame_foreign datagram frame mac 0x7F000001 0 ipProtoUdp hsize (.inl hcarries)
        · exact @frame_foreign datagram frame macBroadcast 0x7F000001 _ ipProtoUdp hsize (.inr hask)
      obtain ⟨hlow, hhigh, hdst⟩ := hforeign
      obtain ⟨after, hloop, hsockets⟩ := @loSend_foreign kmalloc frame
        (ip4Send kmalloc loIface 0x7F000001 ipProtoUdp datagram net).2 depth hlow hhigh hdst
      refine ⟨(ip4Send kmalloc loIface 0x7F000001 ipProtoUdp datagram net).1, after, ?_,
        hsockets.trans ip4Send_sockets⟩
      rw [hsent, List.drop_left, List.foldlM_cons, hloop]
      rfl
    · rw [ip4Send_fails hwhole fun h => hmem h.2]
      refine ⟨-1, net, ?_, rfl⟩
      dsimp only
      rw [hnothing]
      rfl

/-- The loopback interface puts an Ethernet header in front of a frame that has one already, so
the only payload that arrives is the empty one. -/
theorem loopback_iff (hfit : ip4HdrSize + udpHdrSize + data.length ≤ ethMtu) :
    LoDelivers kmalloc (depth + 1) srcPort dstPort data net i ↔ data = [] := by
  obtain ⟨ret, after, hsend, hsockets⟩ :=
    @loUdpSend_sockets kmalloc data net depth srcPort dstPort hfit
  constructor
  · rintro ⟨ret', after', hsend', hqueued⟩
    cases hsend.symm.trans hsend'
    rw [hsockets] at hqueued
    exact List.append_right_eq_self.mp hqueued.symm
  · rintro rfl
    refine ⟨ret, after, hsend, ?_⟩
    rw [hsockets, List.append_nil]

/-- One socket is bound to port 7. -/
def echoPort : NetState :=
  { netInit with
    sockets := Function.update netInit.sockets 0 { openSocket ipProtoUdp with localPort := 7 } }

theorem loopback_iff_empty : LoDelivers (fun _ => true) 1 9 7 [] echoPort 0 :=
  (loopback_iff (by decide)).mpr rfl

theorem not_loopback_byte : ¬ LoDelivers (fun _ => true) 1 9 7 [1] echoPort 0 := by
  rintro ⟨ret, after, hsend, hqueued⟩
  obtain ⟨ret', after', hsend', hsockets⟩ :=
    @loUdpSend_sockets (fun _ => true) [1] echoPort 0 9 7 (by decide)
  cases hsend'.symm.trans hsend
  rw [hsockets] at hqueued
  exact absurd hqueued.symm (by simp)

end PinguinOS.Net
