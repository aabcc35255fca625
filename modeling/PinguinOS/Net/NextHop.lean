import PinguinOS.Net.Stack

/-! Where `ip4_send` sends a packet, and what is in its frame. -/
namespace PinguinOS.Net

open Mm (u32)

/-- An address, as it is on the wire. -/
def netBytes (ip : Ip4Addr) : Packet := (bytes32 ip).reverse

/-- The broadcast address of all networks, or that of the interface's subnet. -/
def NetIface.Broadcast (iface : NetIface) (dst : Ip4Addr) : Prop :=
  dst = 0xFFFFFFFF ∨ dst = iface.ip &&& iface.netmask ||| ~~~iface.netmask

instance {iface : NetIface} {dst : Ip4Addr} : Decidable (iface.Broadcast dst) :=
  inferInstanceAs (Decidable (_ ∨ _))

/-- On the link, a packet goes to its destination, else to the gateway. -/
def NetIface.nextHop (iface : NetIface) (dst : Ip4Addr) : Ip4Addr :=
  if dst &&& iface.netmask = iface.ip &&& iface.netmask then dst else iface.gateway

/-- The Ethernet address that a packet is to go to, when it is known. -/
def targetMac (iface : NetIface) (cache : ArpCache) (dst : Ip4Addr) : Option MacAddr :=
  if iface.Broadcast dst then some macBroadcast else arpLookup cache (iface.nextHop dst)

/-- A header of 20 bytes for a payload, with a checksum that a receiver accepts. -/
structure HeaderOk (iface : NetIface) (dst : Ip4Addr) (proto : BitVec 8) (payload header : Packet) :
    Prop where
  version : header.take 2 = [0x45, 0]
  length : ∃ size : BitVec 16, (header.drop 2).take 2 = (bytes16 size).reverse ∧
    size.toNat = ip4HdrSize + payload.length
  whole : (header.drop 6).take 4 = [0, 0, 64, proto]
  addresses : header.drop 12 = netBytes iface.ip ++ netBytes dst
  checksum : Verifies header

/-- The frame carries the payload to `mac`. -/
def Carries (iface : NetIface) (mac : MacAddr) (dst : Ip4Addr) (proto : BitVec 8)
    (payload frame : Packet) : Prop :=
  ∃ header, HeaderOk iface dst proto payload header ∧
    frame = mac.toList ++ iface.mac.toList ++ [0x08, 0x00] ++ header ++ payload

/-- The frame asks all hosts for the Ethernet address of `hop`. -/
def AsksFor (iface : NetIface) (hop : Ip4Addr) (frame : Packet) : Prop :=
  frame = macBroadcast.toList ++ iface.mac.toList ++ [0x08, 0x06] ++
    ([0, 1, 0x08, 0x00, 6, 4, 0, 1] ++ iface.mac.toList ++ netBytes iface.ip ++
      [0, 0, 0, 0, 0, 0] ++ netBytes hop)

/-- One frame with the payload goes to the right address, or one request to all when the next hop
is not known. -/
def SendsRight (kmalloc : Nat → Bool) (iface : NetIface) (dst : Ip4Addr) (proto : BitVec 8)
    (payload : Packet) (net : NetState) : Prop :=
  let after := ip4Send kmalloc iface dst proto payload net
  match targetMac iface net.arpCache dst with
  | some mac => ∃ frame, Carries iface mac dst proto payload frame ∧
    after.2.sent = net.sent ++ [frame] ∧ iface.send.map (· frame) = some after.1
  | none => ∃ frame, AsksFor iface (iface.nextHop dst) frame ∧
    after.2.sent = net.sent ++ [frame] ∧ after.1 = -2

/-- There are a driver and memory; for a broadcast, the next hop is known under the Ethernet
broadcast address. -/
def CanSend (kmalloc : Nat → Bool) (iface : NetIface) (dst : Ip4Addr) (payload : Packet)
    (net : NetState) : Prop :=
  iface.send.isSome ∧ kmalloc (ethHdrSize + ip4HdrSize + payload.length) ∧
    (iface.Broadcast dst → arpLookup net.arpCache (iface.nextHop dst) = some macBroadcast)

variable {kmalloc : Nat → Bool} {iface : NetIface} {dst hop : Ip4Addr} {proto : BitVec 8}
  {payload frame : Packet} {net : NetState} {mac : MacAddr} {totalLen id x : BitVec 16}
  {send : Packet → Int}

/-! What is in the frames. -/

theorem ip4Header_dvd (hx : x = ipChecksum (ip4Header iface dst proto totalLen id 0)) :
    0xFFFF ∣ (memWords (ip4Header iface dst proto totalLen id x)).sum := by
  obtain ⟨front, hfront, heven⟩ : ∃ front : Packet,
      front = [0x45, 0] ++ bytes16 (htons totalLen) ++ bytes16 (htons id) ++ bytes16 0 ++
        [64, proto] ∧ front.length = 10 := ⟨_, rfl, rfl⟩
  have hall : ∀ sum, ip4Header iface dst proto totalLen id sum =
      front ++ (bytes16 sum ++ (bytes32 (htonl iface.ip) ++ bytes32 (htonl dst))) := by
    intro sum
    rw [hfront]
    rfl
  have hsmall := @memWords_sum_le (ip4Header iface dst proto totalLen id 0)
  have hlength : (ip4Header iface dst proto totalLen id 0).length = 20 := rfl
  rw [hlength] at hsmall
  unfold ipChecksum at hx
  rw [hall] at hx hsmall ⊢
  have hdvd := @checksum_dvd x front _ 0 (by rw [heven]) (by omega) hx
  rwa [Nat.zero_add] at hdvd

theorem ip4Header_verifies (hx : x = ipChecksum (ip4Header iface dst proto totalLen id 0)) :
    Verifies (ip4Header iface dst proto totalLen id x) := by
  have hdvd := (ip4Header_dvd hx).mul_left 256
  rw [verifies_iff, netWords_modEq.dvd_iff (Nat.dvd_refl _)]
  refine ⟨hdvd, ?_⟩
  have hfirst : ∃ rest, netWords (ip4Header iface dst proto totalLen id x) = 0x4500 :: rest :=
    ⟨_, rfl⟩
  obtain ⟨rest, hwords⟩ := hfirst
  rw [hwords, List.sum_cons]
  omega

theorem ip4Header_ok (hfit : ip4HdrSize + payload.length ≤ 65535)
    (hlen : totalLen = BitVec.ofNat 16 (ip4HdrSize + payload.length))
    (hx : x = ipChecksum (ip4Header iface dst proto totalLen id 0)) :
    HeaderOk iface dst proto payload (ip4Header iface dst proto totalLen id x) := by
  constructor
  case version => rfl
  case length =>
    refine ⟨totalLen, bytes16_htons, ?_⟩
    rw [hlen, BitVec.toNat_ofNat, Nat.mod_eq_of_lt (by omega)]
  case whole => rfl
  case addresses =>
    unfold netBytes
    rw [← bytes32_htonl, ← bytes32_htonl]
    rfl
  case checksum => exact ip4Header_verifies hx

theorem arpFrame_request : AsksFor iface hop (arpFrame macBroadcast iface.mac arpRequest iface.mac
    (htonl iface.ip) (Vector.replicate 6 0) (htonl hop)) := by
  unfold AsksFor arpFrame netBytes
  rw [bytes32_htonl, bytes32_htonl]
  rfl

/-- The first six bytes are the address. -/
theorem Carries.target (h : Carries iface mac dst proto payload frame) :
    frame.take 6 = mac.toList := by
  obtain ⟨header, -, rfl⟩ := h
  rw [List.append_assoc, List.append_assoc, List.append_assoc]
  exact List.take_left' Vector.length_toList

theorem byte_thirteen {front rest : Packet} {b0 b1 : BitVec 8} (h : front.length = 12) :
    (front ++ (b0 :: b1 :: rest))[13]? = some b1 := by
  rw [List.getElem?_append_right (by omega), h]
  rfl

theorem length_macs : (mac.toList ++ iface.mac.toList).length = 12 := by
  rw [List.length_append, Vector.length_toList, Vector.length_toList]

/-- A request is not a packet. -/
theorem Carries.not_asksFor (h : Carries iface mac dst proto payload frame) :
    ¬ AsksFor iface hop frame := by
  intro hask
  obtain ⟨header, -, hframe⟩ := h
  have hpacket : frame[13]? = some 0x00 := by
    rw [hframe, List.append_assoc, List.append_assoc]
    exact byte_thirteen length_macs
  have hrequest : frame[13]? = some 0x06 := by
    rw [hask, List.append_assoc]
    exact byte_thirteen length_macs
  rw [hpacket] at hrequest
  exact absurd hrequest (by decide)

/-! What `ip4_send` does. -/

theorem nextHop_eq : iface.nextHop dst =
    if dst &&& iface.netmask ≠ iface.ip &&& iface.netmask then iface.gateway else dst := by
  unfold NetIface.nextHop
  rw [ite_not]

theorem transmit_sent (hsend : iface.send = some send) :
    (transmit iface frame net).sent = net.sent ++ [frame] := by
  unfold transmit
  rw [if_pos (by rw [hsend]; rfl)]

/-- A frame for an IPv4 packet has a size of 32 bits. -/
theorem frameSize_eq (hfit : ip4HdrSize + payload.length ≤ 65535) :
    u32 (ethHdrSize + ip4HdrSize + payload.length) =
      ethHdrSize + ip4HdrSize + payload.length := by
  unfold ip4HdrSize at hfit
  unfold ethHdrSize ip4HdrSize
  exact Mm.u32_of_lt (by omega)

theorem ip4Send_fails (hfit : ip4HdrSize + payload.length ≤ 65535)
    (h : ¬ (iface.send.isSome ∧ kmalloc (ethHdrSize + ip4HdrSize + payload.length))) :
    ip4Send kmalloc iface dst proto payload net = (-1, net) := by
  unfold ip4Send
  cases hsend : iface.send with
  | none => rfl
  | some send =>
    dsimp only
    rw [frameSize_eq hfit, if_pos]
    intro hmem
    exact h ⟨by rw [hsend]; rfl, hmem⟩

/-- With a driver and memory, a packet or a request is sent. -/
theorem ip4Send_sends (hfit : ip4HdrSize + payload.length ≤ 65535)
    (hsend : iface.send = some send)
    (hmem : kmalloc (ethHdrSize + ip4HdrSize + payload.length)) :
    ∃ frame, (ip4Send kmalloc iface dst proto payload net).2.sent = net.sent ++ [frame] ∧
      match arpLookup net.arpCache (iface.nextHop dst) with
      | some mac => Carries iface mac dst proto payload frame ∧
        (ip4Send kmalloc iface dst proto payload net).1 = send frame
      | none => AsksFor iface (iface.nextHop dst) frame ∧
        (ip4Send kmalloc iface dst proto payload net).1 = -2 := by
  unfold ip4Send
  rw [hsend]
  dsimp only
  rw [frameSize_eq hfit, if_neg (not_not_intro hmem), ← nextHop_eq]
  cases hmac : arpLookup net.arpCache (iface.nextHop dst) with
  | none => exact ⟨_, transmit_sent hsend, arpFrame_request, rfl⟩
  | some mac => exact ⟨_, transmit_sent hsend, ⟨_, ip4Header_ok hfit rfl rfl, rfl⟩, rfl⟩

/-- `ip4_send` does not know broadcasts: a packet for all hosts waits for the Ethernet address of
the host `255.255.255.255`. -/
theorem next_hop_iff (hfit : ip4HdrSize + payload.length ≤ ethMtu) :
    SendsRight kmalloc iface dst proto payload net ↔ CanSend kmalloc iface dst payload net := by
  have hsize : ip4HdrSize + payload.length ≤ 65535 := hfit.trans (by decide)
  unfold SendsRight CanSend
  dsimp only
  by_cases hcan : iface.send.isSome ∧ kmalloc (ethHdrSize + ip4HdrSize + payload.length)
  · obtain ⟨send, hsend⟩ := Option.isSome_iff_exists.mp hcan.1
    obtain ⟨frame, hsent, hframe⟩ :=
      @ip4Send_sends kmalloc iface dst proto payload net send hsize hsend hcan.2
    have honly : ∀ other, (ip4Send kmalloc iface dst proto payload net).2.sent =
        net.sent ++ [other] → other = frame := by
      intro other hother
      exact List.singleton_inj.mp (List.append_cancel_left (hother.symm.trans hsent))
    have hcond : (iface.send.isSome ∧ kmalloc (ethHdrSize + ip4HdrSize + payload.length) ∧
        (iface.Broadcast dst → arpLookup net.arpCache (iface.nextHop dst) = some macBroadcast)) ↔
        (iface.Broadcast dst → arpLookup net.arpCache (iface.nextHop dst) = some macBroadcast) :=
      ⟨fun h => h.2.2, fun h => ⟨hcan.1, hcan.2, h⟩⟩
    rw [hcond]
    unfold targetMac
    by_cases hbroad : iface.Broadcast dst
    · rw [if_pos hbroad]
      cases hmac : arpLookup net.arpCache (iface.nextHop dst) with
      | none =>
        rw [hmac] at hframe
        refine iff_of_false ?_ fun h => (nomatch h hbroad)
        rintro ⟨other, hcarries, hother, -⟩
        cases honly other hother
        exact hcarries.not_asksFor hframe.1
      | some mac =>
        rw [hmac] at hframe
        constructor
        · rintro ⟨other, hcarries, hother, -⟩ -
          cases honly other hother
          have hsame : mac.toList = macBroadcast.toList :=
            hframe.1.target.symm.trans hcarries.target
          rw [Vector.toList_inj.mp hsame]
        · intro h
          cases h hbroad
          exact ⟨frame, hframe.1, hsent, by rw [hsend, hframe.2]; rfl⟩
    · rw [if_neg hbroad]
      refine iff_of_true ?_ fun h => absurd h hbroad
      cases hmac : arpLookup net.arpCache (iface.nextHop dst) with
      | none =>
        rw [hmac] at hframe
        exact ⟨frame, hframe.1, hsent, hframe.2⟩
      | some mac =>
        rw [hmac] at hframe
        exact ⟨frame, hframe.1, hsent, by rw [hsend, hframe.2]; rfl⟩
  · rw [ip4Send_fails hsize hcan]
    refine iff_of_false ?_ fun h => hcan ⟨h.1, h.2.1⟩
    split
    · rintro ⟨frame, -, hsent, -⟩
      exact absurd hsent (by simp)
    · rintro ⟨frame, -, hsent, -⟩
      exact absurd hsent (by simp)

/-- An interface with an address: a packet for its network makes a request. -/
theorem next_hop_iff_on_link : SendsRight (fun _ => true)
    ⟨Vector.replicate 6 2, 0x0A000001, 0xFF000000, 0x0A0000FE, some fun _ => 0⟩
    0x0A000002 ipProtoUdp [1] netInit :=
  (next_hop_iff (by decide)).mpr ⟨rfl, rfl, fun hbroad => absurd hbroad (by decide)⟩

/-- An interface without an address, as `dhcp_discover` finds it, sends to all hosts. -/
theorem not_next_hop_discover : ¬ SendsRight (fun _ => true)
    ⟨Vector.replicate 6 2, 0, 0, 0, some fun _ => 0⟩ 0xFFFFFFFF ipProtoUdp [1] netInit := by
  rintro ⟨frame, -, -, hret⟩
  have hretry : (ip4Send (fun _ => true) ⟨Vector.replicate 6 2, 0, 0, 0, some fun _ => 0⟩
      0xFFFFFFFF ipProtoUdp [1] netInit).1 = -2 := by decide +kernel
  rw [hretry] at hret
  have hzero : (0 : Int) = -2 := Option.some.inj hret
  exact absurd hzero (by decide)

end PinguinOS.Net
