import PinguinOS.Net.Bounds
import PinguinOS.Net.Checksum
import PinguinOS.Net.NextHop

/-! The reply to an ICMP echo request. -/
namespace PinguinOS.Net

open Mm (sub32)

/-- A field of 16 bits, as it is on the wire. -/
def netBytes16 (x : BitVec 16) : Packet := (bytes16 x).reverse

/-- An ICMP message with an identifier and a sequence number. -/
def echoMessage (type code : BitVec 8) (checksum identifier sequence : BitVec 16)
    (payload : Packet) : Packet :=
  [type, code] ++ netBytes16 checksum ++ netBytes16 identifier ++ netBytes16 sequence ++ payload

/-- A frame with an echo request, in an IPv4 datagram with any header and any padding behind. -/
structure EchoRequest where
  target : MacAddr
  sender : MacAddr
  tos : BitVec 8
  id : BitVec 16
  fragment : BitVec 16
  ttl : BitVec 8
  headerChecksum : BitVec 16
  src : Ip4Addr
  options : Packet
  code : BitVec 8
  checksum : BitVec 16
  identifier : BitVec 16
  sequence : BitVec 16
  payload : Packet
  padding : Packet
  aligned : options.length % 4 = 0
  short : options.length ≤ 40
  fits : ip4HdrSize + options.length + (icmpHdrSize + payload.length) ≤ 65535

namespace EchoRequest

def message (r : EchoRequest) : Packet :=
  echoMessage icmpEchoRequest r.code r.checksum r.identifier r.sequence r.payload

def header (r : EchoRequest) (dst : Ip4Addr) : Packet :=
  [0x40 ||| BitVec.ofNat 8 (5 + r.options.length / 4), r.tos] ++
    netBytes16 (BitVec.ofNat 16 (ip4HdrSize + r.options.length + r.message.length)) ++
    netBytes16 r.id ++ netBytes16 r.fragment ++ [r.ttl, ipProtoIcmp] ++
    netBytes16 r.headerChecksum ++ netBytes r.src ++ netBytes dst ++ r.options

/-- The frame, addressed to `dst`. -/
def frame (r : EchoRequest) (dst : Ip4Addr) : Packet :=
  r.target.toList ++ r.sender.toList ++ [0x08, 0x00] ++ r.header dst ++ r.message ++ r.padding

end EchoRequest

variable {kmalloc : Nat → Bool} {iface : NetIface} {net : NetState} {mac : MacAddr}
  {p rest payload : Packet} {code : BitVec 8} {checksum identifier sequence : BitVec 16}

/-! What the receiver reads. -/

theorem netBytes16_eq (x : BitVec 16) : netBytes16 x = [x.extractLsb' 8 8, x.extractLsb' 0 8] := rfl

theorem length_echoMessage {type : BitVec 8} :
    (echoMessage type code checksum identifier sequence payload).length =
      icmpHdrSize + payload.length := by
  unfold echoMessage
  simp only [netBytes16_eq, List.length_append, List.length_cons, List.length_nil]
  rfl

theorem htons_bytes (x : BitVec 16) : htons (x.extractLsb' 0 8 ++ x.extractLsb' 8 8) = x := by
  rw [htons_append]
  exact BitVec.extractLsb'_append_extractLsb'

/-- An address that is read from the wire. -/
theorem exists_netBytes (x : Ip4Addr) :
    ∃ b0 b1 b2 b3 : BitVec 8, netBytes x = [b3, b2, b1, b0] ∧ htonl (b0 ++ b1 ++ b2 ++ b3) = x := by
  obtain ⟨b0, b1, b2, b3, rfl⟩ := exists_bytes32 x
  refine ⟨b0, b1, b2, b3, ?_, htonl_append⟩
  rw [netBytes, bytes32_append]
  rfl

theorem ihl_eq : ∀ k ≤ 10, ((0x40 ||| BitVec.ofNat 8 (5 + k)) &&& (0x0F : BitVec 8)).toNat = 5 + k := by
  decide

namespace EchoRequest

variable {dst : Ip4Addr}

theorem length_header (r : EchoRequest) : (r.header dst).length = ip4HdrSize + r.options.length := by
  unfold header netBytes bytes32
  simp only [netBytes16_eq, List.length_append, List.length_cons, List.length_nil,
    List.length_reverse]
  rfl

/-- The fields of the header, as `ipv4_handle` reads them. -/
theorem header_fields (r : EchoRequest) (rest : Packet) :
    ip4Ihl (r.header dst ++ rest) = ip4HdrSize + r.options.length ∧
      ip4Totlen (r.header dst ++ rest) = ip4HdrSize + r.options.length + r.message.length ∧
      ip4Protocol (r.header dst ++ rest) = ipProtoIcmp ∧ ip4Dst (r.header dst ++ rest) = dst ∧
      ∃ src, load32 (r.header dst ++ rest) 12 = some src ∧ htonl src = r.src := by
  obtain ⟨s0, s1, s2, s3, hsrc, hsrcAddr⟩ := exists_netBytes r.src
  obtain ⟨d0, d1, d2, d3, hdst, hdstAddr⟩ := exists_netBytes dst
  have haligned := r.aligned
  have hshort := r.short
  have hfits := r.fits
  have hlength : r.message.length = icmpHdrSize + r.payload.length := length_echoMessage
  have hihl := ihl_eq (r.options.length / 4) (by omega)
  have htotal := htons_bytes
    (BitVec.ofNat 16 (ip4HdrSize + r.options.length + r.message.length))
  unfold header
  rw [hsrc, hdst]
  simp only [netBytes16_eq]
  refine ⟨(congrArg (· * 4) hihl).trans ?_, (congrArg BitVec.toNat htotal).trans ?_, rfl, hdstAddr,
    ⟨_, rfl, hsrcAddr⟩⟩
  · unfold ip4HdrSize
    omega
  · rw [BitVec.toNat_ofNat, Nat.mod_eq_of_lt (by omega)]

theorem frame_drop (r : EchoRequest) :
    (r.frame dst).drop ethHdrSize = r.header dst ++ (r.message ++ r.padding) := by
  have hfront : (r.target.toList ++ r.sender.toList ++ [0x08, 0x00]).length = ethHdrSize := by
    rw [List.length_append, List.length_append, Vector.length_toList, Vector.length_toList]
    rfl
  unfold frame
  rw [List.append_assoc, List.append_assoc]
  exact List.drop_left' hfront

theorem frame_type (r : EchoRequest) : load16 (r.frame dst) 12 = some (htons ethTypeIpv4) := by
  have hfront : (r.target.toList ++ r.sender.toList).length = 12 := by
    rw [List.length_append, Vector.length_toList, Vector.length_toList]
  have hbyte : ∀ k, (r.frame dst)[12 + k]? =
      ([0x08, 0x00] ++ (r.header dst ++ (r.message ++ r.padding)))[k]? := by
    intro k
    unfold frame
    rw [List.append_assoc, List.append_assoc, List.append_assoc,
      List.getElem?_append_right (by omega), hfront, Nat.add_sub_cancel_left]
  have hfirst : (r.frame dst)[12]? = some 0x08 := hbyte 0
  have hsecond : (r.frame dst)[12 + 1]? = some 0x00 := hbyte 1
  unfold load16
  rw [hfirst, hsecond]
  rfl

end EchoRequest

/-! What the handler answers. -/

/-- The reply carries the request's payload, under a checksum of its own. -/
theorem icmpReply_spec (hfit : icmpHdrSize + payload.length ≤ 65535) :
    ∃ sum, icmpReply (echoMessage icmpEchoRequest code checksum identifier sequence payload) =
        echoMessage icmpEchoReply code sum identifier sequence payload ∧
      Verifies (echoMessage icmpEchoReply code sum identifier sequence payload) := by
  obtain ⟨back, hback⟩ : ∃ back, back = netBytes16 identifier ++ netBytes16 sequence ++ payload :=
    ⟨_, rfl⟩
  have hreply : ∀ x : BitVec 16, echoMessage icmpEchoReply code (htons x) identifier sequence payload =
      [icmpEchoReply, code] ++ (bytes16 x ++ back) := by
    intro x
    have hfield : netBytes16 (htons x) = bytes16 x := by
      rw [netBytes16, bytes16_htons, List.reverse_reverse]
    unfold echoMessage
    rw [hfield, hback]
    simp only [List.append_assoc]
  have hlength : ([icmpEchoReply, code] ++ (bytes16 0 ++ back)).length ≤ 65535 := by
    have hsame := @length_echoMessage payload code (htons 0) identifier sequence icmpEchoReply
    rw [hreply] at hsame
    rw [hsame]
    exact hfit
  obtain ⟨x, hx⟩ : ∃ x, x = ipChecksum ([icmpEchoReply, code] ++ (bytes16 0 ++ back)) := ⟨_, rfl⟩
  refine ⟨htons x, ?_, ?_⟩
  · rw [hreply, hx, hback]
    rfl
  · rw [hreply]
    have heven : [icmpEchoReply, code].length % 2 = 0 := Nat.mod_self 2
    exact verifies_of_ipChecksum hlength (ipChecksum_stored hlength heven hx)

variable {request : EchoRequest} {padding : Packet}

/-- What is sent for a request: one datagram with the reply. -/
structure Replies (iface : NetIface) (mac : MacAddr) (request : EchoRequest) (net after : NetState) :
    Prop where
  sent : ∃ frame sum, after.sent = net.sent ++ [frame] ∧
    Carries iface mac request.src ipProtoIcmp
      (echoMessage icmpEchoReply request.code sum request.identifier request.sequence
        request.payload) frame ∧
    Verifies (echoMessage icmpEchoReply request.code sum request.identifier request.sequence
      request.payload)

/-- The request finds a driver, memory for both copies, and the address of the next hop. -/
structure Answerable (kmalloc : Nat → Bool) (iface : NetIface) (net : NetState) (mac : MacAddr)
    (request : EchoRequest) : Prop where
  driver : iface.send.isSome
  message : kmalloc (icmpHdrSize + request.payload.length)
  frame : kmalloc (ethHdrSize + ip4HdrSize + (icmpHdrSize + request.payload.length))
  hop : arpLookup net.arpCache (iface.nextHop request.src) = some mac

theorem icmpHandle_echo {ip : Packet} {src : BitVec 32}
    (h : Answerable kmalloc iface net mac request) (hip : load32 ip 12 = some src)
    (hsrc : htonl src = request.src) :
    ∃ after, icmpHandle kmalloc iface ip (request.message ++ padding) request.message.length net =
      some after ∧ Replies iface mac request net after := by
  have hfits := request.fits
  have hlength : request.message.length = icmpHdrSize + request.payload.length := length_echoMessage
  obtain ⟨send, hsend⟩ := Option.isSome_iff_exists.mp h.driver
  obtain ⟨sum, hreply, hverifies⟩ := @icmpReply_spec request.payload request.code request.checksum
    request.identifier request.sequence (by omega)
  have hreply : icmpReply request.message = echoMessage icmpEchoReply request.code sum
      request.identifier request.sequence request.payload := hreply
  have hsame : (icmpReply request.message).length = icmpHdrSize + request.payload.length :=
    (congrArg List.length hreply).trans length_echoMessage
  obtain ⟨pinged, hpinged⟩ : ∃ pinged : NetState, pinged =
    { net with stats := { net.stats with icmpPings := net.stats.icmpPings + 1 } } := ⟨_, rfl⟩
  obtain ⟨frame, hsent, hframe⟩ :=
    @ip4Send_sends kmalloc iface request.src ipProtoIcmp (icmpReply request.message) pinged send
      (by omega) hsend (by rw [hsame]; exact h.frame)
  obtain ⟨replied, hreplied⟩ : ∃ replied, replied =
    (ip4Send kmalloc iface request.src ipProtoIcmp (icmpReply request.message) pinged).2 := ⟨_, rfl⟩
  have hhop : arpLookup pinged.arpCache (iface.nextHop request.src) = some mac := by
    rw [hpinged]
    exact h.hop
  rw [hhop, hreply] at hframe
  have hbefore : pinged.sent = net.sent := by rw [hpinged]
  rw [hbefore, ← hreplied] at hsent
  have hcopy : copyBytes (request.message ++ padding) request.message.length =
      some request.message := by
    unfold copyBytes
    rw [if_pos (by rw [List.length_append]; omega), List.take_left' rfl]
  have htype : (request.message ++ padding)[0]? = some icmpEchoRequest := rfl
  have hhandle : icmpHandle kmalloc iface ip (request.message ++ padding) request.message.length
      net = some
        { replied with
          stats := { replied.stats with icmpPongs := replied.stats.icmpPongs + 1 } } := by
    unfold icmpHandle
    rw [if_neg (by omega), htype]
    simp only [Option.bind_eq_bind, Option.bind_some]
    rw [if_pos trivial, hlength, if_neg (not_not_intro h.message), ← hlength, hcopy, hip]
    simp only [Option.bind_some]
    rw [hsrc, hreplied, hpinged]
  exact ⟨_, hhandle, ⟨frame, sum, hsent, hframe.1, hverifies⟩⟩

theorem ipv4Handle_echo (h : Answerable kmalloc iface net mac request) :
    ∃ after, ipv4Handle kmalloc iface
        (request.header iface.ip ++ (request.message ++ request.padding))
        (request.header iface.ip ++ (request.message ++ request.padding)).length net = some after ∧
      Replies iface mac request net after := by
  obtain ⟨hihl, htotlen, hproto, hdst, src, hsrc, hsrcAddr⟩ :=
    @EchoRequest.header_fields iface.ip request (request.message ++ request.padding)
  have hheader := @EchoRequest.length_header iface.ip request
  have hlength : (request.header iface.ip ++ (request.message ++ request.padding)).length =
      ip4HdrSize + request.options.length + request.message.length + request.padding.length := by
    rw [List.length_append, List.length_append, hheader]
    omega
  have hpayload : (request.header iface.ip ++ (request.message ++ request.padding)).drop
      (ip4HdrSize + request.options.length) = request.message ++ request.padding :=
    List.drop_left' hheader
  have hfits := request.fits
  have hmessage : request.message.length = icmpHdrSize + request.payload.length :=
    length_echoMessage
  have hplen : sub32 (ip4HdrSize + request.options.length + request.message.length)
      (ip4HdrSize + request.options.length) = request.message.length := by
    simp only [sub32, Mm.u32]
    omega
  obtain ⟨after, hicmp, hreplies⟩ := @icmpHandle_echo kmalloc iface net mac request request.padding
    (request.header iface.ip ++ (request.message ++ request.padding)) src h hsrc hsrcAddr
  refine ⟨after, ?_, hreplies⟩
  have hwhole : ¬ (ip4HdrSize + request.options.length + request.message.length >
      ip4HdrSize + request.options.length + request.message.length + request.padding.length ∨
      ip4HdrSize + request.options.length < 20) := by
    unfold ip4HdrSize
    omega
  rw [ipv4Handle_eq (by omega), htotlen, hihl, hlength, if_neg hwhole, hdst,
    if_neg fun hforeign => hforeign.2.1 rfl]
  unfold ip4Dispatch ip4Plen
  dsimp only
  rw [hproto, if_pos rfl, htotlen, hihl, hpayload, hplen]
  exact hicmp

/-- An echo request to this host is answered by one datagram with the same identifier, sequence
number and payload. -/
theorem icmp_echo (h : Answerable kmalloc iface net mac request) :
    ∃ after, netReceive kmalloc iface (request.frame iface.ip) net = some after ∧
      Replies iface mac request net after := by
  have htype := @EchoRequest.frame_type iface.ip request
  have hdrop := @EchoRequest.frame_drop iface.ip request
  have hlength : ethHdrSize ≤ (request.frame iface.ip).length := by
    by_contra hshort
    have hnone := @load16_none (request.frame iface.ip) 12 (by unfold ethHdrSize at hshort; omega)
    rw [hnone] at htype
    cases htype
  have hplen : (request.frame iface.ip).length - ethHdrSize =
      (request.header iface.ip ++ (request.message ++ request.padding)).length := by
    rw [← hdrop, List.length_drop]
  obtain ⟨counted, hcounted⟩ : ∃ counted : NetState, counted = { net with
      stats := { net.stats with
        rxPackets := net.stats.rxPackets + 1
        rxBytes := net.stats.rxBytes + (request.frame iface.ip).length } } := ⟨_, rfl⟩
  have hready : Answerable kmalloc iface counted mac request := by
    rw [hcounted]
    exact ⟨h.driver, h.message, h.frame, h.hop⟩
  obtain ⟨after, hhandle, hreplies⟩ := ipv4Handle_echo hready
  have hsame : Replies iface mac request net after := by
    rw [hcounted] at hreplies
    exact ⟨hreplies.sent⟩
  refine ⟨after, ?_, hsame⟩
  unfold netReceive
  rw [if_neg (by omega), htype, hdrop, hplen]
  simp only [Option.bind_eq_bind, Option.bind_some]
  rw [if_neg (by decide), if_pos (by decide)]
  subst hcounted
  exact hhandle

/-- A request with a header of 24 bytes and three bytes of padding. -/
def smallPing : EchoRequest where
  target := Vector.replicate 6 2
  sender := Vector.replicate 6 3
  tos := 0
  id := 7
  fragment := 0
  ttl := 64
  headerChecksum := 0
  src := 0x0A000002
  options := [1, 1, 1, 0]
  code := 0
  checksum := 0
  identifier := 0x1234
  sequence := 1
  payload := [0xAB, 0xCD, 0xEF]
  padding := [0, 0, 0]
  aligned := by decide
  short := by decide
  fits := by decide

theorem icmp_echo_small :
    ∃ after, netReceive (fun _ => true)
        ⟨Vector.replicate 6 2, 0x0A000001, 0xFF000000, 0x0A0000FE, some fun _ => 0⟩
        (smallPing.frame 0x0A000001)
        { netInit with arpCache := arpAdd arpInit 0x0A000002 (Vector.replicate 6 3) } = some after ∧
      Replies ⟨Vector.replicate 6 2, 0x0A000001, 0xFF000000, 0x0A0000FE, some fun _ => 0⟩
        (Vector.replicate 6 3) smallPing
        { netInit with arpCache := arpAdd arpInit 0x0A000002 (Vector.replicate 6 3) } after :=
  icmp_echo ⟨rfl, rfl, rfl, by decide⟩

end PinguinOS.Net
