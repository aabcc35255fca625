import PinguinOS.Net.Arp
import PinguinOS.Net.Socket

/-! `net.c`: frames in, frames out. A handler that reads behind the frame has no result. -/
namespace PinguinOS.Net

open Mm (u32 sub32)

def ethMtu : Nat := 1500

def ethTypeIpv4 : BitVec 16 := 0x0800
def ethTypeArp : BitVec 16 := 0x0806

def arpRequest : BitVec 16 := 1
def arpReply : BitVec 16 := 2

def icmpEchoReply : BitVec 8 := 0
def icmpEchoRequest : BitVec 8 := 8

def sockMax : Nat := 16

/-! Sizes of the packed headers. -/

def ethHdrSize : Nat := 14
def arpPktSize : Nat := 28
def ip4HdrSize : Nat := 20
def icmpHdrSize : Nat := 8
def udpHdrSize : Nat := 8

def macBroadcast : MacAddr := Vector.replicate 6 0xFF

/-- `net_iface_t`; `send` is the function of the driver, if there is one, and what it returns. -/
structure NetIface where
  mac : MacAddr
  ip : Ip4Addr
  netmask : Ip4Addr
  gateway : Ip4Addr
  send : Option (Packet → Int)

structure NetStats where
  txPackets : Nat
  txBytes : Nat
  rxPackets : Nat
  rxBytes : Nat
  rxDropped : Nat
  arpRequests : Nat
  arpReplies : Nat
  icmpPings : Nat
  icmpPongs : Nat
  udpRecv : Nat

/-- The variables of `net.c`, and the frames that were handed to a driver. -/
structure NetState where
  arpCache : ArpCache
  sockets : Nat → Socket
  ipIdCounter : BitVec 16
  stats : NetStats
  sent : List Packet

/-- After `net_init` -/
def netInit : NetState where
  arpCache := arpInit
  sockets := fun _ => { openSocket 0 with used := false }
  ipIdCounter := 1
  stats := ⟨0, 0, 0, 0, 0, 0, 0, 0, 0, 0⟩
  sent := []

/-- `iface->send`, where it is called only if it is there. -/
def transmit (iface : NetIface) (frame : Packet) (net : NetState) : NetState :=
  if iface.send.isSome then { net with sent := net.sent ++ [frame] } else net

def ethHeader (dst src : MacAddr) (type : BitVec 16) : Packet :=
  dst.toList ++ src.toList ++ bytes16 (htons type)

/-- An ARP packet in its frame; the addresses are as they are stored. -/
def arpFrame (dst src : MacAddr) (opcode : BitVec 16) (senderMac : MacAddr) (senderIp : BitVec 32)
    (targetMac : MacAddr) (targetIp : BitVec 32) : Packet :=
  ethHeader dst src ethTypeArp ++
    (bytes16 (htons 1) ++ bytes16 (htons ethTypeIpv4) ++ [6, 4] ++ bytes16 (htons opcode) ++
      senderMac.toList ++ bytes32 senderIp ++ targetMac.toList ++ bytes32 targetIp)

def arpSendRequest (iface : NetIface) (targetIp : Ip4Addr) (net : NetState) : NetState :=
  let frame := arpFrame macBroadcast iface.mac arpRequest iface.mac (htonl iface.ip)
    (Vector.replicate 6 0) (htonl targetIp)
  let net := transmit iface frame net
  { net with stats := { net.stats with arpRequests := net.stats.arpRequests + 1 } }

def arpHandle (iface : NetIface) (data : Packet) (len : Nat) (net : NetState) : Option NetState :=
  if len < arpPktSize then some net
  else do
    let senderIp ← load32 data 14
    let senderMac ← loadMac data 8
    let net := { net with arpCache := arpAdd net.arpCache (htonl senderIp) senderMac }
    let opcode ← load16 data 6
    if htons opcode = arpRequest then
      let targetIp ← load32 data 24
      if htonl targetIp ≠ iface.ip then some net
      else
        let frame :=
          arpFrame senderMac iface.mac arpReply iface.mac (htonl iface.ip) senderMac senderIp
        let net := transmit iface frame net
        some { net with stats := { net.stats with arpReplies := net.stats.arpReplies + 1 } }
    else some net

/-- The IPv4 header that `ip4_send` writes, with a checksum. -/
def ip4Header (iface : NetIface) (dst : Ip4Addr) (proto : BitVec 8) (totalLen id : BitVec 16)
    (checksum : BitVec 16) : Packet :=
  [0x45, 0] ++ bytes16 (htons totalLen) ++ bytes16 (htons id) ++ bytes16 0 ++ [64, proto] ++
    (bytes16 checksum ++ (bytes32 (htonl iface.ip) ++ bytes32 (htonl dst)))

/-- `ip4_send` returns -1 without a driver or memory, and -2 when the next hop is not known. -/
def ip4Send (kmalloc : Nat → Bool) (iface : NetIface) (dst : Ip4Addr) (proto : BitVec 8)
    (payload : Packet) (net : NetState) : Int × NetState :=
  match iface.send with
  | none => (-1, net)
  | some send =>
    let total := u32 (ethHdrSize + ip4HdrSize + payload.length)
    if ¬ kmalloc total then (-1, net)
    else
      let nextHop :=
        if dst &&& iface.netmask ≠ iface.ip &&& iface.netmask then iface.gateway else dst
      match arpLookup net.arpCache nextHop with
      | none => (-2, arpSendRequest iface nextHop net)
      | some dstMac =>
        let totalLen := BitVec.ofNat 16 (ip4HdrSize + payload.length)
        let header := ip4Header iface dst proto totalLen net.ipIdCounter
        let checksum := ipChecksum (header 0)
        let frame := ethHeader dstMac iface.mac ethTypeIpv4 ++ header checksum ++ payload
        let net := transmit iface frame net
        let stats := { net.stats with
          txPackets := net.stats.txPackets + 1
          txBytes := net.stats.txBytes + total }
        (send frame, { net with ipIdCounter := net.ipIdCounter + 1, stats := stats })

/-- A 16-bit field is written. -/
def store16 (p : Packet) (off : Nat) (x : BitVec 16) : Packet :=
  (p.set off (x.extractLsb' 0 8)).set (off + 1) (x.extractLsb' 8 8)

/-- The reply to an echo request, in the copy of the request. -/
def icmpReply (request : Packet) : Packet :=
  let reply := store16 (request.set 0 icmpEchoReply) 2 0
  store16 reply 2 (ipChecksum reply)

def icmpHandle (kmalloc : Nat → Bool) (iface : NetIface) (ip data : Packet) (len : Nat)
    (net : NetState) : Option NetState :=
  if len < icmpHdrSize then some net
  else do
    let type ← data[0]?
    if type = icmpEchoRequest then
      let net := { net with stats := { net.stats with icmpPings := net.stats.icmpPings + 1 } }
      if ¬ kmalloc len then some net
      else
        let request ← copyBytes data len
        let src ← load32 ip 12
        let net := (ip4Send kmalloc iface (htonl src) ipProtoIcmp (icmpReply request) net).2
        some { net with stats := { net.stats with icmpPongs := net.stats.icmpPongs + 1 } }
    else some net

/-- The socket is for UDP, and has the port. -/
def Socket.Bound (s : Socket) (port : BitVec 16) : Prop :=
  s.used ∧ s.protocol = ipProtoUdp ∧ s.localPort = port

instance {s : Socket} {port : BitVec 16} : Decidable (s.Bound port) :=
  inferInstanceAs (Decidable (_ ∧ _ ∧ _))

/-- The body of the loop over the sockets. -/
def udpDeliver (dport : BitVec 16) (udata : Packet) (dlen : Nat) (net : NetState) (i : Nat) :
    Option NetState :=
  if (net.sockets i).Bound dport then do
    let socket ← deliver (net.sockets i) udata 0 dlen
    some
      { net with
        sockets := Function.update net.sockets i socket
        stats := { net.stats with udpRecv := net.stats.udpRecv + 1 } }
  else some net

/-- The case `IP_PROTO_UDP` of `ipv4_handle` -/
def udpHandle (payload : Packet) (plen : Nat) (net : NetState) : Option NetState :=
  if plen < udpHdrSize then some net
  else do
    let dport ← load16 payload 2
    let length ← load16 payload 4
    let dlen := sub32 (htons length).toNat udpHdrSize
    (List.range sockMax).foldlM (udpDeliver (htons dport) (payload.drop udpHdrSize) dlen) net

def ipv4Handle (kmalloc : Nat → Bool) (iface : NetIface) (data : Packet) (len : Nat)
    (net : NetState) : Option NetState :=
  if len < ip4HdrSize then some net
  else do
    let versionIhl ← data[0]?
    let totalLen ← load16 data 2
    let ihl := (versionIhl &&& 0x0F).toNat * 4
    let totlen := (htons totalLen).toNat
    if totlen > len ∨ ihl < 20 then some net
    else
      let payload := data.drop ihl
      let plen := sub32 totlen ihl
      let dst ← load32 data 16
      if iface.ip ≠ 0 ∧ htonl dst ≠ iface.ip ∧ htonl dst ≠ 0xFFFFFFFF then some net
      else
        let protocol ← data[9]?
        if protocol = ipProtoIcmp then icmpHandle kmalloc iface data payload plen net
        else if protocol = ipProtoUdp then udpHandle payload plen net
        else some net

def netReceive (kmalloc : Nat → Bool) (iface : NetIface) (frame : Packet) (net : NetState) :
    Option NetState :=
  if frame.length < ethHdrSize then some net
  else do
    let stats := { net.stats with
      rxPackets := net.stats.rxPackets + 1
      rxBytes := net.stats.rxBytes + frame.length }
    let net := { net with stats := stats }
    let type ← load16 frame 12
    let payload := frame.drop ethHdrSize
    let plen := frame.length - ethHdrSize
    if htons type = ethTypeArp then arpHandle iface payload plen net
    else if htons type = ethTypeIpv4 then ipv4Handle kmalloc iface payload plen net
    else some { net with stats := { net.stats with rxDropped := net.stats.rxDropped + 1 } }

end PinguinOS.Net
