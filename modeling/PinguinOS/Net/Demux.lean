import PinguinOS.Net.Bounds
import PinguinOS.Net.TcpTable

/-! Frames with TCP segments: `net_receive` hands them to nobody. -/
namespace PinguinOS.Net

open Mm (sub32)

/-- Both halves of the stack, and the calls that `tcp_receive` got: source address, segment. -/
structure NetTcp where
  net : NetState
  conns : TcpTable
  handed : List (Ip4Addr × Packet)

/-- A call of `tcp_receive` -/
def NetTcp.tcpReceive (s : NetTcp) (srcIp : Ip4Addr) (segment : Packet) : NetTcp :=
  let conns :=
    match tcpParse segment with
    | some (srcPort, dstPort, seg) => tcpDispatch s.conns srcIp srcPort dstPort seg
    | none => s.conns
  { s with conns := conns, handed := s.handed ++ [(srcIp, segment)] }

/-- `net_receive` works on the variables of `net.c` alone. -/
def NetTcp.netReceive (kmalloc : Nat → Bool) (iface : NetIface) (frame : Packet) (s : NetTcp) :
    Option NetTcp :=
  (Net.netReceive kmalloc iface frame s.net).map fun net => { s with net := net }

/-- A well-formed frame for the interface, with a segment in it. -/
structure SegmentFrame (iface : NetIface) (frame : Packet) (srcIp : Ip4Addr) (segment : Packet) :
    Prop where
  handled : Handled iface frame
  version : (frame.drop ethHdrSize).getD 0 0 >>> 4 = 4
  checksum : Verifies ((frame.drop ethHdrSize).take (ip4Ihl (frame.drop ethHdrSize)))
  dst : ip4Dst (frame.drop ethHdrSize) = iface.ip
  protocol : ip4Protocol (frame.drop ethHdrSize) = ipProtoTcp
  src : srcIp = htonl ((load32 (frame.drop ethHdrSize) 12).getD 0)
  bytes : segment = ((frame.drop ethHdrSize).take (ip4Totlen (frame.drop ethHdrSize))).drop
    (ip4Ihl (frame.drop ethHdrSize))
  parsed : (tcpParse segment).isSome

/-- The frame leads to one call of `tcp_receive` with its segment, or to none when it has no
segment for the interface. -/
def Demultiplexes (kmalloc : Nat → Bool) (iface : NetIface) (frame : Packet) (s : NetTcp) : Prop :=
  ∀ t, s.netReceive kmalloc iface frame = some t →
    (∀ srcIp segment, SegmentFrame iface frame srcIp segment →
      t.conns = (s.tcpReceive srcIp segment).conns ∧ t.handed = s.handed ++ [(srcIp, segment)]) ∧
    ((¬ ∃ srcIp segment, SegmentFrame iface frame srcIp segment) →
      t.conns = s.conns ∧ t.handed = s.handed)

variable {kmalloc : Nat → Bool} {iface : NetIface} {frame segment : Packet} {srcIp : Ip4Addr}
  {s t : NetTcp}

theorem netReceive_conns (h : s.netReceive kmalloc iface frame = some t) :
    t.conns = s.conns ∧ t.handed = s.handed := by
  obtain ⟨net, -, rfl⟩ := Option.map_eq_some_iff.mp h
  exact ⟨rfl, rfl⟩

/-- The frame is read without trouble, and nothing comes of it. -/
theorem SegmentFrame.received (h : SegmentFrame iface frame srcIp segment) :
    ∃ t, s.netReceive kmalloc iface frame = some t := by
  have hagree : LengthsAgree iface frame := by
    intro _
    rw [h.protocol]
    exact ⟨fun hicmp => absurd hicmp (by decide), fun hudp => absurd hudp (by decide)⟩
  obtain ⟨net, hsome, -⟩ := @readsInside_of_agree kmalloc iface frame s.net hagree
  exact ⟨_, congrArg (Option.map _) hsome⟩

theorem SegmentFrame.not_demultiplexed (h : SegmentFrame iface frame srcIp segment) :
    ¬ Demultiplexes kmalloc iface frame s := by
  intro hdemux
  obtain ⟨t, ht⟩ := @SegmentFrame.received kmalloc iface frame segment srcIp s h
  have hhanded := ((hdemux t ht).1 srcIp segment h).2
  rw [(netReceive_conns ht).2] at hhanded
  exact absurd hhanded (by simp)

/-- `ipv4_handle` has no case for TCP: every segment is lost. -/
theorem tcp_demux_iff (kmalloc : Nat → Bool) (iface : NetIface) (frame : Packet) (s : NetTcp) :
    Demultiplexes kmalloc iface frame s ↔
      ¬ ∃ srcIp segment, SegmentFrame iface frame srcIp segment := by
  constructor
  · rintro hdemux ⟨srcIp, segment, h⟩
    exact h.not_demultiplexed hdemux
  · intro hnone t ht
    exact ⟨fun srcIp segment h => absurd ⟨srcIp, segment, h⟩ hnone, fun _ => netReceive_conns ht⟩

/-- `10.0.0.1`, which has sent a `SYN` to `10.0.0.2`, and the answer to it. -/
def synSentHost : NetTcp where
  net := netInit
  conns := Function.update tcpInit 0 ⟨tcpConnect tcpSocket 0, 0x0A000001, 0xC000, 0x0A000002, 80⟩
  handed := []

def synAckFrame : Packet :=
  List.replicate 12 0 ++ [0x08, 0x00] ++
    [0x45, 0, 0, 40, 0, 0, 0, 0, 64, 6, 0x66, 0xCE, 10, 0, 0, 2, 10, 0, 0, 1] ++
    [0, 80, 0xC0, 0, 0, 0, 0, 100, 0, 0, 0, 1, 0x50, 0x12, 0x10, 0, 0, 0, 0, 0]

def synSentIface : NetIface := ⟨Vector.replicate 6 2, 0x0A000001, 0xFF000000, 0, none⟩

theorem synAckFrame_segment :
    SegmentFrame synSentIface synAckFrame 0x0A000002 (synAckFrame.drop 34) := by
  constructor
  case handled =>
    constructor
    case ethernet => decide
    case type => decide
    case header => decide
    case total => decide
    case ihl => decide
    case dst => decide
  case version => decide
  case checksum =>
    rw [verifies_iff]
    decide
  case dst => decide
  case protocol => decide
  case src => decide
  case bytes => decide
  case parsed => decide

/-- The answer would establish the connection, and the connection does not get it. -/
theorem not_tcp_demux_synAck :
    ¬ Demultiplexes (fun _ => true) synSentIface synAckFrame synSentHost ∧
    ((synSentHost.tcpReceive 0x0A000002 (synAckFrame.drop 34)).conns 0).conn.state =
      .established ∧
    ∀ t, synSentHost.netReceive (fun _ => true) synSentIface synAckFrame = some t →
      (t.conns 0).conn.state = .synSent := by
  refine ⟨synAckFrame_segment.not_demultiplexed, by decide +kernel, fun t ht => ?_⟩
  rw [(netReceive_conns ht).1]
  decide

end PinguinOS.Net
