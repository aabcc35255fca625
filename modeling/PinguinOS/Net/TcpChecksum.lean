import PinguinOS.Net.Socket
import PinguinOS.Net.TcpTable

/-! The checksum of the segments that are sent, and the one that a receiver computes. -/
namespace PinguinOS.Net

open Mm (u32)

/-- What `tcp_checksum` adds up for the pseudo header: words in the order of the processor. -/
def tcpPseudoSum (src dst : Ip4Addr) (segLen : Nat) : Nat :=
  ((src >>> 16) &&& 0xFFFF).toNat + (src &&& 0xFFFF).toNat +
    ((dst >>> 16) &&& 0xFFFF).toNat + (dst &&& 0xFFFF).toNat +
    ipProtoTcp.toNat + segLen % 2 ^ 16

def tcpChecksum (src dst : Ip4Addr) (segment : Packet) : BitVec 16 :=
  foldSum (sumWords (u32 (tcpPseudoSum src dst segment.length)) segment)

/-- The header and the data that `tcp_send_segment` puts together, with a checksum. -/
def tcpPacket (t : TcpSlot) (flags : BitVec 8) (data : Packet) (checksum : BitVec 16) : Packet :=
  bytes16 (htons t.localPort) ++ bytes16 (htons t.remotePort) ++
    bytes32 (htonl (BitVec.ofNat 32 t.conn.sndNxt)) ++
    bytes32 (if flags &&& tcpAck ≠ 0 then htonl (BitVec.ofNat 32 t.conn.rcvNxt) else 0) ++
    [(5 : BitVec 8) <<< 4, flags] ++ bytes16 (htons (BitVec.ofNat 16 t.conn.rcvWnd)) ++
    (bytes16 checksum ++ (bytes16 0 ++ data))

/-- The segment that `tcp_send_segment` hands to `ip4_send`. -/
def tcpSegmentBytes (t : TcpSlot) (flags : BitVec 8) (data : Packet) : Packet :=
  tcpPacket t flags data (tcpChecksum t.localIp t.remoteIp (tcpPacket t flags data 0))

/-- The pseudo header, as it would be on the wire. -/
def pseudoHeader (src dst : Ip4Addr) (segLen : Nat) : Packet :=
  (bytes32 src).reverse ++ (bytes32 dst).reverse ++ [0, ipProtoTcp] ++
    (bytes16 (BitVec.ofNat 16 segLen)).reverse

/-- A receiver takes the segment for intact. -/
def TcpAccepted (t : TcpSlot) (segment : Packet) : Prop :=
  Verifies (pseudoHeader t.localIp t.remoteIp segment.length ++ segment)

variable {t : TcpSlot} {flags : BitVec 8} {data : Packet} {src dst ip : Ip4Addr} {segLen : Nat}
  {x : BitVec 16}

/-- The two words of an address, in network order. -/
theorem netWords_ip (rest : Packet) : (netWords ((bytes32 ip).reverse ++ rest)).sum =
    ((ip >>> 16) &&& 0xFFFF).toNat + (ip &&& 0xFFFF).toNat + (netWords rest).sum := by
  obtain ⟨b0, b1, b2, b3, rfl⟩ := exists_bytes32 ip
  have hb0 := b0.isLt
  have hb1 := b1.isLt
  have hb2 := b2.isLt
  have hb3 := b3.isLt
  have hwords : netWords ((bytes32 (b3 ++ b2 ++ b1 ++ b0)).reverse ++ rest) =
      (b3 ++ b2).toNat :: (b1 ++ b0).toNat :: netWords rest := by
    rw [bytes32_append]
    rfl
  have hmask : (0xFFFF : BitVec 32).toNat = 2 ^ 16 - 1 := rfl
  rw [hwords, List.sum_cons, List.sum_cons]
  rw [BitVec.toNat_and, BitVec.toNat_and, BitVec.toNat_ushiftRight, hmask,
    Nat.and_two_pow_sub_one_eq_mod, Nat.and_two_pow_sub_one_eq_mod, Nat.shiftRight_eq_div_pow]
  rw [toNat_append, toNat_append, toNat_append, toNat_append, toNat_append]
  omega

theorem netWords_half (rest : Packet) :
    (netWords ((bytes16 x).reverse ++ rest)).sum = x.toNat + (netWords rest).sum := by
  have hsplit : x.extractLsb' 8 8 ++ x.extractLsb' 0 8 = x := BitVec.extractLsb'_append_extractLsb'
  have hwords : netWords ((bytes16 x).reverse ++ rest) = x.toNat :: netWords rest :=
    congrArg (fun y : BitVec 16 => y.toNat :: netWords rest) hsplit
  rw [hwords, List.sum_cons]

/-- The receiver adds up the same words of the pseudo header as the code. -/
theorem netWords_pseudo (rest : Packet) : (netWords (pseudoHeader src dst segLen ++ rest)).sum =
    tcpPseudoSum src dst segLen + (netWords rest).sum := by
  have hproto : ∀ p, netWords ([0, ipProtoTcp] ++ p) = ipProtoTcp.toNat :: netWords p :=
    fun p => rfl
  unfold pseudoHeader tcpPseudoSum
  rw [List.append_assoc, List.append_assoc, List.append_assoc, netWords_ip, netWords_ip, hproto,
    List.sum_cons, netWords_half, BitVec.toNat_ofNat]
  omega

theorem tcpPseudoSum_lt : tcpPseudoSum src dst segLen < 6 * 2 ^ 16 := by
  have hmask : ∀ y : BitVec 32, (y &&& 0xFFFF).toNat < 2 ^ 16 := by
    intro y
    have hfull : (0xFFFF : BitVec 32).toNat = 2 ^ 16 - 1 := rfl
    rw [BitVec.toNat_and, hfull, Nat.and_two_pow_sub_one_eq_mod]
    exact Nat.mod_lt _ (by decide)
  have hproto : ipProtoTcp.toNat = 6 := rfl
  have hsrc := hmask (src >>> 16)
  have hsrc' := hmask src
  have hdst := hmask (dst >>> 16)
  have hdst' := hmask dst
  unfold tcpPseudoSum
  omega

theorem length_tcpPacket : (tcpPacket t flags data x).length = tcpHdrSize + data.length := by
  unfold tcpPacket tcpHdrSize
  simp only [List.length_append, bytes16, bytes32, List.length_cons, List.length_nil]
  omega

/-- In memory, pseudo header and segment add up to a multiple of all ones. -/
theorem tcpSegmentBytes_dvd (hlen : tcpHdrSize + data.length ≤ 65535) :
    0xFFFF ∣ tcpPseudoSum t.localIp t.remoteIp (tcpHdrSize + data.length) +
      (memWords (tcpSegmentBytes t flags data)).sum := by
  obtain ⟨front, hfront, heven⟩ : ∃ front : Packet,
      front = bytes16 (htons t.localPort) ++ bytes16 (htons t.remotePort) ++
        bytes32 (htonl (BitVec.ofNat 32 t.conn.sndNxt)) ++
        bytes32 (if flags &&& tcpAck ≠ 0 then htonl (BitVec.ofNat 32 t.conn.rcvNxt) else 0) ++
        [(5 : BitVec 8) <<< 4, flags] ++ bytes16 (htons (BitVec.ofNat 16 t.conn.rcvWnd)) ∧
      front.length = 16 := ⟨_, rfl, rfl⟩
  have hall : ∀ sum, tcpPacket t flags data sum = front ++ (bytes16 sum ++ (bytes16 0 ++ data)) := by
    intro sum
    rw [hfront]
    rfl
  have hsmall := @memWords_sum_le (tcpPacket t flags data 0)
  have hpseudo := @tcpPseudoSum_lt t.localIp t.remoteIp (tcpHdrSize + data.length)
  have hsum : u32 (tcpPseudoSum t.localIp t.remoteIp (tcpPacket t flags data 0).length) =
      tcpPseudoSum t.localIp t.remoteIp (tcpHdrSize + data.length) := by
    rw [length_tcpPacket]
    exact Mm.u32_of_lt (by omega)
  rw [length_tcpPacket] at hsmall
  unfold tcpSegmentBytes tcpChecksum
  rw [hsum, hall]
  rw [hall] at hsmall
  refine checksum_dvd (by rw [heven]) (by omega) ?_
  rw [hall]

/-- A sum `p` in the one order and `m` in the other: `m` is `256` times what it would be. -/
theorem dvd_iff_of_orders {p m n : Nat} (hpos : 0 < p) (hnet : n ≡ 256 * m [MOD 0xFFFF])
    (hdvd : 0xFFFF ∣ p + m) : 0xFFFF ∣ p + n ∧ p + n ≠ 0 ↔ 257 ∣ p := by
  unfold Nat.ModEq at hnet
  constructor
  · rintro ⟨hsum, -⟩
    omega
  · intro hp
    omega

/-- The processor's order of the pseudo header is not that of the wire: the segment is accepted
when both orders come to the same, that is for one in `257` sums. -/
theorem tcp_checksum_iff (hlen : tcpHdrSize + data.length ≤ 65535) :
    TcpAccepted t (tcpSegmentBytes t flags data) ↔
      257 ∣ tcpPseudoSum t.localIp t.remoteIp (tcpHdrSize + data.length) := by
  have hlength : (tcpSegmentBytes t flags data).length = tcpHdrSize + data.length :=
    length_tcpPacket
  have hpos : 0 < tcpPseudoSum t.localIp t.remoteIp (tcpHdrSize + data.length) := by
    have hproto : ipProtoTcp.toNat = 6 := rfl
    unfold tcpPseudoSum
    omega
  unfold TcpAccepted
  rw [verifies_iff, netWords_pseudo, hlength]
  exact dvd_iff_of_orders hpos netWords_modEq (tcpSegmentBytes_dvd hlen)

/-- A `SYN` from `10.0.0.1` to `10.0.0.250` happens to be accepted. -/
theorem tcp_checksum_iff_accepted : TcpAccepted ⟨tcpSocket, 0x0A000001, 0xC000, 0x0A0000FA, 80⟩
    (tcpSegmentBytes ⟨tcpSocket, 0x0A000001, 0xC000, 0x0A0000FA, 80⟩ tcpSyn []) :=
  (tcp_checksum_iff (by decide)).mpr (by decide)

/-- The one to `10.0.0.2` is not. -/
theorem not_tcp_checksum : ¬ TcpAccepted ⟨tcpSocket, 0x0A000001, 0xC000, 0x0A000002, 80⟩
    (tcpSegmentBytes ⟨tcpSocket, 0x0A000001, 0xC000, 0x0A000002, 80⟩ tcpSyn []) := by
  unfold TcpAccepted
  rw [verifies_iff]
  decide +kernel

end PinguinOS.Net
