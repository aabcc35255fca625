import PinguinOS.Net.Tcp
import PinguinOS.Net.Wire

/-! The table of TCP connections, and the segment that one of them is for. -/
namespace PinguinOS.Net

open Mm (u32 sub32)

def tcpMaxConns : Nat := 16
def tcpMss : Nat := 1460
def tcpHdrSize : Nat := 20

/-- `tcp_conn_t` with its addresses. -/
structure TcpSlot where
  conn : TcpConn
  localIp : Ip4Addr
  localPort : BitVec 16
  remoteIp : Ip4Addr
  remotePort : BitVec 16

/-- `conns` -/
abbrev TcpTable := Nat → TcpSlot

/-- After `tcp_init` -/
def tcpInit : TcpTable := fun _ => ⟨{ tcpSocket with used := false, rcvWnd := 0 }, 0, 0, 0, 0⟩

/-- The search of `tcp_socket`. -/
def TcpTable.free (conns : TcpTable) : Option Nat :=
  (List.range tcpMaxConns).find? fun i => ¬ (conns i).conn.used

def tcpOpen (conns : TcpTable) : Int × TcpTable :=
  match conns.free with
  | some i => (i, Function.update conns i ⟨tcpSocket, 0, 0, 0, 0⟩)
  | none => (-1, conns)

/-- The search of `tcp_receive`. -/
def TcpTable.lookup (conns : TcpTable) (srcIp : Ip4Addr) (srcPort dstPort : BitVec 16) :
    Option Nat :=
  (List.range tcpMaxConns).find? fun i => (conns i).conn.used ∧ (conns i).remoteIp = srcIp ∧
    (conns i).remotePort = srcPort ∧ (conns i).localPort = dstPort

/-- One connection has changed. -/
def TcpTable.setConn (conns : TcpTable) (i : Nat) (c : TcpConn) : TcpTable :=
  Function.update conns i { conns i with conn := c }

/-- `tcp_receive`, once the fields of the segment are known. -/
def tcpDispatch (conns : TcpTable) (srcIp : Ip4Addr) (srcPort dstPort : BitVec 16)
    (seg : TcpSegment) : TcpTable :=
  match conns.lookup srcIp srcPort dstPort with
  | some i => conns.setConn i (tcpReceive (conns i).conn seg)
  | none => conns

/-- The ports and the fields of a segment, as `tcp_receive` reads them; a segment that is shorter
than its header says is not read. -/
def tcpParse (hdr : Packet) : Option (BitVec 16 × BitVec 16 × TcpSegment) := do
  let srcPort ← load16 hdr 0
  let dstPort ← load16 hdr 2
  let seq ← load32 hdr 4
  let ack ← load32 hdr 8
  let dataOffset ← hdr[12]?
  let flags ← hdr[13]?
  let window ← load16 hdr 14
  let hdrLen := (dataOffset >>> 4).toNat * 4
  if hdr.length < hdrLen then none
  else
    some (htons srcPort, htons dstPort,
      ⟨(htonl seq).toNat, (htonl ack).toNat, flags, (htons window).toNat, hdr.drop hdrLen⟩)

/-- `tcp_close`: the connection is not waited for. -/
def tcpClose (c : TcpConn) : TcpConn :=
  if ¬ c.used then c
  else
    let c := if c.state = .established ∨ c.state = .closeWait then
        tcpSendSegment { c with state := .finWait1 } (tcpFin ||| tcpAck)
      else c
    { c with used := false, state := .closed }

end PinguinOS.Net
