import PinguinOS.Lib.Tlv
import PinguinOS.Net.Stack

/-! The DHCP client: which replies the lease of `dhcp_discover` is made of. -/
namespace PinguinOS.Net

open Mm (u32)

def dhcpMagicCookie : BitVec 32 := 0x63825363
def dhcpOptSubnetMask : BitVec 8 := 1
def dhcpOptRouter : BitVec 8 := 3
def dhcpOptDns : BitVec 8 := 6
def dhcpOptLeaseTime : BitVec 8 := 51
def dhcpOptMsgType : BitVec 8 := 53
def dhcpOptServerId : BitVec 8 := 54
def dhcpOptParamReq : BitVec 8 := 55
def dhcpOptEnd : BitVec 8 := 255
def dhcpMsgDiscover : BitVec 8 := 1
def dhcpMsgOffer : BitVec 8 := 2
def dhcpMsgRequest : BitVec 8 := 3
def dhcpMsgAck : BitVec 8 := 5
def dhcpOptionsLen : Nat := 312

/-- `sizeof(dhcp_pkt_t)` -/
def dhcpPktSize : Nat := 240 + dhcpOptionsLen

/-- `dhcp_lease_t` -/
structure Lease where
  ip : Ip4Addr
  netmask : Ip4Addr
  gateway : Ip4Addr
  dns : Ip4Addr
  serverId : BitVec 32
  leaseSecs : BitVec 32
  deriving DecidableEq

def Lease.zero : Lease := ⟨0, 0, 0, 0, 0, 0⟩

/-! The fields of a packet of `dhcpPktSize` bytes. -/

/-- `ntohl` of the field at `off` -/
def netField (pkt : Packet) (off : Nat) : BitVec 32 := htonl ((load32 pkt off).getD 0)

def replyXid (pkt : Packet) : BitVec 32 := netField pkt 4
def replyYiaddr (pkt : Packet) : Ip4Addr := netField pkt 16
def replyChaddr (pkt : Packet) : Packet := (pkt.drop 28).take 6
def replyMagic (pkt : Packet) : BitVec 32 := netField pkt 236
def replyOptions (pkt : Packet) : Packet := (pkt.drop 240).take dhcpOptionsLen

/-- `dhcp_build_pkt` -/
def dhcpBuildPkt (xid : BitVec 32) (mac : MacAddr) (msgType : BitVec 8)
    (serverId offeredIp : BitVec 32) : Packet :=
  let request :=
    if msgType = dhcpMsgRequest then
      [dhcpOptServerId, 4] ++ bytes32 (htonl serverId) ++ [50, 4] ++ bytes32 (htonl offeredIp)
    else []
  let options := [dhcpOptMsgType, 1, msgType] ++ request ++
    [dhcpOptParamReq, 4, dhcpOptSubnetMask, dhcpOptRouter, dhcpOptDns, dhcpOptLeaseTime, dhcpOptEnd]
  [1, 1, 6, 0] ++ bytes32 (htonl xid) ++ bytes16 0 ++ bytes16 (htons 0x8000) ++
    List.replicate 16 0 ++ mac.toList ++ List.replicate 202 0 ++ bytes32 (htonl dhcpMagicCookie) ++
    options ++ List.replicate (dhcpOptionsLen - options.length) 0

/-- What `dhcp_parse_reply` has found so far. -/
structure Parsed where
  msgType : BitVec 8
  lease : Lease

/-- The switch of `dhcp_parse_reply`, on an option with the bytes `data`. -/
def dhcpOption (p : Parsed) (code : BitVec 8) (data : Packet) : Parsed :=
  let v := netField data 0
  if code = dhcpOptMsgType then
    if 1 ≤ data.length then { p with msgType := data.getD 0 0 } else p
  else if code = dhcpOptSubnetMask then
    if data.length = 4 then { p with lease := { p.lease with netmask := v } } else p
  else if code = dhcpOptRouter then
    if 4 ≤ data.length then { p with lease := { p.lease with gateway := v } } else p
  else if code = dhcpOptDns then
    if 4 ≤ data.length then { p with lease := { p.lease with dns := v } } else p
  else if code = dhcpOptServerId then
    if data.length = 4 then { p with lease := { p.lease with serverId := v } } else p
  else if code = dhcpOptLeaseTime then
    if data.length = 4 then { p with lease := { p.lease with leaseSecs := v } } else p
  else p

/-- The loop of `dhcp_parse_reply`; each of its `n` rounds goes on by a byte at least. -/
def dhcpParseOptions : (n : Nat) → Packet → Parsed → Parsed
  | 0, _, p => p
  | _ + 1, [], p => p
  | n + 1, code :: opt, p =>
    if code = dhcpOptEnd then p
    else if code = 0 then dhcpParseOptions n opt p
    else
      match opt with
      | [] => p
      | len :: opt =>
        if opt.length < len.toNat then p
        else dhcpParseOptions n (opt.drop len.toNat) (dhcpOption p code (opt.take len.toNat))

def dhcpParseReply (pkt : Packet) (expectedType : BitVec 8) (lease : Lease) : Bool × Lease :=
  if replyMagic pkt ≠ dhcpMagicCookie then (false, lease)
  else
    let p := dhcpParseOptions dhcpOptionsLen (replyOptions pkt)
      ⟨0, { lease with ip := replyYiaddr pkt }⟩
    (p.msgType = expectedType, p.lease)

inductive Waited
  /-- The polls so far do not decide. -/
  | waiting
  | timedOut
  | got (lease : Lease) (rest : List Packet)

/-- A loop of `dhcp_discover` that waits for a reply; each poll is what `sock_recvfrom` has put into
`rx_buf`. -/
def dhcpWait (xid : BitVec 32) (expectedType : BitVec 8) (timeoutMs : Nat) :
    List Packet → (elapsed : Nat) → Lease → Waited
  | polls, elapsed, lease =>
    if ¬ elapsed < timeoutMs then .timedOut
    else
      match polls with
      | [] => .waiting
      | reply :: polls =>
        if dhcpPktSize ≤ reply.length ∧ replyXid reply = xid then
          let parsed := dhcpParseReply reply expectedType lease
          if parsed.1 then .got parsed.2 polls
          else dhcpWait xid expectedType timeoutMs polls (u32 (elapsed + 10)) parsed.2
        else dhcpWait xid expectedType timeoutMs polls (u32 (elapsed + 10)) lease

/-- The interface, the variables of `dhcp.c`, and what was handed to `sock_sendto`. -/
structure DhcpState where
  iface : NetIface
  currentLease : Lease
  leaseValid : Bool
  gXid : BitVec 32
  sent : List Packet

/-- `none` as long as it waits; `sock` is what `sock_open` returns. -/
def dhcpDiscover (sock : Int) (timeoutMs : Nat) (polls : List Packet) (s : DhcpState) :
    Option (Bool × DhcpState) :=
  if sock < 0 then some (false, s)
  else
    let discover := dhcpBuildPkt s.gXid s.iface.mac dhcpMsgDiscover 0 0
    let s := { s with sent := s.sent ++ [discover] }
    match dhcpWait s.gXid dhcpMsgOffer timeoutMs polls 0 Lease.zero with
    | .waiting => none
    | .timedOut => some (false, s)
    | .got offer polls =>
      let request := dhcpBuildPkt s.gXid s.iface.mac dhcpMsgRequest offer.serverId offer.ip
      let s := { s with sent := s.sent ++ [request] }
      match dhcpWait s.gXid dhcpMsgAck timeoutMs polls 0 Lease.zero with
      | .waiting => none
      | .timedOut => some (false, s)
      | .got ack _ =>
        some (true,
          { s with
            iface := { s.iface with ip := ack.ip, netmask := ack.netmask, gateway := ack.gateway }
            currentLease := ack
            leaseValid := true
            gXid := s.gXid + 1 })

/-! What a reply says, whatever came before it. -/

def replyOptionList (pkt : Packet) : List (BitVec 8 × Packet) :=
  Tlv.options 0 dhcpOptEnd BitVec.toNat dhcpOptionsLen (replyOptions pkt)

/-- The type that an option gives. -/
def msgTypeOf (o : BitVec 8 × Packet) : Option (BitVec 8) :=
  if o.1 = dhcpOptMsgType ∧ 1 ≤ o.2.length then some (o.2.getD 0 0) else none

/-- The address in an option of four bytes. -/
def addressOf (code : BitVec 8) (o : BitVec 8 × Packet) : Option (BitVec 32) :=
  if o.1 = code ∧ o.2.length = 4 then some (netField o.2 0) else none

/-- The first address in an option. -/
def firstAddressOf (code : BitVec 8) (o : BitVec 8 × Packet) : Option (BitVec 32) :=
  if o.1 = code ∧ 4 ≤ o.2.length then some (netField o.2 0) else none

def replyMsgType (pkt : Packet) : Option (BitVec 8) := Tlv.last msgTypeOf (replyOptionList pkt)

def replyNetmask (pkt : Packet) : Option Ip4Addr :=
  Tlv.last (addressOf dhcpOptSubnetMask) (replyOptionList pkt)

def replyGateway (pkt : Packet) : Option Ip4Addr :=
  Tlv.last (firstAddressOf dhcpOptRouter) (replyOptionList pkt)

def replyServer (pkt : Packet) : Option (BitVec 32) :=
  Tlv.last (addressOf dhcpOptServerId) (replyOptionList pkt)

/-- The test of `dhcp_discover`: a reply to this transaction, of the type. -/
structure Expected (xid : BitVec 32) (type : BitVec 8) (reply : Packet) : Prop where
  size : dhcpPktSize ≤ reply.length
  xid : replyXid reply = xid
  magic : replyMagic reply = dhcpMagicCookie
  type : (replyMsgType reply).getD 0 = type

instance {xid : BitVec 32} {type : BitVec 8} {reply : Packet} :
    Decidable (Expected xid type reply) :=
  decidable_of_iff (dhcpPktSize ≤ reply.length ∧ replyXid reply = xid ∧
      replyMagic reply = dhcpMagicCookie ∧ (replyMsgType reply).getD 0 = type)
    ⟨fun ⟨h1, h2, h3, h4⟩ => ⟨h1, h2, h3, h4⟩, fun h => ⟨h.size, h.xid, h.magic, h.type⟩⟩

/-- The first expected reply that comes in time, and the polls after it. -/
def firstExpected (xid : BitVec 32) (type : BitVec 8) (timeoutMs : Nat) :
    List Packet → (elapsed : Nat) → Option (Packet × List Packet)
  | [], _ => none
  | reply :: polls, elapsed =>
    if ¬ elapsed < timeoutMs then none
    else if Expected xid type reply then some (reply, polls)
    else firstExpected xid type timeoutMs polls (u32 (elapsed + 10))

/-- The offer and the acknowledgement that are accepted; the others are rejected. -/
def acceptedReplies (xid : BitVec 32) (timeoutMs : Nat) (polls : List Packet) :
    Option (Packet × Packet) := do
  let (offer, polls) ← firstExpected xid dhcpMsgOffer timeoutMs polls 0
  let (ack, _) ← firstExpected xid dhcpMsgAck timeoutMs polls 0
  return (offer, ack)

/-- What a lease changes about an interface. -/
def NetIface.addresses (iface : NetIface) : Ip4Addr × Ip4Addr × Ip4Addr :=
  (iface.ip, iface.netmask, iface.gateway)

def replyAddresses (pkt : Packet) : Ip4Addr × Ip4Addr × Ip4Addr :=
  (replyYiaddr pkt, (replyNetmask pkt).getD 0, (replyGateway pkt).getD 0)

/-- The acknowledgement is for this interface, and from the server of the offer. -/
def ForUs (mac : MacAddr) (offer ack : Packet) : Prop :=
  replyChaddr ack = mac.toList ∧ ∃ id, replyServer offer = some id ∧ replyServer ack = some id

/-- A lease that is applied is that of one acknowledgement for this interface, and replies that
were rejected have no part in it. -/
def LeaseProvenance (timeoutMs : Nat) (polls : List Packet) (s : DhcpState) : Prop :=
  ∀ sock t, dhcpDiscover sock timeoutMs polls s = some (true, t) →
    ∃ offer ack, acceptedReplies s.gXid timeoutMs polls = some (offer, ack) ∧
      ForUs s.iface.mac offer ack ∧ t.iface.addresses = replyAddresses ack ∧
      ∀ polls' t', acceptedReplies s.gXid timeoutMs polls' = some (offer, ack) →
        dhcpDiscover sock timeoutMs polls' s = some (true, t') →
        t'.iface.addresses = t.iface.addresses

/-- The acknowledgement that is accepted is for this interface, and it says everything itself or
there is one poll only. -/
def SafeReplies (timeoutMs : Nat) (polls : List Packet) (s : DhcpState) : Prop :=
  ∀ offer ack, acceptedReplies s.gXid timeoutMs polls = some (offer, ack) →
    ForUs s.iface.mac offer ack ∧
      ((replyNetmask ack).isSome ∧ (replyGateway ack).isSome ∨ timeoutMs ≤ 10)

variable {pkt reply offer ack data : Packet} {polls polls' rest : List Packet} {lease : Lease}
  {xid : BitVec 32} {type code : BitVec 8} {timeoutMs elapsed n : Nat} {p : Parsed}
  {s t : DhcpState} {sock : Int}

/-! The loop over the options. -/

theorem dhcpParseOptions_eq : dhcpParseOptions n data p =
    (Tlv.options 0 dhcpOptEnd BitVec.toNat n data).foldl (fun p o => dhcpOption p o.1 o.2) p := by
  induction n generalizing data p with
  | zero => rfl
  | succ n ih =>
    cases data with
    | nil => rfl
    | cons code opt =>
      unfold dhcpParseOptions Tlv.options
      split
      case isTrue => rfl
      case isFalse =>
        split
        case isTrue => exact ih
        case isFalse =>
          cases opt with
          | nil => rfl
          | cons len opt =>
            dsimp only
            split
            case isTrue => rfl
            case isFalse => exact ih

theorem dhcpOption_spec (p : Parsed) (o : BitVec 8 × Packet) :
    (dhcpOption p o.1 o.2).msgType = (msgTypeOf o).getD p.msgType ∧
    (dhcpOption p o.1 o.2).lease.ip = p.lease.ip ∧
    (dhcpOption p o.1 o.2).lease.netmask = (addressOf dhcpOptSubnetMask o).getD p.lease.netmask ∧
    (dhcpOption p o.1 o.2).lease.gateway =
      (firstAddressOf dhcpOptRouter o).getD p.lease.gateway := by
  obtain ⟨code, data⟩ := o
  unfold dhcpOption msgTypeOf addressOf firstAddressOf
  dsimp only
  by_cases htype : code = dhcpOptMsgType
  · subst htype
    have hmask : dhcpOptMsgType ≠ dhcpOptSubnetMask := by decide
    have hrouter : dhcpOptMsgType ≠ dhcpOptRouter := by decide
    simp only [hmask, hrouter, true_and, false_and, if_true, if_false, Option.getD_none]
    split <;> simp
  · by_cases hmask : code = dhcpOptSubnetMask
    · subst hmask
      have hrouter : dhcpOptSubnetMask ≠ dhcpOptRouter := by decide
      simp only [htype, hrouter, true_and, false_and, if_true, if_false, Option.getD_none]
      split <;> simp
    · by_cases hrouter : code = dhcpOptRouter
      · subst hrouter
        simp only [htype, hmask, true_and, false_and, if_true, if_false, Option.getD_none]
        split <;> simp
      · simp only [htype, hmask, hrouter, false_and, if_false, Option.getD_none]
        split_ifs <;> simp

/-- What has been parsed for a field that the reply does not give is what was there before. -/
theorem dhcpParse_spec {p' : Parsed}
    (hp : p' = dhcpParseOptions dhcpOptionsLen (replyOptions pkt) p) :
    p'.msgType = (replyMsgType pkt).getD p.msgType ∧ p'.lease.ip = p.lease.ip ∧
    p'.lease.netmask = (replyNetmask pkt).getD p.lease.netmask ∧
    p'.lease.gateway = (replyGateway pkt).getD p.lease.gateway := by
  subst hp
  rw [dhcpParseOptions_eq]
  refine ⟨?_, ?_, ?_, ?_⟩
  · exact @Tlv.get_foldl _ _ _ _ Parsed.msgType msgTypeOf _ p fun p o => (dhcpOption_spec p o).1
  · have hlast := @Tlv.get_foldl _ Parsed _ (fun p o => dhcpOption p o.1 o.2)
      (fun p => p.lease.ip) (fun _ => none) (replyOptionList pkt) p
      fun p o => (dhcpOption_spec p o).2.1
    unfold Tlv.last at hlast
    rwa [List.filterMap_none] at hlast
  · exact @Tlv.get_foldl _ _ _ _ (fun p => p.lease.netmask) (addressOf dhcpOptSubnetMask) _ p
      fun p o => (dhcpOption_spec p o).2.2.1
  · exact @Tlv.get_foldl _ _ _ _ (fun p => p.lease.gateway) (firstAddressOf dhcpOptRouter) _ p
      fun p o => (dhcpOption_spec p o).2.2.2

theorem dhcpParseReply_fst : (dhcpParseReply pkt type lease).1 = true ↔
    replyMagic pkt = dhcpMagicCookie ∧ (replyMsgType pkt).getD 0 = type := by
  unfold dhcpParseReply
  split
  case isTrue hmagic => exact iff_of_false Bool.false_ne_true fun h => hmagic h.1
  case isFalse hmagic =>
    have hspec := @dhcpParse_spec pkt ⟨0, { lease with ip := replyYiaddr pkt }⟩ _ rfl
    dsimp only
    rw [decide_eq_true_iff, hspec.1, and_iff_right (not_not.mp hmagic)]

theorem dhcpParseReply_snd (hmagic : replyMagic pkt = dhcpMagicCookie) :
    (dhcpParseReply pkt type lease).2.ip = replyYiaddr pkt ∧
    (dhcpParseReply pkt type lease).2.netmask = (replyNetmask pkt).getD lease.netmask ∧
    (dhcpParseReply pkt type lease).2.gateway = (replyGateway pkt).getD lease.gateway := by
  unfold dhcpParseReply
  rw [if_neg (not_not.mpr hmagic)]
  have hspec := @dhcpParse_spec pkt ⟨0, { lease with ip := replyYiaddr pkt }⟩ _ rfl
  exact hspec.2

/-! A wait ends with the first expected reply. -/

theorem firstExpected_some {r : Packet × List Packet}
    (h : firstExpected xid type timeoutMs polls elapsed = some r) :
    Expected xid type r.1 ∧ elapsed < timeoutMs := by
  induction polls generalizing elapsed with
  | nil => cases h
  | cons reply polls ih =>
    unfold firstExpected at h
    split at h
    case isTrue => cases h
    case isFalse htime =>
      refine ⟨?_, not_not.mp htime⟩
      split at h
      case isTrue hexpected =>
        cases h
        exact hexpected
      case isFalse => exact (ih h).1

theorem dhcpWait_expected (hexpected : Expected xid type reply) (htime : elapsed < timeoutMs) :
    dhcpWait xid type timeoutMs (reply :: polls) elapsed lease =
      .got (dhcpParseReply reply type lease).2 polls := by
  unfold dhcpWait
  rw [if_neg (not_not.mpr htime)]
  dsimp only
  rw [if_pos ⟨hexpected.size, hexpected.xid⟩,
    if_pos (dhcpParseReply_fst.mpr ⟨hexpected.magic, hexpected.type⟩)]

/-- A reply of another type leaves its traces in the lease. -/
theorem dhcpWait_rejected (hother : ¬ Expected xid type reply) (htime : elapsed < timeoutMs)
    (hours : dhcpPktSize ≤ reply.length ∧ replyXid reply = xid) :
    dhcpWait xid type timeoutMs (reply :: polls) elapsed lease =
      dhcpWait xid type timeoutMs polls (u32 (elapsed + 10)) (dhcpParseReply reply type lease).2 := by
  have hreply : ¬ (dhcpParseReply reply type lease).1 = true := fun h =>
    have hboth := dhcpParseReply_fst.mp h
    hother ⟨hours.1, hours.2, hboth.1, hboth.2⟩
  conv => lhs; unfold dhcpWait
  rw [if_neg (not_not.mpr htime)]
  dsimp only
  rw [if_pos hours, if_neg hreply]

/-- What the lease was before the reply does not matter for which reply it is. -/
theorem dhcpWait_spec : match firstExpected xid type timeoutMs polls elapsed with
    | none => ∀ got rest, dhcpWait xid type timeoutMs polls elapsed lease ≠ .got got rest
    | some (reply, rest) => ∃ before, dhcpWait xid type timeoutMs polls elapsed lease =
        .got (dhcpParseReply reply type before).2 rest ∧
        (elapsed = 0 → timeoutMs ≤ 10 → before = lease) := by
  induction polls generalizing elapsed lease with
  | nil =>
    intro got rest
    unfold dhcpWait
    split <;> exact nofun
  | cons reply polls ih =>
    have hnext : ∀ before, match firstExpected xid type timeoutMs polls (u32 (elapsed + 10)) with
        | none => ∀ got rest,
          dhcpWait xid type timeoutMs polls (u32 (elapsed + 10)) before ≠ .got got rest
        | some (reply, rest) => ∃ before',
          dhcpWait xid type timeoutMs polls (u32 (elapsed + 10)) before =
            .got (dhcpParseReply reply type before').2 rest ∧
          (elapsed = 0 → timeoutMs ≤ 10 → before' = lease) := by
      intro before
      have hlater := @ih before (u32 (elapsed + 10))
      cases hfirst : firstExpected xid type timeoutMs polls (u32 (elapsed + 10)) with
      | none =>
        rw [hfirst] at hlater
        exact hlater
      | some r =>
        rw [hfirst] at hlater
        obtain ⟨before', hwait, -⟩ := hlater
        refine ⟨before', hwait, fun hzero hshort => ?_⟩
        have htime := (firstExpected_some hfirst).2
        rw [hzero] at htime
        unfold u32 at htime
        omega
    unfold firstExpected
    by_cases htime : elapsed < timeoutMs
    · rw [if_neg (not_not.mpr htime)]
      by_cases hexpected : Expected xid type reply
      · rw [if_pos hexpected]
        exact ⟨lease, dhcpWait_expected hexpected htime, fun _ _ => rfl⟩
      · rw [if_neg hexpected]
        by_cases hours : dhcpPktSize ≤ reply.length ∧ replyXid reply = xid
        · rw [dhcpWait_rejected hexpected htime hours]
          exact hnext _
        · unfold dhcpWait
          rw [if_neg (not_not.mpr htime)]
          dsimp only
          rw [if_neg hours]
          exact hnext _
    · unfold dhcpWait
      rw [if_pos htime, if_pos htime]
      exact fun _ _ => nofun

theorem dhcpDiscover_got {before : Lease} (hsock : 0 ≤ sock)
    (hoffer : firstExpected s.gXid dhcpMsgOffer timeoutMs polls 0 = some (offer, rest))
    (hack : dhcpWait s.gXid dhcpMsgAck timeoutMs rest 0 Lease.zero =
      .got (dhcpParseReply ack dhcpMsgAck before).2 polls')
    (hmagic : replyMagic ack = dhcpMagicCookie) :
    ∃ t, dhcpDiscover sock timeoutMs polls s = some (true, t) ∧
      t.iface.addresses = (replyYiaddr ack, (replyNetmask ack).getD before.netmask,
        (replyGateway ack).getD before.gateway) := by
  have hfirst := @dhcpWait_spec polls Lease.zero s.gXid dhcpMsgOffer timeoutMs 0
  rw [hoffer] at hfirst
  obtain ⟨_, hfirst, -⟩ := hfirst
  obtain ⟨hip, hmask, hgateway⟩ := @dhcpParseReply_snd ack before dhcpMsgAck hmagic
  rw [← hip, ← hmask, ← hgateway]
  unfold dhcpDiscover
  rw [if_neg (by omega)]
  dsimp only
  rw [hfirst]
  dsimp only
  rw [hack]
  exact ⟨_, rfl, rfl⟩

/-- The addresses that are applied are those of the acknowledgement, up to what the wait has left
in the lease. -/
theorem dhcpDiscover_accepted (hsock : 0 ≤ sock)
    (h : acceptedReplies s.gXid timeoutMs polls = some (offer, ack)) :
    ∃ t before, dhcpDiscover sock timeoutMs polls s = some (true, t) ∧
      t.iface.addresses = (replyYiaddr ack, (replyNetmask ack).getD before.netmask,
        (replyGateway ack).getD before.gateway) ∧
      (timeoutMs ≤ 10 → before = Lease.zero) := by
  unfold acceptedReplies at h
  obtain ⟨⟨offer', rest⟩, hoffer, h⟩ := Option.bind_eq_some_iff.mp h
  obtain ⟨⟨ack', rest'⟩, hack, h⟩ := Option.bind_eq_some_iff.mp h
  cases h
  have hsecond := @dhcpWait_spec rest Lease.zero s.gXid dhcpMsgAck timeoutMs 0
  rw [hack] at hsecond
  obtain ⟨before, hsecond, hshort⟩ := hsecond
  have hmagic := (firstExpected_some hack).1.magic
  obtain ⟨t, hrun, haddresses⟩ := dhcpDiscover_got hsock hoffer hsecond hmagic
  exact ⟨t, before, hrun, haddresses, hshort rfl⟩

theorem accepted_of_dhcpDiscover (h : dhcpDiscover sock timeoutMs polls s = some (true, t)) :
    0 ≤ sock ∧ ∃ offer ack, acceptedReplies s.gXid timeoutMs polls = some (offer, ack) := by
  unfold dhcpDiscover at h
  split at h
  case isTrue => cases h
  case isFalse hsock =>
    refine ⟨by omega, ?_⟩
    have hfirst := @dhcpWait_spec polls Lease.zero s.gXid dhcpMsgOffer timeoutMs 0
    dsimp only at h
    unfold acceptedReplies
    cases hoffer : firstExpected s.gXid dhcpMsgOffer timeoutMs polls 0 with
    | none =>
      rw [hoffer] at hfirst
      split at h
      case h_1 => cases h
      case h_2 => cases h
      case h_3 hgot => exact absurd hgot (hfirst _ _)
    | some r =>
      obtain ⟨offer, rest⟩ := r
      rw [hoffer] at hfirst
      obtain ⟨before, hwait, -⟩ := hfirst
      rw [hwait] at h
      dsimp only at h
      have hsecond := @dhcpWait_spec rest Lease.zero s.gXid dhcpMsgAck timeoutMs 0
      cases hack : firstExpected s.gXid dhcpMsgAck timeoutMs rest 0 with
      | none =>
        rw [hack] at hsecond
        split at h
        case h_1 => cases h
        case h_2 => cases h
        case h_3 hgot => exact absurd hgot (hsecond _ _)
      | some r =>
        refine ⟨offer, r.1, ?_⟩
        simp only [Option.bind_eq_bind, Option.bind_some]
        rw [hack]
        rfl

/-! A reply of another server that is rejected. -/

/-- An offer with a netmask and a router. -/
def otherOffer (xid : BitVec 32) : Packet :=
  [2, 1, 6, 0] ++ bytes32 (htonl xid) ++ List.replicate 228 0 ++ bytes32 (htonl dhcpMagicCookie) ++
    ([53, 1, 2, 1, 4, 1, 1, 1, 1, 3, 4, 1, 1, 1, 1, 255] ++ List.replicate 296 0)

theorem htonl_htonl (x : BitVec 32) : htonl (htonl x) = x := by
  obtain ⟨b0, b1, b2, b3, rfl⟩ := exists_bytes32 x
  rw [htonl_append, htonl_append]

theorem load32_bytes32 {front back : Packet} {x : BitVec 32} (h : front.length = n) :
    load32 (front ++ (bytes32 x ++ back)) n = some x := by
  obtain ⟨b0, b1, b2, b3, rfl⟩ := exists_bytes32 x
  have hbyte : ∀ k, (front ++ (bytes32 (b3 ++ b2 ++ b1 ++ b0) ++ back))[n + k]? =
      ([b0, b1, b2, b3] ++ back)[k]? := by
    intro k
    rw [List.getElem?_append_right (by omega), h, Nat.add_sub_cancel_left, bytes32_append]
  have hfirst : (front ++ (bytes32 (b3 ++ b2 ++ b1 ++ b0) ++ back))[n]? = some b0 := hbyte 0
  unfold load32
  rw [hfirst, hbyte 1, hbyte 2, hbyte 3]
  rfl

theorem otherOffer_xid : replyXid (otherOffer xid) = xid := by
  have hload := @load32_bytes32 4 [2, 1, 6, 0] (List.replicate 228 0 ++
    (bytes32 (htonl dhcpMagicCookie) ++
      ([53, 1, 2, 1, 4, 1, 1, 1, 1, 3, 4, 1, 1, 1, 1, 255] ++ List.replicate 296 0))) (htonl xid) rfl
  unfold replyXid netField otherOffer
  simp only [List.append_assoc]
  rw [hload]
  exact htonl_htonl xid

theorem otherOffer_size : (otherOffer xid).length = dhcpPktSize := by
  unfold otherOffer
  simp only [List.length_append, List.length_replicate]
  rfl

/-- Behind the number of the transaction, every byte is fixed. -/
theorem otherOffer_drop : (otherOffer xid).drop 8 = (otherOffer 0).drop 8 := rfl

theorem otherOffer_magic : replyMagic (otherOffer xid) = dhcpMagicCookie := by
  have hbyte : ∀ k, (otherOffer xid)[8 + k]? = (otherOffer 0)[8 + k]? := by
    intro k
    rw [← List.getElem?_drop, ← List.getElem?_drop, otherOffer_drop]
  have hsame : replyMagic (otherOffer xid) = replyMagic (otherOffer 0) := by
    unfold replyMagic netField load32
    rw [hbyte 228, hbyte 229, hbyte 230, hbyte 231]
  rw [hsame]
  decide +kernel

theorem otherOffer_options : replyOptionList (otherOffer xid) =
    [(53, [2]), (1, [1, 1, 1, 1]), (3, [1, 1, 1, 1])] := by
  have hsame : replyOptions (otherOffer xid) = replyOptions (otherOffer 0) := rfl
  unfold replyOptionList
  rw [hsame]
  decide +kernel

theorem otherOffer_rejected : ¬ Expected xid dhcpMsgAck (otherOffer xid) := by
  intro h
  have htype := h.type
  unfold replyMsgType at htype
  rw [otherOffer_options] at htype
  exact absurd htype (by decide)

/-- A poll with it puts its addresses into the lease. -/
theorem otherOffer_parsed : (dhcpParseReply (otherOffer xid) type lease).2.netmask = 0x01010101 ∧
    (dhcpParseReply (otherOffer xid) type lease).2.gateway = 0x01010101 := by
  obtain ⟨-, hmask, hgateway⟩ := @dhcpParseReply_snd (otherOffer xid) lease type otherOffer_magic
  have hgiven : replyNetmask (otherOffer xid) = some 0x01010101 ∧
      replyGateway (otherOffer xid) = some 0x01010101 := by
    unfold replyNetmask replyGateway
    rw [otherOffer_options]
    decide
  rw [hmask, hgateway, hgiven.1, hgiven.2]
  exact ⟨rfl, rfl⟩

/-- Polls are whole replies as long as each one comes into an empty ring. -/
theorem poll_reply {socket : Socket} (hs : socket.Inv) (hempty : socket.queued = [])
    (hsize : reply.length = dhcpPktSize) :
    ∃ socket', deliver socket reply 0 reply.length = some socket' ∧
      (sockRead socket' dhcpPktSize).1 = reply ∧ (sockRead socket' dhcpPktSize).2.Inv ∧
      (sockRead socket' dhcpPktSize).2.queued = [] := by
  have hfill : socket.fill = 0 := by
    rw [← length_queued, hempty]
    rfl
  have hroom : reply.length ≤ socket.room := by
    unfold Socket.room
    rw [hfill, hsize]
    decide
  obtain ⟨socket', hdeliver, hinv, hqueued⟩ := @deliver_fits _ reply 0 _ hs hroom (by omega)
  rw [hempty, List.nil_append, List.drop_zero, List.take_length] at hqueued
  obtain ⟨hinv', hread, hrest⟩ := @sockRead_spec _ dhcpPktSize hinv
  rw [hqueued, ← hsize] at hread hrest
  rw [List.take_length] at hread
  rw [List.drop_length] at hrest
  rw [← hsize]
  rw [← hsize] at hinv'
  exact ⟨socket', hdeliver, hread, hinv', hrest⟩

/-! Which runs apply the lease of one server. -/

theorem acceptedReplies_pair (hoffer : Expected xid dhcpMsgOffer offer)
    (hack : firstExpected xid dhcpMsgAck timeoutMs rest 0 = some (ack, polls)) :
    acceptedReplies xid timeoutMs (offer :: rest) = some (offer, ack) := by
  have htime := (firstExpected_some hack).2
  unfold acceptedReplies
  have hfirst : firstExpected xid dhcpMsgOffer timeoutMs (offer :: rest) 0 = some (offer, rest) := by
    unfold firstExpected
    rw [if_neg (not_not.mpr htime), if_pos hoffer]
  rw [hfirst]
  simp only [Option.bind_eq_bind, Option.bind_some]
  rw [hack]
  rfl

theorem expected_of_accepted (h : acceptedReplies xid timeoutMs polls = some (offer, ack)) :
    Expected xid dhcpMsgOffer offer ∧ Expected xid dhcpMsgAck ack ∧ 0 < timeoutMs := by
  unfold acceptedReplies at h
  obtain ⟨⟨offer', rest⟩, hoffer, h⟩ := Option.bind_eq_some_iff.mp h
  obtain ⟨⟨ack', rest'⟩, hack, h⟩ := Option.bind_eq_some_iff.mp h
  cases h
  exact ⟨(firstExpected_some hoffer).1, (firstExpected_some hack).1, (firstExpected_some hoffer).2⟩

/-- The acknowledgement comes at once, or behind a reply that is rejected: what it does not say is
then zero, or taken from the other reply. -/
theorem exists_two_leases (h : acceptedReplies s.gXid timeoutMs polls = some (offer, ack))
    (htwo : 10 < timeoutMs) :
    ∃ polls₁ polls₂ t₁ t₂, acceptedReplies s.gXid timeoutMs polls₁ = some (offer, ack) ∧
      acceptedReplies s.gXid timeoutMs polls₂ = some (offer, ack) ∧
      dhcpDiscover 0 timeoutMs polls₁ s = some (true, t₁) ∧
      dhcpDiscover 0 timeoutMs polls₂ s = some (true, t₂) ∧
      t₁.iface.addresses = (replyYiaddr ack, (replyNetmask ack).getD 0, (replyGateway ack).getD 0) ∧
      t₂.iface.addresses = (replyYiaddr ack, (replyNetmask ack).getD 0x01010101,
        (replyGateway ack).getD 0x01010101) := by
  obtain ⟨hoffer, hack, hpos⟩ := expected_of_accepted h
  have hother := @otherOffer_rejected s.gXid
  obtain ⟨hmask, hgateway⟩ := @otherOffer_parsed Lease.zero s.gXid dhcpMsgAck
  have hten : u32 (0 + 10) = 10 := rfl
  have hone : firstExpected s.gXid dhcpMsgAck timeoutMs [ack] 0 = some (ack, []) := by
    unfold firstExpected
    rw [if_neg (not_not.mpr hpos), if_pos hack]
  have htwice : firstExpected s.gXid dhcpMsgAck timeoutMs [otherOffer s.gXid, ack] 0 =
      some (ack, []) := by
    unfold firstExpected
    rw [if_neg (not_not.mpr hpos), if_neg hother, hten]
    unfold firstExpected
    rw [if_neg (not_not.mpr htwo), if_pos hack]
  have hpair : ∀ rest, firstExpected s.gXid dhcpMsgOffer timeoutMs (offer :: rest) 0 =
      some (offer, rest) := by
    intro rest
    unfold firstExpected
    rw [if_neg (not_not.mpr hpos), if_pos hoffer]
  have hwait := @dhcpWait_rejected (otherOffer s.gXid) [ack] Lease.zero s.gXid dhcpMsgAck timeoutMs
    0 hother hpos ⟨Nat.le_of_eq otherOffer_size.symm, otherOffer_xid⟩
  rw [hten, dhcpWait_expected hack htwo] at hwait
  obtain ⟨t₁, hrun₁, haddr₁⟩ := dhcpDiscover_got (Int.le_refl 0) (hpair [ack])
    (dhcpWait_expected hack hpos) hack.magic
  obtain ⟨t₂, hrun₂, haddr₂⟩ := dhcpDiscover_got (Int.le_refl 0)
    (hpair [otherOffer s.gXid, ack]) hwait hack.magic
  rw [hmask, hgateway] at haddr₂
  exact ⟨_, _, t₁, t₂, acceptedReplies_pair hoffer hone, acceptedReplies_pair hoffer htwice, hrun₁,
    hrun₂, haddr₁, haddr₂⟩

/-- A reply to a client with another Ethernet address that uses the same transaction number, as every
client of this kind does at first. -/
def strayReply (type : BitVec 8) : Packet :=
  [2, 1, 6, 0] ++ bytes32 (htonl 0xDEAD1234) ++ List.replicate 8 0 ++ [10, 0, 0, 5] ++
    List.replicate 8 0 ++ List.replicate 6 9 ++ List.replicate 202 0 ++
    bytes32 (htonl dhcpMagicCookie) ++
    ([53, 1, type, 54, 4, 10, 0, 0, 1, 1, 4, 255, 255, 255, 0, 3, 4, 10, 0, 0, 1, 255] ++
      List.replicate 290 0)

/-- An interface without an address, before the first call of `dhcp_discover`. -/
def dhcpStart : DhcpState where
  iface := ⟨Vector.replicate 6 2, 0, 0, 0, some fun _ => 0⟩
  currentLease := Lease.zero
  leaseValid := false
  gXid := 0xDEAD1234
  sent := []

end PinguinOS.Net
