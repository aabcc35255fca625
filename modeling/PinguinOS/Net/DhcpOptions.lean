import PinguinOS.Lib.Stored
import PinguinOS.Net.Dhcp

/-! The options of a DHCP packet, as `dhcp_parse_reply` walks over their bytes. -/
namespace PinguinOS.Net

open Stored (StoredAt)

/-- The variables of the loop, with `opt` counted from the start of the field, and the bytes of the
field that it has read. -/
structure OptCursor where
  opt : Nat
  parsed : Parsed
  reads : List Nat

/-- An access to `n` bytes at `opt`. -/
def OptCursor.read (s : OptCursor) (n : Nat) : OptCursor :=
  { s with reads := List.range' s.opt n ++ s.reads }

/-- `opt += n` -/
def OptCursor.skip (s : OptCursor) (n : Nat) : OptCursor := { s with opt := s.opt + n }

/-- `memcpy(&v, opt, 4)`, and a field of the lease that is set to `ntohl(v)`, for an option of the
right size. -/
def optWord (field : Nat → BitVec 8) (sized : Bool) (set : Lease → BitVec 32 → Lease)
    (s : OptCursor) : OptCursor :=
  if sized then
    let v := field (s.opt + 3) ++ field (s.opt + 2) ++ field (s.opt + 1) ++ field s.opt
    { s.read 4 with parsed := { s.parsed with lease := set s.parsed.lease (htonl v) } }
  else s

/-- The switch of `dhcp_parse_reply`. -/
def optSwitch (field : Nat → BitVec 8) (code : BitVec 8) (len : Nat) (s : OptCursor) :
    OptCursor :=
  if code = dhcpOptMsgType then
    if 1 ≤ len then { s.read 1 with parsed := { s.parsed with msgType := field s.opt } } else s
  else if code = dhcpOptSubnetMask then
    optWord field (len = 4) (fun lease v => { lease with netmask := v }) s
  else if code = dhcpOptRouter then
    optWord field (4 ≤ len) (fun lease v => { lease with gateway := v }) s
  else if code = dhcpOptDns then
    optWord field (4 ≤ len) (fun lease v => { lease with dns := v }) s
  else if code = dhcpOptServerId then
    optWord field (len = 4) (fun lease v => { lease with serverId := v }) s
  else if code = dhcpOptLeaseTime then
    optWord field (len = 4) (fun lease v => { lease with leaseSecs := v }) s
  else s

/-- The body of the loop, with the second half of its condition, and whether the loop goes on. -/
def optStep (field : Nat → BitVec 8) (s : OptCursor) : OptCursor × Bool :=
  let code := field s.opt
  let s := s.read 1
  if code = dhcpOptEnd then (s, false)
  else
    let s := s.skip 1
    if code = 0 then (s, true)
    else if dhcpOptionsLen ≤ s.opt then (s, false)
    else
      let len := (field s.opt).toNat
      let s := (s.read 1).skip 1
      if dhcpOptionsLen < s.opt + len then (s, false)
      else ((optSwitch field code len s).skip len, true)

/-- The loop of `dhcp_parse_reply`; without a result when it takes more than the given number of
iterations. -/
def optLoop (field : Nat → BitVec 8) : Nat → OptCursor → Option OptCursor
  | 0, _ => none
  | fuel + 1, s =>
    if s.opt < dhcpOptionsLen then
      match optStep field s with
      | (s, true) => optLoop field fuel s
      | (s, false) => some s
    else some s

/-- The field `options` of a packet. -/
def optField (pkt : Packet) (i : Nat) : BitVec 8 := (replyOptions pkt).getD i 0

/-- What the loop starts with. -/
def optStart (pkt : Packet) (lease : Lease) : OptCursor :=
  ⟨0, ⟨0, { lease with ip := replyYiaddr pkt }⟩, []⟩

/-- `dhcp_parse_reply`, and the bytes of the options that it reads. -/
def dhcpParseBytes (fuel : Nat) (pkt : Packet) (expectedType : BitVec 8) (lease : Lease) :
    Option (Bool × Lease × List Nat) :=
  if replyMagic pkt ≠ dhcpMagicCookie then some (false, lease, [])
  else
    (optLoop (optField pkt) fuel (optStart pkt lease)).map fun s =>
      (s.parsed.msgType = expectedType, s.parsed.lease, s.reads)

variable {field : Nat → BitVec 8} {s t : OptCursor} {data l : Packet} {code : BitVec 8}
  {fuel n a : Nat} {sized : Bool} {set : Lease → BitVec 32 → Lease}

/-! The switch reads inside the option, and parses it. -/

/-- `t` is `s` with `p` parsed and bytes of an option of `n` bytes read. -/
structure Switched (s t : OptCursor) (n : Nat) (p : Parsed) : Prop where
  opt : t.opt = s.opt
  parsed : t.parsed = p
  reads : ∀ a ∈ t.reads, a ∈ s.reads ∨ a < s.opt + n

theorem Switched.refl : Switched s s n s.parsed := ⟨rfl, rfl, fun _ ha => Or.inl ha⟩

theorem reads_read (hn : n ≤ data.length) :
    ∀ a ∈ (s.read n).reads, a ∈ s.reads ∨ a < s.opt + data.length := by
  intro a ha
  rcases List.mem_append.mp ha with hin | hold
  · have hrange := List.mem_range'_1.mp hin
    exact Or.inr (by omega)
  · exact Or.inl hold

theorem word_stored (h : StoredAt field a data) (hlen : 4 ≤ data.length) :
    field (a + 3) ++ field (a + 2) ++ field (a + 1) ++ field a = (load32 data 0).getD 0 := by
  match data, hlen with
  | b0 :: b1 :: b2 :: b3 :: rest, _ =>
    obtain ⟨h0, h⟩ := Stored.storedAt_cons.mp h
    obtain ⟨h1, h⟩ := Stored.storedAt_cons.mp h
    obtain ⟨h2, h⟩ := Stored.storedAt_cons.mp h
    obtain ⟨h3, -⟩ := Stored.storedAt_cons.mp h
    have h2' : field (a + 2) = b2 := h2
    have h3' : field (a + 3) = b3 := h3
    rw [h0, h1, h2', h3']
    rfl

theorem optWord_switched {c : Prop} [Decidable c] (set : Lease → BitVec 32 → Lease)
    (h : StoredAt field s.opt data) (hsized : c → 4 ≤ data.length) :
    Switched s (optWord field c set s) data.length
      (if c then { s.parsed with lease := set s.parsed.lease (netField data 0) }
        else s.parsed) := by
  unfold optWord
  by_cases hc : c
  · have hlen := hsized hc
    have hword := word_stored h hlen
    rw [if_pos hc, if_pos (decide_eq_true hc)]
    dsimp only
    rw [hword]
    exact ⟨rfl, rfl, reads_read hlen⟩
  · rw [if_neg hc, if_neg (by rwa [decide_eq_true_iff])]
    exact Switched.refl

theorem optSwitch_switched (h : StoredAt field s.opt data) :
    Switched s (optSwitch field code data.length s) data.length (dhcpOption s.parsed code data) := by
  have hexact : data.length = 4 → 4 ≤ data.length := fun heq => Nat.le_of_eq heq.symm
  unfold optSwitch dhcpOption
  dsimp only
  by_cases htype : code = dhcpOptMsgType
  · rw [if_pos htype, if_pos htype]
    by_cases hone : 1 ≤ data.length
    · rw [if_pos hone, if_pos hone]
      refine ⟨rfl, ?_, reads_read hone⟩
      match data, hone with
      | b :: rest, _ => rw [(Stored.storedAt_cons.mp h).1]; rfl
    · rw [if_neg hone, if_neg hone]
      exact Switched.refl
  rw [if_neg htype, if_neg htype]
  by_cases hmask : code = dhcpOptSubnetMask
  · rw [if_pos hmask, if_pos hmask]
    exact optWord_switched (fun lease v => { lease with netmask := v }) h hexact
  rw [if_neg hmask, if_neg hmask]
  by_cases hrouter : code = dhcpOptRouter
  · rw [if_pos hrouter, if_pos hrouter]
    exact optWord_switched (fun lease v => { lease with gateway := v }) h id
  rw [if_neg hrouter, if_neg hrouter]
  by_cases hdns : code = dhcpOptDns
  · rw [if_pos hdns, if_pos hdns]
    exact optWord_switched (fun lease v => { lease with dns := v }) h id
  rw [if_neg hdns, if_neg hdns]
  by_cases hserver : code = dhcpOptServerId
  · rw [if_pos hserver, if_pos hserver]
    exact optWord_switched (fun lease v => { lease with serverId := v }) h hexact
  rw [if_neg hserver, if_neg hserver]
  by_cases hlease : code = dhcpOptLeaseTime
  · rw [if_pos hlease, if_pos hlease]
    exact optWord_switched (fun lease v => { lease with leaseSecs := v }) h hexact
  · rw [if_neg hlease, if_neg hlease]
    exact Switched.refl

/-! The loop ends inside the field, with what the parser on lists finds. -/

/-- The rest of the field holds the bytes `l`, and nothing behind the field has been read. -/
structure OptsLeft (field : Nat → BitVec 8) (s : OptCursor) (l : Packet) : Prop where
  stored : StoredAt field s.opt l
  whole : s.opt + l.length = dhcpOptionsLen
  reads : ∀ a ∈ s.reads, a < dhcpOptionsLen

/-- `*opt++` -/
theorem optsLeft_byte {b : BitVec 8} (h : OptsLeft field s (b :: l)) : field s.opt = b ∧
    s.opt < dhcpOptionsLen ∧ OptsLeft field ((s.read 1).skip 1) l := by
  obtain ⟨hbyte, hrest⟩ := Stored.storedAt_cons.mp h.stored
  have hwhole := h.whole
  rw [List.length_cons] at hwhole
  have hlt : s.opt < dhcpOptionsLen := by omega
  have hopt : ((s.read 1).skip 1).opt = s.opt + 1 := rfl
  refine ⟨hbyte, hlt, ?_, ?_, ?_⟩
  · rw [hopt]
    exact hrest
  · rw [hopt]
    omega
  · intro a ha
    rcases List.mem_cons.mp ha with rfl | hold
    · exact hlt
    · exact h.reads a hold

/-- An option that fits. -/
theorem optsLeft_option (h : OptsLeft field s l) (hfit : n ≤ l.length) :
    (optSwitch field code n s).parsed = dhcpOption s.parsed code (l.take n) ∧
      OptsLeft field ((optSwitch field code n s).skip n) (l.drop n) := by
  have hlen : (l.take n).length = n := List.length_take_of_le hfit
  have hwhole := h.whole
  have hstored := h.stored
  rw [← List.take_append_drop n l, Stored.storedAt_append, hlen] at hstored
  have hswitch := @optSwitch_switched field s (l.take n) code hstored.1
  rw [hlen] at hswitch
  have hopt : ((optSwitch field code n s).skip n).opt = s.opt + n := congrArg (· + n) hswitch.opt
  refine ⟨hswitch.parsed, ?_, ?_, ?_⟩
  · rw [hopt]
    exact hstored.2
  · rw [hopt, List.length_drop]
    omega
  · intro a ha
    rcases hswitch.reads a ha with hold | hin
    · exact h.reads a hold
    · omega

theorem optLoop_eq (h : OptsLeft field s l) (hfuel : l.length < fuel) (hn : l.length ≤ n) :
    ∃ t, optLoop field fuel s = some t ∧ t.parsed = dhcpParseOptions n l s.parsed ∧
      ∀ a ∈ t.reads, a < dhcpOptionsLen := by
  induction fuel generalizing s l n with
  | zero => exact absurd hfuel (Nat.not_lt_zero _)
  | succ fuel ih =>
    unfold optLoop
    cases l with
    | nil =>
      have hend : s.opt = dhcpOptionsLen := h.whole
      rw [if_neg (Nat.not_lt.mpr (Nat.le_of_eq hend.symm))]
      exact ⟨s, rfl, by cases n <;> rfl, h.reads⟩
    | cons code opt =>
      obtain ⟨n, rfl⟩ := Nat.exists_eq_succ_of_ne_zero (Nat.ne_zero_of_lt hn)
      rw [List.length_cons] at hfuel hn
      obtain ⟨hcode, hlt, hcoded⟩ := optsLeft_byte h
      have hread : ∀ a ∈ (s.read 1).reads, a < dhcpOptionsLen := hcoded.reads
      rw [if_pos hlt]
      unfold optStep dhcpParseOptions
      dsimp only
      rw [hcode]
      by_cases hstop : code = dhcpOptEnd
      · rw [if_pos hstop, if_pos hstop]
        exact ⟨_, rfl, rfl, hread⟩
      rw [if_neg hstop, if_neg hstop]
      by_cases hpad : code = 0
      · rw [if_pos hpad, if_pos hpad]
        exact ih hcoded (by omega) (by omega)
      rw [if_neg hpad, if_neg hpad]
      cases opt with
      | nil =>
        have hend : ((s.read 1).skip 1).opt = dhcpOptionsLen := hcoded.whole
        rw [if_pos (Nat.le_of_eq hend.symm)]
        exact ⟨_, rfl, rfl, hread⟩
      | cons len opt =>
        rw [List.length_cons] at hfuel hn
        obtain ⟨hlen, hlt', hsized⟩ := optsLeft_byte hcoded
        have hwhole := hsized.whole
        rw [if_neg (Nat.not_le.mpr hlt'), hlen]
        dsimp only
        by_cases hcut : opt.length < len.toNat
        · rw [if_pos hcut, if_pos (by omega)]
          exact ⟨_, rfl, rfl, hsized.reads⟩
        · obtain ⟨hparsed, hleft⟩ :=
            @optsLeft_option _ _ _ code _ hsized (Nat.not_lt.mp hcut)
          rw [if_neg hcut, if_neg (by omega)]
          have hdrop := List.length_drop (i := len.toNat) (l := opt)
          obtain ⟨t, hloop, hresult, hreads⟩ := @ih _ _ n hleft (by omega) (by omega)
          refine ⟨t, hloop, hresult.trans ?_, hreads⟩
          exact congrArg _ hparsed

/-! The reference: each field has the value that the last option of the right size gives it. -/

def replyDns (pkt : Packet) : Option Ip4Addr :=
  Tlv.last (firstAddressOf dhcpOptDns) (replyOptionList pkt)

def replyLeaseSecs (pkt : Packet) : Option (BitVec 32) :=
  Tlv.last (addressOf dhcpOptLeaseTime) (replyOptionList pkt)

/-- What a packet makes of a lease; a field without an option stays. -/
def referenceLease (pkt : Packet) (lease : Lease) : Lease where
  ip := replyYiaddr pkt
  netmask := (replyNetmask pkt).getD lease.netmask
  gateway := (replyGateway pkt).getD lease.gateway
  dns := (replyDns pkt).getD lease.dns
  serverId := (replyServer pkt).getD lease.serverId
  leaseSecs := (replyLeaseSecs pkt).getD lease.leaseSecs

/-- The loop ends, reads nothing but the options, and finds what the reference finds. -/
def ParsesAsReference (pkt : Packet) : Prop :=
  ∀ expectedType lease, ∃ fuel reads, dhcpParseBytes fuel pkt expectedType lease =
      some (decide ((replyMsgType pkt).getD 0 = expectedType), referenceLease pkt lease, reads) ∧
    ∀ a ∈ reads, a < dhcpOptionsLen

variable {pkt : Packet} {lease : Lease} {xid serverId offeredIp : BitVec 32} {mac : MacAddr}
  {msgType : BitVec 8}

/-- The fields that a reply leaves alone elsewhere. -/
theorem dhcpOption_rest (p : Parsed) (o : BitVec 8 × Packet) :
    (dhcpOption p o.1 o.2).lease.dns = (firstAddressOf dhcpOptDns o).getD p.lease.dns ∧
    (dhcpOption p o.1 o.2).lease.serverId =
      (addressOf dhcpOptServerId o).getD p.lease.serverId ∧
    (dhcpOption p o.1 o.2).lease.leaseSecs =
      (addressOf dhcpOptLeaseTime o).getD p.lease.leaseSecs := by
  obtain ⟨code, data⟩ := o
  unfold dhcpOption addressOf firstAddressOf
  dsimp only
  by_cases hdns : code = dhcpOptDns
  · subst hdns
    have hother : dhcpOptDns ≠ dhcpOptMsgType ∧ dhcpOptDns ≠ dhcpOptSubnetMask ∧
        dhcpOptDns ≠ dhcpOptRouter ∧ dhcpOptDns ≠ dhcpOptServerId ∧
        dhcpOptDns ≠ dhcpOptLeaseTime := by decide
    simp only [hother, true_and, false_and, if_true, if_false, Option.getD_none]
    split <;> simp
  · by_cases hserver : code = dhcpOptServerId
    · subst hserver
      have hother : dhcpOptServerId ≠ dhcpOptMsgType ∧ dhcpOptServerId ≠ dhcpOptSubnetMask ∧
          dhcpOptServerId ≠ dhcpOptRouter ∧ dhcpOptServerId ≠ dhcpOptLeaseTime := by decide
      simp only [hother, hdns, true_and, false_and, if_true, if_false, Option.getD_none]
      split <;> simp
    · by_cases hlease : code = dhcpOptLeaseTime
      · subst hlease
        have hother : dhcpOptLeaseTime ≠ dhcpOptMsgType ∧
            dhcpOptLeaseTime ≠ dhcpOptSubnetMask ∧ dhcpOptLeaseTime ≠ dhcpOptRouter := by decide
        simp only [hother, hdns, hserver, true_and, false_and, if_true, if_false,
          Option.getD_none]
        split <;> simp
      · simp only [hdns, hserver, hlease, false_and, if_false, Option.getD_none]
        split_ifs <;> simp

theorem dhcpParse_reference : (dhcpParseOptions dhcpOptionsLen (replyOptions pkt)
    ⟨0, { lease with ip := replyYiaddr pkt }⟩) =
      ⟨(replyMsgType pkt).getD 0, referenceLease pkt lease⟩ := by
  have hspec := @dhcpParse_spec pkt ⟨0, { lease with ip := replyYiaddr pkt }⟩ _ rfl
  have hdns := @Tlv.get_foldl _ Parsed _ (fun p o => dhcpOption p o.1 o.2) (fun p => p.lease.dns)
    (firstAddressOf dhcpOptDns) (replyOptionList pkt) ⟨0, { lease with ip := replyYiaddr pkt }⟩
    fun p o => (dhcpOption_rest p o).1
  have hserver := @Tlv.get_foldl _ Parsed _ (fun p o => dhcpOption p o.1 o.2)
    (fun p => p.lease.serverId) (addressOf dhcpOptServerId) (replyOptionList pkt)
    ⟨0, { lease with ip := replyYiaddr pkt }⟩ fun p o => (dhcpOption_rest p o).2.1
  have hsecs := @Tlv.get_foldl _ Parsed _ (fun p o => dhcpOption p o.1 o.2)
    (fun p => p.lease.leaseSecs) (addressOf dhcpOptLeaseTime) (replyOptionList pkt)
    ⟨0, { lease with ip := replyYiaddr pkt }⟩ fun p o => (dhcpOption_rest p o).2.2
  unfold replyOptionList at hdns hserver hsecs
  rw [← dhcpParseOptions_eq] at hdns hserver hsecs
  generalize dhcpParseOptions dhcpOptionsLen (replyOptions pkt)
    ⟨0, { lease with ip := replyYiaddr pkt }⟩ = p at hspec hdns hserver hsecs
  obtain ⟨msgType, ⟨ip, netmask, gateway, dns, serverId, leaseSecs⟩⟩ := p
  obtain ⟨rfl, rfl, rfl, rfl⟩ := hspec
  dsimp only at hdns hserver hsecs
  rw [hdns, hserver, hsecs]
  rfl

theorem parsesAsReference (hsize : pkt.length = dhcpPktSize)
    (hmagic : replyMagic pkt = dhcpMagicCookie) : ParsesAsReference pkt := by
  intro expectedType lease
  have hlen : (replyOptions pkt).length = dhcpOptionsLen := by
    unfold replyOptions
    rw [List.length_take, List.length_drop, hsize]
    rfl
  have hstart : OptsLeft (optField pkt) (optStart pkt lease) (replyOptions pkt) := by
    refine ⟨?_, ?_, ?_⟩
    · intro i hi
      have hzero : (optStart pkt lease).opt + i = i := Nat.zero_add i
      unfold optField
      rw [hzero, List.getD_eq_getElem?_getD, List.getElem?_eq_getElem hi, Option.getD_some]
    · exact (Nat.zero_add _).trans hlen
    · intro a ha
      cases ha
  obtain ⟨t, hloop, hparsed, hreads⟩ := optLoop_eq hstart (Nat.lt_succ_self _) (Nat.le_of_eq hlen)
  have hstarted : (optStart pkt lease).parsed = ⟨0, { lease with ip := replyYiaddr pkt }⟩ := rfl
  rw [hstarted, dhcpParse_reference] at hparsed
  refine ⟨(replyOptions pkt).length + 1, t.reads, ?_, hreads⟩
  unfold dhcpParseBytes
  rw [if_neg (not_not.mpr hmagic), hloop, Option.map_some, hparsed]

/-! What `dhcp_build_pkt` writes. -/

/-- The options of a packet that `dhcp_build_pkt` makes. -/
def builtOptions (msgType : BitVec 8) (serverId offeredIp : BitVec 32) : Packet :=
  let request :=
    if msgType = dhcpMsgRequest then
      [dhcpOptServerId, 4] ++ bytes32 (htonl serverId) ++ [50, 4] ++ bytes32 (htonl offeredIp)
    else []
  let options := [dhcpOptMsgType, 1, msgType] ++ request ++
    [dhcpOptParamReq, 4, dhcpOptSubnetMask, dhcpOptRouter, dhcpOptDns, dhcpOptLeaseTime, dhcpOptEnd]
  options ++ List.replicate (dhcpOptionsLen - options.length) 0

theorem dhcpBuildPkt_split : ∃ front : Packet, front.length = 236 ∧
    dhcpBuildPkt xid mac msgType serverId offeredIp =
      front ++ (bytes32 (htonl dhcpMagicCookie) ++ builtOptions msgType serverId offeredIp) := by
  refine ⟨[1, 1, 6, 0] ++ bytes32 (htonl xid) ++ bytes16 0 ++ bytes16 (htons 0x8000) ++
    List.replicate 16 0 ++ mac.toList ++ List.replicate 202 0, ?_, ?_⟩
  · simp only [List.length_append, List.length_replicate, Vector.length_toList]
    rfl
  · unfold dhcpBuildPkt builtOptions
    simp only [List.append_assoc]

theorem length_builtOptions : (builtOptions msgType serverId offeredIp).length = dhcpOptionsLen := by
  unfold builtOptions
  dsimp only
  rw [List.length_append, List.length_replicate]
  refine Nat.add_sub_cancel' ?_
  split_ifs
  · exact Nat.le_of_ble_eq_true rfl
  · exact Nat.le_of_ble_eq_true rfl

/-- The options that a reader of the packet finds. -/
theorem options_built : Tlv.options 0 dhcpOptEnd BitVec.toNat dhcpOptionsLen
    (builtOptions msgType serverId offeredIp) = (dhcpOptMsgType, [msgType]) ::
      ((if msgType = dhcpMsgRequest then
          [(dhcpOptServerId, bytes32 (htonl serverId)), (50, bytes32 (htonl offeredIp))]
        else []) ++
        [(dhcpOptParamReq,
          [dhcpOptSubnetMask, dhcpOptRouter, dhcpOptDns, dhcpOptLeaseTime])]) := by
  unfold builtOptions
  dsimp only
  refine (@Tlv.options_cons _ _ 0 dhcpOptEnd dhcpOptMsgType 1 BitVec.toNat 311 [msgType] _
    (by decide) (by decide) rfl).trans ?_
  refine congrArg _ ?_
  have hparam : ∀ n rest, Tlv.options 0 dhcpOptEnd BitVec.toNat (n + 1 + 1)
      ([dhcpOptParamReq, 4, dhcpOptSubnetMask, dhcpOptRouter, dhcpOptDns, dhcpOptLeaseTime,
        dhcpOptEnd] ++ rest) =
      [(dhcpOptParamReq, [dhcpOptSubnetMask, dhcpOptRouter, dhcpOptDns, dhcpOptLeaseTime])] := by
    intro n rest
    refine (@Tlv.options_cons _ _ 0 dhcpOptEnd dhcpOptParamReq 4 BitVec.toNat (n + 1)
      [dhcpOptSubnetMask, dhcpOptRouter, dhcpOptDns, dhcpOptLeaseTime] (dhcpOptEnd :: rest)
      (by decide) (by decide) rfl).trans ?_
    rw [Tlv.options_stop]
  split_ifs
  · refine (@Tlv.options_cons _ _ 0 dhcpOptEnd dhcpOptServerId 4 BitVec.toNat 310
      (bytes32 (htonl serverId)) _ (by decide) (by decide) rfl).trans ?_
    refine congrArg _ ?_
    refine (@Tlv.options_cons _ _ 0 dhcpOptEnd 50 4 BitVec.toNat 309
      (bytes32 (htonl offeredIp)) _ (by decide) (by decide) rfl).trans ?_
    exact congrArg _ (hparam 307 _)
  · exact hparam 309 _

theorem replyOptionList_built : replyOptionList (dhcpBuildPkt xid mac msgType serverId offeredIp) =
    Tlv.options 0 dhcpOptEnd BitVec.toNat dhcpOptionsLen
      (builtOptions msgType serverId offeredIp) := by
  obtain ⟨front, hfront, hsplit⟩ := @dhcpBuildPkt_split xid serverId offeredIp mac msgType
  have hhead : (front ++ bytes32 (htonl dhcpMagicCookie)).length = 240 := by
    rw [List.length_append, hfront]
    rfl
  unfold replyOptionList replyOptions
  rw [hsplit, ← List.append_assoc, List.drop_left' hhead, ← length_builtOptions, List.take_length]

theorem dhcpBuildPkt_magic :
    replyMagic (dhcpBuildPkt xid mac msgType serverId offeredIp) = dhcpMagicCookie := by
  obtain ⟨front, hfront, hsplit⟩ := @dhcpBuildPkt_split xid serverId offeredIp mac msgType
  unfold replyMagic netField
  rw [hsplit, load32_bytes32 hfront]
  exact htonl_htonl _

theorem length_dhcpBuildPkt :
    (dhcpBuildPkt xid mac msgType serverId offeredIp).length = dhcpPktSize := by
  obtain ⟨front, hfront, hsplit⟩ := @dhcpBuildPkt_split xid serverId offeredIp mac msgType
  rw [hsplit, List.length_append, List.length_append, hfront, length_builtOptions]
  rfl

theorem replyMsgType_built :
    replyMsgType (dhcpBuildPkt xid mac msgType serverId offeredIp) = some msgType := by
  unfold replyMsgType
  rw [replyOptionList_built, options_built]
  split_ifs
  · rfl
  · rfl

theorem replyServer_built :
    replyServer (dhcpBuildPkt xid mac dhcpMsgRequest serverId offeredIp) = some serverId := by
  have hload := @load32_bytes32 0 [] [] (htonl serverId) rfl
  have hfield : netField (bytes32 (htonl serverId)) 0 = serverId := by
    unfold netField
    rw [List.append_nil, List.nil_append] at hload
    rw [hload]
    exact htonl_htonl serverId
  unfold replyServer
  rw [replyOptionList_built, options_built, if_pos rfl]
  exact congrArg some hfield

/-- `dhcp_parse_reply` finds in the packet the type and, for a request, the server. -/
def Recovered (pkt : Packet) (msgType : BitVec 8) (serverId : BitVec 32) : Prop :=
  ∀ expectedType lease, ∃ fuel lease' reads, dhcpParseBytes fuel pkt expectedType lease =
      some (decide (msgType = expectedType), lease', reads) ∧
    (msgType = dhcpMsgRequest → lease'.serverId = serverId)

theorem recovered_built :
    Recovered (dhcpBuildPkt xid mac msgType serverId offeredIp) msgType serverId := by
  intro expectedType lease
  obtain ⟨fuel, reads, hparse, -⟩ :=
    parsesAsReference length_dhcpBuildPkt dhcpBuildPkt_magic expectedType lease
  rw [replyMsgType_built] at hparse
  refine ⟨fuel, _, reads, hparse, ?_⟩
  rintro rfl
  unfold referenceLease
  dsimp only
  rw [replyServer_built, Option.getD_some]

/-- The parser is the reference parser, and reads back what the client itself writes. -/
theorem dhcp_options_reference :
    (∀ pkt : Packet, pkt.length = dhcpPktSize → replyMagic pkt = dhcpMagicCookie →
      ParsesAsReference pkt) ∧
    ∀ xid mac msgType serverId offeredIp,
      Recovered (dhcpBuildPkt xid mac msgType serverId offeredIp) msgType serverId :=
  ⟨fun _ hsize hmagic => parsesAsReference hsize hmagic, fun _ _ _ _ _ => recovered_built⟩

/-- An acknowledgement whose second netmask counts, behind a pad; its last option is cut short. -/
def repeatedOptions : Packet :=
  List.replicate 236 0 ++ bytes32 (htonl dhcpMagicCookie) ++
    ([53, 1, 5, 1, 4, 255, 0, 0, 0, 0, 1, 4, 255, 255, 255, 0, 54, 3, 1, 1, 1] ++
      List.replicate 289 0 ++ [51, 4])

theorem dhcp_options_reference_repeated : ParsesAsReference repeatedOptions ∧
    Recovered (dhcpBuildPkt 1 (Vector.replicate 6 2) dhcpMsgRequest 0x0A000001 0x0A000005)
      dhcpMsgRequest 0x0A000001 :=
  ⟨dhcp_options_reference.1 _ (by decide +kernel) (by decide +kernel),
    dhcp_options_reference.2 _ _ _ _ _⟩

end PinguinOS.Net
