import Mathlib.Data.BitVec
import PinguinOS.Mm.Types

/-! The packets of the GDB stub: `$`, the data, `#` and two digits of the checksum. -/
namespace PinguinOS.Debug

open Mm (int32)

abbrev Byte := BitVec 8

/-- `'$'` -/
def gdbStart : Byte := 0x24
/-- `'#'` -/
def gdbEnd : Byte := 0x23
/-- `'+'` -/
def gdbAck : Byte := 0x2B
/-- `'-'` -/
def gdbNak : Byte := 0x2D

def gdbBufSize : Nat := 512

/-- `nibble_zu_hex` -/
def nibbleZuHex (n : Byte) : Byte := if n < 10 then 0x30 + n else 0x61 + n - 10

/-- `hex_zu_nibble` -/
def hexZuNibble (c : Byte) : Int :=
  if 0x30 ≤ c ∧ c ≤ 0x39 then c.toNat - 0x30
  else if 0x61 ≤ c ∧ c ≤ 0x66 then c.toNat - 0x61 + 10
  else if 0x41 ≤ c ∧ c ≤ 0x46 then c.toNat - 0x41 + 10
  else -1

/-- `(uint8_t)((hex_zu_nibble(h1) << 4) | hex_zu_nibble(h2))` -/
def gdbErwartet (h1 h2 : Byte) : Byte :=
  ((BitVec.ofInt 32 (hexZuNibble h1) <<< 4) ||| BitVec.ofInt 32 (hexZuNibble h2)).setWidth 8

/-- The wait for the start of a packet, with what has been received; without a result more input is
needed. -/
def gdbWait : List Byte → Option (List Byte)
  | [] => none
  | c :: input => if c = gdbStart then some input else gdbWait input

/-- The loop that reads the data behind `len` bytes with the sum `ks`: the data, the sum, the last
character and the rest of the input. -/
def gdbDaten (maxlen : Nat) : (len : Nat) → (ks : Byte) → List Byte →
    Option (List Byte × Byte × Byte × List Byte)
  | _, _, [] => none
  | len, ks, c :: input =>
    if c ≠ gdbEnd ∧ len + 1 < maxlen then
      (gdbDaten maxlen (len + 1) (ks + c) input).map fun r => (c :: r.1, r.2)
    else some ([], ks, c, input)

/-- What `gdb_recv_packet` answers and returns, and the string that it leaves in `buf`. -/
structure GdbReceived where
  antwort : Byte
  result : Int
  buf : List Byte
  deriving DecidableEq

def gdbRecvPacket (maxlen : Nat) (input : List Byte) : Option GdbReceived := do
  let input ← gdbWait input
  let (buf, ks, _, input) ← gdbDaten maxlen 0 0 input
  match input with
  | h1 :: h2 :: _ =>
    if gdbErwartet h1 h2 ≠ ks then some ⟨gdbNak, -1, buf⟩
    else some ⟨gdbAck, int32 buf.length, buf⟩
  | _ => none

/-- The sum of the data that `gdb_send_packet` computes. -/
def gdbPruefsumme (daten : List Byte) : Byte := daten.foldl (· + ·) 0

/-- One round of `gdb_send_packet`. -/
def gdbFrame (daten : List Byte) : List Byte :=
  let ks := gdbPruefsumme daten
  gdbStart :: daten ++ [gdbEnd, nibbleZuHex (ks >>> 4), nibbleZuHex (ks &&& 0xF)]

/-- `gdb_send_packet` with the answers it gets: the characters it sends, if an answer is an ACK. -/
def gdbSendPacket (daten : List Byte) : List Byte → Option (List Byte)
  | [] => none
  | antwort :: antworten =>
    if antwort = gdbAck then some (gdbFrame daten)
    else (gdbSendPacket daten antworten).map (gdbFrame daten ++ ·)

/-- The input has a first packet, with this payload, whose checksum is right. -/
def IsPacket (maxlen : Nat) (input payload : List Byte) : Prop :=
  ∃ junk h1 h2 rest, input = junk ++ gdbStart :: (payload ++ gdbEnd :: h1 :: h2 :: rest) ∧
    gdbStart ∉ junk ∧ gdbEnd ∉ payload ∧ payload.length + 1 ≤ maxlen ∧
    0 ≤ hexZuNibble h1 ∧ 0 ≤ hexZuNibble h2 ∧
    hexZuNibble h1 * 16 + hexZuNibble h2 = ((payload.map BitVec.toNat).sum % 256 : Nat)

/-- `gdb_recv_packet` takes the packets and answers everything else with a NAK. -/
structure ReceivesExactly (maxlen : Nat) (input : List Byte) : Prop where
  accepts : ∀ payload, IsPacket maxlen input payload →
    gdbRecvPacket maxlen input = some ⟨gdbAck, payload.length, payload⟩
  rejects : (∀ payload, ¬ IsPacket maxlen input payload) →
    ∀ r, gdbRecvPacket maxlen input = some r → r.antwort = gdbNak ∧ r.result = -1

/-- What `gdb_send_packet` sends is taken, whatever is answered to it meanwhile. -/
def SendsPackets : Prop :=
  ∀ payload antworten sent : List Byte, payload.length ≤ 511 → 0 ∉ payload → gdbStart ∉ payload →
    gdbEnd ∉ payload → gdbSendPacket payload antworten = some sent →
      gdbRecvPacket gdbBufSize sent = some ⟨gdbAck, payload.length, payload⟩

structure GdbFraming (maxlen : Nat) (input : List Byte) : Prop where
  receives : ReceivesExactly maxlen input
  sends : SendsPackets

/-- The data up to `#`, or as far as `buf` has room, the character there, and the two behind it. -/
def Scanned (maxlen : Nat) (input data : List Byte) (c h1 h2 : Byte) : Prop :=
  ∃ junk rest, input = junk ++ gdbStart :: (data ++ c :: h1 :: h2 :: rest) ∧
    gdbStart ∉ junk ∧ gdbEnd ∉ data ∧
    (c = gdbEnd ∧ data.length + 1 ≤ maxlen ∨ c ≠ gdbEnd ∧ data.length + 1 = maxlen)

/-- The data is cut off, or a character behind `#` is no digit, and still the byte that is made of
the two characters is the sum. -/
def Misread (maxlen : Nat) (input : List Byte) : Prop :=
  ∃ data c h1 h2, Scanned maxlen input data c h1 h2 ∧
    (c ≠ gdbEnd ∨ hexZuNibble h1 < 0 ∨ hexZuNibble h2 < 0) ∧
    gdbErwartet h1 h2 = gdbPruefsumme data

variable {maxlen len : Nat} {input data payload antworten sent rest : List Byte}
  {c h1 h2 ks : Byte} {r : GdbReceived}

/-! Digits. -/

theorem hexZuNibble_range : -1 ≤ hexZuNibble c ∧ hexZuNibble c < 16 := by
  revert c
  decide

/-- Two digits make the byte that they are written for. -/
theorem gdbErwartet_digits (hhigh : 0 ≤ hexZuNibble h1) (hlow : 0 ≤ hexZuNibble h2) :
    ((gdbErwartet h1 h2).toNat : Int) = hexZuNibble h1 * 16 + hexZuNibble h2 := by
  have hbyte : ∀ a < 16, ∀ b < 16, (((BitVec.ofNat 32 a <<< 4) ||| BitVec.ofNat 32 b).setWidth 8 :
      Byte).toNat = a * 16 + b := by decide
  obtain ⟨a, ha⟩ := Int.eq_ofNat_of_zero_le hhigh
  obtain ⟨b, hb⟩ := Int.eq_ofNat_of_zero_le hlow
  have hlt := (@hexZuNibble_range h1).2
  have hlt' := (@hexZuNibble_range h2).2
  have hsum := hbyte a (by omega) b (by omega)
  unfold gdbErwartet
  rw [ha, hb, BitVec.ofInt_natCast, BitVec.ofInt_natCast, hsum]
  push_cast
  rfl

theorem pruefsumme_toNat :
    (gdbPruefsumme data).toNat = (data.map BitVec.toNat).sum % 256 := by
  have hfold : ∀ ks : Byte, (data.foldl (· + ·) ks).toNat =
      (ks.toNat + (data.map BitVec.toNat).sum) % 256 := by
    induction data with
    | nil =>
      intro ks
      have hlt := ks.isLt
      rw [List.foldl_nil, List.map_nil, List.sum_nil]
      omega
    | cons c data ih =>
      intro ks
      rw [List.foldl_cons, ih, BitVec.toNat_add, List.map_cons, List.sum_cons]
      omega
  rw [gdbPruefsumme, hfold]
  exact congrArg (· % 256) (Nat.zero_add _)

/-- For digits, the byte they make is the sum exactly when their value is. -/
theorem erwartet_iff (hhigh : 0 ≤ hexZuNibble h1) (hlow : 0 ≤ hexZuNibble h2) :
    gdbErwartet h1 h2 = gdbPruefsumme data ↔ hexZuNibble h1 * 16 + hexZuNibble h2 =
      ((data.map BitVec.toNat).sum % 256 : Nat) := by
  rw [← gdbErwartet_digits hhigh hlow, ← pruefsumme_toNat, ← BitVec.toNat_inj]
  exact Int.ofNat_inj.symm

/-- The digits that are sent for a byte. -/
theorem erwartet_nibbles : ∀ ks : Byte, 0 ≤ hexZuNibble (nibbleZuHex (ks >>> 4)) ∧
    0 ≤ hexZuNibble (nibbleZuHex (ks &&& 0xF)) ∧
      gdbErwartet (nibbleZuHex (ks >>> 4)) (nibbleZuHex (ks &&& 0xF)) = ks := by
  decide +kernel

/-! What a call has read when it compares the checksum. -/

theorem gdbWait_junk {junk : List Byte} (h : gdbStart ∉ junk) :
    gdbWait (junk ++ gdbStart :: rest) = some rest := by
  induction junk with
  | nil => exact if_pos rfl
  | cons c junk ih =>
    have hc : c ≠ gdbStart := fun heq => h (heq ▸ List.mem_cons_self)
    have hrest : gdbStart ∉ junk := fun hmem => h (List.mem_cons_of_mem c hmem)
    show (if c = gdbStart then some (junk ++ gdbStart :: rest) else _) = some rest
    rw [if_neg hc]
    exact ih hrest

theorem gdbWait_some (h : gdbWait input = some rest) :
    ∃ junk, input = junk ++ gdbStart :: rest ∧ gdbStart ∉ junk := by
  induction input with
  | nil => cases h
  | cons c input ih =>
    unfold gdbWait at h
    by_cases hc : c = gdbStart
    · rw [if_pos hc] at h
      cases h
      exact ⟨[], by rw [hc, List.nil_append], List.not_mem_nil⟩
    · rw [if_neg hc] at h
      obtain ⟨junk, rfl, hjunk⟩ := ih h
      refine ⟨c :: junk, rfl, fun hmem => ?_⟩
      rcases List.mem_cons.mp hmem with heq | hmem
      · exact hc heq.symm
      · exact hjunk hmem

/-- Where the loop stops behind `len` bytes. -/
def StopsAt (maxlen len : Nat) (data : List Byte) (c : Byte) : Prop :=
  gdbEnd ∉ data ∧ (c = gdbEnd ∧ len + data.length + 1 ≤ maxlen ∨
    c ≠ gdbEnd ∧ len + data.length + 1 = maxlen)

theorem gdbDaten_stops (h : StopsAt maxlen len data c) :
    gdbDaten maxlen len ks (data ++ c :: rest) =
      some (data, data.foldl (· + ·) ks, c, rest) := by
  obtain ⟨hmem, hlast⟩ := h
  induction data generalizing len ks with
  | nil =>
    have hstop : ¬ (c ≠ gdbEnd ∧ len + 1 < maxlen) := by
      rintro ⟨hc, hlt⟩
      rcases hlast with ⟨heq, -⟩ | ⟨-, hlen⟩
      · exact hc heq
      · rw [List.length_nil] at hlen
        omega
    exact if_neg hstop
  | cons x data ih =>
    rw [List.length_cons] at hlast
    have hx : x ≠ gdbEnd := fun heq => hmem (heq ▸ List.mem_cons_self)
    have hdata : gdbEnd ∉ data := fun hin => hmem (List.mem_cons_of_mem x hin)
    have hgo : x ≠ gdbEnd ∧ len + 1 < maxlen := by
      refine ⟨hx, ?_⟩
      rcases hlast with ⟨-, hlen⟩ | ⟨-, hlen⟩
      · omega
      · omega
    have hnext : c = gdbEnd ∧ len + 1 + data.length + 1 ≤ maxlen ∨
        c ≠ gdbEnd ∧ len + 1 + data.length + 1 = maxlen := by
      rcases hlast with ⟨hc, hlen⟩ | ⟨hc, hlen⟩
      · exact Or.inl ⟨hc, by omega⟩
      · exact Or.inr ⟨hc, by omega⟩
    rw [List.cons_append, gdbDaten, if_pos hgo, ih hdata hnext]
    rfl

theorem gdbDaten_some {d : List Byte × Byte × Byte × List Byte} (hlen : len + 1 ≤ maxlen)
    (h : gdbDaten maxlen len ks input = some d) :
    ∃ data c rest, input = data ++ c :: rest ∧ StopsAt maxlen len data c := by
  induction input generalizing len ks d with
  | nil => cases h
  | cons x input ih =>
    unfold gdbDaten at h
    by_cases hgo : x ≠ gdbEnd ∧ len + 1 < maxlen
    · rw [if_pos hgo] at h
      obtain ⟨d', hd', -⟩ := Option.map_eq_some_iff.mp h
      obtain ⟨data, c, rest, rfl, hmem, hlast⟩ := ih (by omega) hd'
      refine ⟨x :: data, c, rest, rfl, ?_, ?_⟩
      · intro hin
        rcases List.mem_cons.mp hin with heq | hin
        · exact hgo.1 heq.symm
        · exact hmem hin
      · rw [List.length_cons]
        rcases hlast with ⟨hc, hfits⟩ | ⟨hc, hfits⟩
        · exact Or.inl ⟨hc, by omega⟩
        · exact Or.inr ⟨hc, by omega⟩
    · refine ⟨[], x, input, rfl, List.not_mem_nil, ?_⟩
      rw [List.length_nil]
      by_cases hx : x = gdbEnd
      · exact Or.inl ⟨hx, hlen⟩
      · have hfull : ¬ len + 1 < maxlen := fun hlt => hgo ⟨hx, hlt⟩
        exact Or.inr ⟨hx, by omega⟩

/-- What a call makes of the data and the two characters. -/
def gdbAnswer (data : List Byte) (h1 h2 : Byte) : GdbReceived :=
  if gdbErwartet h1 h2 ≠ gdbPruefsumme data then ⟨gdbNak, -1, data⟩
  else ⟨gdbAck, int32 data.length, data⟩

theorem Scanned.recv (h : Scanned maxlen input data c h1 h2) :
    gdbRecvPacket maxlen input = some (gdbAnswer data h1 h2) := by
  obtain ⟨junk, rest, rfl, hjunk, hmem, hlast⟩ := h
  have hstops : StopsAt maxlen 0 data c := by
    refine ⟨hmem, ?_⟩
    rw [Nat.zero_add]
    exact hlast
  unfold gdbRecvPacket gdbAnswer
  rw [gdbWait_junk hjunk, Option.bind_eq_bind, Option.bind_some, gdbDaten_stops hstops]
  dsimp only [Option.bind_eq_bind, Option.bind_some]
  unfold gdbPruefsumme
  split <;> rfl

theorem scanned_of_recv (hpos : 0 < maxlen) (h : gdbRecvPacket maxlen input = some r) :
    ∃ data c h1 h2, Scanned maxlen input data c h1 h2 := by
  unfold gdbRecvPacket at h
  obtain ⟨behind, hwait, h⟩ := Option.bind_eq_some_iff.mp h
  obtain ⟨d, hdaten, h⟩ := Option.bind_eq_some_iff.mp h
  obtain ⟨junk, rfl, hjunk⟩ := gdbWait_some hwait
  obtain ⟨data, c, rest, rfl, hstops⟩ := gdbDaten_some hpos hdaten
  rw [gdbDaten_stops hstops] at hdaten
  cases hdaten
  dsimp only at h
  obtain ⟨hmem, hlast⟩ := hstops
  rw [Nat.zero_add] at hlast
  match rest with
  | [] => cases h
  | [_] => cases h
  | h1 :: h2 :: rest => exact ⟨data, c, h1, h2, junk, rest, rfl, hjunk, hmem, hlast⟩

theorem Scanned.length (h : Scanned maxlen input data c h1 h2) : data.length + 1 ≤ maxlen := by
  obtain ⟨-, -, -, -, -, ⟨-, hlen⟩ | ⟨-, hlen⟩⟩ := h
  · exact hlen
  · exact Nat.le_of_eq hlen

/-- An input is scanned in one way. -/
theorem Scanned.unique {data' : List Byte} {c' h1' h2' : Byte}
    (h : Scanned maxlen input data c h1 h2) (h' : Scanned maxlen input data' c' h1' h2') :
    data = data' ∧ c = c' ∧ h1 = h1' ∧ h2 = h2' := by
  obtain ⟨junk, rest, hinput, hjunk, hmem, hlast⟩ := h
  obtain ⟨junk', rest', hinput', hjunk', hmem', hlast'⟩ := h'
  have hwait : gdbWait (junk ++ gdbStart :: (data ++ c :: h1 :: h2 :: rest)) =
      some (data ++ c :: h1 :: h2 :: rest) := gdbWait_junk hjunk
  rw [← hinput, hinput', gdbWait_junk hjunk'] at hwait
  have hbehind := Option.some.inj hwait
  have hstops : StopsAt maxlen 0 data c := ⟨hmem, by rwa [Nat.zero_add]⟩
  have hstops' : StopsAt maxlen 0 data' c' := ⟨hmem', by rwa [Nat.zero_add]⟩
  have hdaten : gdbDaten maxlen 0 0 (data ++ c :: h1 :: h2 :: rest) =
      some (data, data.foldl (· + ·) 0, c, h1 :: h2 :: rest) := gdbDaten_stops hstops
  rw [← hbehind, gdbDaten_stops hstops'] at hdaten
  obtain ⟨hdata, -, hc, hrest⟩ : data' = data ∧ _ ∧ c' = c ∧ h1' :: h2' :: rest' = h1 :: h2 :: rest := by
    simpa using hdaten
  obtain ⟨hh1, htail⟩ := List.cons.inj hrest
  exact ⟨hdata.symm, hc.symm, hh1.symm, (List.cons.inj htail).1.symm⟩

/-- A packet is what is scanned up to `#`, with digits that make the sum. -/
theorem isPacket_iff : IsPacket maxlen input payload ↔ ∃ h1 h2,
    Scanned maxlen input payload gdbEnd h1 h2 ∧ 0 ≤ hexZuNibble h1 ∧ 0 ≤ hexZuNibble h2 ∧
      gdbErwartet h1 h2 = gdbPruefsumme payload := by
  constructor
  · rintro ⟨junk, h1, h2, rest, hinput, hjunk, hmem, hlen, hhigh, hlow, hsum⟩
    exact ⟨h1, h2, ⟨junk, rest, hinput, hjunk, hmem, Or.inl ⟨rfl, hlen⟩⟩, hhigh, hlow,
      (erwartet_iff hhigh hlow).mpr hsum⟩
  · rintro ⟨h1, h2, hscan, hhigh, hlow, hsum⟩
    have hlen := hscan.length
    obtain ⟨junk, rest, hinput, hjunk, hmem, -⟩ := hscan
    exact ⟨junk, h1, h2, rest, hinput, hjunk, hmem, hlen, hhigh, hlow,
      (erwartet_iff hhigh hlow).mp hsum⟩

theorem gdbAnswer_ack (hsum : gdbErwartet h1 h2 = gdbPruefsumme data)
    (hlen : data.length < 2 ^ 31) : gdbAnswer data h1 h2 = ⟨gdbAck, data.length, data⟩ := by
  unfold gdbAnswer
  rw [if_neg (fun hne => hne hsum), Mm.int32_of_lt hlen]

/-- The calls are exact just for the inputs that are not misread. -/
theorem receivesExactly_iff (hpos : 0 < maxlen) (hmax : maxlen ≤ 2 ^ 31) :
    ReceivesExactly maxlen input ↔ ¬ Misread maxlen input := by
  constructor
  · rintro h ⟨data, c, h1, h2, hscan, hbad, hsum⟩
    have hlen := hscan.length
    have hrecv := hscan.recv
    rw [gdbAnswer_ack hsum (by omega)] at hrecv
    have hnone : ∀ payload, ¬ IsPacket maxlen input payload := by
      intro payload hpacket
      obtain ⟨h1', h2', hscan', hhigh, hlow, -⟩ := isPacket_iff.mp hpacket
      obtain ⟨-, rfl, rfl, rfl⟩ := hscan.unique hscan'
      rcases hbad with hc | hneg | hneg
      · exact hc rfl
      · omega
      · omega
    have hack : gdbAck ≠ gdbNak := by decide
    exact hack (h.rejects hnone _ hrecv).1
  · intro hright
    constructor
    case accepts =>
      intro payload hpacket
      obtain ⟨h1, h2, hscan, -, -, hsum⟩ := isPacket_iff.mp hpacket
      have hlen := hscan.length
      rw [hscan.recv, gdbAnswer_ack hsum (by omega)]
    case rejects =>
      intro hnone r hr
      obtain ⟨data, c, h1, h2, hscan⟩ := scanned_of_recv hpos hr
      rw [hscan.recv] at hr
      cases hr
      by_cases hsum : gdbErwartet h1 h2 = gdbPruefsumme data
      · exfalso
        by_cases hbad : c ≠ gdbEnd ∨ hexZuNibble h1 < 0 ∨ hexZuNibble h2 < 0
        · exact hright ⟨data, c, h1, h2, hscan, hbad, hsum⟩
        · simp only [not_or, ne_eq, Decidable.not_not, Int.not_lt] at hbad
          obtain ⟨rfl, hhigh, hlow⟩ := hbad
          exact hnone data (isPacket_iff.mpr ⟨h1, h2, hscan, hhigh, hlow, hsum⟩)
      · unfold gdbAnswer
        rw [if_pos hsum]
        exact ⟨rfl, rfl⟩

/-! What is sent. -/

theorem gdbSendPacket_some (h : gdbSendPacket payload antworten = some sent) :
    ∃ more, sent = gdbFrame payload ++ more := by
  cases antworten with
  | nil => cases h
  | cons antwort antworten =>
    unfold gdbSendPacket at h
    by_cases hack : antwort = gdbAck
    · rw [if_pos hack] at h
      cases h
      exact ⟨[], (List.append_nil _).symm⟩
    · rw [if_neg hack] at h
      obtain ⟨more, -, rfl⟩ := Option.map_eq_some_iff.mp h
      exact ⟨more, rfl⟩

theorem sendsPackets : SendsPackets := by
  intro payload antworten sent hlen _ _ hmem hsend
  obtain ⟨more, rfl⟩ := gdbSendPacket_some hsend
  obtain ⟨-, -, hsum⟩ := erwartet_nibbles (gdbPruefsumme payload)
  have hscan : Scanned gdbBufSize (gdbFrame payload ++ more) payload gdbEnd
      (nibbleZuHex (gdbPruefsumme payload >>> 4)) (nibbleZuHex (gdbPruefsumme payload &&& 0xF)) := by
    refine ⟨[], more, ?_, List.not_mem_nil, hmem, Or.inl ⟨rfl, Nat.succ_le_succ hlen⟩⟩
    unfold gdbFrame
    simp only [List.cons_append, List.append_assoc, List.nil_append]
  rw [hscan.recv, gdbAnswer_ack hsum (by omega)]

/-- The framing is exact just for the inputs that are not misread. -/
theorem gdbFraming_iff (hpos : 0 < maxlen) (hmax : maxlen ≤ 2 ^ 31) :
    GdbFraming maxlen input ↔ ¬ Misread maxlen input := by
  rw [← receivesExactly_iff hpos hmax]
  exact ⟨GdbFraming.receives, fun h => ⟨h, sendsPackets⟩⟩

/-- `$g#67`, the packet that asks for the registers -/
theorem gdbFraming_registers : GdbFraming gdbBufSize [0x24, 0x67, 0x23, 0x36, 0x37] ↔
    ¬ Misread gdbBufSize [0x24, 0x67, 0x23, 0x36, 0x37] :=
  gdbFraming_iff (by decide) (by decide)

/-- The data is one byte 0xFF, and its checksum two characters that are no digits. -/
theorem not_gdbFraming_digits : ¬ ∀ input, GdbFraming gdbBufSize input := by
  intro hall
  refine (receivesExactly_iff (by decide) (by decide)).mp
    (hall [0x24, 0xFF, 0x23, 0x7A, 0x7A]).receives
    ⟨[0xFF], gdbEnd, 0x7A, 0x7A, ⟨[], [], rfl, ?_, ?_, Or.inl ⟨rfl, ?_⟩⟩, Or.inr (Or.inl ?_), ?_⟩
  · decide
  · decide
  · decide
  · decide
  · decide

end PinguinOS.Debug
