import Mathlib.Data.List.TakeWhile
import PinguinOS.Debug.Gdbstub
import PinguinOS.Klib.Numbers

/-! A session of the GDB stub: what a debugger asks over a serial line that damages packets. -/
namespace PinguinOS.Debug

open Mm (int32)
open Klib (ch cString strtoul)

/-- `cpu_regs_t`, as far as the stub reads and writes it. -/
structure GdbRegs where
  eax : BitVec 32
  ecx : BitVec 32
  edx : BitVec 32
  ebx : BitVec 32
  esp : BitVec 32
  ebp : BitVec 32
  esi : BitVec 32
  edi : BitVec 32
  eip : BitVec 32
  eflags : BitVec 32
  deriving DecidableEq

/-- `1u << 8` -/
def trapBit : BitVec 32 := 0x100

/-- Two digits for a byte. -/
def hexByte (b : Byte) : List Byte := [nibbleZuHex (b >>> 4), nibbleZuHex (b &&& 0xF)]

/-- The bytes of a value, the lowest first. -/
def leBytes (val : BitVec 32) : List Byte := (List.range 4).map fun i => (val >>> (i * 8)).setWidth 8

/-- `u32_le_hex` -/
def u32LeHex (val : BitVec 32) : List Byte := (leBytes val).flatMap hexByte

/-- The static variables of the stub. -/
structure GdbState where
  aktiv : Bool
  haltRegs : Option GdbRegs
  haltSignal : Byte
  deriving DecidableEq

/-- `"S%02x"` -/
def haltText (signal : Byte) : List Byte := ch 'S' :: hexByte signal

/-- `case 'g'` -/
def registerText (r : GdbRegs) : List Byte :=
  u32LeHex r.eax ++ u32LeHex r.ecx ++ u32LeHex r.edx ++ u32LeHex r.ebx ++ u32LeHex r.esp ++
    u32LeHex r.ebp ++ u32LeHex r.esi ++ u32LeHex r.edi ++ u32LeHex r.eip ++ u32LeHex r.eflags

def text (s : String) : List Byte := s.toList.map ch

/-- `case 'm'`, with the string behind the letter. -/
def memoryText (mem : BitVec 32 → Byte) (str : List Byte) : List Byte :=
  match str.dropWhile fun c => c ≠ ch ',' with
  | [] => text "E01"
  | _ :: komma =>
    let addr := (strtoul str 16).1
    let len := (strtoul komma 16).1.toNat
    let len := if len > 128 then 128 else len
    (List.range len).flatMap fun i => hexByte (mem (addr + BitVec.ofNat 32 i))

/-- `case 'q'` -/
def queryText (str : List Byte) : List Byte :=
  if (text "Supported").isPrefixOf str then text "PacketSize=200"
  else if (text "Attached").isPrefixOf str then text "1"
  else []

/-- The `switch` over a packet: the answer, and what it changes. -/
def gdbAntwort (mem : BitVec 32 → Byte) (s : GdbState) (paket : List Byte) : List Byte × GdbState :=
  let str := cString paket.tail
  let befehl := paket.headD 0
  if befehl = ch '?' then (haltText s.haltSignal, s)
  else if befehl = ch 'g' then
    (match s.haltRegs with
      | some r => registerText r
      | none => text "00000000", s)
  else if befehl = ch 'm' then (memoryText mem str, s)
  else if befehl = ch 'c' then (text "OK", { s with aktiv := false })
  else if befehl = ch 's' then
    (text "OK", { s with
      aktiv := false
      haltRegs := s.haltRegs.map fun r => { r with eflags := r.eflags ||| trapBit } })
  else if befehl = ch 'q' then (queryText str, s)
  else ([], s)

/-- `gdb_recv_packet`, with the input that it leaves. -/
def gdbRecvRest (maxlen : Nat) (input : List Byte) : Option (GdbReceived × List Byte) := do
  let input ← gdbWait input
  let (buf, ks, _, input) ← gdbDaten maxlen 0 0 input
  match input with
  | h1 :: h2 :: rest =>
    if gdbErwartet h1 h2 ≠ ks then some (⟨gdbNak, -1, buf⟩, rest)
    else some (⟨gdbAck, int32 buf.length, buf⟩, rest)
  | _ => none

/-- `gdb_send_packet`, with the input that it leaves. -/
def gdbSendRest (daten : List Byte) : List Byte → Option (List Byte × List Byte)
  | [] => none
  | antwort :: input =>
    if antwort = gdbAck then some (gdbFrame daten, input)
    else (gdbSendRest daten input).map fun sent => (gdbFrame daten ++ sent.1, sent.2)

/-- One round of the loop: the state, the characters that it sends and the input that it leaves. -/
def gdbRunde (mem : BitVec 32 → Byte) (s : GdbState) (input : List Byte) :
    Option (GdbState × List Byte × List Byte) := do
  let (r, input) ← gdbRecvRest gdbBufSize input
  if r.result < 0 then some (s, [r.antwort], input)
  else
    let antwort := gdbAntwort mem s r.buf
    let (sent, input) ← gdbSendRest antwort.1 input
    some (antwort.2, r.antwort :: sent, input)

/-- The loop of `gdb_schleife`. -/
def gdbRunden (mem : BitVec 32 → Byte) : (rounds : Nat) → GdbState → List Byte →
    Option (GdbState × List Byte × List Byte)
  | 0, _, _ => none
  | rounds + 1, s, input =>
    if s.aktiv = false then some (s, [], input)
    else do
      let (s, sent, input) ← gdbRunde mem s input
      let (s, more, input) ← gdbRunden mem rounds s input
      some (s, sent ++ more, input)

/-- `gdb_schleife`; each round takes a character at least. -/
def gdbSchleife (mem : BitVec 32 → Byte) (s : GdbState) (input : List Byte) :
    Option (GdbState × List Byte × List Byte) := do
  let s := { s with aktiv := true }
  let (sent, input) ← gdbSendRest (haltText s.haltSignal) input
  let (s, more, input) ← gdbRunden mem (input.length + 1) s input
  some (s, sent ++ more, input)

/-- `gdb_int3_handler` -/
def gdbInt3Handler (mem : BitVec 32 → Byte) (s : GdbState) (regs : GdbRegs) (input : List Byte) :
    Option (GdbState × List Byte × List Byte) :=
  gdbSchleife mem { s with haltRegs := some regs, haltSignal := 5 } input

/-- `gdb_debug_handler` -/
def gdbDebugHandler (mem : BitVec 32 → Byte) (s : GdbState) (regs : GdbRegs) (input : List Byte) :
    Option (GdbState × List Byte × List Byte) :=
  gdbSchleife mem
    { s with haltRegs := some { regs with eflags := regs.eflags &&& ~~~trapBit }, haltSignal := 5 }
    input

/-! The debugger. -/

/-- `mADDR,LENGTH` -/
def memoryRequest (addr len : BitVec 32) : List Byte :=
  ch 'm' :: (Klib.numeral false 16 addr.toNat ++ ch ',' :: Klib.numeral false 16 len.toNat)

/-- The bytes that pairs of digits are written for. -/
def readHex : List Byte → Option (List Byte)
  | [] => some []
  | h1 :: h2 :: rest =>
    if 0 ≤ hexZuNibble h1 ∧ 0 ≤ hexZuNibble h2 then
      (readHex rest).map fun bytes => gdbErwartet h1 h2 :: bytes
    else none
  | [_] => none

/-- The values that groups of four bytes are, the lowest byte first. -/
def readWords : List Byte → List (BitVec 32)
  | b0 :: b1 :: b2 :: b3 :: rest =>
    BitVec.ofNat 32 (b0.toNat + 256 * (b1.toNat + 256 * (b2.toNat + 256 * b3.toNat))) ::
      readWords rest
  | _ => []

/-- A packet that arrives damaged: it ends like one, and its sum is wrong. -/
def Damaged (bytes : List Byte) : Prop :=
  ∃ junk data c h1 h2, bytes = junk ++ gdbStart :: (data ++ [c, h1, h2]) ∧ gdbStart ∉ junk ∧
    StopsAt gdbBufSize 0 data c ∧ gdbErwartet h1 h2 ≠ gdbPruefsumme data

/-- What the debugger sends for one packet: damaged copies, each of which it repeats, the packet
behind characters that start none, and its answers to the reply. -/
structure Exchange where
  payload : List Byte
  damaged : List (List Byte)
  junk : List Byte
  refused : List Byte

structure Exchange.Wf (e : Exchange) : Prop where
  payload : gdbEnd ∉ e.payload
  fits : e.payload.length < gdbBufSize
  damaged : ∀ bytes ∈ e.damaged, Damaged bytes
  junk : gdbStart ∉ e.junk
  refused : gdbAck ∉ e.refused

def Exchange.input (e : Exchange) : List Byte :=
  e.damaged.flatten ++ (e.junk ++ gdbFrame e.payload ++ (e.refused ++ [gdbAck]))

/-- A reply, as often as it is sent. -/
def resent (refused reply : List Byte) : List Byte :=
  (List.replicate (refused.length + 1) (gdbFrame reply)).flatten

/-- A NAK for each damaged copy, an ACK for the packet, and the reply. -/
def Exchange.output (e : Exchange) (reply : List Byte) : List Byte :=
  List.replicate e.damaged.length gdbNak ++ gdbAck :: resent e.refused reply

/-- The packet lets the program run on. -/
def Resumes (payload : List Byte) : Prop := payload.headD 0 = ch 'c' ∨ payload.headD 0 = ch 's'

/-- `TF` after the packet: a step sets it. -/
def resume (r : GdbRegs) (payload : List Byte) : GdbRegs :=
  if payload.headD 0 = ch 's' then { r with eflags := r.eflags ||| trapBit } else r

variable {mem : BitVec 32 → Byte} {s t : GdbState} {r : GdbRegs} {e last : Exchange}
  {es : List Exchange} {input rest data payload refused bytes str : List Byte} {c h1 h2 b : Byte}
  {n maxlen : Nat} {addr len val : BitVec 32}

/-! One packet. -/

/-- The rest of the input is all that `gdb_recv_packet` adds to its result. -/
theorem gdbRecvRest_fst : (gdbRecvRest maxlen input).map Prod.fst = gdbRecvPacket maxlen input := by
  unfold gdbRecvRest gdbRecvPacket
  cases gdbWait input with
  | none => rfl
  | some input =>
    simp only [Option.bind_eq_bind, Option.bind_some]
    cases gdbDaten maxlen 0 0 input with
    | none => rfl
    | some d =>
      obtain ⟨buf, ks, c, behind⟩ := d
      simp only [Option.bind_some]
      rcases behind with _ | ⟨h1, _ | ⟨h2, rest⟩⟩
      · rfl
      · rfl
      · dsimp only
        split <;> rfl

theorem gdbRecvRest_stops {junk : List Byte} (hjunk : gdbStart ∉ junk)
    (hstops : StopsAt maxlen 0 data c) :
    gdbRecvRest maxlen (junk ++ gdbStart :: (data ++ c :: h1 :: h2 :: rest)) =
      some (gdbAnswer data h1 h2, rest) := by
  unfold gdbRecvRest gdbAnswer
  rw [gdbWait_junk hjunk, Option.bind_eq_bind, Option.bind_some, gdbDaten_stops hstops]
  dsimp only [Option.bind_eq_bind, Option.bind_some]
  unfold gdbPruefsumme
  split <;> rfl

theorem gdbSendRest_refused (h : gdbAck ∉ refused) :
    gdbSendRest data (refused ++ gdbAck :: rest) = some (resent refused data, rest) := by
  induction refused with
  | nil =>
    have hack : gdbSendRest data (gdbAck :: rest) = some (gdbFrame data, rest) := if_pos rfl
    rw [List.nil_append, hack]
    unfold resent
    rw [List.length_nil, List.replicate_one, List.flatten_singleton]
  | cons antwort refused ih =>
    have hne : antwort ≠ gdbAck := fun heq => h (heq ▸ List.mem_cons_self)
    have hrest := ih fun hmem => h (List.mem_cons_of_mem antwort hmem)
    rw [List.cons_append, gdbSendRest, if_neg hne, hrest]
    unfold resent
    rw [List.length_cons, List.replicate_succ, List.flatten_cons]
    rfl

theorem gdbRunde_damaged (h : Damaged bytes) :
    gdbRunde mem s (bytes ++ rest) = some (s, [gdbNak], rest) := by
  obtain ⟨junk, data, c, h1, h2, rfl, hjunk, hstops, hsum⟩ := h
  have hrecv := @gdbRecvRest_stops rest data c h1 h2 _ _ hjunk hstops
  have hanswer : gdbAnswer data h1 h2 = ⟨gdbNak, -1, data⟩ := if_pos hsum
  have hinput : junk ++ gdbStart :: (data ++ [c, h1, h2]) ++ rest =
      junk ++ gdbStart :: (data ++ c :: h1 :: h2 :: rest) := by
    simp only [List.append_assoc, List.cons_append, List.nil_append]
  unfold gdbRunde
  rw [hinput, hrecv, hanswer]
  rfl

theorem gdbRunde_packet {junk : List Byte} (hjunk : gdbStart ∉ junk) (hend : gdbEnd ∉ payload)
    (hfits : payload.length < gdbBufSize) (hrefused : gdbAck ∉ refused) :
    gdbRunde mem s (junk ++ gdbFrame payload ++ (refused ++ gdbAck :: rest)) =
      some ((gdbAntwort mem s payload).2,
        gdbAck :: resent refused (gdbAntwort mem s payload).1, rest) := by
  obtain ⟨-, -, hsum⟩ := erwartet_nibbles (gdbPruefsumme payload)
  have hstops : StopsAt gdbBufSize 0 payload gdbEnd := ⟨hend, .inl ⟨rfl, by omega⟩⟩
  have hrecv := @gdbRecvRest_stops (refused ++ gdbAck :: rest) payload gdbEnd
    (nibbleZuHex (gdbPruefsumme payload >>> 4)) (nibbleZuHex (gdbPruefsumme payload &&& 0xF)) _ _
    hjunk hstops
  have hlen : payload.length < 2 ^ 31 := hfits.trans (by decide)
  have hinput : junk ++ gdbFrame payload ++ (refused ++ gdbAck :: rest) =
      junk ++ gdbStart :: (payload ++ gdbEnd :: nibbleZuHex (gdbPruefsumme payload >>> 4) ::
        nibbleZuHex (gdbPruefsumme payload &&& 0xF) :: (refused ++ gdbAck :: rest)) := by
    unfold gdbFrame
    simp only [List.append_assoc, List.cons_append, List.nil_append]
  have hresult : ¬ ((payload.length : Int) < 0) := by omega
  unfold gdbRunde
  rw [hinput, hrecv, gdbAnswer_ack hsum hlen, Option.bind_eq_bind, Option.bind_some]
  dsimp only
  rw [if_neg hresult, gdbSendRest_refused hrefused]
  rfl

/-! A session. -/

theorem resume_continue (h : payload.headD 0 = ch 'c') : (fun r => resume r payload) = id := by
  funext r
  exact if_neg (by rw [h]; decide)

theorem resume_step (h : payload.headD 0 = ch 's') : (fun r => resume r payload) =
    fun r => { r with eflags := r.eflags ||| trapBit } := by
  funext r
  exact if_pos h

theorem antwort_resumes (h : Resumes payload) : (gdbAntwort mem s payload).2 =
    { s with aktiv := false, haltRegs := s.haltRegs.map fun r => resume r payload } := by
  unfold gdbAntwort
  rcases h with hc | hs
  · rw [resume_continue hc, Option.map_id, hc, if_neg (by decide), if_neg (by decide),
      if_neg (by decide), if_pos rfl]
    rfl
  · rw [resume_step hs, hs, if_neg (by decide), if_neg (by decide), if_neg (by decide),
      if_neg (by decide), if_pos rfl]

/-- Any other packet only asks. -/
theorem antwort_asks (h : ¬ Resumes payload) : (gdbAntwort mem s payload).2 = s := by
  obtain ⟨hc, hs⟩ := not_or.mp h
  unfold gdbAntwort
  dsimp only
  rw [if_neg hc, if_neg hs]
  split
  · rfl
  split
  · rfl
  split
  · rfl
  split <;> rfl

/-- One round of a loop that goes on. -/
theorem gdbRunden_succ {sent : List Byte} (hs : s.aktiv = true)
    (h : gdbRunde mem s input = some (t, sent, rest)) : gdbRunden mem (n + 1) s input =
      (gdbRunden mem n t rest).map fun r => (r.1, sent ++ r.2.1, r.2.2) := by
  have hgo : ¬ s.aktiv = false := by
    rw [hs]
    decide
  rw [gdbRunden, if_neg hgo, h]
  simp only [Option.bind_eq_bind, Option.bind_some]
  cases gdbRunden mem n t rest with
  | none => rfl
  | some r => rfl

theorem gdbRunden_damaged (hs : s.aktiv = true) {damaged : List (List Byte)}
    (h : ∀ bytes ∈ damaged, Damaged bytes) :
    gdbRunden mem (damaged.length + n) s (damaged.flatten ++ rest) =
      (gdbRunden mem n s rest).map fun r =>
        (r.1, List.replicate damaged.length gdbNak ++ r.2.1, r.2.2) := by
  induction damaged with
  | nil =>
    rw [List.length_nil, Nat.zero_add, List.flatten_nil, List.nil_append]
    exact Option.map_id'.symm
  | cons bytes damaged ih =>
    have hround := @gdbRunde_damaged mem s (damaged.flatten ++ rest) bytes
      (h bytes List.mem_cons_self)
    have hlen : (bytes :: damaged).length + n = damaged.length + n + 1 := by
      rw [List.length_cons]
      omega
    rw [hlen, List.flatten_cons, List.append_assoc, gdbRunden_succ hs hround,
      ih fun b hb => h b (List.mem_cons_of_mem bytes hb), Option.map_map]
    rfl

/-- The rounds of an exchange: the stub answers each transmission, and obeys the packet once. -/
theorem gdbRunden_exchange (hs : s.aktiv = true) (he : e.Wf) :
    gdbRunden mem (e.damaged.length + 1 + n) s (e.input ++ rest) =
      (gdbRunden mem n (gdbAntwort mem s e.payload).2 rest).map fun r =>
        (r.1, e.output (gdbAntwort mem s e.payload).1 ++ r.2.1, r.2.2) := by
  have hpacket := @gdbRunde_packet mem s rest _ _ _ he.junk he.payload he.fits he.refused
  have hinput : e.input ++ rest = e.damaged.flatten ++
      (e.junk ++ gdbFrame e.payload ++ (e.refused ++ gdbAck :: rest)) := by
    unfold Exchange.input
    simp only [List.append_assoc, List.cons_append, List.nil_append]
  rw [hinput, Nat.add_assoc, Nat.add_comm 1 n, gdbRunden_damaged hs he.damaged,
    gdbRunden_succ hs hpacket, Option.map_map]
  unfold Exchange.output
  congr 1
  funext r
  simp only [Function.comp_apply, List.append_assoc, List.cons_append]

/-- The number of transmissions. -/
def rounds (es : List Exchange) : Nat := (es.map fun e => e.damaged.length + 1).sum

theorem length_damaged_le {damaged : List (List Byte)} (h : ∀ bytes ∈ damaged, Damaged bytes) :
    damaged.length ≤ damaged.flatten.length := by
  induction damaged with
  | nil => exact Nat.zero_le _
  | cons bytes damaged ih =>
    obtain ⟨junk, data, c, h1, h2, rfl, -⟩ := h bytes List.mem_cons_self
    have hrest := ih fun b hb => h b (List.mem_cons_of_mem _ hb)
    rw [List.flatten_cons, List.length_append, List.length_append, List.length_cons,
      List.length_cons]
    omega

theorem Exchange.Wf.rounds_le (h : e.Wf) : e.damaged.length + 1 ≤ e.input.length := by
  have hdamaged := length_damaged_le h.damaged
  unfold Exchange.input
  simp only [List.length_append, List.length_cons]
  omega

theorem rounds_le (h : ∀ e ∈ es, e.Wf) : rounds es ≤ (es.flatMap Exchange.input).length := by
  induction es with
  | nil => exact Nat.zero_le _
  | cons e es ih =>
    have hhead := (h e List.mem_cons_self).rounds_le
    have htail := ih fun e' he' => h e' (List.mem_cons_of_mem e he')
    unfold rounds at htail ⊢
    rw [List.map_cons, List.sum_cons, List.flatMap_cons, List.length_append]
    omega

theorem gdbRunden_asks (hs : s.aktiv = true) (hwf : ∀ e ∈ es, e.Wf)
    (hasks : ∀ e ∈ es, ¬ Resumes e.payload) :
    gdbRunden mem (rounds es + n) s (es.flatMap Exchange.input ++ rest) =
      (gdbRunden mem n s rest).map fun r =>
        (r.1, (es.flatMap fun e => e.output (gdbAntwort mem s e.payload).1) ++ r.2.1, r.2.2) := by
  induction es with
  | nil =>
    unfold rounds
    rw [List.map_nil, List.sum_nil, Nat.zero_add, List.flatMap_nil, List.nil_append]
    exact Option.map_id'.symm
  | cons e es ih =>
    have hrest := ih (fun e' he' => hwf e' (List.mem_cons_of_mem e he'))
      fun e' he' => hasks e' (List.mem_cons_of_mem e he')
    have hsame := @antwort_asks mem s _ (hasks e List.mem_cons_self)
    have hrounds : rounds (e :: es) + n = e.damaged.length + 1 + (rounds es + n) := by
      unfold rounds
      rw [List.map_cons, List.sum_cons]
      omega
    rw [hrounds, List.flatMap_cons, List.append_assoc,
      gdbRunden_exchange hs (hwf e List.mem_cons_self), hsame, hrest, Option.map_map]
    congr 1
    funext r
    simp only [Function.comp_apply, List.flatMap_cons, List.append_assoc]

/-- A packet that lets the program run on ends the loop, and the input behind it is not read. -/
theorem gdbRunden_resumes (hs : s.aktiv = true) (hlast : last.Wf) (hresumes : Resumes last.payload) :
    gdbRunden mem (last.damaged.length + 1 + (n + 1)) s (last.input ++ rest) =
      some ({ s with aktiv := false, haltRegs := s.haltRegs.map fun r => resume r last.payload },
        last.output (gdbAntwort mem s last.payload).1, rest) := by
  have hstate := @antwort_resumes mem s _ hresumes
  have hstop : ∀ t : GdbState, t.aktiv = false → gdbRunden mem (n + 1) t rest = some (t, [], rest) :=
    fun t ht => if_pos ht
  rw [gdbRunden_exchange hs hlast, hstate, hstop _ rfl, Option.map_some, List.append_nil]

/-- All packets that only ask, and then one that ends the session. -/
theorem gdbSchleife_session (hrefused : gdbAck ∉ refused) (hwf : ∀ e ∈ es, e.Wf) (hlast : last.Wf)
    (hasks : ∀ e ∈ es, ¬ Resumes e.payload) (hresumes : Resumes last.payload) :
    gdbSchleife mem s
        (refused ++ gdbAck :: (es.flatMap Exchange.input ++ (last.input ++ rest))) =
      some ({ s with aktiv := false, haltRegs := s.haltRegs.map fun r => resume r last.payload },
        resent refused (haltText s.haltSignal) ++ (es ++ [last]).flatMap fun e =>
          e.output (gdbAntwort mem { s with aktiv := true } e.payload).1, rest) := by
  obtain ⟨n, hn⟩ : ∃ n, (es.flatMap Exchange.input ++ (last.input ++ rest)).length + 1 =
      rounds es + (last.damaged.length + 1 + (n + 1)) := by
    have hes := rounds_le hwf
    have hend := hlast.rounds_le
    rw [List.length_append, List.length_append]
    refine ⟨(es.flatMap Exchange.input).length + (last.input.length + rest.length) -
      (rounds es + (last.damaged.length + 1)), ?_⟩
    omega
  unfold gdbSchleife
  dsimp only
  rw [gdbSendRest_refused hrefused, Option.bind_eq_bind, Option.bind_some]
  dsimp only
  rw [hn, gdbRunden_asks rfl hwf hasks, gdbRunden_resumes rfl hlast hresumes]
  simp only [Option.map_some, List.flatMap_append, List.flatMap_cons, List.flatMap_nil,
    List.append_nil]
  rfl

/-- A damaged `g` and the `g`, the reply refused once, and then a step. -/
def stepped : Exchange := ⟨[ch 's'], [], [], []⟩

def registersTwice : Exchange :=
  ⟨[ch 'g'], [[0x24, 0x67, 0x23, 0x36, 0x36]], [gdbAck], [gdbNak]⟩

theorem registersTwice_wf : registersTwice.Wf := by
  refine ⟨by decide, by decide, fun bytes hbytes => ?_, by decide, by decide⟩
  rw [List.mem_singleton.mp hbytes]
  exact ⟨[], [0x67], gdbEnd, 0x36, 0x36, rfl, by decide, ⟨by decide, .inl ⟨rfl, by decide⟩⟩,
    by decide⟩

theorem readHex_hexBytes : readHex (bytes.flatMap hexByte) = some bytes := by
  induction bytes with
  | nil => rfl
  | cons b bytes ih =>
    obtain ⟨hhigh, hlow, hbyte⟩ := erwartet_nibbles b
    have hcons : (b :: bytes).flatMap hexByte =
        nibbleZuHex (b >>> 4) :: nibbleZuHex (b &&& 0xF) :: bytes.flatMap hexByte := rfl
    rw [hcons, readHex, if_pos ⟨hhigh, hlow⟩, ih, Option.map_some, hbyte]

/-- Four bytes make the value that they are of. -/
theorem readWords_leBytes (val : BitVec 32) (rest : List Byte) :
    readWords (leBytes val ++ rest) = val :: readWords rest := by
  have hbytes : leBytes val = [(val >>> 0).setWidth 8, (val >>> 8).setWidth 8,
    (val >>> 16).setWidth 8, (val >>> 24).setWidth 8] := rfl
  rw [hbytes]
  simp only [List.cons_append, List.nil_append, readWords]
  congr 1
  apply BitVec.eq_of_toNat_eq
  have hlt := val.isLt
  simp only [BitVec.toNat_ofNat, BitVec.toNat_setWidth, BitVec.toNat_ushiftRight,
    Nat.shiftRight_eq_div_pow]
  omega

theorem registerText_eq : registerText r = ([r.eax, r.ecx, r.edx, r.ebx, r.esp, r.ebp, r.esi, r.edi,
    r.eip, r.eflags].flatMap leBytes).flatMap hexByte := by
  unfold registerText u32LeHex
  simp only [List.flatMap_append, List.flatMap_cons, List.flatMap_nil, List.append_nil,
    List.append_assoc]

theorem digit_ne_comma {d : Nat} (h : d < 16) : Klib.digitChar false d ≠ ch ',' := by
  revert d
  decide

theorem mem_numeral (h : c ∈ Klib.numeral false 16 n) : c ≠ ch ',' ∧ c ≠ 0 := by
  obtain ⟨d, hd, rfl⟩ := List.mem_map.mp h
  have hlt : d < 16 := Klib.mem_numeralDigits (by decide) hd
  exact ⟨digit_ne_comma hlt, (Klib.digitChar_ne false (by omega)).2.2.2.2⟩

/-- The number ends where something else begins. -/
theorem digitLoop_append {base : Int} {v w : BitVec 32} (hc : Klib.charDigit c base < 0)
    (h : Klib.digitLoop base str v = (w, [])) :
    Klib.digitLoop base (str ++ c :: rest) v = (w, c :: rest) := by
  induction str generalizing v with
  | nil =>
    cases h
    exact if_neg (by omega)
  | cons x str ih =>
    rw [List.cons_append]
    unfold Klib.digitLoop at h ⊢
    dsimp only at h ⊢
    by_cases hx : Klib.charDigit x base ≥ 0
    · rw [if_pos hx] at h ⊢
      exact ih h
    · rw [if_neg hx] at h
      cases h

theorem plain_append (hsome : str ≠ []) (h : Klib.Plain 16 str) (hc : c ≠ ch 'x' ∧ c ≠ ch 'X') :
    Klib.Plain 16 (str ++ c :: rest) := by
  obtain ⟨x, str, rfl⟩ := List.exists_cons_of_ne_nil hsome
  refine ⟨h.space, h.tab, h.minus, h.plus, ?_⟩
  rintro ⟨-, hhex⟩
  cases str with
  | nil =>
    obtain ⟨-, hx⟩ := Bool.and_eq_true_iff.mp hhex
    rcases Bool.or_eq_true_iff.mp hx with heq | heq
    · exact hc.1 (eq_of_beq heq)
    · exact hc.2 (eq_of_beq heq)
  | cons y str => exact h.noPrefix ⟨rfl, hhex⟩

theorem numeral_ne_nil : Klib.numeral false 16 n ≠ [] := by
  unfold Klib.numeral Klib.numeralDigits
  rw [ne_eq, List.map_eq_nil_iff]
  split
  · exact List.cons_ne_nil _ _
  · exact mt List.reverse_eq_nil_iff.mp (Nat.digits_ne_nil_iff_ne_zero.mpr ‹_›)

theorem plain_hex : Klib.Plain 16 (Klib.numeral false 16 n) :=
  @Klib.plain_numeral 16 false n (by decide) (by decide)

theorem hex_loop : Klib.digitLoop 16 (Klib.numeral false 16 val.toNat) 0 = (val, []) := by
  have hloop : Klib.digitLoop 16 (Klib.numeral false 16 val.toNat) 0 =
      (BitVec.ofNat 32 val.toNat, []) :=
    @Klib.numeral_loop 16 false val.toNat (by decide) (by decide)
  rwa [BitVec.ofNat_toNat, BitVec.setWidth_eq] at hloop

theorem strtoul_numeral : (strtoul (Klib.numeral false 16 val.toNat) 16).1 = val := by
  rw [Klib.strtoul_plain (by decide) plain_hex, hex_loop]

theorem strtoul_comma : (strtoul (Klib.numeral false 16 val.toNat ++ ch ',' :: rest) 16).1 = val := by
  rw [Klib.strtoul_plain (by decide) (plain_append numeral_ne_nil plain_hex (by decide)),
    digitLoop_append (by decide) hex_loop]

/-- What the stub makes of a request for memory. -/
theorem memoryText_request :
    memoryText mem (cString (memoryRequest addr len).tail) =
      ((List.range (min len.toNat 128)).map fun i => mem (addr + BitVec.ofNat 32 i)).flatMap
        hexByte := by
  have hstring : cString (memoryRequest addr len).tail =
      Klib.numeral false 16 addr.toNat ++ ch ',' :: Klib.numeral false 16 len.toNat := by
    unfold cString memoryRequest
    refine List.takeWhile_eq_self_iff.mpr fun c hc => decide_eq_true ?_
    rcases List.mem_append.mp hc with hc | hc
    · exact (mem_numeral hc).2
    rcases List.mem_cons.mp hc with rfl | hc
    · decide
    · exact (mem_numeral hc).2
  have hkomma : (Klib.numeral false 16 addr.toNat ++ ch ',' :: Klib.numeral false 16 len.toNat).dropWhile
      (fun c => decide (c ≠ ch ',')) = ch ',' :: Klib.numeral false 16 len.toNat := by
    rw [List.dropWhile_append_of_pos fun c hc => decide_eq_true (mem_numeral hc).1]
    rfl
  have hmin : (if len.toNat > 128 then 128 else len.toNat) = min len.toNat 128 := by
    split <;> omega
  unfold memoryText
  rw [hstring, hkomma]
  dsimp only
  rw [strtoul_comma, strtoul_numeral, hmin, List.flatMap_map]

end PinguinOS.Debug
