import PinguinOS.Drivers.Rtc
import PinguinOS.Klib.PrintfLength

/-! The crash report in its buffer. -/
namespace PinguinOS.Debug

open Klib
open Drivers (RtcTime)

/-- The registers of `cpu_regs_t` that the report has. -/
structure DumpRegs where
  eax : BitVec 32
  ebx : BitVec 32
  ecx : BitVec 32
  edx : BitVec 32
  esi : BitVec 32
  edi : BitVec 32
  ebp : BitVec 32
  esp : BitVec 32
  eip : BitVec 32
  eflags : BitVec 32
  intNo : BitVec 32
  errCode : BitVec 32

/-- What a report is made of: the arguments, what the kernel's functions return, and the frame
address. `frame i` is what the `i`th frame is read as: the return address, and the next frame. -/
structure Panic where
  nachricht : Option (List Klib.Byte)
  regs : Option DumpRegs
  zeit : RtcTime
  freePages : BitVec 32
  uptimeMs : BitVec 32
  taskCount : BitVec 32
  ebp : BitVec 32
  frame : Nat → BitVec 32 × BitVec 32

/-- The offsets in `dump_buf` that were written, the last one first, the values that `pos` had, and
whether `serial_puts` was called. -/
structure Dump where
  pos : BitVec 32
  writes : List (Nat × Klib.Byte)
  seen : List (BitVec 32)
  serial : Bool

def dumpBufSize : Nat := 4096

/-- `max` -/
def dumpMax : BitVec 32 := BitVec.ofNat 32 dumpBufSize - 1

/-! The formats. -/

def rule : List Klib.Byte := (List.replicate 54 [0xE2, 0x95, 0x90]).flatten ++ str "\n"

def kopfFormat : List Klib.Byte := rule ++ str "  PINGUINOS 2.3 KERNEL-ABSTURZBERICHT\n" ++ rule

def zeitFormat : List Klib.Byte := str "  Zeitpunkt: %04u-%02u-%02u %02u:%02u:%02u\n"

def fehlerFormat : List Klib.Byte := str "  Fehler:    %s\n"

def registerFormat : List Klib.Byte :=
  str "  Register:\n" ++
  str "    EAX=0x%08x  EBX=0x%08x  ECX=0x%08x  EDX=0x%08x\n" ++
  str "    ESI=0x%08x  EDI=0x%08x  EBP=0x%08x  ESP=0x%08x\n" ++
  str "    EIP=0x%08x  EFLAGS=0x%08x\n" ++
  str "    INT=%u       ERR=0x%08x\n"

def speicherFormat : List Klib.Byte := str "  Freier Speicher: %u KB\n"

def laufzeitFormat : List Klib.Byte := str "  Laufzeit: %u ms\n  Tasks: %u\n"

def backtraceFormat : List Klib.Byte := str "  Backtrace:\n"

def frameFormat : List Klib.Byte := str "    #%2d  EIP = 0x%08x\n"

/-! The code. -/

/-- Arguments that are no strings. -/
def words (ws : List (BitVec 32)) : Args := ⟨fun i => ws.getD i 0, fun _ => []⟩

/-- A pointer to a string. -/
def oneString (s : List Klib.Byte) : Args := ⟨fun _ => 1, fun _ => s⟩

/-- `snprintf(dump_buf + start, size, fmt, …)` -/
def snprintf (start size : BitVec 32) (fmt : List Klib.Byte) (args : Args)
    (writes : List (Nat × Klib.Byte)) :
    Option (List (Nat × Klib.Byte) × BitVec 32) :=
  (vsnprintf size fmt args).map fun r =>
    (r.1.out.writes.map (fun w => (start.toNat + w.1, w.2)) ++ writes, BitVec.ofInt 32 r.2)

/-- The loop over the frames. -/
def backtraceLoop (p : Panic) (buf maxlen : BitVec 32) : (rounds i : Nat) →
    (ebp len : BitVec 32) → List (Nat × Klib.Byte) → Option (List (Nat × Klib.Byte) × BitVec 32)
  | 0, _, _, len, writes => some (writes, len)
  | rounds + 1, i, ebp, len, writes =>
    if ebp ≠ 0 ∧ len.slt (maxlen - 40) then
      if ebp < 0x100000 ∨ ebp > 0xFFFFFFF0 then some (writes, len)
      else
        let (ret, next) := p.frame i
        if ret = 0 then some (writes, len)
        else do
          let r ← snprintf (buf + len) (maxlen - len) frameFormat
            (words [BitVec.ofNat 32 i, ret]) writes
          backtraceLoop p buf maxlen rounds (i + 1) next (len + r.2) r.1
    else some (writes, len)

def schreibeBacktrace (p : Panic) (buf maxlen : BitVec 32) (writes : List (Nat × Klib.Byte)) :
    Option (List (Nat × Klib.Byte) × BitVec 32) := do
  let r ← snprintf buf maxlen backtraceFormat (words []) writes
  backtraceLoop p buf maxlen 20 0 p.ebp r.2 r.1

/-- `pos += …` -/
def Dump.advance (d : Dump) (r : List (Nat × Klib.Byte) × BitVec 32) : Dump where
  pos := d.pos + r.2
  writes := r.1
  seen := (d.pos + r.2) :: d.seen
  serial := d.serial

/-- `pos += snprintf(dump_buf + pos, max - pos, fmt, …)` -/
def Dump.print (fmt : List Klib.Byte) (args : Args) (d : Dump) : Option Dump :=
  (snprintf d.pos (dumpMax - d.pos) fmt args d.writes).map d.advance

def Dump.backtrace (p : Panic) (d : Dump) : Option Dump :=
  (schreibeBacktrace p d.pos (dumpMax - d.pos) d.writes).map d.advance

def registerWords (r : DumpRegs) : List (BitVec 32) :=
  [r.eax, r.ebx, r.ecx, r.edx, r.esi, r.edi, r.ebp, r.esp, r.eip, r.eflags, r.intNo, r.errCode]

/-- `if (regs)` -/
def Dump.register (p : Panic) (d : Dump) : Option Dump :=
  match p.regs with
  | none => some d
  | some r => d.print registerFormat (words (registerWords r))

def zeitWords (t : RtcTime) : List (BitVec 32) :=
  [2000 + t.year.setWidth 32, t.month.setWidth 32, t.day.setWidth 32, t.hour.setWidth 32,
    t.minute.setWidth 32, t.second.setWidth 32]

/-- `nachricht ? nachricht : "(unbekannt)"` -/
def Panic.message (p : Panic) : List Klib.Byte := p.nachricht.getD (str "(unbekannt)")

/-- Nothing is written yet. -/
def Dump.blank : Dump := ⟨0, [], [0], false⟩

/-- The free memory in KB wraps. -/
def Panic.freiKb (p : Panic) : BitVec 32 := p.freePages * 4096 / 1024

/-- Without the file `/crash.log`, which is written afterwards. -/
def crashdumpWrite (schonGeschrieben : Bool) (p : Panic) : Option Dump :=
  if schonGeschrieben then some ⟨0, [], [], false⟩
  else do
    let d ← Dump.blank.print kopfFormat (words [])
    let d ← d.print zeitFormat (words (zeitWords p.zeit))
    let d ← d.print fehlerFormat (oneString p.message)
    let d ← d.register p
    let d ← d.print speicherFormat (words [p.freiKb])
    let d ← d.print laufzeitFormat (words [p.uptimeMs, p.taskCount])
    let d ← d.backtrace p
    let d ← d.print rule (words [])
    some { d with writes := (d.pos.toNat, 0) :: d.writes, serial := true }

/-- The writes are in `dump_buf`, `pos` is always below its size, and what `serial_puts` gets ends
with a NUL. -/
structure Dump.Kept (d : Dump) : Prop where
  writes : ∀ w ∈ d.writes, w.1 < dumpBufSize
  seen : ∀ q ∈ d.seen, q.toNat < dumpBufSize
  nul : d.serial = true → ∃ i, d.writes.head? = some (i, 0)

def Keeps (schonGeschrieben : Bool) (p : Panic) : Prop :=
  ∃ d, crashdumpWrite schonGeschrieben p = some d ∧ d.Kept

/-! The length of the report. -/

/-- The number of frames that the chain has, up to 20. -/
def chainLength (p : Panic) : (rounds i : Nat) → (ebp : BitVec 32) → Nat
  | 0, _, _ => 0
  | rounds + 1, i, ebp =>
    if 0x100000 ≤ ebp ∧ ebp ≤ 0xFFFFFFF0 ∧ (p.frame i).1 ≠ 0 then
      chainLength p rounds (i + 1) (p.frame i).2 + 1
    else 0

def Panic.frames (p : Panic) : Nat := chainLength p 20 0 p.ebp

def zeitLength (t : RtcTime) : Nat :=
  19 + decimalLength 4 (2000 + t.year.setWidth 32) + decimalLength 2 (t.month.setWidth 32) +
    decimalLength 2 (t.day.setWidth 32) + decimalLength 2 (t.hour.setWidth 32) +
    decimalLength 2 (t.minute.setWidth 32) + decimalLength 2 (t.second.setWidth 32)

def registerLength : Option DumpRegs → Nat
  | none => 0
  | some r => 214 + decimalLength 0 r.intNo

/-- The length of what follows the message, without the frames. -/
def Panic.tailLength (p : Panic) : Nat :=
  registerLength p.regs + (23 + decimalLength 0 p.freiKb) +
    (26 + decimalLength 0 p.uptimeMs + decimalLength 0 p.taskCount) + 13 + 163

/-- The length of the report. -/
def Panic.length (p : Panic) : Nat :=
  364 + zeitLength p.zeit + (14 + p.message.length) + p.tailLength + 26 * p.frames

variable {p : Panic} {d d' d'' : Dump} {fmt : List Klib.Byte} {args : Args}
  {writes : List (Nat × Klib.Byte)} {start size buf maxlen ebp len : BitVec 32} {i k m n rounds : Nat}

/-! The formats. -/

theorem rule_ordinary : ∀ c ∈ rule, c ≠ ch '%' := by
  have hline : ∀ c ∈ ([0xE2, 0x95, 0x90] : List Klib.Byte), c ≠ ch '%' := by decide
  have hnewline : ∀ c ∈ str "\n", c ≠ ch '%' := by decide
  intro c hc
  rcases List.mem_append.mp hc with hc | hc
  · obtain ⟨s, hs, hc⟩ := List.mem_flatten.mp hc
    rw [List.eq_of_mem_replicate hs] at hc
    exact hline c hc
  · exact hnewline c hc

theorem rule_length : rule.length = 163 := by
  unfold rule
  rw [List.length_append, List.length_flatten, List.map_replicate, List.sum_replicate]
  rfl

theorem prints_rule (args : Args) : Prints rule args 0 163 := by
  rw [← rule_length]
  exact prints_text rule_ordinary

theorem prints_kopf (args : Args) : Prints kopfFormat args 0 364 := by
  have htitle : Ordinary "  PINGUINOS 2.3 KERNEL-ABSTURZBERICHT\n" := by
    refine Ordinary.of_all ?_
    simp only [String.reduceToList]
    rfl
  have hlength : kopfFormat.length = 364 := by
    unfold kopfFormat
    rw [List.length_append, List.length_append, rule_length]
    rfl
  rw [← hlength]
  refine prints_text fun c hc => ?_
  rcases List.mem_append.mp hc with hc | hc
  · rcases List.mem_append.mp hc with hc | hc
    · exact rule_ordinary c hc
    · exact htitle.str c hc
  · exact rule_ordinary c hc

theorem newline_ordinary : Ordinary "\n" := by
  refine Ordinary.of_all ?_
  simp only [String.reduceToList]
  rfl

theorem prints_backtrace (args : Args) : Prints backtraceFormat args 0 13 := by
  have htext : Ordinary "  Backtrace:\n" := by
    refine Ordinary.of_all ?_
    simp only [String.reduceToList]
    rfl
  exact prints_text htext.str

theorem prints_frame (ret : BitVec 32) (hi : i < 100) :
    Prints frameFormat (words [BitVec.ofNat 32 i, ret]) 0 26 := by
  have hsplit : frameFormat =
      str "    #" ++ (str "%2d" ++ (str "  EIP = 0x" ++ (str "%08x" ++ str "\n"))) := by
    simp only [frameFormat, str, String.reduceToList]
    rfl
  have hnumber : Ordinary "    #" := by
    refine Ordinary.of_all ?_
    simp only [String.reduceToList]
    rfl
  have heip : Ordinary "  EIP = 0x" := by
    refine Ordinary.of_all ?_
    simp only [String.reduceToList]
    rfl
  rw [hsplit]
  refine prints_chars (n := 21) hnumber.str ?_
  refine prints_small (n := 19) (toInt_ofNat_of_lt (by omega)) hi ?_
  exact prints_chars (n := 9) heip.str (prints_hex8 (prints_text newline_ordinary.str))

theorem prints_speicher {v : BitVec 32} :
    Prints speicherFormat (words [v]) 0 (23 + decimalLength 0 v) := by
  have hsplit : speicherFormat = str "  Freier Speicher: " ++ (str "%u" ++ str " KB\n") := by
    simp only [speicherFormat, str, String.reduceToList]
    rfl
  have hleft : Ordinary "  Freier Speicher: " := by
    refine Ordinary.of_all ?_
    simp only [String.reduceToList]
    rfl
  have hright : Ordinary " KB\n" := by
    refine Ordinary.of_all ?_
    simp only [String.reduceToList]
    rfl
  rw [hsplit, show 23 + decimalLength 0 v = 19 + (decimalLength 0 v + 4) by omega]
  refine prints_chars hleft.str ?_
  exact prints_decimal (words [v]) 0 rfl (prints_text hright.str)

theorem prints_laufzeit {v w : BitVec 32} :
    Prints laufzeitFormat (words [v, w]) 0 (26 + decimalLength 0 v + decimalLength 0 w) := by
  have hsplit : laufzeitFormat = str "  Laufzeit: " ++ (str "%u" ++
      (str " ms\n  Tasks: " ++ (str "%u" ++ str "\n"))) := by
    simp only [laufzeitFormat, str, String.reduceToList]
    rfl
  have hleft : Ordinary "  Laufzeit: " := by
    refine Ordinary.of_all ?_
    simp only [String.reduceToList]
    rfl
  have hright : Ordinary " ms\n  Tasks: " := by
    refine Ordinary.of_all ?_
    simp only [String.reduceToList]
    rfl
  rw [hsplit, show 26 + decimalLength 0 v + decimalLength 0 w =
    12 + (decimalLength 0 v + (13 + (decimalLength 0 w + 1))) by omega]
  refine prints_chars hleft.str ?_
  refine prints_decimal (words [v, w]) 0 rfl ?_
  refine prints_chars hright.str ?_
  exact prints_decimal (words [v, w]) 0 rfl (prints_text newline_ordinary.str)

theorem prints_fehler {s : List Klib.Byte} :
    Prints fehlerFormat (oneString s) 0 (14 + stringLength s.length) := by
  have hsplit : fehlerFormat = str "  Fehler:    " ++ (str "%s" ++ str "\n") := by
    simp only [fehlerFormat, str, String.reduceToList]
    rfl
  have hleft : Ordinary "  Fehler:    " := by
    refine Ordinary.of_all ?_
    simp only [String.reduceToList]
    rfl
  have hpointer : (1 : BitVec 32) ≠ 0 := by decide
  rw [hsplit, show 14 + stringLength s.length = 13 + (stringLength s.length + 1) by omega]
  refine prints_chars hleft.str ?_
  exact prints_string (oneString s) hpointer (prints_text newline_ordinary.str)

/-- A character and `%02u` -/
theorem prints_two {s : String} (hs : Ordinary s) (hone : (str s).length = 1)
    (h : Prints fmt args (i + 1) n) : Prints (str s ++ (str "%02u" ++ fmt)) args i
      (1 + (decimalLength 2 (args.word i) + n)) := by
  rw [← hone]
  exact prints_chars hs.str (prints_decimal _ 2 rfl h)

theorem prints_zeit {t : RtcTime} : Prints zeitFormat (words (zeitWords t)) 0 (zeitLength t) := by
  have hsplit : zeitFormat = str "  Zeitpunkt: " ++ (str "%04u" ++ (str "-" ++ (str "%02u" ++
      (str "-" ++ (str "%02u" ++ (str " " ++ (str "%02u" ++ (str ":" ++ (str "%02u" ++
      (str ":" ++ (str "%02u" ++ str "\n"))))))))))) := by
    simp only [zeitFormat, str, String.reduceToList]
    rfl
  have hleft : Ordinary "  Zeitpunkt: " := by
    refine Ordinary.of_all ?_
    simp only [String.reduceToList]
    rfl
  have hseparators : Ordinary "-" ∧ Ordinary " " ∧ Ordinary ":" := by
    refine ⟨Ordinary.of_all ?_, Ordinary.of_all ?_, Ordinary.of_all ?_⟩
    all_goals
      simp only [String.reduceToList]
      rfl
  obtain ⟨hminus, hspace, hcolon⟩ := hseparators
  have hlength : zeitLength t = 13 + (decimalLength 4 (2000 + t.year.setWidth 32) +
      (1 + (decimalLength 2 (t.month.setWidth 32) + (1 + (decimalLength 2 (t.day.setWidth 32) +
      (1 + (decimalLength 2 (t.hour.setWidth 32) + (1 + (decimalLength 2 (t.minute.setWidth 32) +
      (1 + (decimalLength 2 (t.second.setWidth 32) + 1))))))))))) := by
    unfold zeitLength
    omega
  rw [hsplit, hlength]
  refine prints_chars hleft.str ?_
  refine prints_decimal (words (zeitWords t)) 4 rfl ?_
  refine prints_two hminus rfl (prints_two hminus rfl (prints_two hspace rfl ?_))
  exact prints_two hcolon rfl (prints_two hcolon rfl (prints_text newline_ordinary.str))

/-- Names, and `%08x` after each. -/
def hexFields (names : List String) : List Klib.Byte :=
  names.flatMap fun s => str s ++ str "%08x"

theorem prints_hexFields {names : List String} (hnames : ∀ s ∈ names, Ordinary s)
    (h : Prints fmt args (i + names.length) n) : Prints (hexFields names ++ fmt) args i
      ((names.map fun s => (str s).length + 8).sum + n) := by
  induction names generalizing i with
  | nil =>
    rw [List.map_nil, List.sum_nil, Nat.zero_add]
    exact h
  | cons s names ih =>
    rw [List.length_cons, Nat.add_comm names.length, ← Nat.add_assoc] at h
    have hrest := ih (fun s hs => hnames s (List.mem_cons_of_mem _ hs)) h
    have hcons := prints_chars (hnames s List.mem_cons_self).str (prints_hex8 hrest)
    have hfields : hexFields (s :: names) ++ fmt =
        str s ++ (str "%08x" ++ (hexFields names ++ fmt)) := by
      unfold hexFields
      rw [List.flatMap_cons, List.append_assoc, List.append_assoc]
    rw [hfields, List.map_cons, List.sum_cons, Nat.add_assoc, Nat.add_assoc]
    exact hcons

def registerNames : List String :=
  ["  Register:\n    EAX=0x", "  EBX=0x", "  ECX=0x", "  EDX=0x", "\n    ESI=0x", "  EDI=0x",
    "  EBP=0x", "  ESP=0x", "\n    EIP=0x", "  EFLAGS=0x"]

theorem prints_register {r : DumpRegs} :
    Prints registerFormat (words (registerWords r)) 0 (214 + decimalLength 0 r.intNo) := by
  have hsplit : registerFormat = hexFields registerNames ++ (str "\n    INT=" ++ (str "%u" ++
      (str "       ERR=0x" ++ (str "%08x" ++ str "\n")))) := by
    simp only [registerFormat, hexFields, registerNames, str, List.flatMap_cons, List.flatMap_nil,
      String.reduceToList]
    rfl
  have hnames : ∀ s ∈ registerNames, Ordinary s := by
    simp only [registerNames, List.forall_mem_cons, List.not_mem_nil, false_imp_iff, implies_true,
      and_true]
    repeat' constructor
    all_goals
      refine Ordinary.of_all ?_
      simp only [String.reduceToList]
      rfl
  have hleft : Ordinary "\n    INT=" := by
    refine Ordinary.of_all ?_
    simp only [String.reduceToList]
    rfl
  have hright : Ordinary "       ERR=0x" := by
    refine Ordinary.of_all ?_
    simp only [String.reduceToList]
    rfl
  have hsum : (registerNames.map fun s => (str s).length + 8).sum = 183 := by
    simp only [registerNames, str, List.map_cons, List.map_nil, String.reduceToList]
    rfl
  have hlength : 214 + decimalLength 0 r.intNo =
      183 + (9 + (decimalLength 0 r.intNo + (13 + (8 + 1)))) := by omega
  rw [hsplit, hlength, ← hsum]
  refine prints_hexFields hnames (prints_chars hleft.str ?_)
  refine prints_decimal (words (registerWords r)) 0 rfl ?_
  exact prints_chars hright.str (prints_hex8 (prints_text newline_ordinary.str))

/-! One piece of the report. -/

/-- Everything so far is in `dump_buf`. -/
structure Dump.Inside (d : Dump) : Prop where
  pos : d.pos.toNat < dumpBufSize
  writes : ∀ w ∈ d.writes, w.1 < dumpBufSize
  seen : ∀ q ∈ d.seen, q.toNat < dumpBufSize

/-- `d'` has `n` characters more than `d`. -/
structure Extends (d : Dump) (n : Nat) (d' : Dump) : Prop where
  pos : d'.pos = d.pos + BitVec.ofNat 32 n
  writes : ∀ w ∈ d.writes, w ∈ d'.writes
  inside : d.Inside → d.pos.toNat + n < dumpBufSize → d'.Inside

theorem Extends.refl : Extends d 0 d where
  pos := (BitVec.add_zero d.pos).symm
  writes _ hw := hw
  inside h _ := h

theorem Extends.trans (h : Extends d m d') (h' : Extends d' n d'') : Extends d (m + n) d'' := by
  refine ⟨?_, fun w hw => h'.writes w (h.writes w hw), fun hin hfits => ?_⟩
  · rw [h'.pos, h.pos, BitVec.ofNat_add, BitVec.add_assoc]
  · have hmid := h.inside hin (by omega)
    have hpos : d'.pos.toNat ≤ d.pos.toNat + m := by
      rw [h.pos, BitVec.toNat_add, BitVec.toNat_ofNat]
      omega
    exact h'.inside hmid (by omega)

theorem snprintf_eq (start size : BitVec 32) (writes : List (Nat × Klib.Byte))
    (h : Prints fmt args 0 n) :
    ∃ ws, snprintf start size fmt args writes = some (ws ++ writes, BitVec.ofNat 32 n) ∧
      (n < 2 ^ 32 → ∀ w ∈ ws, w.1 < start.toNat + size.toNat) ∧
      (2 ^ 32 ≤ n → 0 < size → ∃ w ∈ ws, 2 ^ 32 - 1 ≤ w.1) := by
  obtain ⟨ps, hps, hlen⟩ := h
  refine ⟨(terminate size (printed size args ps ⟨⟨0, []⟩, 0, []⟩)).out.writes.map
    fun w => (start.toNat + w.1, w.2), ?_, ?_, ?_⟩
  · unfold snprintf
    rw [vsnprintf_eq hps, hlen]
    exact congrArg some (Prod.ext rfl BitVec.ofInt_toInt)
  · intro hn w hw
    obtain ⟨e, he, rfl⟩ := List.mem_map.mp hw
    have hbound := terminate_bounds.mpr (fun _ => hlen.trans_lt hn) e he
    exact Nat.add_lt_add_left hbound _
  · intro hn hsize
    have hlong : 2 ^ 32 ≤ (⟨0, []⟩ : Output).pos.toNat + (text args ps 0).length :=
      (hn.trans_eq hlen.symm).trans (Nat.le_add_left _ _)
    obtain ⟨c, hc⟩ := emits_wraps hsize hlong
    refine ⟨_, List.mem_map_of_mem (mem_terminate hc), ?_⟩
    exact Nat.le_add_left _ _

/-- `pos += snprintf(…)` within the buffer. -/
theorem print_extends (h : Prints fmt args 0 n) :
    ∃ d', d.print fmt args = some d' ∧ Extends d n d' ∧ d'.pos ∈ d'.seen := by
  obtain ⟨ws, hrun, hbounds, -⟩ := snprintf_eq d.pos (dumpMax - d.pos) d.writes h
  have hsize : dumpBufSize = 4096 := rfl
  have hmax : dumpMax.toNat = 4095 := by decide
  refine ⟨_, by unfold Dump.print; rw [hrun]; rfl, ⟨rfl, ?_, ?_⟩, List.mem_cons_self⟩
  · exact fun w hw => List.mem_append_right _ hw
  · intro hin hfits
    have hpos := hin.pos
    have hnext : (d.pos + BitVec.ofNat 32 n).toNat = d.pos.toNat + n := by
      rw [BitVec.toNat_add, BitVec.toNat_ofNat]
      omega
    have hroom : (dumpMax - d.pos).toNat = 4095 - d.pos.toNat := by
      rw [BitVec.toNat_sub_of_le (by rw [BitVec.le_def]; omega), hmax]
    refine ⟨?_, ?_, ?_⟩
    · exact hnext.trans_lt hfits
    · intro w hw
      rcases List.mem_append.mp hw with hw | hw
      · have hlt := hbounds (by omega) w hw
        omega
      · exact hin.writes w hw
    · intro q hq
      rcases List.mem_cons.mp hq with rfl | hq
      · exact hnext.trans_lt hfits
      · exact hin.seen q hq

/-- A piece whose length wraps is written outside. -/
theorem print_wraps (h : Prints fmt args 0 n) (hn : 2 ^ 32 ≤ n) (hroom : d.pos.toNat < 4095)
    (hrun : d.print fmt args = some d') : ∃ w ∈ d'.writes, dumpBufSize ≤ w.1 := by
  obtain ⟨ws, hrun', -, hwraps⟩ := snprintf_eq d.pos (dumpMax - d.pos) d.writes h
  have hmax : dumpMax.toNat = 4095 := by decide
  have hsize : 0 < dumpMax - d.pos := by
    rw [BitVec.lt_def, BitVec.toNat_sub_of_le (by rw [BitVec.le_def]; omega), hmax]
    exact Nat.sub_pos_of_lt hroom
  obtain ⟨w, hw, hfar⟩ := hwraps hn hsize
  unfold Dump.print at hrun
  rw [hrun'] at hrun
  obtain rfl := Option.some.inj hrun
  have hbuf : dumpBufSize = 4096 := rfl
  exact ⟨w, List.mem_append_left _ hw, by omega⟩

/-! The backtrace. -/

/-- The loop writes `k` frames, with the characters `ws`. They are the first ones of the chain; if
they are not all, the buffer is almost full. -/
structure Backtraced (p : Panic) (buf maxlen : BitVec 32) (rounds i : Nat) (ebp len : BitVec 32)
    (writes : List (Nat × Klib.Byte)) (k : Nat) (ws : List (Nat × Klib.Byte)) : Prop where
  run : backtraceLoop p buf maxlen rounds i ebp len writes =
    some (ws ++ writes, len + BitVec.ofNat 32 (26 * k))
  first : k ≤ chainLength p rounds i ebp
  full : k = chainLength p rounds i ebp ∨
    ¬ (len + BitVec.ofNat 32 (26 * k)).slt (maxlen - 40) = true
  inside : buf.toNat + maxlen.toNat < dumpBufSize → len.toNat + 26 * k ≤ maxlen.toNat →
    ∀ w ∈ ws, w.1 < dumpBufSize

theorem backtraced_stop
    (hrun : backtraceLoop p buf maxlen rounds i ebp len writes = some (writes, len))
    (hfull : chainLength p rounds i ebp = 0 ∨ ¬ len.slt (maxlen - 40) = true) :
    Backtraced p buf maxlen rounds i ebp len writes 0 [] where
  run := hrun.trans (congrArg some (Prod.ext rfl (BitVec.add_zero len).symm))
  first := Nat.zero_le _
  full := by
    refine hfull.imp Eq.symm fun h => ?_
    rwa [Nat.mul_zero, BitVec.add_zero]
  inside := fun _ _ w hw => absurd hw List.not_mem_nil

/-- One frame more in front. -/
theorem backtraced_next {k : Nat} {ws ws' : List (Nat × Klib.Byte)}
    (hcond : ebp ≠ 0 ∧ len.slt (maxlen - 40) = true) (hrange : ¬ (ebp < 0x100000 ∨ ebp > 0xFFFFFFF0))
    (hret : (p.frame i).1 ≠ 0) (hsnprintf : snprintf (buf + len) (maxlen - len) frameFormat
      (words [BitVec.ofNat 32 i, (p.frame i).1]) writes = some (ws ++ writes, BitVec.ofNat 32 26))
    (hbounds : ∀ w ∈ ws, w.1 < (buf + len).toNat + (maxlen - len).toNat)
    (h : Backtraced p buf maxlen rounds (i + 1) (p.frame i).2 (len + BitVec.ofNat 32 26)
      (ws ++ writes) k ws') :
    Backtraced p buf maxlen (rounds + 1) i ebp len writes (k + 1) (ws' ++ ws) := by
  have hlen : len + BitVec.ofNat 32 26 + BitVec.ofNat 32 (26 * k) =
      len + BitVec.ofNat 32 (26 * (k + 1)) := by
    rw [BitVec.add_assoc, ← BitVec.ofNat_add]
    congr 2
    omega
  have hmore : chainLength p (rounds + 1) i ebp =
      chainLength p rounds (i + 1) (p.frame i).2 + 1 := by
    obtain ⟨hlow, hhigh⟩ := not_or.mp hrange
    exact if_pos ⟨BitVec.not_lt.mp hlow, BitVec.not_lt.mp hhigh, hret⟩
  constructor
  case run =>
    unfold backtraceLoop
    rw [if_pos hcond, if_neg hrange]
    dsimp only
    rw [if_neg hret, hsnprintf, List.append_assoc, ← hlen]
    exact h.run
  case first =>
    rw [hmore]
    exact Nat.succ_le_succ h.first
  case full =>
    rw [hmore, ← hlen]
    exact h.full.imp_left (congrArg (· + 1))
  case inside =>
    intro hbuf hfits w hw
    have hnext : (len + BitVec.ofNat 32 26).toNat = len.toNat + 26 := by
      have hmax := maxlen.isLt
      rw [BitVec.toNat_add, BitVec.toNat_ofNat]
      omega
    rcases List.mem_append.mp hw with hw | hw
    · exact h.inside hbuf (by omega) w hw
    · have hlt := hbounds w hw
      have hstart : (buf + len).toNat ≤ buf.toNat + len.toNat := by
        rw [BitVec.toNat_add]
        exact Nat.mod_le _ _
      have hroom : (maxlen - len).toNat = maxlen.toNat - len.toNat :=
        BitVec.toNat_sub_of_le (by rw [BitVec.le_def]; omega)
      omega

theorem backtraceLoop_eq (ebp len : BitVec 32) (writes : List (Nat × Klib.Byte))
    (hi : i + rounds ≤ 100) : ∃ k ws, Backtraced p buf maxlen rounds i ebp len writes k ws := by
  induction rounds generalizing i ebp len writes with
  | zero => exact ⟨0, [], backtraced_stop rfl (Or.inl rfl)⟩
  | succ rounds ih =>
    by_cases hcond : ebp ≠ 0 ∧ len.slt (maxlen - 40) = true
    · by_cases hrange : ebp < 0x100000 ∨ ebp > 0xFFFFFFF0
      · refine ⟨0, [], backtraced_stop ?_ (Or.inl (if_neg ?_))⟩
        · unfold backtraceLoop
          rw [if_pos hcond, if_pos hrange]
        · rintro ⟨hlow, hhigh, -⟩
          rcases hrange with hlt | hgt
          · exact BitVec.not_lt.mpr hlow hlt
          · exact BitVec.not_lt.mpr hhigh hgt
      by_cases hret : (p.frame i).1 = 0
      · refine ⟨0, [], backtraced_stop ?_ (Or.inl (if_neg fun h => h.2.2 hret))⟩
        unfold backtraceLoop
        rw [if_pos hcond, if_neg hrange]
        exact if_pos hret
      · obtain ⟨ws, hrun, hbounds, -⟩ := snprintf_eq (buf + len) (maxlen - len) writes
          (prints_frame (p.frame i).1 (i := i) (by omega))
        obtain ⟨k, ws', hrest⟩ := ih (i := i + 1) (p.frame i).2 (len + BitVec.ofNat 32 26)
          (ws ++ writes) (by omega)
        exact ⟨k + 1, ws' ++ ws, backtraced_next hcond hrange hret hrun (hbounds (by decide))
          hrest⟩
    · refine ⟨0, [], backtraced_stop ?_ ?_⟩
      · unfold backtraceLoop
        exact if_neg hcond
      · by_cases hebp : ebp = 0
        · refine Or.inl (if_neg ?_)
          subst hebp
          rintro ⟨hlow, -⟩
          exact absurd hlow (by decide)
        · exact Or.inr fun hless => hcond ⟨hebp, hless⟩

theorem chainLength_le : chainLength p rounds i ebp ≤ rounds := by
  induction rounds generalizing i ebp with
  | zero => exact Nat.le_refl 0
  | succ rounds ih =>
    unfold chainLength
    split
    case isTrue => exact Nat.succ_le_succ ih
    case isFalse => exact Nat.zero_le _

/-- The loop has stopped early only if no 40 characters are left. -/
theorem full_of_not_slt (hk : k ≤ 20) (hpos : start.toNat < dumpBufSize)
    (h : ¬ (BitVec.ofNat 32 13 + BitVec.ofNat 32 (26 * k)).slt (dumpMax - start - 40) = true) :
    dumpBufSize ≤ start.toNat + (13 + 26 * k) + 41 := by
  have hsize : dumpBufSize = 4096 := rfl
  have hmax : dumpMax.toNat = 4095 := by decide
  have hleft : (BitVec.ofNat 32 13 + BitVec.ofNat 32 (26 * k)).toInt = 13 + 26 * k := by
    rw [← BitVec.ofNat_add, toInt_ofNat_of_lt (by omega)]
    omega
  have hright : (dumpMax - start - 40).toInt = 4055 - start.toNat := by
    have hforty : (40 : BitVec 32).toInt = 40 := rfl
    rw [BitVec.toInt_sub, BitVec.toInt_sub, BitVec.toInt_eq_toNat_of_lt (x := start) (by omega),
      BitVec.toInt_eq_toNat_of_lt (x := dumpMax) (by omega), hmax, Int.bmod_sub_bmod, hforty,
      Int.bmod_eq_of_le (by omega) (by omega)]
    omega
  rw [BitVec.slt_iff_toInt_lt, hleft, hright] at h
  omega

/-- The backtrace, with `k` frames. -/
theorem backtrace_extends : ∃ k d', d.backtrace p = some d' ∧ Extends d (13 + 26 * k) d' ∧
    k ≤ p.frames ∧ (d.pos.toNat < dumpBufSize → k = p.frames ∨
      dumpBufSize ≤ d.pos.toNat + (13 + 26 * k) + 41) := by
  have hsize : dumpBufSize = 4096 := rfl
  have hmax : dumpMax.toNat = 4095 := by decide
  obtain ⟨ws, hrun, hbounds, -⟩ := snprintf_eq d.pos (dumpMax - d.pos) d.writes
    (prints_backtrace (words []))
  obtain ⟨k, ws', hloop, hle, hchain, hinside⟩ := @backtraceLoop_eq p d.pos (dumpMax - d.pos) 0 20
    p.ebp (BitVec.ofNat 32 13) (ws ++ d.writes) (by decide)
  have hfew : k ≤ 20 := hle.trans chainLength_le
  have hback : d.backtrace p = some (d.advance (ws' ++ (ws ++ d.writes),
      BitVec.ofNat 32 13 + BitVec.ofNat 32 (26 * k))) := by
    unfold Dump.backtrace schreibeBacktrace
    rw [hrun]
    exact congrArg (Option.map d.advance) hloop
  have hpos : (d.advance (ws' ++ (ws ++ d.writes),
      BitVec.ofNat 32 13 + BitVec.ofNat 32 (26 * k))).pos =
        d.pos + BitVec.ofNat 32 (13 + 26 * k) := by
    rw [BitVec.ofNat_add]
    rfl
  refine ⟨k, _, hback, ⟨hpos, ?_, ?_⟩, hle, ?_⟩
  · exact fun w hw => List.mem_append_right _ (List.mem_append_right _ hw)
  · intro hin hfits
    have hlow := hin.pos
    have hroom : (dumpMax - d.pos).toNat = 4095 - d.pos.toNat := by
      rw [BitVec.toNat_sub_of_le (by rw [BitVec.le_def]; omega), hmax]
    have hthirteen : (BitVec.ofNat 32 13).toNat = 13 := rfl
    have hnext : (d.pos + BitVec.ofNat 32 (13 + 26 * k)).toNat = d.pos.toNat + (13 + 26 * k) := by
      rw [BitVec.toNat_add, BitVec.toNat_ofNat]
      omega
    have hend := (congrArg BitVec.toNat hpos).trans hnext
    refine ⟨hend.trans_lt hfits, ?_, ?_⟩
    · intro w hw
      rcases List.mem_append.mp hw with hw | hw
      · exact hinside (by omega) (by omega) w hw
      · rcases List.mem_append.mp hw with hw | hw
        · have hlt := hbounds (by decide) w hw
          omega
        · exact hin.writes w hw
    · intro q hq
      rcases List.mem_cons.mp hq with rfl | hq
      · exact hend.trans_lt hfits
      · exact hin.seen q hq
  · exact fun hlow => hchain.imp_right (full_of_not_slt hfew hlow)

/-! The report. -/

theorem register_extends :
    ∃ d', d.register p = some d' ∧ Extends d (registerLength p.regs) d' := by
  unfold Dump.register
  cases p.regs with
  | none => exact ⟨d, rfl, Extends.refl⟩
  | some r =>
    obtain ⟨d', hrun, hextends, -⟩ := print_extends (d := d) (prints_register (r := r))
    exact ⟨d', hrun, hextends⟩

/-- The report up to the message, the message, and what follows it, with `k` frames. -/
theorem crashdumpWrite_eq : ∃ d₁ d₂ d k,
    crashdumpWrite false p = some ⟨d.pos, (d.pos.toNat, 0) :: d.writes, d.seen, true⟩ ∧
    Extends Dump.blank (364 + zeitLength p.zeit) d₁ ∧
    d₁.print fehlerFormat (oneString p.message) = some d₂ ∧
    Extends d₁ (14 + stringLength p.message.length) d₂ ∧
    Extends d₂ (p.tailLength + 26 * k) d ∧ d.pos ∈ d.seen ∧ k ≤ p.frames ∧
    (k = p.frames ∨ dumpBufSize ≤ d₂.pos.toNat + (p.tailLength + 26 * k)) := by
  obtain ⟨d₀, hkopf, hd₀, -⟩ := print_extends (d := Dump.blank) (prints_kopf (words []))
  obtain ⟨d₁, hzeit, hd₁, -⟩ := print_extends (d := d₀) (prints_zeit (t := p.zeit))
  obtain ⟨d₂, hfehler, hd₂, -⟩ := print_extends (d := d₁) (prints_fehler (s := p.message))
  obtain ⟨d₃, hregister, hd₃⟩ := register_extends (p := p) (d := d₂)
  obtain ⟨d₄, hspeicher, hd₄, -⟩ := print_extends (d := d₃) (prints_speicher (v := p.freiKb))
  obtain ⟨d₅, hlaufzeit, hd₅, -⟩ := print_extends (d := d₄)
    (prints_laufzeit (v := p.uptimeMs) (w := p.taskCount))
  obtain ⟨k, d₆, hback, hd₆, hle, hchain⟩ := backtrace_extends (p := p) (d := d₅)
  obtain ⟨d, hrule, hd, hseen⟩ := print_extends (d := d₆) (prints_rule (words []))
  have hmiddle := (hd₃.trans hd₄).trans hd₅
  have htail := (hmiddle.trans hd₆).trans hd
  refine ⟨d₁, d₂, d, k, ?_, hd₀.trans hd₁, hfehler, hd₂, ?_, hseen, hle, ?_⟩
  · refine Option.bind_eq_some_iff.mpr ⟨d₀, hkopf, ?_⟩
    refine Option.bind_eq_some_iff.mpr ⟨d₁, hzeit, ?_⟩
    refine Option.bind_eq_some_iff.mpr ⟨d₂, hfehler, ?_⟩
    refine Option.bind_eq_some_iff.mpr ⟨d₃, hregister, ?_⟩
    refine Option.bind_eq_some_iff.mpr ⟨d₄, hspeicher, ?_⟩
    refine Option.bind_eq_some_iff.mpr ⟨d₅, hlaufzeit, ?_⟩
    refine Option.bind_eq_some_iff.mpr ⟨d₆, hback, ?_⟩
    exact Option.bind_eq_some_iff.mpr ⟨d, hrule, rfl⟩
  · have hlength : p.tailLength + 26 * k = registerLength p.regs + (23 + decimalLength 0 p.freiKb) +
        (26 + decimalLength 0 p.uptimeMs + decimalLength 0 p.taskCount) + (13 + 26 * k) + 163 := by
      unfold Panic.tailLength
      omega
    rw [hlength]
    exact htail
  · have hpos : d₅.pos.toNat ≤ d₂.pos.toNat + (registerLength p.regs +
        (23 + decimalLength 0 p.freiKb) +
        (26 + decimalLength 0 p.uptimeMs + decimalLength 0 p.taskCount)) := by
      rw [hmiddle.pos, BitVec.toNat_add, BitVec.toNat_ofNat]
      omega
    unfold Panic.tailLength
    by_cases hlow : d₅.pos.toNat < dumpBufSize
    · refine (hchain hlow).imp_right fun hfull => ?_
      omega
    · refine Or.inr ?_
      omega

theorem zeitLength_le {t : RtcTime} : zeitLength t ≤ 79 := by
  have hfour (v : BitVec 32) : decimalLength 4 v ≤ 10 := decimalLength_le (by decide)
  have htwo (v : BitVec 32) : decimalLength 2 v ≤ 10 := decimalLength_le (by decide)
  have hyear := hfour (2000 + t.year.setWidth 32)
  have hmonth := htwo (t.month.setWidth 32)
  have hday := htwo (t.day.setWidth 32)
  have hhour := htwo (t.hour.setWidth 32)
  have hminute := htwo (t.minute.setWidth 32)
  have hsecond := htwo (t.second.setWidth 32)
  unfold zeitLength
  omega

theorem tailLength_le : p.tailLength ≤ 479 := by
  have hnumber (v : BitVec 32) : decimalLength 0 v ≤ 10 := decimalLength_le (by decide)
  have hmemory := hnumber p.freiKb
  have huptime := hnumber p.uptimeMs
  have htasks := hnumber p.taskCount
  have hregister : registerLength p.regs ≤ 224 := by
    cases p.regs with
    | none => exact Nat.zero_le _
    | some r =>
      have hint := hnumber r.intNo
      exact (Nat.add_le_add_left hint 214)
  unfold Panic.tailLength
  omega

theorem blank_inside : Dump.blank.Inside where
  pos := by decide
  writes w hw := absurd hw List.not_mem_nil
  seen q hq := by
    rw [List.mem_singleton.mp hq]
    decide

/-- A report that keeps to the buffer is short enough. -/
theorem length_of_keeps (h : Keeps false p) : p.length < dumpBufSize := by
  obtain ⟨d₁, d₂, d, k, hrun, hd₁, hfehler, hd₂, hd, hseen, hle, hchain⟩ :=
    crashdumpWrite_eq (p := p)
  obtain ⟨d', hrun', hkept⟩ := h
  rw [hrun] at hrun'
  obtain rfl := Option.some.inj hrun'
  have hsize : dumpBufSize = 4096 := rfl
  have hzeit := zeitLength_le (t := p.zeit)
  have htail := tailLength_le (p := p)
  have hblank : Dump.blank.pos.toNat = 0 := rfl
  have hpos₁ : d₁.pos.toNat = 364 + zeitLength p.zeit := by
    rw [hd₁.pos, BitVec.toNat_add, BitVec.toNat_ofNat]
    omega
  by_cases hshort : p.message.length < 2 ^ 31
  · rw [stringLength_of_lt hshort] at hd₂
    have hpos₂ : d₂.pos.toNat = d₁.pos.toNat + (14 + p.message.length) := by
      rw [hd₂.pos, BitVec.toNat_add, BitVec.toNat_ofNat]
      omega
    have hend := hkept.seen d.pos hseen
    have hpos : d.pos.toNat = d₂.pos.toNat + (p.tailLength + 26 * k) := by
      have hfew : k ≤ 20 := hle.trans chainLength_le
      rw [hd.pos, BitVec.toNat_add, BitVec.toNat_ofNat]
      omega
    unfold Panic.length
    rcases hchain with rfl | hfull
    · omega
    · omega
  · -- the message is written over the end of the address space
    have hlong := stringLength_of_ge (Nat.not_lt.mp hshort)
    obtain ⟨w, hw, hfar⟩ := print_wraps (prints_fehler (s := p.message)) (by omega) (by omega) hfehler
    have hin := hkept.writes w (List.mem_cons_of_mem _ (hd.writes w hw))
    omega

/-- A report that is short enough keeps to the buffer. -/
theorem keeps_of_length (h : p.length < dumpBufSize) : Keeps false p := by
  obtain ⟨d₁, d₂, d, k, hrun, hd₁, -, hd₂, hd, -, hle, -⟩ := crashdumpWrite_eq (p := p)
  have hsize : dumpBufSize = 4096 := rfl
  unfold Panic.length at h
  rw [stringLength_of_lt (by omega)] at hd₂
  have hblank : Dump.blank.pos.toNat = 0 := rfl
  have hall := (hd₁.trans hd₂).trans hd
  have hinside := hall.inside blank_inside (by omega)
  refine ⟨_, hrun, ?_, hinside.seen, fun _ => ⟨_, rfl⟩⟩
  intro w hw
  rcases List.mem_cons.mp hw with rfl | hw
  · exact hinside.pos
  · exact hinside.writes w hw

/-- A message of 4000 characters, and no frames. -/
def longPanic : Panic where
  nachricht := some (List.replicate 4000 (ch 'x'))
  regs := none
  zeit := ⟨2025, 1, 1, 0, 0, 0⟩
  freePages := 0
  uptimeMs := 0
  taskCount := 1
  ebp := 0
  frame _ := (0, 0)

end PinguinOS.Debug
