import Mathlib.Data.List.Basic
import Mathlib.Logic.Function.Basic

/-! The interrupt gates, their stubs, and the dispatch to the registered handlers. -/
namespace PinguinOS.Cpu

/-- `cpu_regs_t`, without the registers that no handler here reads. -/
structure CpuRegs where
  edi : BitVec 32
  esi : BitVec 32
  ebx : BitVec 32
  edx : BitVec 32
  ecx : BitVec 32
  eax : BitVec 32
  intNo : BitVec 32
  errCode : BitVec 32
  eip : BitVec 32

/-- The functions that an interrupt is meant for; `pageFaultHandler` gets `CR2` besides. -/
inductive Handler
  | pageFaultHandler
  | syscallHandler
  | kprobeDebugHandler
  | kprobeInt3Handler
  | gdbDebugHandler
  | gdbInt3Handler
  | driver (n : Nat)
  deriving DecidableEq

/-- `idt_entry_t`, its offset as the stub `isrN` that it points to. -/
structure IdtEntry where
  offset : Option Nat
  selector : BitVec 16
  typeAttr : BitVec 8

/-- `idt_entries`, `irq_handlers` and `exc_handlers` -/
structure Interrupts where
  idtEntries : BitVec 8 → IdtEntry
  irqHandlers : Nat → Option Handler
  excHandlers : Nat → Option Handler

def idtFlagPresent : BitVec 8 := 0x80
def idtFlagRing0 : BitVec 8 := 0x00
def idtGateInterrupt : BitVec 8 := 0x0E
def gdtKernelCode : BitVec 16 := 0x08
def irqBase : Nat := 32

def idtSetGate (t : Interrupts) (vec : BitVec 8) (handler : Nat) (sel : BitVec 16)
    (typeAttr : BitVec 8) : Interrupts :=
  { t with idtEntries := Function.update t.idtEntries vec ⟨some handler, sel, typeAttr⟩ }

/-- The tables after their `memset`. -/
def idtEmpty : Interrupts := ⟨fun _ => ⟨none, 0, 0⟩, fun _ => none, fun _ => none⟩

def kgate : BitVec 8 := idtFlagPresent ||| idtFlagRing0 ||| idtGateInterrupt

/-- `SET_EXC(0)` to `SET_IRQ(n - 1)` -/
def setGates (t : Interrupts) : (n : Nat) → Interrupts
  | 0 => t
  | n + 1 => idtSetGate (setGates t n) (BitVec.ofNat 8 n) n gdtKernelCode kgate

def idtInit : Interrupts := setGates idtEmpty 48

def irqRegister (t : Interrupts) (irq : BitVec 8) (handler : Handler) : Interrupts :=
  if irq.toNat < 16 then
    { t with irqHandlers := Function.update t.irqHandlers irq.toNat (some handler) }
  else t

def exceptionRegister (t : Interrupts) (vec : BitVec 8) (handler : Handler) : Interrupts :=
  if vec.toNat < 32 then
    { t with excHandlers := Function.update t.excHandlers vec.toNat (some handler) }
  else t

/-- The vectors of `ISR_ERR`, for which the processor pushes an error code. -/
def isrErr : List Nat := [8, 10, 11, 12, 13, 14, 17, 21, 30]

/-- What the stub `isrN` adds to the frame. -/
def isrStub (n : Nat) (regs : CpuRegs) : CpuRegs :=
  { regs with
    intNo := BitVec.ofNat 32 n
    errCode := if n ∈ isrErr then regs.errCode else 0 }

/-- What comes of an interrupt: a handler is called with the frame, `kpanic`, or nothing. -/
inductive Effect
  | called (handler : Handler) (regs : CpuRegs)
  | panic
  | ignored

/-- `isr_dispatch`, up to the end of interrupt. -/
def isrDispatch (t : Interrupts) (regs : CpuRegs) : Effect :=
  if regs.intNo.toNat < 32 then
    match t.excHandlers regs.intNo.toNat with
    | some handler => .called handler regs
    | none => .panic
  else if regs.intNo.toNat < 48 then
    match t.irqHandlers (regs.intNo.toNat - irqBase) with
    | some handler => .called handler regs
    | none => .ignored
  else .ignored

/-- An interrupt goes through its gate, if that is present. -/
def throughGate (t : Interrupts) (vec : BitVec 8) (regs : CpuRegs) : Option Effect :=
  let gate := t.idtEntries vec
  if gate.typeAttr &&& idtFlagPresent = 0 then none
  else gate.offset.map fun n => isrDispatch t (isrStub n regs)

/-- Without a gate there is a general protection fault that names the vector. -/
def interrupt (t : Interrupts) (vec : BitVec 8) (regs : CpuRegs) : Option Effect :=
  match throughGate t vec regs with
  | some effect => some effect
  | none => throughGate t 13 { regs with errCode := BitVec.ofNat 32 (vec.toNat * 8 + 2) }

variable {t : Interrupts} {vec irq : BitVec 8} {n : Nat} {handler : Handler} {regs : CpuRegs}

theorem setGates_handlers : (setGates t n).excHandlers = t.excHandlers ∧
    (setGates t n).irqHandlers = t.irqHandlers := by
  induction n with
  | zero => exact ⟨rfl, rfl⟩
  | succ n ih => exact ih

/-- The gates of the first vectors point to the stubs of the same number. -/
theorem setGates_entries (hn : n ≤ 256) : (setGates t n).idtEntries vec =
    if vec.toNat < n then ⟨some vec.toNat, gdtKernelCode, kgate⟩ else t.idtEntries vec := by
  induction n with
  | zero => exact (if_neg (Nat.not_lt_zero _)).symm
  | succ n ih =>
    have hvalue : (BitVec.ofNat 8 n).toNat = n := by
      rw [BitVec.toNat_ofNat]
      omega
    unfold setGates idtSetGate
    dsimp only
    by_cases hvec : vec = BitVec.ofNat 8 n
    · have hlt : vec.toNat < n + 1 := by
        rw [hvec, hvalue]
        omega
      rw [if_pos hlt, hvec, Function.update_self, hvalue]
    · have hne : vec.toNat ≠ n := fun heq => hvec (by rw [← heq, BitVec.ofNat_toNat]; simp)
      rw [Function.update_of_ne hvec, ih (by omega)]
      by_cases hlt : vec.toNat < n
      · rw [if_pos hlt, if_pos (by omega)]
      · rw [if_neg hlt, if_neg (by omega)]

theorem irqRegister_gates : (irqRegister t irq handler).idtEntries = t.idtEntries ∧
    (irqRegister t irq handler).excHandlers = t.excHandlers := by
  unfold irqRegister
  split <;> exact ⟨rfl, rfl⟩

theorem exceptionRegister_gates : (exceptionRegister t vec handler).idtEntries = t.idtEntries := by
  unfold exceptionRegister
  split <;> rfl

theorem exceptionRegister_handlers (h : vec.toNat < 32) :
    (exceptionRegister t vec handler).excHandlers n =
      if n = vec.toNat then some handler else t.excHandlers n := by
  unfold exceptionRegister
  rw [if_pos h]
  exact Function.update_apply t.excHandlers vec.toNat (some handler) n

/-- A vector above 31 is not registered. -/
theorem exceptionRegister_high (h : ¬ vec.toNat < 32) : exceptionRegister t vec handler = t :=
  if_neg h

end PinguinOS.Cpu
