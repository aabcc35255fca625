import PinguinOS.Cpu.Idt

/-! Who registers a handler while the kernel boots, and which interrupts get to theirs. -/
namespace PinguinOS.Cpu

/-- A system call: what it returns for the registers `ebx`, `ecx`, `edx`, `esi` and `edi`. -/
abbrev SyscallFn := List (BitVec 32) → BitVec 32

def nrSyscalls : Nat := 256

/-- `SYS_EXIT`, `SYS_READ`, `SYS_WRITE`, `SYS_GETPID`, `SYS_KILL`, `SYS_SLEEP`, `SYS_YIELD` -/
def registeredCalls : List Nat := [1, 3, 4, 20, 37, 162, 158]

/-- `syscall_table` after `syscall_init`; `impl` are the functions `sys_exit` and so on. -/
def syscallTable (impl : Nat → SyscallFn) (nr : Nat) : Option SyscallFn :=
  if nr ∈ registeredCalls then some (impl nr) else none

def syscallHandler (table : Nat → Option SyscallFn) (regs : CpuRegs) : CpuRegs :=
  if regs.eax.toNat ≥ nrSyscalls then { regs with eax := -1 }
  else
    match table regs.eax.toNat with
    | none => { regs with eax := -1 }
    | some call => { regs with eax := call [regs.ebx, regs.ecx, regs.edx, regs.esi, regs.edi] }

/-- `kprobe_t`, without the byte that it saves and its functions. -/
structure Kprobe where
  addr : BitVec 32
  active : Bool
  singleStepping : Bool

def kprobeMax : Nat := 32

def findProbe (probes : Nat → Kprobe) (addr : BitVec 32) : Option Nat :=
  (List.range kprobeMax).find? fun i => (probes i).active ∧ (probes i).addr = addr

/-- What `paging_init` does to the gates: `pf_handler_stub` is another name of `isr14`. -/
def pagingInitGate (t : Interrupts) : Interrupts := idtSetGate t 14 14 0x08 0x8E

/-- What `syscall_init` does to the handlers. -/
def syscallInit (t : Interrupts) : Interrupts := exceptionRegister t 0x80 .syscallHandler

def kprobesInit (t : Interrupts) : Interrupts :=
  exceptionRegister (exceptionRegister t 1 .kprobeDebugHandler) 3 .kprobeInt3Handler

def gdbstubInit (t : Interrupts) : Interrupts :=
  exceptionRegister (exceptionRegister t 1 .gdbDebugHandler) 3 .gdbInt3Handler

/-- The drivers: each has a line and a handler. -/
def driversInit (t : Interrupts) (drivers : List (BitVec 8 × Nat)) : Interrupts :=
  drivers.foldl (fun t driver => irqRegister t driver.1 (.driver driver.2)) t

/-- The order of `kernel.c`, which does not call `syscall_init`; `syscalls` says whether it does. -/
def boot (syscalls : Bool) (drivers : List (BitVec 8 × Nat)) : Interrupts :=
  let t := pagingInitGate idtInit
  let t := if syscalls then syscallInit t else t
  driversInit (gdbstubInit (kprobesInit t)) drivers

/-- `syscall_table` at the end of the boot. -/
def bootTable (syscalls : Bool) (impl : Nat → SyscallFn) : Nat → Option SyscallFn :=
  if syscalls then syscallTable impl else fun _ => none

/-- A subsystem has installed a gate or a handler for the vector. -/
def Installed (syscalls : Bool) (drivers : List (BitVec 8 × Nat)) (vec : BitVec 8) : Prop :=
  vec = 1 ∨ vec = 3 ∨ vec = 14 ∨ syscalls ∧ vec = 0x80 ∨
    ∃ driver ∈ drivers, driver.1.toNat < 16 ∧ vec.toNat = irqBase + driver.1.toNat

/-- The breakpoint is that of a probe. -/
def HitsProbe (probes : Nat → Kprobe) (regs : CpuRegs) : Prop :=
  ∃ i, findProbe probes (regs.eip - 1) = some i

/-- A probe waits for the end of its single step. -/
def Stepping (probes : Nat → Kprobe) : Prop :=
  ∃ i < kprobeMax, (probes i).active ∧ (probes i).singleStepping

/-- A page fault reaches `page_fault_handler`, a registered system call is made and returns its
result, a probe reaches its handler, and no installed handler ends in a panic. -/
structure Reaches (syscalls : Bool) (impl : Nat → SyscallFn) (drivers : List (BitVec 8 × Nat))
    (probes : Nat → Kprobe) (vec : BitVec 8) (regs : CpuRegs) : Prop where
  pageFault : vec = 14 →
    ∃ frame, interrupt (boot syscalls drivers) vec regs = some (.called .pageFaultHandler frame)
  syscall : vec = 0x80 → ∀ call, bootTable syscalls impl regs.eax.toNat = some call →
    ∃ frame, interrupt (boot syscalls drivers) vec regs = some (.called .syscallHandler frame) ∧
      (syscallHandler (bootTable syscalls impl) frame).eax =
        call [regs.ebx, regs.ecx, regs.edx, regs.esi, regs.edi]
  breakpoint : vec = 3 → HitsProbe probes regs →
    ∃ frame, interrupt (boot syscalls drivers) vec regs = some (.called .kprobeInt3Handler frame)
  debug : vec = 1 → Stepping probes →
    ∃ frame, interrupt (boot syscalls drivers) vec regs = some (.called .kprobeDebugHandler frame)
  noPanic : Installed syscalls drivers vec →
    interrupt (boot syscalls drivers) vec regs ≠ some .panic

variable {syscalls : Bool} {impl : Nat → SyscallFn} {drivers : List (BitVec 8 × Nat)}
  {probes : Nat → Kprobe} {vec : BitVec 8} {regs : CpuRegs} {t : Interrupts} {n : Nat}

/-! The tables after the boot. -/

theorem driversInit_gates : (driversInit t drivers).idtEntries = t.idtEntries ∧
    (driversInit t drivers).excHandlers = t.excHandlers := by
  induction drivers generalizing t with
  | nil => exact ⟨rfl, rfl⟩
  | cons driver drivers ih =>
    obtain ⟨hentries, hhandlers⟩ := @ih (irqRegister t driver.1 (.driver driver.2))
    obtain ⟨hentries', hhandlers'⟩ := @irqRegister_gates t driver.1 (.driver driver.2)
    exact ⟨hentries.trans hentries', hhandlers.trans hhandlers'⟩

/-- The registration for `int 0x80` is above the table. -/
theorem syscallInit_eq : syscallInit t = t := exceptionRegister_high (by decide)

theorem boot_eq : boot syscalls drivers =
    driversInit (gdbstubInit (kprobesInit (pagingInitGate idtInit))) drivers := by
  unfold boot
  dsimp only
  rw [syscallInit_eq, ite_self]

theorem boot_entries : (boot syscalls drivers).idtEntries vec =
    if vec.toNat < 48 then ⟨some vec.toNat, gdtKernelCode, kgate⟩ else ⟨none, 0, 0⟩ := by
  have hgates : (pagingInitGate idtInit).idtEntries vec = idtInit.idtEntries vec := by
    unfold pagingInitGate idtSetGate
    dsimp only
    by_cases hvec : vec = 14
    · rw [hvec, Function.update_self]
      unfold idtInit
      rw [setGates_entries (by decide)]
      rfl
    · rw [Function.update_of_ne hvec]
  have hinit : idtInit.idtEntries vec = _ := setGates_entries (by decide)
  rw [boot_eq, driversInit_gates.1]
  unfold gdbstubInit kprobesInit
  rw [exceptionRegister_gates, exceptionRegister_gates, exceptionRegister_gates,
    exceptionRegister_gates, hgates, hinit]
  rfl

/-- `gdbstub_init` is the last one to register the vectors 1 and 3. -/
theorem boot_handlers : (boot syscalls drivers).excHandlers n =
    if n = 3 then some .gdbInt3Handler else if n = 1 then some .gdbDebugHandler else none := by
  have hinit : idtInit.excHandlers = fun _ => none := setGates_handlers.1
  have hgates : (pagingInitGate idtInit).excHandlers = idtInit.excHandlers := rfl
  have hone : (1 : BitVec 8).toNat = 1 := rfl
  have hthree : (3 : BitVec 8).toNat = 3 := rfl
  rw [boot_eq, driversInit_gates.2]
  unfold gdbstubInit kprobesInit
  rw [exceptionRegister_handlers (by decide), exceptionRegister_handlers (by decide),
    exceptionRegister_handlers (by decide), exceptionRegister_handlers (by decide), hgates, hinit,
    hone, hthree]
  split_ifs <;> rfl

/-! What each vector comes to. -/

theorem throughGate_boot : throughGate (boot syscalls drivers) vec regs =
    if vec.toNat < 48 then some (isrDispatch (boot syscalls drivers) (isrStub vec.toNat regs))
    else none := by
  have hpresent : ¬ kgate &&& idtFlagPresent = 0 := by decide
  unfold throughGate
  rw [boot_entries]
  dsimp only
  by_cases hvec : vec.toNat < 48
  · rw [if_pos hvec, if_pos hvec, if_neg hpresent]
    rfl
  · rw [if_neg hvec, if_neg hvec]
    rfl

theorem isrStub_intNo (hn : n < 48) : (isrStub n regs).intNo.toNat = n := by
  unfold isrStub
  dsimp only
  rw [BitVec.toNat_ofNat]
  omega

/-- An exception goes to the debugger or ends in a panic. -/
theorem isrDispatch_exception (hn : n < 32) :
    isrDispatch (boot syscalls drivers) (isrStub n regs) =
      if n = 3 then .called .gdbInt3Handler (isrStub n regs)
      else if n = 1 then .called .gdbDebugHandler (isrStub n regs) else .panic := by
  unfold isrDispatch
  rw [isrStub_intNo (by omega), if_pos hn, boot_handlers]
  by_cases hthree : n = 3
  · rw [if_pos hthree, if_pos hthree]
  · rw [if_neg hthree, if_neg hthree]
    by_cases hone : n = 1
    · rw [if_pos hone, if_pos hone]
    · rw [if_neg hone, if_neg hone]

theorem interrupt_exception (hvec : vec.toNat < 32) :
    interrupt (boot syscalls drivers) vec regs =
      some (if vec.toNat = 3 then .called .gdbInt3Handler (isrStub vec.toNat regs)
        else if vec.toNat = 1 then .called .gdbDebugHandler (isrStub vec.toNat regs)
        else .panic) := by
  unfold interrupt
  rw [throughGate_boot, if_pos (by omega), isrDispatch_exception hvec]

/-- The line of a driver does not end in a panic, whether it has a handler or not. -/
theorem interrupt_irq (hvec : 32 ≤ vec.toNat) (hlt : vec.toNat < 48) :
    interrupt (boot syscalls drivers) vec regs ≠ some .panic := by
  unfold interrupt
  rw [throughGate_boot, if_pos hlt]
  dsimp only
  unfold isrDispatch
  rw [isrStub_intNo hlt, if_neg (by omega), if_pos hlt]
  cases (boot syscalls drivers).irqHandlers (vec.toNat - irqBase) with
  | none => exact fun h => nomatch h
  | some handler => exact fun h => nomatch h

/-- Without a gate the general protection fault is not handled either. -/
theorem interrupt_high (hvec : 48 ≤ vec.toNat) :
    interrupt (boot syscalls drivers) vec regs = some .panic := by
  have hthirteen : (13 : BitVec 8).toNat = 13 := rfl
  unfold interrupt
  rw [throughGate_boot, if_neg (by omega)]
  dsimp only
  rw [throughGate_boot, hthirteen, if_pos (by decide), isrDispatch_exception (by decide)]
  rfl

/-- The interrupts that reach what they are meant for are all but the page fault, the system call,
and the breakpoints and steps of probes. -/
theorem interrupts_reach_iff (syscalls : Bool) (impl : Nat → SyscallFn)
    (drivers : List (BitVec 8 × Nat)) (probes : Nat → Kprobe) (vec : BitVec 8) (regs : CpuRegs) :
    Reaches syscalls impl drivers probes vec regs ↔
      vec ≠ 14 ∧ ¬ (syscalls ∧ vec = 0x80) ∧ ¬ (vec = 3 ∧ HitsProbe probes regs) ∧
        ¬ (vec = 1 ∧ Stepping probes) := by
  constructor
  · intro h
    refine ⟨?_, ?_, ?_, ?_⟩
    · rintro rfl
      obtain ⟨frame, hcalled⟩ := h.pageFault rfl
      rw [interrupt_exception (by decide)] at hcalled
      cases hcalled
    · rintro ⟨hcalls, rfl⟩
      exact h.noPanic (.inr (.inr (.inr (.inl ⟨hcalls, rfl⟩)))) (interrupt_high (by decide))
    · rintro ⟨rfl, hhits⟩
      obtain ⟨frame, hcalled⟩ := h.breakpoint rfl hhits
      rw [interrupt_exception (by decide)] at hcalled
      cases hcalled
    · rintro ⟨rfl, hstepping⟩
      obtain ⟨frame, hcalled⟩ := h.debug rfl hstepping
      rw [interrupt_exception (by decide)] at hcalled
      cases hcalled
  · rintro ⟨hfault, hcall, hbreak, hstep⟩
    constructor
    case pageFault => exact fun hvec => absurd hvec hfault
    case syscall =>
      intro hvec call htable
      have hno : syscalls = false := Bool.eq_false_iff.mpr fun hcalls => hcall ⟨hcalls, hvec⟩
      rw [hno] at htable
      cases htable
    case breakpoint => exact fun hvec hhits => absurd ⟨hvec, hhits⟩ hbreak
    case debug => exact fun hvec hstepping => absurd ⟨hvec, hstepping⟩ hstep
    case noPanic =>
      rintro (rfl | rfl | rfl | hcalls | ⟨driver, -, hline, hvec⟩)
      · rw [interrupt_exception (by decide)]
        exact fun h => nomatch h
      · rw [interrupt_exception (by decide)]
        exact fun h => nomatch h
      · exact absurd rfl hfault
      · exact absurd hcalls hcall
      · unfold irqBase at hvec
        exact interrupt_irq (by omega) (by omega)

/-- A page fault at boot, with all registers 0, is a panic. -/
theorem not_interrupts_reach_fault : ¬ Reaches false (fun _ _ => 0) [] (fun _ => ⟨0, false, false⟩)
    14 ⟨0, 0, 0, 0, 0, 0, 0, 0, 0⟩ := by
  intro h
  obtain ⟨frame, hcalled⟩ := h.pageFault rfl
  rw [interrupt_exception (by decide)] at hcalled
  cases hcalled

end PinguinOS.Cpu
