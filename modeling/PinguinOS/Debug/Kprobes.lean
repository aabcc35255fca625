import Mathlib.Data.Fintype.Basic
import Mathlib.Logic.Function.Basic
import PinguinOS.Lib.Run

/-! Kprobes: breakpoints in the code of the kernel, and the single step behind each of them. -/
namespace PinguinOS.Debug

def kprobeMax : Nat := 32

/-- The opcode of `INT3`. -/
def int3 : BitVec 8 := 0xCC

/-- `TF` in `eflags` -/
def trapFlag : BitVec 32 := 1 <<< 8

/-- The fields of `cpu_regs_t` that the handlers use. -/
structure CpuRegs where
  eip : BitVec 32
  eflags : BitVec 32

def CpuRegs.tf (r : CpuRegs) : Bool := r.eflags.getLsbD 8

/-- `regs->eflags |= (1u << 8)` -/
def CpuRegs.setTrap (r : CpuRegs) : CpuRegs := { r with eflags := r.eflags ||| trapFlag }

/-- `regs->eflags &= ~(1u << 8)` -/
def CpuRegs.clearTrap (r : CpuRegs) : CpuRegs := { r with eflags := r.eflags &&& ~~~trapFlag }

/-- `kprobe_t`; a handler is a function's address, and `none` is `NULL`. -/
structure Kprobe where
  addr : BitVec 32
  savedByte : BitVec 8
  pre : Option Nat
  post : Option Nat
  active : Bool
  singleStepping : Bool

abbrev KprobeTable := Fin kprobeMax → Kprobe

/-- A handler of a probe that runs, with the registers that it was given. -/
inductive KprobeCall where
  | pre (kp : Fin kprobeMax) (regs : CpuRegs)
  | post (regs : CpuRegs)

def KprobeCall.regs : KprobeCall → CpuRegs
  | .pre _ regs => regs
  | .post regs => regs

/-- The probes, the bytes of the code, the registers of what runs now, and the handlers below it,
the innermost first. -/
structure KprobeSys where
  probes : KprobeTable
  code : BitVec 32 → BitVec 8
  regs : CpuRegs
  calls : List KprobeCall

inductive KprobeAction where
  | register (addr : BitVec 32) (pre post : Option Nat)
  | unregister (addr : BitVec 32)
  /-- A breakpoint is hit; `eip` is behind it. -/
  | breakpoint (eip : BitVec 32)
  /-- A single-step trap. -/
  | trap (eip : BitVec 32)
  /-- The handler of a probe that runs returns. -/
  | handlerReturn

def findProbe (probes : KprobeTable) (addr : BitVec 32) : Option (Fin kprobeMax) :=
  (List.finRange kprobeMax).find? fun i => (probes i).active && (probes i).addr == addr

/-- The first probe that was single-stepping. -/
def findStepping (probes : KprobeTable) : Option (Fin kprobeMax) :=
  (List.finRange kprobeMax).find? fun i => (probes i).active && (probes i).singleStepping

def findFree (probes : KprobeTable) : Option (Fin kprobeMax) :=
  (List.finRange kprobeMax).find? fun i => !(probes i).active

namespace KprobeSys

/-- After `kprobes_init`, with the trap flag clear. -/
def init (code : BitVec 32 → BitVec 8) (regs : CpuRegs) : KprobeSys where
  probes _ := ⟨0, 0, none, none, false, false⟩
  code := code
  regs := regs.clearTrap
  calls := []

def setProbe (s : KprobeSys) (i : Fin kprobeMax) (kp : Kprobe) : KprobeSys :=
  { s with probes := Function.update s.probes i kp }

def setByte (s : KprobeSys) (addr : BitVec 32) (b : BitVec 8) : KprobeSys :=
  { s with code := Function.update s.code addr b }

/-- A handler runs on top of the code with `regs`; the gate clears its trap flag. -/
def call (s : KprobeSys) (c : KprobeCall) : KprobeSys :=
  { s with regs := c.regs.clearTrap, calls := c :: s.calls }

/-- `kprobe_int3_handler` after the pre-handler -/
def int3Resume (s : KprobeSys) (i : Fin kprobeMax) (regs : CpuRegs) : KprobeSys :=
  let kp := s.probes i
  let s := s.setByte kp.addr kp.savedByte
  { s.setProbe i { kp with singleStepping := true } with
    regs := { regs.setTrap with eip := kp.addr } }

def int3Handler (s : KprobeSys) (regs : CpuRegs) : KprobeSys :=
  let hitAddr := regs.eip - 1
  match findProbe s.probes hitAddr with
  | none => { s with regs := regs }
  | some i =>
    if (s.probes i).pre.isSome then s.call (.pre i regs) else s.int3Resume i regs

def debugHandler (s : KprobeSys) (regs : CpuRegs) : KprobeSys :=
  match findStepping s.probes with
  | none => { s with regs := regs }
  | some i =>
    let kp := s.probes i
    let regs := regs.clearTrap
    let s := s.setProbe i { kp with singleStepping := false }
    let s := s.setByte kp.addr int3
    if kp.post.isSome then s.call (.post regs) else { s with regs := regs }

/-- `kprobe_register`: the system after it, and its result -/
def register (s : KprobeSys) (addr : BitVec 32) (pre post : Option Nat) : KprobeSys × Int :=
  match findProbe s.probes addr with
  | some _ => (s, -1)
  | none =>
    match findFree s.probes with
    | none => (s, -1)
    | some i =>
      ((s.setProbe i ⟨addr, s.code addr, pre, post, true, false⟩).setByte addr int3, 0)

def unregister (s : KprobeSys) (addr : BitVec 32) : KprobeSys :=
  match findProbe s.probes addr with
  | none => s
  | some i =>
    let kp := s.probes i
    (s.setByte kp.addr kp.savedByte).setProbe i { kp with active := false }

/-- The rest of the handler that has called the probe's one. -/
def handlerReturn (s : KprobeSys) : Option KprobeSys :=
  match s.calls with
  | [] => none
  | .pre i regs :: calls => some ({ s with calls := calls }.int3Resume i regs)
  | .post regs :: calls => some { s with calls := calls, regs := regs }

def step (s : KprobeSys) : KprobeAction → Option KprobeSys
  | .register addr pre post => some (s.register addr pre post).1
  | .unregister addr => some (s.unregister addr)
  | .breakpoint eip => some (s.int3Handler { s.regs with eip := eip })
  | .trap eip => some (s.debugHandler { s.regs with eip := eip })
  | .handlerReturn => s.handlerReturn

end KprobeSys

/-- The probe is active, does not single-step, and owns this address. -/
def Kprobe.ArmedAt (kp : Kprobe) (a : BitVec 32) : Prop :=
  kp.active = true ∧ kp.singleStepping = false ∧ kp.addr = a

instance {kp : Kprobe} {a : BitVec 32} : Decidable (kp.ArmedAt a) :=
  inferInstanceAs (Decidable (_ ∧ _ ∧ _))

def Kprobe.Steps (kp : Kprobe) : Prop := kp.active = true ∧ kp.singleStepping = true

instance {kp : Kprobe} : Decidable kp.Steps := inferInstanceAs (Decidable (_ ∧ _))

/-- Each byte of the code is the breakpoint of a probe, or the original one. -/
def BytesPatched (orig : BitVec 32 → BitVec 8) (probes : KprobeTable)
    (code : BitVec 32 → BitVec 8) : Prop :=
  ∀ a, code a = if ∃ i, (probes i).ArmedAt a then int3 else orig a

namespace KprobeSys

/-- The trap flag is set in what runs, or in what the handlers have interrupted. -/
def Trapping (s : KprobeSys) : Prop := s.regs.tf = true ∨ ∃ c ∈ s.calls, c.regs.tf = true

/-- The probes, the code and the trap flags belong together. -/
structure Patched (orig : BitVec 32 → BitVec 8) (s : KprobeSys) : Prop where
  bytes : BytesPatched orig s.probes s.code
  trap : s.Trapping ↔ ∃ i, (s.probes i).Steps
  removed : (∀ i, (s.probes i).active = false) → s.code = orig ∧ ¬ s.Trapping

/-- The steps that keep the probes, the code and the trap flags together. -/
def Keeps (s : KprobeSys) : KprobeAction → Prop
  | .register _ _ _ => True
  -- the probe does not single-step, or another one does so too
  | .unregister addr => ∀ i, findProbe s.probes addr = some i → (s.probes i).Steps →
      ∃ j ≠ i, (s.probes j).Steps
  | .breakpoint _ => True
  -- another flag is set just when another probe single-steps
  | .trap _ => ∀ i, findStepping s.probes = some i →
      ((∃ c ∈ s.calls, c.regs.tf = true) ↔ ∃ j ≠ i, (s.probes j).Steps)
  | .handlerReturn =>
    match s.calls with
    | [] => True
    -- the probe is still there; if it is not, another one single-steps and its address is free
    | .pre i _ :: _ => (s.probes i).active = true ∨
        (∃ j, (s.probes j).Steps) ∧
          ((∃ j, (s.probes j).ArmedAt (s.probes i).addr) → (s.probes i).savedByte = int3)
    -- the post-handler does not take a trap flag with it
    | .post regs :: calls => (regs.tf = true ∨ ∃ c ∈ calls, c.regs.tf = true) ↔
        ∃ j, (s.probes j).Steps

/-- Two active probes are not at one address, and a probe that is active or whose pre-handler runs
has saved the original byte. -/
structure Sound (orig : BitVec 32 → BitVec 8) (s : KprobeSys) : Prop where
  distinct : ∀ i j, (s.probes i).active = true → (s.probes j).active = true →
    (s.probes i).addr = (s.probes j).addr → i = j
  saved : ∀ i, ((s.probes i).active = true ∨ ∃ regs, .pre i regs ∈ s.calls) →
    (s.probes i).savedByte = orig (s.probes i).addr

end KprobeSys

variable {orig code : BitVec 32 → BitVec 8} {probes : KprobeTable} {kp : Kprobe}
  {i j : Fin kprobeMax} {a x : BitVec 32} {regs : CpuRegs} {s t : KprobeSys}
  {action : KprobeAction} {P : Kprobe → Prop} {pre post : Option Nat}

@[simp] theorem tf_setTrap : regs.setTrap.tf = true := by
  simp [CpuRegs.setTrap, CpuRegs.tf, trapFlag]

@[simp] theorem tf_clearTrap : regs.clearTrap.tf = false := by
  simp [CpuRegs.clearTrap, CpuRegs.tf, trapFlag]

@[simp] theorem tf_eip : CpuRegs.tf { regs with eip := a } = regs.tf := rfl

/-! The table. -/

theorem exists_update : (∃ j, P (Function.update probes i kp j)) ↔ P kp ∨ ∃ j ≠ i, P (probes j) := by
  constructor
  · rintro ⟨j, hj⟩
    by_cases hji : j = i
    · rw [hji, Function.update_self] at hj
      exact Or.inl hj
    · rw [Function.update_of_ne hji] at hj
      exact Or.inr ⟨j, hji, hj⟩
  · rintro (hkp | ⟨j, hji, hj⟩)
    · exact ⟨i, by rwa [Function.update_self]⟩
    · exact ⟨j, by rwa [Function.update_of_ne hji]⟩

theorem exists_iff (i : Fin kprobeMax) :
    (∃ j, P (probes j)) ↔ P (probes i) ∨ ∃ j ≠ i, P (probes j) := by
  have h := @exists_update probes (probes i) i P
  rwa [Function.update_eq_self] at h

theorem findProbe_some (h : findProbe probes a = some i) :
    (probes i).active = true ∧ (probes i).addr = a := by
  have hfound := List.find?_some h
  simpa using hfound

theorem findProbe_none (h : findProbe probes a = none) (hactive : (probes i).active = true) :
    (probes i).addr ≠ a := by
  have hnone := List.find?_eq_none.mp h i (List.mem_finRange i)
  simpa [hactive] using hnone

theorem findFree_some (h : findFree probes = some i) : (probes i).active = false := by
  have hfound := List.find?_some h
  simpa using hfound

theorem findStepping_some (h : findStepping probes = some i) : (probes i).Steps := by
  have hfound := List.find?_some h
  simpa [Kprobe.Steps] using hfound

/-! The bytes. -/

/-- The original byte is put back at the address of a probe. -/
theorem bytes_disarm_iff (h : BytesPatched orig probes code)
    (howns : ∀ x, (probes i).ArmedAt x → x = a) (hkp : ∀ x, ¬ kp.ArmedAt x) :
    BytesPatched orig (Function.update probes i kp) (Function.update code a (orig a)) ↔
      ((∃ j ≠ i, (probes j).ArmedAt a) → orig a = int3) := by
  have hupdate : ∀ x, (∃ j, (Function.update probes i kp j).ArmedAt x) ↔
      ∃ j ≠ i, (probes j).ArmedAt x := fun x =>
    (@exists_update probes kp i (·.ArmedAt x)).trans (or_iff_right (hkp x))
  constructor
  · intro hbytes hother
    have hbyte := hbytes a
    rw [Function.update_self, if_pos ((hupdate a).mpr hother)] at hbyte
    exact hbyte
  · intro hother x
    by_cases hx : x = a
    · rw [hx, Function.update_self]
      by_cases harmed : ∃ j ≠ i, (probes j).ArmedAt a
      · rw [if_pos ((hupdate a).mpr harmed), hother harmed]
      · rw [if_neg fun hex => harmed ((hupdate a).mp hex)]
    · have hsame : (∃ j, (Function.update probes i kp j).ArmedAt x) ↔
          ∃ j, (probes j).ArmedAt x := by
        rw [hupdate, @exists_iff probes (·.ArmedAt x) i, or_iff_right fun hx' => hx (howns x hx')]
      rw [Function.update_of_ne hx, h x]
      simp only [hsame]

/-- A probe that was not armed puts its breakpoint in. -/
theorem bytes_arm (h : BytesPatched orig probes code) (hold : ∀ x, ¬ (probes i).ArmedAt x)
    (hkp : ∀ x, kp.ArmedAt x ↔ x = a) :
    BytesPatched orig (Function.update probes i kp) (Function.update code a int3) := by
  intro x
  have hupdate := @exists_update probes kp i (·.ArmedAt x)
  by_cases hx : x = a
  · rw [if_pos (hupdate.mpr (Or.inl ((hkp x).mpr hx))), hx, Function.update_self]
  · have hsame : (∃ j, (Function.update probes i kp j).ArmedAt x) ↔ ∃ j, (probes j).ArmedAt x := by
      rw [hupdate, or_iff_right fun hx' => hx ((hkp x).mp hx'),
        @exists_iff probes (·.ArmedAt x) i, or_iff_right (hold x)]
    rw [Function.update_of_ne hx, h x]
    simp only [hsame]

namespace KprobeSys

/-- When no probe is left, nothing of them is left in the code and in the flags. -/
theorem patched_iff : s.Patched orig ↔
    BytesPatched orig s.probes s.code ∧ (s.Trapping ↔ ∃ i, (s.probes i).Steps) := by
  refine ⟨fun h => ⟨h.bytes, h.trap⟩, fun ⟨hbytes, htrap⟩ => ⟨hbytes, htrap, fun hnone => ?_⟩⟩
  constructor
  · funext a
    rw [hbytes a, if_neg]
    rintro ⟨i, hactive, -⟩
    rw [hnone i] at hactive
    cases hactive
  · intro hflag
    obtain ⟨i, hactive, -⟩ := htrap.mp hflag
    rw [hnone i] at hactive
    cases hactive

/-! What each step does to the invariants. -/

theorem register_cases : (s.register a pre post).1 = s ∨
    ∃ i, findProbe s.probes a = none ∧ (s.probes i).active = false ∧
      (s.register a pre post).1 =
        (s.setProbe i ⟨a, s.code a, pre, post, true, false⟩).setByte a int3 := by
  unfold register
  cases hprobe : findProbe s.probes a with
  | some i => exact Or.inl rfl
  | none =>
    dsimp only
    cases hfree : findFree s.probes with
    | none => exact Or.inl rfl
    | some i => exact Or.inr ⟨i, rfl, findFree_some hfree, rfl⟩

theorem register_patched (h : s.Patched orig) : (s.register a pre post).1.Patched orig := by
  rcases @register_cases a s pre post with hsame | ⟨i, -, hfree, hreg⟩
  · rwa [hsame]
  rw [hreg, patched_iff]
  have hnot : ∀ x, ¬ (s.probes i).ArmedAt x := fun x harmed => by
    have hactive := harmed.1
    rw [hfree] at hactive
    cases hactive
  refine ⟨bytes_arm h.bytes hnot fun x => ?_, h.trap.trans ?_⟩
  · exact ⟨fun harmed => harmed.2.2.symm, fun hx => ⟨rfl, rfl, hx.symm⟩⟩
  · have hold : ¬ (s.probes i).Steps := fun hsteps => by
      have hactive := hsteps.1
      rw [hfree] at hactive
      cases hactive
    have hnew : ¬ (Kprobe.mk a (s.code a) pre post true false).Steps := fun hsteps =>
      Bool.false_ne_true hsteps.2
    rw [exists_iff i, or_iff_right hold]
    exact (exists_update.trans (or_iff_right hnew)).symm

/-- A probe whose saved byte is put back, and which is not armed any more. -/
theorem disarmed_patched_iff (h : BytesPatched orig s.probes s.code)
    (hsaved : (s.probes i).savedByte = orig (s.probes i).addr) (hkp : ∀ x, ¬ kp.ArmedAt x)
    (hprobes : t.probes = Function.update s.probes i kp)
    (hcode : t.code = Function.update s.code (s.probes i).addr (s.probes i).savedByte) :
    t.Patched orig ↔
      ((∃ j ≠ i, (s.probes j).ArmedAt (s.probes i).addr) → (s.probes i).savedByte = int3) ∧
        (t.Trapping ↔ kp.Steps ∨ ∃ j ≠ i, (s.probes j).Steps) := by
  rw [patched_iff, hprobes, hcode, hsaved, bytes_disarm_iff h (fun x hx => hx.2.2.symm) hkp,
    exists_update]

/-- An active probe has its address for itself. -/
theorem Sound.alone (hs : s.Sound orig) (hactive : (s.probes i).active = true) :
    ¬ ∃ j ≠ i, (s.probes j).ArmedAt (s.probes i).addr := fun ⟨j, hj, harmed⟩ =>
  hj (hs.distinct j i harmed.1 hactive harmed.2.2)

theorem unregister_patched_iff (hs : s.Sound orig) (h : s.Patched orig) :
    (s.unregister a).Patched orig ↔ s.Keeps (.unregister a) := by
  unfold unregister Keeps
  dsimp only
  cases hfind : findProbe s.probes a with
  | none => exact iff_of_true h fun _ hnone => nomatch hnone
  | some i =>
    obtain ⟨hactive, -⟩ := findProbe_some hfind
    dsimp only
    rw [disarmed_patched_iff (i := i) h.bytes (hs.saved i (Or.inl hactive))
      (fun x harmed => Bool.false_ne_true harmed.1) rfl rfl]
    have hgone : ¬ ({ s.probes i with active := false } : Kprobe).Steps := fun hsteps =>
      Bool.false_ne_true hsteps.1
    have htrap := h.trap
    rw [exists_iff i] at htrap
    rw [and_iff_right fun hother => absurd hother (hs.alone hactive), or_iff_right hgone]
    constructor
    · intro hiff k hk hstepping
      obtain rfl := Option.some.inj hk
      exact hiff.mp (htrap.mpr (Or.inl hstepping))
    · exact fun hkeeps => htrap.trans ⟨fun hor => hor.elim (hkeeps i rfl) id, Or.inr⟩

/-- Behind the pre-handler the flag of the interrupted code is set. -/
theorem int3Resume_patched_iff (h : BytesPatched orig s.probes s.code)
    (hsaved : (s.probes i).savedByte = orig (s.probes i).addr) :
    (s.int3Resume i regs).Patched orig ↔
      ((∃ j ≠ i, (s.probes j).ArmedAt (s.probes i).addr) → (s.probes i).savedByte = int3) ∧
        ((s.probes i).active = true ∨ ∃ j ≠ i, (s.probes j).Steps) := by
  have hflag : (s.int3Resume i regs).Trapping := Or.inl tf_setTrap
  have hsteps : ({ s.probes i with singleStepping := true } : Kprobe).Steps ↔
      (s.probes i).active = true := and_iff_left rfl
  rw [disarmed_patched_iff h hsaved (fun x harmed => Bool.false_ne_true harmed.2.1.symm) rfl rfl,
    iff_true_left hflag, hsteps]

theorem int3Handler_patched (hs : s.Sound orig) (h : s.Patched orig) {r : CpuRegs}
    (htf : r.tf = s.regs.tf) : (s.int3Handler r).Patched orig := by
  unfold int3Handler
  dsimp only
  cases hfind : findProbe s.probes (r.eip - 1) with
  | none =>
    refine patched_iff.mpr ⟨h.bytes, ?_⟩
    unfold Trapping
    rw [htf]
    exact h.trap
  | some i =>
    obtain ⟨hactive, -⟩ := findProbe_some hfind
    dsimp only
    by_cases hpre : (s.probes i).pre.isSome = true
    · -- the frame has the flag of the code that was running
      rw [if_pos hpre]
      refine patched_iff.mpr ⟨h.bytes, Iff.trans ?_ h.trap⟩
      unfold call Trapping
      simp only [KprobeCall.regs, tf_clearTrap, List.exists_mem_cons_iff, htf, Bool.false_eq_true,
        false_or]
    · rw [if_neg hpre]
      exact (int3Resume_patched_iff h.bytes (hs.saved i (Or.inl hactive))).mpr
        ⟨fun hother => absurd hother (hs.alone hactive), Or.inl hactive⟩

theorem debugHandler_patched_iff (h : s.Patched orig) {r : CpuRegs}
    (htf : r.tf = s.regs.tf) {eip : BitVec 32} :
    (s.debugHandler r).Patched orig ↔ s.Keeps (.trap eip) := by
  unfold debugHandler Keeps
  dsimp only
  cases hfind : findStepping s.probes with
  | none =>
    refine iff_of_true (patched_iff.mpr ⟨h.bytes, ?_⟩) fun _ hnone => nomatch hnone
    unfold Trapping
    rw [htf]
    exact h.trap
  | some i =>
    obtain ⟨hactive, hstep⟩ := findStepping_some hfind
    have hold : ∀ x, ¬ (s.probes i).ArmedAt x := fun x harmed =>
      Bool.false_ne_true (harmed.2.1.symm.trans hstep)
    have hbytes := @bytes_arm orig s.code s.probes { s.probes i with singleStepping := false } i
      (s.probes i).addr h.bytes hold
      fun x => ⟨fun harmed => harmed.2.2.symm, fun hx => ⟨hactive, rfl, hx.symm⟩⟩
    have hnew : ¬ ({ s.probes i with singleStepping := false } : Kprobe).Steps := fun hsteps =>
      Bool.false_ne_true hsteps.2
    have hsteps : (∃ j, (Function.update s.probes i
        { s.probes i with singleStepping := false } j).Steps) ↔ ∃ j ≠ i, (s.probes j).Steps :=
      exists_update.trans (or_iff_right hnew)
    have hkeeps : (∀ k, some i = some k →
        ((∃ c ∈ s.calls, c.regs.tf = true) ↔ ∃ j ≠ k, (s.probes j).Steps)) ↔
          ((∃ c ∈ s.calls, c.regs.tf = true) ↔ ∃ j ≠ i, (s.probes j).Steps) :=
      ⟨fun hall => hall i rfl, fun hiff k hk => Option.some.inj hk ▸ hiff⟩
    rw [hkeeps]
    dsimp only
    by_cases hpost : (s.probes i).post.isSome = true
    · rw [if_pos hpost, patched_iff]
      refine (and_iff_right hbytes).trans (iff_congr ?_ hsteps)
      unfold call Trapping
      simp [KprobeCall.regs, setByte, setProbe]
    · rw [if_neg hpost, patched_iff]
      refine (and_iff_right hbytes).trans (iff_congr ?_ hsteps)
      unfold Trapping
      simp [setByte, setProbe]

theorem handlerReturn_patched_iff (hs : s.Sound orig) (h : s.Patched orig)
    (ht : s.handlerReturn = some t) : t.Patched orig ↔ s.Keeps .handlerReturn := by
  unfold handlerReturn at ht
  unfold Keeps
  dsimp only
  rcases hcalls : s.calls with _ | ⟨⟨i, r⟩ | r, calls⟩ <;> rw [hcalls] at ht
  · cases ht
  · obtain rfl := Option.some.inj ht
    have hsaved := hs.saved i (Or.inr ⟨r, hcalls ▸ List.mem_cons_self⟩)
    rw [int3Resume_patched_iff (s := { s with calls := calls }) h.bytes hsaved]
    dsimp only
    by_cases hactive : (s.probes i).active = true
    · exact iff_of_true ⟨fun hother => absurd hother (hs.alone hactive), Or.inl hactive⟩
        (Or.inl hactive)
    · rw [or_iff_right hactive, or_iff_right hactive, exists_iff (P := Kprobe.Steps) i,
        exists_iff (P := (·.ArmedAt (s.probes i).addr)) i,
        or_iff_right fun hsteps => hactive hsteps.1, or_iff_right fun harmed => hactive harmed.1,
        and_comm]
  · obtain rfl := Option.some.inj ht
    exact patched_iff.trans (and_iff_right h.bytes)

/-! The addresses and the saved bytes. -/

/-- The steps that put no probe into the table. -/
theorem Sound.of_same (hs : s.Sound orig)
    (hprobes : ∀ j, (t.probes j).addr = (s.probes j).addr ∧
      (t.probes j).savedByte = (s.probes j).savedByte ∧
        ((t.probes j).active = true → (s.probes j).active = true))
    (hcalls : ∀ j r, .pre j r ∈ t.calls →
      (s.probes j).active = true ∨ ∃ r, .pre j r ∈ s.calls) : t.Sound orig where
  distinct i j hi hj haddr := by
    rw [(hprobes i).1, (hprobes j).1] at haddr
    exact hs.distinct i j ((hprobes i).2.2 hi) ((hprobes j).2.2 hj) haddr
  saved i hi := by
    rw [(hprobes i).1, (hprobes i).2.1]
    rcases hi with hactive | ⟨r, hr⟩
    · exact hs.saved i (Or.inl ((hprobes i).2.2 hactive))
    · exact hs.saved i (hcalls i r hr)

theorem update_same (haddr : kp.addr = (probes i).addr)
    (hsaved : kp.savedByte = (probes i).savedByte)
    (hactive : kp.active = true → (probes i).active = true) (j : Fin kprobeMax) :
    (Function.update probes i kp j).addr = (probes j).addr ∧
      (Function.update probes i kp j).savedByte = (probes j).savedByte ∧
        ((Function.update probes i kp j).active = true → (probes j).active = true) := by
  by_cases hji : j = i
  · subst hji
    rw [Function.update_self]
    exact ⟨haddr, hsaved, hactive⟩
  · rw [Function.update_of_ne hji]
    exact ⟨rfl, rfl, id⟩

theorem int3Resume_sound (hs : s.Sound orig) : (s.int3Resume i regs).Sound orig :=
  hs.of_same (update_same rfl rfl id) fun _ r hr => Or.inr ⟨r, hr⟩

theorem register_sound (hs : s.Sound orig) (h : s.Patched orig) :
    (s.register a pre post).1.Sound orig := by
  rcases @register_cases a s pre post with hsame | ⟨i, hnone, hfree, hreg⟩
  · rwa [hsame]
  rw [hreg]
  have hbyte : s.code a = orig a := by
    rw [h.bytes a, if_neg fun ⟨j, harmed⟩ => findProbe_none hnone harmed.1 harmed.2.2]
  constructor
  case distinct =>
    intro j k hj hk haddr
    dsimp only [setByte, setProbe] at hj hk haddr
    by_cases hji : j = i
    · by_cases hki : k = i
      · rw [hji, hki]
      · rw [hji, Function.update_self, Function.update_of_ne hki] at haddr
        rw [Function.update_of_ne hki] at hk
        exact absurd haddr.symm (findProbe_none hnone hk)
    · rw [Function.update_of_ne hji] at hj haddr
      by_cases hki : k = i
      · rw [hki, Function.update_self] at haddr
        exact absurd haddr (findProbe_none hnone hj)
      · rw [Function.update_of_ne hki] at hk haddr
        exact hs.distinct j k hj hk haddr
  case saved =>
    intro j hj
    dsimp only [setByte, setProbe] at hj ⊢
    by_cases hji : j = i
    · rw [hji, Function.update_self]
      exact hbyte
    · rw [Function.update_of_ne hji] at hj ⊢
      exact hs.saved j hj

theorem unregister_sound (hs : s.Sound orig) : (s.unregister a).Sound orig := by
  unfold unregister
  cases hfind : findProbe s.probes a with
  | none => exact hs
  | some i =>
    exact hs.of_same (update_same rfl rfl fun hfalse => absurd hfalse Bool.false_ne_true)
      fun _ r hr => Or.inr ⟨r, hr⟩

theorem int3Handler_sound (hs : s.Sound orig) : (s.int3Handler regs).Sound orig := by
  unfold int3Handler
  dsimp only
  cases hfind : findProbe s.probes (regs.eip - 1) with
  | none => exact ⟨hs.distinct, hs.saved⟩
  | some i =>
    dsimp only
    split_ifs
    · refine hs.of_same (fun _ => ⟨rfl, rfl, id⟩) fun j r hr => ?_
      rcases List.mem_cons.mp hr with hnew | hold
      · obtain ⟨rfl, -⟩ := KprobeCall.pre.inj hnew
        exact Or.inl (findProbe_some hfind).1
      · exact Or.inr ⟨r, hold⟩
    · exact int3Resume_sound hs

theorem debugHandler_sound (hs : s.Sound orig) : (s.debugHandler regs).Sound orig := by
  unfold debugHandler
  cases hfind : findStepping s.probes with
  | none => exact ⟨hs.distinct, hs.saved⟩
  | some i =>
    dsimp only
    split_ifs
    · refine hs.of_same (update_same rfl rfl id) fun j r hr => ?_
      rcases List.mem_cons.mp hr with hnew | hold
      · cases hnew
      · exact Or.inr ⟨r, hold⟩
    · exact hs.of_same (update_same rfl rfl id) fun _ r hr => Or.inr ⟨r, hr⟩

theorem handlerReturn_sound (hs : s.Sound orig) (ht : s.handlerReturn = some t) :
    t.Sound orig := by
  unfold handlerReturn at ht
  have hpop : ∀ c calls, s.calls = c :: calls → ({ s with calls := calls } : KprobeSys).Sound orig :=
    fun c calls hcalls => hs.of_same (fun _ => ⟨rfl, rfl, id⟩) fun _ r hr =>
      Or.inr ⟨r, hcalls ▸ List.mem_cons_of_mem c hr⟩
  rcases hcalls : s.calls with _ | ⟨⟨i, r⟩ | r, calls⟩ <;> rw [hcalls] at ht
  · cases ht
  · obtain rfl := Option.some.inj ht
    exact int3Resume_sound (hpop _ _ hcalls)
  · obtain rfl := Option.some.inj ht
    exact ⟨(hpop _ _ hcalls).distinct, (hpop _ _ hcalls).saved⟩

/-! Runs. -/

theorem step_sound (hs : s.Sound orig) (h : s.Patched orig) (ht : s.step action = some t) :
    t.Sound orig := by
  cases action with
  | register addr pre post =>
    obtain rfl := Option.some.inj ht
    exact register_sound hs h
  | unregister addr =>
    obtain rfl := Option.some.inj ht
    exact unregister_sound hs
  | breakpoint eip =>
    obtain rfl := Option.some.inj ht
    exact int3Handler_sound hs
  | trap eip =>
    obtain rfl := Option.some.inj ht
    exact debugHandler_sound hs
  | handlerReturn => exact handlerReturn_sound hs ht

theorem step_patched_iff (hs : s.Sound orig) (h : s.Patched orig) (ht : s.step action = some t) :
    s.Keeps action ↔ t.Patched orig := by
  cases action with
  | register addr pre post =>
    obtain rfl := Option.some.inj ht
    exact iff_of_true trivial (register_patched h)
  | unregister addr =>
    obtain rfl := Option.some.inj ht
    exact (unregister_patched_iff hs h).symm
  | breakpoint eip =>
    obtain rfl := Option.some.inj ht
    exact iff_of_true trivial (int3Handler_patched hs h rfl)
  | trap eip =>
    obtain rfl := Option.some.inj ht
    exact (debugHandler_patched_iff (r := { s.regs with eip := eip }) h rfl).symm
  | handlerReturn => exact (handlerReturn_patched_iff hs h ht).symm

theorem init_sound : (init code regs).Sound code where
  distinct _ _ hi := absurd hi Bool.false_ne_true
  saved _ hi := by
    rcases hi with hactive | ⟨_, hmem⟩
    · exact absurd hactive Bool.false_ne_true
    · cases hmem

theorem init_patched : (init code regs).Patched code := by
  have hnone : ∀ i, ((init code regs).probes i).active ≠ true := fun _ => Bool.false_ne_true
  refine patched_iff.mpr ⟨fun a => (if_neg fun ⟨i, harmed⟩ => hnone i harmed.1).symm, ?_⟩
  refine iff_of_false ?_ fun ⟨i, hsteps⟩ => hnone i hsteps.1
  rintro (hflag | ⟨c, hc, -⟩)
  · rw [init, tf_clearTrap] at hflag
    cases hflag
  · cases hc

end KprobeSys

/-- Kprobes keep the code and the trap flags in order in just the runs whose steps all keep them. -/
theorem kprobes_iff {actions : List KprobeAction} :
    Run.EveryState KprobeSys.step (KprobeSys.Patched code) (KprobeSys.init code regs) actions ↔
      Run.EveryStep KprobeSys.step (fun s action _ => s.Keeps action) (KprobeSys.init code regs)
        actions :=
  Run.everyState_iff (A := fun _ => True) (fun _ _ => trivial)
    (fun _ _ _ _ hs h ht => ⟨KprobeSys.step_sound hs h ht, KprobeSys.step_patched_iff hs h ht⟩)
    KprobeSys.init_sound KprobeSys.init_patched

/-- A probe is hit, and its own pre-handler removes it. -/
def removedWhenHit : List KprobeAction :=
  [.register 0x1000 (some 0x2000) none, .breakpoint 0x1001, .unregister 0x1000, .handlerReturn]

/-- No probe is left, and the trap flag stays set. -/
theorem not_kprobes_removed : ¬ ∀ code regs actions,
    Run.EveryState KprobeSys.step (KprobeSys.Patched code) (KprobeSys.init code regs) actions := by
  intro hall
  have hrun : ∃ t, Run.run KprobeSys.step (KprobeSys.init (fun _ => 0x90) ⟨0, 0⟩) removedWhenHit =
      some t ∧ (∀ i, (t.probes i).active = false) ∧ t.regs.tf = true :=
    ⟨_, rfl, by decide, by decide⟩
  obtain ⟨t, ht, hnone, hflag⟩ := hrun
  exact ((hall _ _ removedWhenHit).last ht |>.removed hnone).2 (Or.inl hflag)

end PinguinOS.Debug
