import PinguinOS.Lib.KeySort
import PinguinOS.Mm.PageTables
import PinguinOS.Proc.Signals

/-! The process table: creating, forking, and the areas of a process. -/
namespace PinguinOS.Mm

/-- `pmm_alloc_pages`, which may fail at any call as `pmm_alloc_page` may. -/
def Vm.allocPages (v : Vm) (count : Nat) : Nat × Vm :=
  let later := fun n => v.starved (n + 1)
  if v.starved 0 then (0, { v with starved := later })
  else
    let (phys, pmm) := pmmAllocPages v.pmm count
    (phys, { v with pmm := pmm, starved := later })

/-- `memcpy((void *)new_pd, (void *)paging_get_cr3(), PAGE_SIZE)`: CR3 holds `kernel_pd`. -/
def Vm.copyDirectory (v : Vm) (newPd : Nat) : Vm :=
  v.withMem fun w =>
    if newPd / 4 ≤ w ∧ w < newPd / 4 + 1024 then v.kernelPd (w - newPd / 4) else v.pmm.mem w

end PinguinOS.Mm

namespace PinguinOS.Proc

open Mm KeySort

def procMax : Nat := 64
def procNameLen : Nat := 32

/-- `slab_alloc(slab_cache_vma)` with the cache's own state: whether it returns an area. It may
take pages for a new slab, and gives none back; page tables stay in pages of their own. -/
structure VmaCache (σ : Type) where
  alloc : Vm → σ → Bool × Vm × σ
  tables : ∀ {kernStart kernEnd totalPages : Nat} (v : Vm) (slabs : σ),
    TablesOk kernStart kernEnd totalPages v →
      TablesOk kernStart kernEnd totalPages (alloc v slabs).2.1
  sane : ∀ {kernStart kernEnd totalPages : Nat} (v : Vm) (slabs : σ),
    Sane kernStart kernEnd totalPages v.pmm →
      Sane kernStart kernEnd totalPages (alloc v slabs).2.1.pmm
  keeps : ∀ {kernStart kernEnd totalPages : Nat} (v : Vm) (slabs : σ),
    Sane kernStart kernEnd totalPages v.pmm → ∀ i < totalPages, bitmapTest v.pmm i = true →
      bitmapTest (alloc v slabs).2.1.pmm i = true

/-- What `process.c` keeps, and the memory it allocates from. -/
structure ProcSys (σ : Type) where
  procTable : Nat → Pcb
  currentProc : Option Nat
  nextPid : Nat
  vm : Vm
  slabs : σ

variable {σ : Type}

def ProcSys.setProc (s : ProcSys σ) (slot : Nat) (proc : Pcb) : ProcSys σ :=
  { s with procTable := Function.update s.procTable slot proc }

def ProcSys.setVmas (s : ProcSys σ) (slot : Nat) (vmas : List Vma) : ProcSys σ :=
  s.setProc slot { s.procTable slot with vmaList := vmas }

/-- The same processes, after calls of the allocators. -/
def ProcSys.withMemory (s : ProcSys σ) (vm : Vm) (slabs : σ) : ProcSys σ :=
  { s with vm := vm, slabs := slabs }

/-- A slot of a table that is all zero. -/
def noProc : Pcb where
  cr3 := 0
  vmaList := []
  pid := 0
  ppid := 0
  pgid := 0
  sid := 0
  state := .unused
  exitCode := 0
  sigPending := 0
  sigMask := 0
  sigHandlers := fun _ => sigDfl
  kstackTop := 0
  kstackPhys := 0
  name := ""

/-- `proc_init`; `next_pid` is 1 from the start. -/
def procInit (vm : Vm) (slabs : σ) : ProcSys σ where
  procTable := fun _ => noProc
  currentProc := none
  nextPid := 1
  vm := vm
  slabs := slabs

/-- The first slot of state `PROC_UNUSED`. -/
def freeSlot (procTable : Nat → Pcb) : Option Nat :=
  (List.range procMax).find? fun i => (procTable i).state = .unused

/-- `strncpy(proc->name, name ? name : "unknown", PROC_NAME_LEN - 1)` -/
def procName (name : Option String) : String :=
  String.ofList ((name.getD "unknown").toList.take (procNameLen - 1))

/-- `memset(proc, 0, sizeof(*proc))` and what `proc_create` stores after it. -/
def createdProc (pid ppid kstackPhys : Nat) (name : Option String) : Pcb :=
  { noProc with
    pid := pid
    ppid := ppid
    pgid := pid
    sid := pid
    state := .ready
    name := procName name
    kstackPhys := kstackPhys
    kstackTop := u32 (kstackPhys + 2 * pageSize)
    sigHandlers := fun _ => sigDfl }

def currentPid (s : ProcSys σ) : Nat :=
  match s.currentProc with
  | some slot => (s.procTable slot).pid
  | none => 0

/-- The slot of the new process, if there was one left. -/
def procCreate (s : ProcSys σ) (name : Option String) : Option Nat × ProcSys σ :=
  match freeSlot s.procTable with
  | none => (none, s)
  | some slot =>
    let (kstackPhys, vm) := s.vm.allocPages 2
    (some slot,
      { s with
        procTable := Function.update s.procTable slot
          (createdProc s.nextPid (currentPid s) kstackPhys name)
        nextPid := u32 (s.nextPid + 1)
        vm := vm })

/-- Where `while (*pp && (*pp)->start < v->start)` stops. -/
def vmaPlace (vma : Vma) (vmas : List Vma) : Nat :=
  (vmas.takeWhile fun v => v.start < vma.start).length

/-- The place of the new area in the list of the process; `none` is NULL. -/
def vmaInsert (cache : VmaCache σ) (s : ProcSys σ) (proc start end_ : Nat) (flags : BitVec 32) :
    Option Nat × ProcSys σ :=
  let (found, vm, slabs) := cache.alloc s.vm s.slabs
  let s := s.withMemory vm slabs
  if !found then (none, s)
  else
    let vma : Vma :=
      { start := alignDown start pageSize
        end_ := alignUp end_ pageSize
        flags := flags
        fileOffset := 0 }
    let vmas := (s.procTable proc).vmaList
    (some (vmaPlace vma vmas), s.setVmas proc (insertKey Vma.start vma vmas))

/-- The area at `place`, if the list has it, leaves the list. -/
def vmaRemove (s : ProcSys σ) (proc place : Nat) : ProcSys σ :=
  s.setVmas proc ((s.procTable proc).vmaList.eraseIdx place)

def procFind (procTable : Nat → Pcb) (pid : Nat) : Option Nat :=
  (List.range procMax).find? fun i => (procTable i).pid = pid ∧ (procTable i).state ≠ .unused

/-- What `proc_exit` leaves when it goes into its endless loop. -/
def procExit (s : ProcSys σ) (code : Int) : ProcSys σ :=
  match s.currentProc with
  | none => s
  | some slot =>
    let s := s.setProc slot { s.procTable slot with exitCode := code, state := .zombie }
    match procFind s.procTable (s.procTable slot).ppid with
    | none => s
    | some parent => s.setProc parent (procSignal (s.procTable parent) sigChld)

/-- What a call returns, if it returns. -/
inductive ProcResult
  | null
  | proc (slot : Nat)
  | halts
  deriving DecidableEq

/-- `new_vma->file_offset = vma->file_offset` -/
def setFileOffset (s : ProcSys σ) (proc fileOffset : Nat) : Option Nat → ProcSys σ
  | none => s
  | some place =>
    s.setVmas proc ((s.procTable proc).vmaList.modify place fun v =>
      { v with fileOffset := fileOffset })

/-- The loop of `proc_fork` over the parent's areas. -/
def copyVmas (cache : VmaCache σ) (s : ProcSys σ) (child : Nat) : List Vma → ProcSys σ
  | [] => s
  | vma :: rest =>
    let (place, s) := vmaInsert cache s child vma.start vma.end_ (vma.flags &&& ~~~vmaWrite)
    copyVmas cache (setFileOffset s child vma.fileOffset place) child rest

/-- What the child has of its parent before the areas are copied. -/
def inherit (s : ProcSys σ) (parent child : Nat) : ProcSys σ :=
  let p := s.procTable parent
  s.setProc child { s.procTable child with
    ppid := p.pid
    pgid := p.pgid
    sid := p.sid
    sigHandlers := p.sigHandlers
    sigMask := p.sigMask }

/-- The end of `proc_fork`: a directory with the entries of the one in use. -/
def giveDirectory (s : ProcSys σ) (child : Nat) : ProcResult × ProcSys σ :=
  let (newPd, vm) := s.vm.allocPage
  let s := { s with vm := vm }
  if newPd = 0 then (.halts, procExit s 1)
  else
    let s := { s with vm := s.vm.copyDirectory newPd }
    (.proc child, s.setProc child { s.procTable child with cr3 := newPd })

def procFork (cache : VmaCache σ) (s : ProcSys σ) : Option Nat → ProcResult × ProcSys σ
  | none => (.null, s)
  | some parent =>
    match procCreate s (some (s.procTable parent).name) with
    | (none, s) => (.null, s)
    | (some child, s) =>
      let vmas := (s.procTable parent).vmaList
      giveDirectory (copyVmas cache (inherit s parent child) child vmas) child

/-! What each call leaves, when it gets the memory it asks for. -/

/-- `count` calls of `slab_alloc` in a row: whether all of them return an area. -/
def VmaCache.allocMany (cache : VmaCache σ) : (count : Nat) → Vm → σ → Bool × Vm × σ
  | 0, vm, slabs => (true, vm, slabs)
  | count + 1, vm, slabs =>
    let (found, vm, slabs) := cache.alloc vm slabs
    let (all, vm, slabs) := cache.allocMany count vm slabs
    (found && all, vm, slabs)

/-- The child's area for an area of its parent. -/
def vmaCopy (vma : Vma) : Vma where
  start := alignDown vma.start pageSize
  end_ := alignUp vma.end_ pageSize
  flags := vma.flags &&& ~~~vmaWrite
  fileOffset := vma.fileOffset

variable {cache : VmaCache σ} {s : ProcSys σ} {slot parent child place : Nat}
  {vmas : List Vma} {proc : Pcb} {name : Option String}

@[simp] theorem setProc_self : (s.setProc slot proc).procTable slot = proc :=
  Function.update_self _ _ _

@[simp] theorem setProc_setProc {proc' : Pcb} :
    (s.setProc slot proc).setProc slot proc' = s.setProc slot proc' := by
  unfold ProcSys.setProc
  simp only [Function.update_idem]

@[simp] theorem setVmas_setVmas {vmas' : List Vma} :
    (s.setVmas slot vmas).setVmas slot vmas' = s.setVmas slot vmas' := by
  unfold ProcSys.setVmas
  rw [setProc_setProc, setProc_self]

@[simp] theorem setVmas_vmaList : ((s.setVmas slot vmas).procTable slot).vmaList = vmas := by
  unfold ProcSys.setVmas
  rw [setProc_self]

theorem withMemory_setVmas {vm : Vm} {slabs : σ} :
    (s.setVmas slot vmas).withMemory vm slabs = (s.withMemory vm slabs).setVmas slot vmas := rfl

theorem setVmas_vmaList_self : s.setVmas slot (s.procTable slot).vmaList = s := by
  unfold ProcSys.setVmas ProcSys.setProc
  simp only [Function.update_eq_self]

theorem freeSlot_some (h : freeSlot s.procTable = some slot) :
    slot < procMax ∧ (s.procTable slot).state = .unused := by
  unfold freeSlot at h
  have hmem := List.mem_of_find?_eq_some h
  have hstate := List.find?_some h
  simp only [decide_eq_true_eq] at hstate
  exact ⟨List.mem_range.mp hmem, hstate⟩

theorem vmaInsert_found {start end_ : Nat} {flags : BitVec 32}
    (h : (cache.alloc s.vm s.slabs).1 = true) :
    setFileOffset (vmaInsert cache s slot start end_ flags).2 slot place
        (vmaInsert cache s slot start end_ flags).1 =
      (s.withMemory (cache.alloc s.vm s.slabs).2.1 (cache.alloc s.vm s.slabs).2.2).setVmas slot
          (insertKey Vma.start ⟨alignDown start pageSize, alignUp end_ pageSize, flags, place⟩
            (s.procTable slot).vmaList) := by
  unfold vmaInsert
  simp only [h, Bool.not_true, Bool.false_eq_true, if_false, setFileOffset, setVmas_setVmas,
    setVmas_vmaList]
  congr 1
  exact modify_insertKey rfl

/-- All areas are copied, one in front of the other where they start alike. -/
theorem copyVmas_found (h : (cache.allocMany vmas.length s.vm s.slabs).1 = true) :
    copyVmas cache s child vmas =
      (s.withMemory (cache.allocMany vmas.length s.vm s.slabs).2.1
        (cache.allocMany vmas.length s.vm s.slabs).2.2).setVmas child
          (insertAll Vma.start (vmas.map vmaCopy) (s.procTable child).vmaList) := by
  induction vmas generalizing s with
  | nil => exact setVmas_vmaList_self.symm
  | cons vma rest ih =>
    have hboth : (cache.alloc s.vm s.slabs).1 = true ∧
        (cache.allocMany rest.length (cache.alloc s.vm s.slabs).2.1
          (cache.alloc s.vm s.slabs).2.2).1 = true := Bool.and_eq_true_iff.mp h
    change copyVmas cache (setFileOffset (vmaInsert cache s child vma.start vma.end_
      (vma.flags &&& ~~~vmaWrite)).2 child vma.fileOffset (vmaInsert cache s child vma.start vma.end_
        (vma.flags &&& ~~~vmaWrite)).1) child rest = _
    rw [vmaInsert_found hboth.1, ih hboth.2, setVmas_vmaList, withMemory_setVmas, setVmas_setVmas]
    rfl

theorem procCreate_none (h : freeSlot s.procTable = none) : procCreate s name = (none, s) := by
  unfold procCreate
  rw [h]

theorem procCreate_some (h : freeSlot s.procTable = some slot) :
    procCreate s name = (some slot, { s with
      procTable := Function.update s.procTable slot
        (createdProc s.nextPid (currentPid s) (s.vm.allocPages 2).1 name)
      nextPid := u32 (s.nextPid + 1)
      vm := (s.vm.allocPages 2).2 }) := by
  unfold procCreate
  rw [h]

/-- `proc_fork` gets a stack, `count` areas and a directory. -/
def ForkMemory (cache : VmaCache σ) (s : ProcSys σ) (count : Nat) : Prop :=
  (s.vm.allocPages 2).1 ≠ 0 ∧
    (cache.allocMany count (s.vm.allocPages 2).2 s.slabs).1 = true ∧
    (cache.allocMany count (s.vm.allocPages 2).2 s.slabs).2.1.allocPage.1 ≠ 0

/-- The child that `proc_fork` returns. -/
def forkedProc (s : ProcSys σ) (parent kstackPhys newPd : Nat) : Pcb :=
  let p := s.procTable parent
  { createdProc s.nextPid p.pid kstackPhys (some p.name) with
    pgid := p.pgid
    sid := p.sid
    sigHandlers := p.sigHandlers
    sigMask := p.sigMask
    vmaList := insertAll Vma.start (p.vmaList.map vmaCopy) []
    cr3 := newPd }

/-- The state in which `proc_fork` starts to copy the areas. -/
def forkStart (s : ProcSys σ) (parent child : Nat) : ProcSys σ :=
  inherit
    { s with
      procTable := Function.update s.procTable child
        (createdProc s.nextPid (currentPid s) (s.vm.allocPages 2).1 (some (s.procTable parent).name))
      nextPid := u32 (s.nextPid + 1)
      vm := (s.vm.allocPages 2).2 } parent child

theorem procFork_eq (h : freeSlot s.procTable = some child) (hne : parent ≠ child) :
    procFork cache s (some parent) = giveDirectory
      (copyVmas cache (forkStart s parent child) child (s.procTable parent).vmaList) child := by
  unfold procFork
  dsimp only
  rw [procCreate_some h]
  dsimp only
  rw [Function.update_of_ne hne]
  rfl

theorem giveDirectory_some (h : s.vm.allocPage.1 ≠ 0) :
    giveDirectory s child = (.proc child, { s with
      procTable := Function.update s.procTable child
        { s.procTable child with cr3 := s.vm.allocPage.1 }
      vm := s.vm.allocPage.2.copyDirectory s.vm.allocPage.1 }) := by
  unfold giveDirectory
  dsimp only
  rw [if_neg h]
  rfl

theorem forkStart_self (hne : parent ≠ child) : (forkStart s parent child).procTable child =
    { forkedProc s parent (s.vm.allocPages 2).1 0 with vmaList := [] } := by
  unfold forkStart inherit
  rw [setProc_self]
  dsimp only
  rw [Function.update_self, Function.update_of_ne hne]
  rfl

theorem procFork_none (h : freeSlot s.procTable = none) :
    procFork cache s (some parent) = (.null, s) := by
  unfold procFork
  dsimp only
  rw [procCreate_none h]

theorem procFork_ne_null (h : freeSlot s.procTable = some child) :
    (procFork cache s (some parent)).1 ≠ .null := by
  unfold procFork
  dsimp only
  rw [procCreate_some h]
  unfold giveDirectory
  dsimp only
  split_ifs
  · nofun
  · nofun

/-- The state that `proc_fork` leaves when it gets its memory. -/
def forkedSys (cache : VmaCache σ) (s : ProcSys σ) (parent child : Nat) : ProcSys σ :=
  let (_, vm, slabs) := cache.allocMany (s.procTable parent).vmaList.length
    (s.vm.allocPages 2).2 s.slabs
  { s with
    procTable := Function.update s.procTable child
      (forkedProc s parent (s.vm.allocPages 2).1 vm.allocPage.1)
    nextPid := u32 (s.nextPid + 1)
    vm := vm.allocPage.2.copyDirectory vm.allocPage.1
    slabs := slabs }

theorem procFork_some (h : freeSlot s.procTable = some child) (hne : parent ≠ child)
    (hmem : ForkMemory cache s (s.procTable parent).vmaList.length) :
    procFork cache s (some parent) = (.proc child, forkedSys cache s parent child) := by
  obtain ⟨-, hareas, hpd⟩ := hmem
  have hcopied := @copyVmas_found σ cache (forkStart s parent child) child _ hareas
  rw [procFork_eq h hne, hcopied, forkStart_self hne]
  refine (giveDirectory_some hpd).trans ?_
  simp only [ProcSys.setVmas, ProcSys.setProc, ProcSys.withMemory, forkStart, inherit,
    Function.update_self, Function.update_idem, Function.update_of_ne hne]
  rfl

end PinguinOS.Proc
