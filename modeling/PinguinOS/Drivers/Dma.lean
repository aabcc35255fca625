import PinguinOS.Drivers.Nvme
import PinguinOS.Mm.HeapKeeps
import PinguinOS.Mm.HeapPages
import PinguinOS.Mm.PagingRun
import PinguinOS.Mm.SwapAtomic

/-! The addresses that `nvme.c` and `rtl8139.c` give to their devices. -/
namespace PinguinOS.Drivers

open Mm (Vm Heap HeapCall HeapOk PagingCall TablesOk u32 kmalloc touch fillBytes kheapStart
  pageSize pdePresent pdeWritable pdeNocache pagingGetPhys pagingMapPage maxRequest)

/-! What a device may be given. -/

/-- `addr` is an address of memory, and `phys` is where it is on the bus. -/
structure IsPhys (v : Vm) (addr phys : Nat) : Prop where
  nonzero : phys ≠ 0
  translated : pagingGetPhys v addr = phys
  ram : phys / pageSize < v.pmm.totalPages

/-- A range of memory that the driver gives to a device: the device puts byte `i` at `bus i`. -/
structure Given where
  vm : Vm
  addr : Nat
  len : Nat
  bus : Nat → Option Nat

/-- The device and the driver use the same memory. -/
def Given.Right (x : Given) : Prop :=
  ∀ i < x.len, ∃ phys, x.bus i = some phys ∧ IsPhys x.vm (x.addr + i) phys

/-- The device takes one address for the whole range. -/
def contiguous (vm : Vm) (addr len : Nat) : Given := ⟨vm, addr, len, fun i => some (addr + i)⟩

/-- The page size of the controller, as `NVME_CC_MPS` sets it. -/
def memoryPage : Nat := 4096

/-- The two PRP entries of a command: the first runs to the end of its page, the second is the
start of one more page. A third page needs a list, which the driver does not make. -/
def prpBus (prp1 prp2 len i : Nat) : Option Nat :=
  let first := memoryPage - prp1 % memoryPage
  if i < first then some (prp1 + i)
  else if len ≤ first + memoryPage ∧ prp2 % memoryPage = 0 then some (prp2 + (i - first))
  else none

/-! `nvme.c` -/

def sizeofSqe : Nat := 64
def sizeofCqe : Nat := 16

/-- `memset(ptr, 0, len)` -/
def memset (h : Heap) (ptr len : Nat) : Option Heap := do
  let vm ← touch h.vm ptr len
  some { h with vm := vm, bytes := fillBytes h.bytes ptr len }

/-- A submission and a completion queue, as `nvme_init` makes them; `none` also for no memory. -/
def nvmeQueues (h : Heap) : Option (Nat × Nat × Heap) := do
  let (sq, h) ← kmalloc h (Nvme.queueSize * sizeofSqe)
  let (cq, h) ← kmalloc h (Nvme.queueSize * sizeofCqe)
  if sq = 0 ∨ cq = 0 then none
  else do
    let h ← memset h sq (Nvme.queueSize * sizeofSqe)
    let h ← memset h cq (Nvme.queueSize * sizeofCqe)
    some (sq, cq, h)

/-- The loop that maps 128 KB of registers. -/
def mapRegisters (vm : Vm) (mmioPhys : Nat) : Vm :=
  (List.range (0x20000 / pageSize)).foldl (fun vm n =>
    (pagingMapPage vm (u32 (mmioPhys + n * pageSize)) (u32 (mmioPhys + n * pageSize))
      (pdePresent ||| pdeWritable ||| pdeNocache)).2) vm

/-- What the controller answers: whether it starts, and to `CREATE_CQ` and `CREATE_SQ`. -/
structure NvmeAnswers where
  ready : Bool
  createCq : Bool
  createSq : Bool

/-- `dev->bar[0] & ~0xFu` -/
def mmioBase (bar0 : BitVec 32) : Nat := (bar0 &&& ~~~0xF).toNat

/-- Both `IDENTIFY` commands; PRP2 stays 0. -/
def nvmeIdentify (h : Heap) : List Given :=
  match kmalloc h 4096 with
  | none => []
  | some (idBuf, h) =>
    if idBuf = 0 then []
    else
      let command : Given := ⟨h.vm, idBuf, 4096, prpBus idBuf 0 4096⟩
      [command, command]

/-- The queues for I/O, from `CREATE_CQ` on. -/
def nvmeIoQueues (h : Heap) (answers : NvmeAnswers) : List Given :=
  match nvmeQueues h with
  | none => []
  | some (ioSq, ioCq, h) =>
    contiguous h.vm ioCq (Nvme.queueSize * sizeofCqe) ::
      if !answers.createCq then []
      else contiguous h.vm ioSq (Nvme.queueSize * sizeofSqe) ::
        if !answers.createSq then [] else nvmeIdentify h

/-- What `nvme_init` gives to a controller with these answers; `bar0` is `none` without one. -/
def nvmeInit (h : Heap) (bar0 : Option (BitVec 32)) (answers : NvmeAnswers) : List Given :=
  match bar0 with
  | none => []
  | some bar0 =>
    if mmioBase bar0 = 0 then []
    else match nvmeQueues { h with vm := mapRegisters h.vm (mmioBase bar0) } with
      | none => []
      | some (adminSq, adminCq, h) =>
        contiguous h.vm adminSq (Nvme.queueSize * sizeofSqe) ::
          contiguous h.vm adminCq (Nvme.queueSize * sizeofCqe) ::
            if !answers.ready then [] else nvmeIoQueues h answers

/-- The statics that `nvme_read` and `nvme_write` use; `nvme_page_size` is made from `CAP`. -/
structure NvmeDriver where
  ok : Bool
  cap : BitVec 64
  sectorSz : Nat

/-- `nvme_page_size` -/
def NvmeDriver.pageSize (d : NvmeDriver) : Nat := 2 ^ (12 + (d.cap >>> 48 &&& 0xF).toNat)

/-- The command that `nvme_read` and `nvme_write` submit. -/
def nvmeTransfer (d : NvmeDriver) (vm : Vm) (count buf : Nat) : List Given :=
  if !d.ok ∨ buf = 0 ∨ count = 0 then []
  else [⟨vm, buf, count * d.sectorSz, prpBus buf (buf + d.pageSize) (count * d.sectorSz)⟩]

def nvmeRead (d : NvmeDriver) (vm : Vm) (count buf : Nat) : List Given :=
  nvmeTransfer d vm count buf

def nvmeWrite (d : NvmeDriver) (vm : Vm) (count buf : Nat) : List Given :=
  nvmeTransfer d vm count buf

/-! `rtl8139.c` -/

/-- `RTL_RX_BUF_SIZE` -/
def rtlRxBufSize : Nat := 8192 + 16 + 1500
def rtlTxBufs : Nat := 4
def rtlTxBufSize : Nat := 1536

/-- `(uint16_t)(dev->bar[0] & ~0x3u)` -/
def ioBase (bar0 : BitVec 32) : BitVec 16 := (bar0 &&& ~~~0x3).truncate 16

/-- The receive buffer; `none` also for no memory. -/
def rtlRxBuf (h : Heap) : Option (Nat × Heap) := do
  let (rxBuf, h) ← kmalloc h rtlRxBufSize
  if rxBuf = 0 then none
  else do
    let h ← memset h rxBuf rtlRxBufSize
    some (rxBuf, h)

/-- The loop over the transmit buffers, with `n` to go. -/
def rtlTxBufsFrom : (n : Nat) → Heap → List Given
  | 0, _ => []
  | n + 1, h =>
    match kmalloc h rtlTxBufSize with
    | none => []
    | some (txBuf, h) =>
      if txBuf = 0 then [] else contiguous h.vm txBuf rtlTxBufSize :: rtlTxBufsFrom n h

/-- What `rtl8139_init` gives to the device; `reset` is false if that times out. -/
def rtl8139Init (h : Heap) (bar0 : Option (BitVec 32)) (reset : Bool) : List Given :=
  match bar0 with
  | none => []
  | some bar0 =>
    if ioBase bar0 = 0 ∨ !reset then []
    else match rtlRxBuf h with
      | none => []
      | some (rxBuf, h) => contiguous h.vm rxBuf rtlRxBufSize :: rtlTxBufsFrom rtlTxBufs h

/-! The calls, and the heap and page tables that they find. -/

inductive DmaCall
  | nvmeInit (bar0 : Option (BitVec 32)) (answers : NvmeAnswers)
  | nvmeRead (d : NvmeDriver) (count buf : Nat)
  | nvmeWrite (d : NvmeDriver) (count buf : Nat)
  | rtl8139Init (bar0 : Option (BitVec 32)) (reset : Bool)

def DmaCall.given (h : Heap) : DmaCall → List Given
  | .nvmeInit bar0 answers => Drivers.nvmeInit h bar0 answers
  | .nvmeRead d count buf => Drivers.nvmeRead d h.vm count buf
  | .nvmeWrite d count buf => Drivers.nvmeWrite d h.vm count buf
  | .rtl8139Init bar0 reset => Drivers.rtl8139Init h bar0 reset

/-- Every address the call gives is that of the memory behind it, over the whole range. -/
def DmaCall.Right (h : Heap) (c : DmaCall) : Prop := ∀ x ∈ c.given h, x.Right

/-- The buffer lies in pages that are mapped to themselves, in one page or in two from the start
of the first on; the second entry has the controller's smallest page size in it. -/
def Transferable (d : NvmeDriver) (vm : Vm) (len buf : Nat) : Prop :=
  IsPhys vm buf buf ∧ (memoryPage - buf % memoryPage < len →
    buf % memoryPage = 0 ∧ len ≤ 2 * memoryPage ∧
      IsPhys vm (buf + memoryPage) (buf + d.pageSize))

/-- No command is submitted, or the buffer suits the two entries. -/
def TransferOk (d : NvmeDriver) (vm : Vm) (count buf : Nat) : Prop :=
  d.ok = false ∨ buf = 0 ∨ count = 0 ∨ count * d.sectorSz = 0 ∨
    Transferable d vm (count * d.sectorSz) buf

/-- The driver stops before its first address, or the transfer is in order. -/
def DmaCall.Harmless (h : Heap) : DmaCall → Prop
  | .nvmeInit bar0 _ => ∀ bar, bar0 = some bar → mmioBase bar ≠ 0 →
      nvmeQueues { h with vm := mapRegisters h.vm (mmioBase bar) } = none
  | .nvmeRead d count buf => TransferOk d h.vm count buf
  | .nvmeWrite d count buf => TransferOk d h.vm count buf
  | .rtl8139Init bar0 reset => ∀ bar, bar0 = some bar → ioBase bar ≠ 0 → reset = true →
      rtlRxBuf h = none

/-- What the kernel does with the heap and the page tables before. -/
inductive KernelCall
  | heap (c : HeapCall)
  | paging (c : PagingCall)
  | access (addr len : Nat)

def kernelStep (h : Heap) : KernelCall → Option Heap
  | .heap c => h.step c
  | .paging c => some { h with vm := h.vm.paging c }
  | .access addr len => (touch h.vm addr len).map fun vm => { h with vm := vm }

/-- A request leaves room for the header and the rounding. -/
def KernelCall.Small : KernelCall → Prop
  | .heap c => c.size ≤ maxRequest
  | _ => True

/-- What every state before a call satisfies. -/
structure KernelOk (kernStart kernEnd totalPages : Nat) (h : Heap) : Prop where
  shape : HeapOk (· ≤ ·) h
  tables : TablesOk kernStart kernEnd totalPages h.vm

variable {kernStart kernEnd totalPages addr phys len buf count size n ptr : Nat} {vm v : Vm}
  {h h' : Heap} {bar0 : Option (BitVec 32)} {answers : NvmeAnswers} {reset : Bool} {x : Given}
  {d : NvmeDriver} {c : KernelCall} {calls : List KernelCall}

/-! An address of memory is below the heap. -/

theorem IsPhys.lt (hv : TablesOk kernStart kernEnd totalPages v) (hphys : IsPhys v addr phys) :
    phys < kheapStart := by
  have hram := hphys.ram
  have hlimit := hv.sane.limit
  rw [hv.sane.total] at hram
  unfold pageSize at hram
  unfold kheapStart
  omega

/-- A heap pointer that is given as it is. -/
theorem not_right_of_heap (hv : TablesOk kernStart kernEnd totalPages v) (hheap : kheapStart ≤ addr)
    (hlen : 0 < len) : ¬ (contiguous v addr len).Right := by
  intro hright
  obtain ⟨phys, hbus, hphys⟩ := hright 0 hlen
  obtain rfl := Option.some.inj hbus
  have hlt := hphys.lt hv
  omega

theorem heap_pointer (hok : HeapOk (· ≤ ·) h) (hsize : size ≠ 0) (hlt : size ≤ maxRequest)
    (halloc : kmalloc h size = some (ptr, h')) :
    HeapOk (· ≤ ·) h' ∧ (ptr = 0 ∨ kheapStart ≤ ptr) := by
  obtain ⟨hok', hnull | ⟨b, hb, -, rfl, -⟩⟩ := Mm.kmalloc_keeps hok hsize hlt halloc
  · exact ⟨hok', Or.inl hnull⟩
  · have hstart := (hok'.bounds hb).1
    exact ⟨hok', Or.inr (Nat.le_add_right_of_le hstart)⟩

theorem KernelOk.kmalloc (hs : KernelOk kernStart kernEnd totalPages h) (hsize : size ≠ 0)
    (hlt : size ≤ maxRequest) (halloc : Mm.kmalloc h size = some (ptr, h')) :
    KernelOk kernStart kernEnd totalPages h' ∧ (ptr = 0 ∨ kheapStart ≤ ptr) := by
  obtain ⟨hok, hptr⟩ := heap_pointer hs.shape hsize hlt halloc
  exact ⟨⟨hok, (Mm.mapsMore_alloc hs.tables halloc).tables⟩, hptr⟩

theorem KernelOk.memset (hs : KernelOk kernStart kernEnd totalPages h)
    (hset : Drivers.memset h ptr len = some h') : KernelOk kernStart kernEnd totalPages h' := by
  obtain ⟨vm, htouch, hset⟩ := Option.bind_eq_some_iff.mp hset
  cases hset
  exact ⟨hs.shape, (Mm.mapsMore_touch hs.tables htouch).tables⟩

theorem KernelOk.mapRegisters (hs : KernelOk kernStart kernEnd totalPages h) :
    KernelOk kernStart kernEnd totalPages { h with vm := mapRegisters h.vm addr } := by
  refine ⟨hs.shape, ?_⟩
  show TablesOk kernStart kernEnd totalPages (Drivers.mapRegisters h.vm addr)
  have hv := hs.tables
  unfold Drivers.mapRegisters
  generalize List.range (0x20000 / pageSize) = pages
  generalize h.vm = vm at hv ⊢
  induction pages generalizing vm with
  | nil => exact hv
  | cons page pages ih => exact ih _ hv.mapPage

/-! What the kernel does before. -/

theorem KernelOk.step (hs : KernelOk kernStart kernEnd totalPages h) (hsmall : c.Small)
    (hstep : kernelStep h c = some h') : KernelOk kernStart kernEnd totalPages h' := by
  cases c with
  | heap call =>
    change h.step call = some h' at hstep
    unfold Mm.Heap.step at hstep
    split_ifs at hstep with hallowed
    obtain ⟨⟨p, g⟩, hres, rfl⟩ := Option.map_eq_some_iff.mp hstep
    exact ⟨hs.shape.exec hsmall (Or.inl fun _ _ hle => hle) hres,
      (Mm.mapsMore_exec hs.tables hres).tables⟩
  | paging call =>
    cases hstep
    exact ⟨hs.shape, hs.tables.paging⟩
  | access addr len =>
    obtain ⟨vm, htouch, rfl⟩ := Option.map_eq_some_iff.mp hstep
    exact ⟨hs.shape, (Mm.mapsMore_touch hs.tables htouch).tables⟩

theorem KernelOk.run (hs : KernelOk kernStart kernEnd totalPages h)
    (hsmall : ∀ c ∈ calls, c.Small) (hrun : Run.run kernelStep h calls = some h') :
    KernelOk kernStart kernEnd totalPages h' := by
  induction calls generalizing h with
  | nil =>
    cases hrun
    exact hs
  | cons c calls ih =>
    obtain ⟨g, hstep, hrest⟩ := Option.bind_eq_some_iff.mp (Run.run_cons ▸ hrun)
    have hfirst := hs.step (hsmall c List.mem_cons_self) hstep
    exact ih hfirst (fun c hc => hsmall c (List.mem_cons_of_mem _ hc)) hrest

/-! The two initialisations: the first address they give is wrong. -/

theorem KernelOk.nvmeQueues {sq cq : Nat} (hs : KernelOk kernStart kernEnd totalPages h)
    (hqueues : Drivers.nvmeQueues h = some (sq, cq, h')) :
    KernelOk kernStart kernEnd totalPages h' ∧ kheapStart ≤ sq ∧ kheapStart ≤ cq := by
  obtain ⟨⟨sq', g⟩, hsq, hqueues⟩ := Option.bind_eq_some_iff.mp hqueues
  obtain ⟨⟨cq', g'⟩, hcq, hqueues⟩ := Option.bind_eq_some_iff.mp hqueues
  dsimp only at hqueues
  split_ifs at hqueues with hnull
  obtain ⟨hsqNull, hcqNull⟩ := not_or.mp hnull
  obtain ⟨k, hk, hqueues⟩ := Option.bind_eq_some_iff.mp hqueues
  obtain ⟨k', hk', hqueues⟩ := Option.bind_eq_some_iff.mp hqueues
  cases hqueues
  obtain ⟨hg, hsqHeap⟩ := hs.kmalloc (by decide) (by decide) hsq
  obtain ⟨hg', hcqHeap⟩ := hg.kmalloc (by decide) (by decide) hcq
  exact ⟨(hg'.memset hk).memset hk', hsqHeap.resolve_left hsqNull, hcqHeap.resolve_left hcqNull⟩

theorem KernelOk.rtlRxBuf (hs : KernelOk kernStart kernEnd totalPages h)
    (hbuf : Drivers.rtlRxBuf h = some (ptr, h')) :
    KernelOk kernStart kernEnd totalPages h' ∧ kheapStart ≤ ptr := by
  obtain ⟨⟨p, g⟩, halloc, hbuf⟩ := Option.bind_eq_some_iff.mp hbuf
  dsimp only at hbuf
  split_ifs at hbuf with hnull
  obtain ⟨k, hk, hbuf⟩ := Option.bind_eq_some_iff.mp hbuf
  cases hbuf
  obtain ⟨hg, hheap⟩ := hs.kmalloc (by decide) (by decide) halloc
  exact ⟨hg.memset hk, hheap.resolve_left hnull⟩

theorem nvmeInit_right_iff (hs : KernelOk kernStart kernEnd totalPages h) :
    (DmaCall.nvmeInit bar0 answers).Right h ↔ (DmaCall.nvmeInit bar0 answers).Harmless h := by
  unfold DmaCall.Right DmaCall.given DmaCall.Harmless Drivers.nvmeInit
  cases bar0 with
  | none =>
    exact iff_of_true (fun x hx => absurd hx List.not_mem_nil) fun bar hbar => nomatch hbar
  | some bar =>
    dsimp only
    by_cases hzero : mmioBase bar = 0
    · rw [if_pos hzero]
      refine iff_of_true (fun x hx => absurd hx List.not_mem_nil) ?_
      rintro _ ⟨⟩ hne
      exact absurd hzero hne
    · rw [if_neg hzero]
      cases hqueues : Drivers.nvmeQueues { h with vm := mapRegisters h.vm (mmioBase bar) } with
      | none =>
        refine iff_of_true (fun x hx => absurd hx List.not_mem_nil) ?_
        rintro _ ⟨⟩ -
        exact hqueues
      | some queues =>
        obtain ⟨sq, cq, g⟩ := queues
        obtain ⟨hg, hsq, -⟩ := hs.mapRegisters.nvmeQueues hqueues
        refine iff_of_false ?_ ?_
        · intro hright
          exact not_right_of_heap hg.tables hsq (by decide) (hright _ List.mem_cons_self)
        · intro hnone
          rw [hnone bar rfl hzero] at hqueues
          cases hqueues

theorem rtl8139Init_right_iff (hs : KernelOk kernStart kernEnd totalPages h) :
    (DmaCall.rtl8139Init bar0 reset).Right h ↔ (DmaCall.rtl8139Init bar0 reset).Harmless h := by
  unfold DmaCall.Right DmaCall.given DmaCall.Harmless Drivers.rtl8139Init
  cases bar0 with
  | none =>
    exact iff_of_true (fun x hx => absurd hx List.not_mem_nil) fun bar hbar => nomatch hbar
  | some bar =>
    dsimp only
    by_cases hstop : ioBase bar = 0 ∨ (!reset) = true
    · rw [if_pos hstop]
      refine iff_of_true (fun x hx => absurd hx List.not_mem_nil) ?_
      rintro _ ⟨⟩ hne hreset
      rcases hstop with hzero | hno
      · exact absurd hzero hne
      · rw [hreset] at hno
        cases hno
    · obtain ⟨hzero, hreset⟩ := not_or.mp hstop
      rw [if_neg hstop]
      cases hbuf : Drivers.rtlRxBuf h with
      | none =>
        exact iff_of_true (fun x hx => absurd hx List.not_mem_nil) fun _ _ _ _ => rfl
      | some res =>
        obtain ⟨ptr, g⟩ := res
        obtain ⟨hg, hptr⟩ := hs.rtlRxBuf hbuf
        refine iff_of_false ?_ ?_
        · intro hright
          exact not_right_of_heap hg.tables hptr (by decide) (hright _ List.mem_cons_self)
        · intro hnone
          have hno := hnone bar rfl hzero (by simpa using hreset)
          cases hno

/-! The transfers. -/

/-- Within a page the bus follows the addresses. -/
theorem getPhys_add (hpage : (addr + n) / 4096 = addr / 4096) (hlt : addr + n < 2 ^ 32)
    (hne : pagingGetPhys v addr ≠ 0) : pagingGetPhys v (addr + n) = pagingGetPhys v addr + n := by
  have haddr : addr < 2 ^ 32 := by omega
  have hd : Mm.pdIndex (addr + n) = Mm.pdIndex addr := by
    rw [Mm.pdIndex_eq, Mm.pdIndex_eq]
    omega
  have hi : Mm.ptIndex (addr + n) = Mm.ptIndex addr := by
    rw [Mm.ptIndex_eq, Mm.ptIndex_eq]
    omega
  rcases v.entry_cases (Mm.pdIndex addr) with habsent | hhuge | ht
  · exact absurd (Mm.pagingGetPhys_absent habsent) hne
  · have hhuge' : v.Huge (Mm.pdIndex (addr + n)) := hd ▸ hhuge
    rw [Mm.getPhys_hugeEntry hhuge' hlt, Mm.getPhys_hugeEntry hhuge haddr, hd]
    omega
  · have ht' : v.HasTable (Mm.pdIndex (addr + n)) := hd ▸ ht
    rw [Mm.getPhys_tableEntry ht haddr rfl] at hne
    rw [Mm.getPhys_tableEntry ht' hlt rfl, Mm.getPhys_tableEntry ht haddr rfl, hd, hi]
    split_ifs at hne ⊢ with habsent
    · exact absurd rfl hne
    · omega

theorem IsPhys.add (hphys : IsPhys v addr phys) (hoffset : phys % 4096 = addr % 4096)
    (hn : addr % 4096 + n < 4096) (hlt : addr + n < 2 ^ 32) : IsPhys v (addr + n) (phys + n) where
  nonzero := Nat.ne_of_gt (Nat.add_pos_left (Nat.pos_of_ne_zero hphys.nonzero) n)
  translated := by
    have htranslated := hphys.translated
    rw [getPhys_add (by omega) hlt (htranslated ▸ hphys.nonzero), htranslated]
  ram := by
    have hram := hphys.ram
    unfold pageSize at hram ⊢
    rw [show (phys + n) / 4096 = phys / 4096 by omega]
    exact hram

theorem NvmeDriver.pageSize_aligned (d : NvmeDriver) : d.pageSize % memoryPage = 0 := by
  unfold NvmeDriver.pageSize memoryPage
  rw [Nat.pow_add]
  exact Nat.mul_mod_right _ _

theorem prpBus_first {prp1 prp2 i : Nat} (hi : i < memoryPage - prp1 % memoryPage) :
    prpBus prp1 prp2 len i = some (prp1 + i) := if_pos hi

/-- The page of the second entry is used only where it starts there and is the last. -/
theorem prpBus_second {prp1 prp2 i : Nat} (hi : ¬ i < memoryPage - prp1 % memoryPage) :
    prpBus prp1 prp2 len i = some phys ↔
      len ≤ memoryPage - prp1 % memoryPage + memoryPage ∧ prp2 % memoryPage = 0 ∧
        prp2 + (i - (memoryPage - prp1 % memoryPage)) = phys := by
  unfold prpBus
  dsimp only
  rw [if_neg hi]
  split_ifs with hlast
  · rw [Option.some_inj, and_iff_right hlast.1, and_iff_right hlast.2]
  · refine iff_of_false (fun hnone => nomatch hnone) ?_
    rintro ⟨hlen, haligned, -⟩
    exact hlast ⟨hlen, haligned⟩

/-- A range of memory is right exactly when its first page is mapped to itself, and its second
page, the last, to where the second entry points. -/
theorem transfer_right_iff (hv : TablesOk kernStart kernEnd totalPages v) (hlen : 0 < len) :
    (Given.mk v buf len (prpBus buf (buf + d.pageSize) len)).Right ↔ Transferable d v len buf := by
  have haligned := d.pageSize_aligned
  constructor
  · intro hright
    have hfirst : 0 < memoryPage - buf % memoryPage := Nat.sub_pos_of_lt (Nat.mod_lt _ (by decide))
    obtain ⟨phys, hbus, hphys⟩ := hright 0 hlen
    obtain rfl := Option.some.inj ((prpBus_first hfirst).symm.trans hbus)
    refine ⟨hphys, ?_⟩
    intro hmore
    obtain ⟨phys, hbus, hphys⟩ := hright _ hmore
    obtain ⟨hlast, hsecond, rfl⟩ := (prpBus_second (Nat.lt_irrefl _)).mp hbus
    unfold memoryPage at haligned hlast hsecond hphys ⊢
    have hstart : buf % 4096 = 0 := by omega
    rw [hstart, Nat.sub_zero, Nat.sub_self, Nat.add_zero] at hphys
    exact ⟨hstart, by omega, hphys⟩
  · rintro ⟨hfirst, hmore⟩ i hi
    change i < len at hi
    have hlow := hfirst.lt hv
    unfold kheapStart at hlow
    by_cases hpage : i < memoryPage - buf % memoryPage
    · refine ⟨_, prpBus_first hpage, ?_⟩
      unfold memoryPage at hpage
      exact hfirst.add rfl (by omega) (by omega)
    · obtain ⟨hstart, htwo, hsecond⟩ := hmore (Nat.lt_of_le_of_lt (Nat.le_of_not_lt hpage) hi)
      rw [hstart, Nat.sub_zero] at hpage
      refine ⟨buf + d.pageSize + (i - memoryPage), ?_, ?_⟩
      · rw [prpBus_second (by rw [hstart, Nat.sub_zero]; exact hpage), hstart, Nat.sub_zero]
        unfold memoryPage at *
        exact ⟨by omega, by omega, rfl⟩
      · unfold memoryPage at *
        have hbyte := hsecond.add (n := i - 4096) (by omega) (by omega) (by omega)
        rw [show buf + i = buf + 4096 + (i - 4096) by omega]
        exact hbyte

theorem nvmeTransfer_right_iff (hv : TablesOk kernStart kernEnd totalPages v) :
    (∀ x ∈ nvmeTransfer d v count buf, x.Right) ↔ TransferOk d v count buf := by
  unfold nvmeTransfer TransferOk
  by_cases hrefused : (!d.ok) = true ∨ buf = 0 ∨ count = 0
  · rw [if_pos hrefused]
    refine iff_of_true (fun x hx => absurd hx List.not_mem_nil) ?_
    rcases hrefused with hok | hbuf | hcount
    · exact Or.inl (by simpa using hok)
    · exact Or.inr (Or.inl hbuf)
    · exact Or.inr (Or.inr (Or.inl hcount))
  · obtain ⟨hok, hrest⟩ := not_or.mp hrefused
    obtain ⟨hbuf, hcount⟩ := not_or.mp hrest
    have hnot : d.ok ≠ false := by simpa using hok
    rw [if_neg hrefused, List.forall_mem_singleton, or_iff_right hnot, or_iff_right hbuf,
      or_iff_right hcount]
    rcases Nat.eq_zero_or_pos (count * d.sectorSz) with hzero | hlen
    · rw [hzero]
      exact iff_of_true (fun i hi => absurd hi (Nat.not_lt_zero i)) (Or.inl rfl)
    · rw [or_iff_right (Nat.ne_of_gt hlen)]
      exact transfer_right_iff hv hlen

/-! The calls in any state. -/

theorem KernelOk.right_iff (hs : KernelOk kernStart kernEnd totalPages h) (c : DmaCall) :
    c.Right h ↔ c.Harmless h := by
  cases c with
  | nvmeInit bar0 answers => exact nvmeInit_right_iff hs
  | nvmeRead d count buf => exact nvmeTransfer_right_iff hs.tables
  | nvmeWrite d count buf => exact nvmeTransfer_right_iff hs.tables
  | rtl8139Init bar0 reset => exact rtl8139Init_right_iff hs

variable {mbi : Mm.MultibootInfo} {mem : Mm.Mem} {starved : Nat → Bool} {g : Heap}

/-- A controller with its registers at 0xFEBF0000, before it starts. -/
def qemuInit : DmaCall := .nvmeInit (some 0xFEBF0004) ⟨false, false, false⟩

theorem qemuInit_queues : ((Mm.heapInit (Mm.smallVm fun _ => false)).bind fun h =>
    nvmeQueues { h with vm := mapRegisters h.vm (mmioBase 0xFEBF0004) }).isSome = true := by
  rw [Mm.smallVm_eq]
  decide +kernel

end PinguinOS.Drivers
