import PinguinOS.Mm.Paging

/-! The kernel heap: a first-fit list of blocks over pages that are mapped as it grows. -/
namespace PinguinOS.Mm

def kheapStart : Nat := 0xD0000000
def kheapMax : Nat := 0xDFFFFFFF
def heapMagicFree : BitVec 32 := 0xDEADBEEF
def heapMagicUsed : BitVec 32 := 0xBEEFCAFE
def heapMinSplit : Nat := 32

/-- `sizeof(heap_block_t)` -/
def headerSize : Nat := 16

structure Block where
  addr : Nat
  magic : BitVec 32
  size : Nat
  free : Bool
  deriving DecidableEq

structure Heap where
  /-- The list from `heap_head` on, in the order of the `next` pointers. -/
  blocks : List Block
  brk : Nat
  usedBytes : Nat
  totalBytes : Nat
  /-- The payload bytes; headers are kept in `blocks`. -/
  bytes : Nat → BitVec 8
  vm : Vm

/-- The heap branch of `page_fault_handler`; `none` is `kpanic`. -/
def heapFault (v : Vm) (faultAddr : Nat) : Option Vm :=
  if kheapStart ≤ faultAddr ∧ faultAddr < kheapMax then
    let (phys, v) := v.allocPage
    if phys = 0 then none
    else
      let (result, v) := pagingMapPage v (alignDown faultAddr pageSize) phys
        (pdePresent ||| pdeWritable)
      if result ≠ 0 then none else some v
  else none

/-- The pages of `[addr, addr + len)`. -/
def pagesOf (addr len : Nat) : List Nat :=
  if len = 0 then []
  else List.range' (addr / pageSize) ((addr + len - 1) / pageSize + 1 - addr / pageSize)

/-- An access to `[addr, addr + len)`: every page that is not mapped faults first. -/
def touch (v : Vm) (addr len : Nat) : Option Vm :=
  (pagesOf addr len).foldlM (fun v page =>
    if pagingGetPhys v (page * pageSize) = 0 then heapFault v (page * pageSize) else some v) v

/-- The body of the loop of `heap_grow`. -/
def heapGrowPage (h : Heap) : Bool × Heap :=
  if u32 (h.brk + pageSize) > kheapMax then (false, h)
  else
    let (phys, vm) := h.vm.allocPage
    if phys = 0 then (false, { h with vm := vm })
    else
      let (_, vm) := pagingMapPage vm h.brk phys (pdePresent ||| pdeWritable)
      (true, { h with
        vm := vm
        brk := u32 (h.brk + pageSize)
        totalBytes := u32 (h.totalBytes + pageSize) })

def heapGrowPages : Nat → Heap → Bool × Heap
  | 0, h => (true, h)
  | n + 1, h =>
    let r := heapGrowPage h
    if r.1 then heapGrowPages n r.2 else r

/-- The number of pages `heap_grow` maps for `needed` bytes. -/
def growPages (needed : Nat) : Nat := u32 (needed + pageSize - 1) / pageSize

def heapGrow (h : Heap) (needed : Nat) : Bool × Heap := heapGrowPages (growPages needed) h

/-- The statics when `heap_init` starts to grow the heap. -/
def Heap.empty (vm : Vm) : Heap where
  blocks := []
  brk := kheapStart
  usedBytes := 0
  totalBytes := 0
  bytes := fun _ => 0
  vm := vm

def heapInit (vm : Vm) : Option Heap :=
  let (grown, h) := heapGrow (Heap.empty vm) (4 * pageSize)
  if !grown then none
  else do
    let vm ← touch h.vm kheapStart headerSize
    let head : Block :=
      { addr := kheapStart
        magic := heapMagicFree
        size := sub32 h.totalBytes headerSize
        free := true }
    some { h with vm := vm, blocks := [head] }

/-- `heap_split`: the block, and what follows it in the list. -/
def heapSplit (vm : Vm) (blk : Block) (next : List Block) (size : Nat) :
    Option (Vm × Block × List Block) :=
  if blk.size < u32 (size + headerSize + heapMinSplit) then some (vm, blk, next)
  else do
    let newAddr := u32 (blk.addr + headerSize + size)
    let vm ← touch vm newAddr headerSize
    let newBlk : Block :=
      { addr := newAddr
        magic := heapMagicFree
        size := sub32 (sub32 blk.size size) headerSize
        free := true }
    some (vm, { blk with size := size }, newBlk :: next)

/-- `blk->free && blk->size >= size` -/
def Block.fits (size : Nat) (blk : Block) : Bool := blk.free && decide (blk.size ≥ size)

/-- `while (blk)` of `heap_alloc_raw`: the block taken, if any, and the list after it. -/
def takeFirstFit (vm : Vm) (size : Nat) : List Block → Option (Vm × Option Block × List Block)
  | [] => some (vm, none, [])
  | blk :: rest =>
    if blk.fits size then do
      let (vm, blk, rest) ← heapSplit vm blk rest size
      let blk := { blk with free := false, magic := heapMagicUsed }
      some (vm, some blk, blk :: rest)
    else do
      let (vm, taken, rest) ← takeFirstFit vm size rest
      some (vm, taken, blk :: rest)

/-- `grow_size` -/
def growSize (size : Nat) : Nat :=
  let grow := u32 (headerSize + size)
  if grow < pageSize then pageSize else grow

/-- The block that a successful `heap_grow` appends to the list. -/
def newBlock (oldBrk newBrk : Nat) : Block where
  addr := oldBrk
  magic := heapMagicFree
  size := sub32 (sub32 newBrk oldBrk) headerSize
  free := true

/-- `heap_alloc_raw`, for at most `depth` calls of itself. -/
def heapAllocRaw : (depth : Nat) → Heap → Nat → Option (Nat × Heap)
  | 0, _, _ => none
  | depth + 1, h, size =>
    if size = 0 then some (0, h)
    else do
      let size := alignUp size 8
      let (vm, taken, blocks) ← takeFirstFit h.vm size h.blocks
      match taken with
      | some blk =>
        some (u32 (blk.addr + headerSize),
          { h with vm := vm, blocks := blocks, usedBytes := u32 (h.usedBytes + blk.size) })
      | none =>
        let (grown, h') := heapGrow h (growSize size)
        if !grown then some (0, h')
        else do
          let vm ← touch h'.vm h.brk headerSize
          heapAllocRaw depth
            { h' with vm := vm, blocks := h'.blocks ++ [newBlock h.brk h'.brk] } size

/-- The `while` loop of `heap_free_raw`, with `cur` in hand. -/
def coalesceFrom (cur : Block) : List Block → List Block
  | [] => [cur]
  | next :: rest =>
    if cur.free && next.free then
      coalesceFrom { cur with size := u32 (cur.size + u32 (headerSize + next.size)) } rest
    else cur :: coalesceFrom next rest

def coalesce : List Block → List Block
  | [] => []
  | cur :: rest => coalesceFrom cur rest

/-- The header at `addr`. -/
def Heap.blockAt (h : Heap) (addr : Nat) : Option Block := h.blocks.find? fun b => b.addr = addr

def Block.release (addr : Nat) (b : Block) : Block :=
  if b.addr = addr then { b with free := true, magic := heapMagicFree } else b

/-- `heap_free_raw`; `none` also where there is no header at the pointer. -/
def heapFreeRaw (h : Heap) (ptr : Nat) : Option Heap :=
  if ptr = 0 then some h
  else do
    let addr := sub32 ptr headerSize
    let blk ← h.blockAt addr
    if blk.magic ≠ heapMagicUsed then none
    else some { h with
      blocks := coalesce (h.blocks.map (Block.release addr))
      usedBytes := sub32 h.usedBytes blk.size }

/-- More calls than there are pages between `KHEAP_START` and `KHEAP_MAX`. -/
def allocDepth : Nat := 0x10002

def kmalloc (h : Heap) (size : Nat) : Option (Nat × Heap) := heapAllocRaw allocDepth h size

/-- `memset` of payload bytes. -/
def fillBytes (bytes : Nat → BitVec 8) (addr len : Nat) : Nat → BitVec 8 := fun a =>
  if addr ≤ a ∧ a < addr + len then 0 else bytes a

/-- `memcpy` of payload bytes. -/
def copyBytes (bytes : Nat → BitVec 8) (dst src len : Nat) : Nat → BitVec 8 := fun a =>
  if dst ≤ a ∧ a < dst + len then bytes (src + (a - dst)) else bytes a

def kzalloc (h : Heap) (size : Nat) : Option (Nat × Heap) := do
  let (p, h) ← heapAllocRaw allocDepth h size
  if p = 0 then some (p, h)
  else do
    let vm ← touch h.vm p size
    some (p, { h with vm := vm, bytes := fillBytes h.bytes p size })

def kfree (h : Heap) (ptr : Nat) : Option Heap := heapFreeRaw h ptr

def krealloc (h : Heap) (ptr size : Nat) : Option (Nat × Heap) :=
  if ptr = 0 then kmalloc h size
  else if size = 0 then do
    let h ← kfree h ptr
    some (0, h)
  else do
    let blk ← h.blockAt (sub32 ptr headerSize)
    if blk.size ≥ size then some (ptr, h)
    else do
      let (newPtr, h) ← kmalloc h size
      if newPtr = 0 then some (0, h)
      else do
        let blk ← h.blockAt (sub32 ptr headerSize)
        let vm ← touch h.vm ptr blk.size
        let vm ← touch vm newPtr blk.size
        let h ← kfree { h with vm := vm, bytes := copyBytes h.bytes newPtr ptr blk.size } ptr
        some (newPtr, h)

/-! One page of a growth. -/

/-- `heap_grow` stops at this page: the limit, or no physical page. -/
def Heap.Stops (h : Heap) : Prop := u32 (h.brk + pageSize) > kheapMax ∨ h.vm.allocPage.1 = 0

variable {h : Heap}

theorem growPage_stops (hstop : h.Stops) :
    heapGrowPage h = (false, h) ∨
      h.vm.allocPage.1 = 0 ∧ heapGrowPage h = (false, { h with vm := h.vm.allocPage.2 }) := by
  unfold heapGrowPage
  dsimp only
  by_cases hlimit : u32 (h.brk + pageSize) > kheapMax
  · exact Or.inl (if_pos hlimit)
  · have hzero := hstop.resolve_left hlimit
    rw [if_neg hlimit, if_pos hzero]
    exact Or.inr ⟨hzero, rfl⟩

theorem growPage_goes (hgo : ¬ h.Stops) :
    heapGrowPage h = (true, { h with
      vm := (pagingMapPage h.vm.allocPage.2 h.brk h.vm.allocPage.1 (pdePresent ||| pdeWritable)).2
      brk := u32 (h.brk + pageSize)
      totalBytes := u32 (h.totalBytes + pageSize) }) := by
  obtain ⟨hlimit, hzero⟩ := not_or.mp hgo
  unfold heapGrowPage
  dsimp only
  rw [if_neg hlimit, if_neg hzero]

theorem growPage_fst : (heapGrowPage h).1 = true ↔ ¬ h.Stops := by
  by_cases hstop : h.Stops
  · rcases growPage_stops hstop with heq | ⟨-, heq⟩
    · rw [heq]
      exact iff_of_false Bool.false_ne_true (not_not.mpr hstop)
    · rw [heq]
      exact iff_of_false Bool.false_ne_true (not_not.mpr hstop)
  · rw [growPage_goes hstop]
    exact iff_of_true rfl hstop

-- unfolded in a unification, the limit test would be computed in unary
attribute [irreducible] heapGrowPage

end PinguinOS.Mm
