import PinguinOS.Lib.Bytes
import PinguinOS.Mm.PhysAlloc
import Mathlib.Logic.Function.Basic

/-! The slab allocator: caches of objects of one size, free objects linked through themselves. -/
namespace PinguinOS.Mm

open Bytes

def slabMaxCaches : Nat := 64

structure SlabDesc where
  base : Nat
  total : Nat
  freeCount : Nat
  freelist : Nat
  next : Nat

structure SlabCache where
  objSize : Nat
  objAlign : Nat
  objsPerSlab : Nat
  slabPages : Nat
  partialSlabs : Nat
  fullSlabs : Nat
  emptySlabs : Nat
  allocCount : Nat
  freeCount : Nat

/-- A cache, and the memory that its slabs and their descriptors are in. -/
structure SlabState where
  pmm : Pmm
  /-- The descriptor at a heap address. -/
  slab : Nat → SlabDesc
  cache : SlabCache

def SlabCache.stride (c : SlabCache) : Nat := alignUp c.objSize c.objAlign

/-- The lists of a cache, in the order in which `slab_free` searches them. -/
inductive SlabList
  | full | inUse | empty
  deriving DecidableEq

def SlabCache.head (c : SlabCache) : SlabList → Nat
  | .full => c.fullSlabs
  | .inUse => c.partialSlabs
  | .empty => c.emptySlabs

def SlabCache.setHead (c : SlabCache) (li : SlabList) (s : Nat) : SlabCache :=
  match li with
  | .full => { c with fullSlabs := s }
  | .inUse => { c with partialSlabs := s }
  | .empty => { c with emptySlabs := s }

/-- The loop of `slab_new` that links the slots, from slot `i` on with `n` links to go. -/
def linkSlots (mem : Mem) (p stride i : Nat) : (n : Nat) → Mem
  | 0 => mem
  | n + 1 =>
    linkSlots (writePtr mem (u32 (p + u32 (i * stride))) (u32 (p + u32 ((i + 1) * stride))))
      p stride (i + 1) n

/-- The freelist of a new slab. -/
def buildFreelist (mem : Mem) (p stride objs : Nat) : Mem :=
  writePtr (linkSlots mem p stride 0 (sub32 objs 1)) (u32 (p + u32 (sub32 objs 1 * stride))) 0

/-- The descriptor of a new slab. -/
def SlabCache.newDesc (c : SlabCache) (base : Nat) : SlabDesc where
  base := base
  total := c.objsPerSlab
  freeCount := c.objsPerSlab
  freelist := base
  next := 0

/-- `slab_new`: `desc` is what `kmalloc` returns, and `pmm_alloc_pages` fails if `starved`. -/
def slabNew (st : SlabState) (desc : Nat) (starved : Bool) : Nat × SlabState :=
  if desc = 0 then (0, st)
  else
    let r := if starved then (0, st.pmm) else pmmAllocPages st.pmm st.cache.slabPages
    if r.1 = 0 then (0, { st with pmm := r.2 })
    else
      let mem := buildFreelist r.2.mem r.1 st.cache.stride st.cache.objsPerSlab
      (desc, { st with
        pmm := { r.2 with mem := mem }
        slab := Function.update st.slab desc (st.cache.newDesc r.1) })

/-- `*head = s->next` -/
def SlabState.dropHead (st : SlabState) (li : SlabList) (s : Nat) : SlabState :=
  { st with cache := st.cache.setHead li (st.slab s).next }

/-- `s->next = *head; *head = s` -/
def SlabState.push (st : SlabState) (li : SlabList) (s : Nat) : SlabState :=
  { st with
    slab := Function.update st.slab s { st.slab s with next := st.cache.head li }
    cache := st.cache.setHead li s }

/-- `obj = slab->freelist; slab->freelist = *slab->freelist; slab->free_count--` -/
def SlabState.takeObj (st : SlabState) (s : Nat) : SlabState :=
  { st with
    slab := Function.update st.slab s { st.slab s with
      freelist := readPtr st.pmm.mem (st.slab s).freelist
      freeCount := sub32 (st.slab s).freeCount 1 }
    cache := { st.cache with allocCount := (st.cache.allocCount + 1) % 2 ^ 64 } }

/-- The slab that `slab_alloc` takes an object from. -/
def pickSlab (st : SlabState) (desc : Nat) (starved : Bool) : Nat × SlabState :=
  if st.cache.partialSlabs ≠ 0 then (st.cache.partialSlabs, st)
  else if st.cache.emptySlabs ≠ 0 then (st.cache.emptySlabs, st)
  else slabNew st desc starved

/-- The slab goes to the list that its count calls for. -/
def moveAfterAlloc (st : SlabState) (s : Nat) : SlabState :=
  if (st.slab s).freeCount = 0 then
    let st := if st.cache.partialSlabs = s then st.dropHead .inUse s else st
    st.push .full s
  else if (st.slab s).freeCount = sub32 (st.slab s).total 1 then
    let st := if st.cache.emptySlabs = s then st.dropHead .empty s else st
    st.push .inUse s
  else st

/-- `none` where the freelist that is read is NULL. -/
def slabAlloc (st : SlabState) (desc : Nat) (starved : Bool) : Option (Nat × SlabState) :=
  let (s, st) := pickSlab st desc starved
  if s = 0 then some (0, st)
  else
    let obj := (st.slab s).freelist
    if obj = 0 then none
    else
      let st := moveAfterAlloc (st.takeObj s) s
      some (obj,
        { st with pmm := { st.pmm with mem := zeroBytes st.pmm.mem obj st.cache.objSize } })

/-- The slab's pages hold the object. -/
def SlabState.holds (st : SlabState) (obj s : Nat) : Bool :=
  (st.slab s).base ≤ obj && obj < u32 ((st.slab s).base + u32 (st.cache.slabPages * pageSize))

/-- `while (s)` of `slab_free`: the slab that holds the object and its predecessor, if any;
`none` where `depth` steps do not end the walk. -/
def findFrom (st : SlabState) (obj : Nat) :
    (depth : Nat) → (prev s : Nat) → Option (Option (Nat × Nat))
  | 0, _, _ => none
  | depth + 1, prev, s =>
    if s = 0 then some none
    else if st.holds obj s then some (some (prev, s))
    else findFrom st obj depth s (st.slab s).next

/-- More steps than there are pages. -/
def walkDepth : Nat := 0x40001

/-- The slab is taken off its list. -/
def SlabState.unlink (st : SlabState) (li : SlabList) (prev s : Nat) : SlabState :=
  if prev ≠ 0 then
    { st with
      slab := Function.update st.slab prev { st.slab prev with next := (st.slab s).next } }
  else st.dropHead li s

/-- `for (li = 0; lists[li]; li++)`; `none` is `kpanic`. -/
def takeOut (st : SlabState) (obj : Nat) : List SlabList → Option (Nat × SlabState)
  | [] => none
  | li :: rest => do
    let found ← findFrom st obj walkDepth 0 (st.cache.head li)
    match found with
    | some (prev, s) => some (s, st.unlink li prev s)
    | none => takeOut st obj rest

/-- The object goes back to the freelist of its slab. -/
def SlabState.giveObj (st : SlabState) (s obj : Nat) : SlabState :=
  { pmm := { st.pmm with mem := writePtr st.pmm.mem obj (st.slab s).freelist }
    slab := Function.update st.slab s { st.slab s with
      freelist := obj
      freeCount := u32 ((st.slab s).freeCount + 1) }
    cache := { st.cache with freeCount := (st.cache.freeCount + 1) % 2 ^ 64 } }

def slabFree (st : SlabState) (obj : Nat) : Option SlabState :=
  if obj = 0 then some st
  else do
    let (found, st) ← takeOut st obj [.full, .inUse, .empty]
    let st := st.giveObj found obj
    some (if (st.slab found).freeCount = (st.slab found).total then st.push .empty found
      else st.push .inUse found)

inductive Created
  | null
  | divideError
  | cache (c : SlabCache)

/-- The loop of `slab_cache_create` that adds up to `n` pages. -/
def slabPagesFrom (stride : Nat) : (n : Nat) → (pages : Nat) → Nat
  | 0, pages => pages
  | n + 1, pages =>
    if pages * pageSize / stride < 8 then slabPagesFrom stride n (pages + 1) else pages

def slabCacheCreate (cacheCount : Nat) (kzallocFails : Bool) (objSize align : Nat) : Created :=
  if cacheCount ≥ slabMaxCaches then .null
  else
    let objSize := if objSize < 4 then 4 else objSize
    if kzallocFails then .null
    else
      let objAlign := if align ≠ 0 then align else 8
      let stride := alignUp objSize objAlign
      if stride = 0 then .divideError
      else
        let pages := slabPagesFrom stride 3 1
        .cache
          { objSize := objSize
            objAlign := objAlign
            objsPerSlab := pages * pageSize / stride
            slabPages := pages
            partialSlabs := 0
            fullSlabs := 0
            emptySlabs := 0
            allocCount := 0
            freeCount := 0 }

end PinguinOS.Mm
