import PinguinOS.Lib.Run
import PinguinOS.Mm.HeapAlloc
import PinguinOS.Mm.Boot

/-! Runs of heap calls, and when the block list tiles the heap. -/
namespace PinguinOS.Mm

inductive HeapCall
  | kmalloc (size : Nat)
  | kzalloc (size : Nat)
  | krealloc (ptr size : Nat)
  | kfree (ptr : Nat)

/-- A pointer that an allocation returned and that has not been freed. -/
def Heap.Live (h : Heap) (ptr : Nat) : Prop :=
  ∃ b ∈ h.blocks, b.free = false ∧ ptr = b.addr + headerSize

/-- What the call returns, and the heap after it; `none` is `kpanic`. -/
def Heap.exec (h : Heap) : HeapCall → Option (Nat × Heap)
  | .kmalloc size => kmalloc h size
  | .kzalloc size => kzalloc h size
  | .krealloc ptr size => krealloc h ptr size
  | .kfree ptr => (kfree h ptr).map fun h => (0, h)

/-- The pointer passed is NULL or live. -/
def Heap.Allowed (h : Heap) : HeapCall → Prop
  | .krealloc ptr _ => ptr = 0 ∨ h.Live ptr
  | .kfree ptr => ptr = 0 ∨ h.Live ptr
  | _ => True

instance {h : Heap} {ptr : Nat} : Decidable (h.Live ptr) :=
  inferInstanceAs (Decidable (∃ b ∈ h.blocks, b.free = false ∧ ptr = b.addr + headerSize))

instance {h : Heap} {c : HeapCall} : Decidable (h.Allowed c) :=
  match c with
  | .krealloc ptr _ => inferInstanceAs (Decidable (ptr = 0 ∨ h.Live ptr))
  | .kfree ptr => inferInstanceAs (Decidable (ptr = 0 ∨ h.Live ptr))
  | .kmalloc _ => isTrue trivial
  | .kzalloc _ => isTrue trivial

def Heap.step (h : Heap) (c : HeapCall) : Option Heap :=
  if h.Allowed c then (h.exec c).map Prod.snd else none

theorem step_kmalloc {h : Heap} {size : Nat} :
    h.step (.kmalloc size) = (h.exec (.kmalloc size)).map Prod.snd := if_pos trivial

/-- The size argument. -/
def HeapCall.size : HeapCall → Nat
  | .kmalloc size => size
  | .kzalloc size => size
  | .krealloc _ size => size
  | .kfree _ => 0

/-- The size with which the call enters `heap_alloc_raw`, if it does. -/
def Heap.request (h : Heap) : HeapCall → Option Nat
  | .kmalloc size => some size
  | .kzalloc size => some size
  | .krealloc ptr size =>
    if ptr = 0 then some size
    else if size = 0 then none
    else match h.blockAt (sub32 ptr headerSize) with
      | some blk => if blk.size ≥ size then none else some size
      | none => none
  | .kfree _ => none

variable {R : Nat → Nat → Prop} [Spacing R] {h h' : Heap} {c : HeapCall} {p ptr size : Nat}

/-- What a call does to the heap `g` after `heap_alloc_raw` has returned `q` to it. -/
inductive Finishes (g : Heap) (q : Nat) : HeapCall → Heap → Prop
  | null {c : HeapCall} (hq : q = 0) : Finishes g q c g
  | kmalloc {size : Nat} : Finishes g q (.kmalloc size) g
  | kreallocNull {size : Nat} : Finishes g q (.krealloc 0 size) g
  | kzalloc {size : Nat} {vm : Vm} (hq : q ≠ 0) (htouch : touch g.vm q size = some vm) :
    Finishes g q (.kzalloc size) { g with vm := vm, bytes := fillBytes g.bytes q size }
  | krealloc {ptr size : Nat} {blk : Block} {vm vm' : Vm} {h' : Heap} (hq : q ≠ 0)
    (hblk : g.blockAt (sub32 ptr headerSize) = some blk)
    (hsrc : touch g.vm ptr blk.size = some vm) (hdst : touch vm q blk.size = some vm')
    (hfree : PinguinOS.Mm.kfree
      { g with vm := vm', bytes := copyBytes g.bytes q ptr blk.size } ptr = some h') :
    Finishes g q (.krealloc ptr size) h'

theorem Finishes.of_null {g : Heap} (hfin : Finishes g 0 c h') : h' = g := by
  cases hfin with
  | null hq => rfl
  | kmalloc => rfl
  | kreallocNull => rfl
  | kzalloc hq htouch => exact absurd rfl hq
  | krealloc hq hblk hsrc hdst hfree => exact absurd rfl hq

/-- A call either leaves `heap_alloc_raw` alone and at most frees, or asks it and finishes. -/
theorem exec_cases (hres : h.exec c = some (p, h')) :
    (h.request c = none ∧ (h' = h ∨ ∃ ptr, kfree h ptr = some h')) ∨
      ∃ size g, h.request c = some size ∧ kmalloc h size = some (p, g) ∧ Finishes g p c h' := by
  cases c with
  | kmalloc size => exact Or.inr ⟨size, h', rfl, hres, .kmalloc⟩
  | kfree ptr =>
    obtain ⟨g, hfree, hg⟩ := Option.map_eq_some_iff.mp hres
    cases hg
    exact Or.inl ⟨rfl, Or.inr ⟨ptr, hfree⟩⟩
  | kzalloc size =>
    obtain ⟨⟨q, g⟩, halloc, hrest⟩ := Option.bind_eq_some_iff.mp hres
    dsimp only at hrest
    split_ifs at hrest with hq
    · cases hrest
      exact Or.inr ⟨size, h', rfl, halloc, .null hq⟩
    · obtain ⟨vm, htouch, hend⟩ := Option.bind_eq_some_iff.mp hrest
      cases hend
      exact Or.inr ⟨size, g, rfl, halloc, .kzalloc hq htouch⟩
  | krealloc ptr size =>
    unfold Heap.exec krealloc at hres
    unfold Heap.request
    dsimp only at hres ⊢
    split_ifs at hres ⊢ with hptr hsize
    · subst hptr
      exact Or.inr ⟨size, h', rfl, hres, .kreallocNull⟩
    · obtain ⟨g, hfree, hg⟩ := Option.bind_eq_some_iff.mp hres
      cases hg
      exact Or.inl ⟨rfl, Or.inr ⟨ptr, hfree⟩⟩
    · obtain ⟨blk, hblk, hrest⟩ := Option.bind_eq_some_iff.mp hres
      rw [hblk]
      dsimp only
      split_ifs at hrest ⊢ with hlarge
      · cases hrest
        exact Or.inl ⟨rfl, Or.inl rfl⟩
      · obtain ⟨⟨q, g⟩, halloc, hrest⟩ := Option.bind_eq_some_iff.mp hrest
        dsimp only at hrest
        split_ifs at hrest with hq
        · cases hrest
          exact Or.inr ⟨size, h', rfl, hq ▸ halloc, .null rfl⟩
        · obtain ⟨blk', hblk', hrest⟩ := Option.bind_eq_some_iff.mp hrest
          obtain ⟨vm, hsrc, hrest⟩ := Option.bind_eq_some_iff.mp hrest
          obtain ⟨vm', hdst, hrest⟩ := Option.bind_eq_some_iff.mp hrest
          obtain ⟨g', hfree, hg⟩ := Option.bind_eq_some_iff.mp hrest
          cases hg
          exact Or.inr ⟨size, g, rfl, halloc, .krealloc hq hblk' hsrc hdst hfree⟩

/-- `kfree` keeps the shape, whatever the pointer. -/
theorem Shape.kfree (hok : HeapOk R h) (hfree : kfree h ptr = some h') : HeapOk R h' := by
  unfold PinguinOS.Mm.kfree heapFreeRaw at hfree
  split_ifs at hfree with hptr
  · cases hfree
    exact hok
  · obtain ⟨blk, hblk, hrest⟩ := Option.bind_eq_some_iff.mp hfree
    split_ifs at hrest with hmagic
    cases hrest
    have hmem := List.mem_of_find?_eq_some hblk
    have haddr : blk.addr = sub32 ptr headerSize := by simpa using List.find?_some hblk
    have hused : blk.free = false := by
      rcases hok.laid.marked blk hmem with ⟨-, hm⟩ | ⟨hused, -⟩
      · rw [hm] at hmagic
        exact absurd hmagic (by decide)
      · exact hused
    rw [← haddr]
    exact (hok.release hmem hused).coalesce

theorem Shape.finishes {g : Heap} (hok : HeapOk R g) (hfin : Finishes g p c h') : HeapOk R h' := by
  cases hfin with
  | null hq => exact hok
  | kmalloc => exact hok
  | kreallocNull => exact hok
  | kzalloc hq htouch => exact hok
  | krealloc hq hblk hsrc hdst hfree =>
    refine Shape.kfree ?_ hfree
    exact hok

/-- The blocks tile the heap, and the counters and magics agree with them. -/
structure Tiled (h : Heap) : Prop where
  tiles : Layout.Packed Eq Block.addr Block.stop kheapStart h.brk h.blocks
  free_iff : ∀ b ∈ h.blocks, b.free = true ↔ b.magic = heapMagicFree
  used : h.usedBytes = usedSum h.blocks
  total : h.totalBytes = h.brk - kheapStart

/-- If the call has to grow the heap, the growth stops before its first page or not at all. -/
def Heap.GrowsWell (h : Heap) (c : HeapCall) : Prop :=
  ∀ size, h.request c = some size → size ≠ 0 →
    (∀ b ∈ h.blocks, b.fits (alignUp size 8) = false) → h.GrowsWhole (requestPages size)

theorem Block.Marked.free_iff {b : Block} (hb : b.Marked) :
    b.free = true ↔ b.magic = heapMagicFree := by
  rcases hb with ⟨hfree, hmagic⟩ | ⟨hfree, hmagic⟩
  · simp [hfree, hmagic]
  · rw [hfree, hmagic]
    decide

/-- Where gaps are the only thing that can be wrong. -/
theorem tiled_iff_shape (hok : HeapOk (· ≤ ·) h) : Tiled h ↔ HeapOk Eq h := by
  constructor
  · intro ht
    exact ⟨⟨ht.tiles, hok.laid.marked, hok.laid.aligned⟩, hok.used, hok.total, hok.start, hok.limit,
      hok.page⟩
  · intro hok
    exact ⟨hok.laid.packed, fun b hb => (hok.laid.marked b hb).free_iff, hok.used, hok.total⟩

theorem shape_weaken (hok : HeapOk R h) : HeapOk (· ≤ ·) h :=
  ⟨⟨packed_le hok.laid.packed, hok.laid.marked, hok.laid.aligned⟩, hok.used, hok.total, hok.start,
    hok.limit, hok.page⟩

theorem request_size (hreq : h.request c = some size) : size = c.size := by
  cases c with
  | kmalloc size => exact (Option.some.inj hreq).symm
  | kzalloc size => exact (Option.some.inj hreq).symm
  | kfree ptr => cases hreq
  | krealloc ptr size =>
    unfold Heap.request at hreq
    dsimp only at hreq
    split_ifs at hreq with hptr hsize
    · exact (Option.some.inj hreq).symm
    · cases hblk : h.blockAt (sub32 ptr headerSize) with
      | none =>
        rw [hblk] at hreq
        cases hreq
      | some blk =>
        rw [hblk] at hreq
        dsimp only at hreq
        split_ifs at hreq
        exact (Option.some.inj hreq).symm

theorem kmalloc_eq : kmalloc h size = heapAllocRaw (0x10001 + 1) h size := rfl

/-- `heap_alloc_raw` with size 0 returns NULL at once. -/
theorem kmalloc_zero : kmalloc h 0 = some (0, h) := rfl

/-- A call keeps the shape if its growth leaves no gap, or if gaps are allowed. -/
theorem Shape.exec (hok : HeapOk R h) (hlt : c.size ≤ maxRequest)
    (hgap : (∀ a b, a ≤ b → R a b) ∨ h.GrowsWell c) (hres : h.exec c = some (p, h')) :
    HeapOk R h' := by
  rcases exec_cases hres with ⟨-, rfl | ⟨ptr, hfree⟩⟩ | ⟨size, g, hreq, halloc, hfin⟩
  · exact hok
  · exact hok.kfree hfree
  · refine Shape.finishes ?_ hfin
    have hsize := request_size hreq
    by_cases hzero : size = 0
    · subst hzero
      rw [kmalloc_zero] at halloc
      cases halloc
      exact hok
    · refine (hok.alloc hzero (hsize ▸ hlt) ?_ (kmalloc_eq ▸ halloc)).1
      rcases hgap with hgap | hwell
      · exact Or.inl hgap
      · by_cases hfits : ∃ b ∈ h.blocks, b.fits (alignUp size 8) = true
        · exact Or.inr (Or.inl hfits)
        · refine Or.inr (Or.inr (hwell size hreq hzero ?_))
          intro b hb
          exact eq_false_of_ne_true fun hbfits => hfits ⟨b, hb, hbfits⟩

/-- `heap_init` grows an empty heap by four pages and makes them one block. -/
theorem heapInit_cases {vm : Vm} (hinit : heapInit vm = some h) :
    (heapGrow (Heap.empty vm) (4 * pageSize)).1 = true ∧ ∃ vm',
      touch (heapGrow (Heap.empty vm) (4 * pageSize)).2.vm kheapStart headerSize = some vm' ∧
      Grown (Heap.empty vm) (heapGrow (Heap.empty vm) (4 * pageSize)).2 4 ∧
      h = (heapGrow (Heap.empty vm) (4 * pageSize)).2.append kheapStart vm' := by
  have hlimit : (Heap.empty vm).brk ≤ kheapMax := by simp [Heap.empty, kheapStart, kheapMax]
  have hpages : growPages (4 * pageSize) = 4 := by decide
  obtain ⟨k, -, -, hg, hend⟩ := heapGrow_cases (4 * pageSize) hlimit
  unfold heapInit at hinit
  dsimp only at hinit
  split_ifs at hinit with hgrown
  have hfull : (heapGrow (Heap.empty vm) (4 * pageSize)).1 = true := by simpa using hgrown
  obtain ⟨vm', htouch, hrest⟩ := Option.bind_eq_some_iff.mp hinit
  have hk : k = 4 := by
    rcases hend with ⟨hk, -⟩ | ⟨-, -, hfail⟩
    · exact hk.trans hpages
    · rw [hfull] at hfail
      cases hfail
  subst hk
  refine ⟨hfull, vm', htouch, hg, ?_⟩
  have hblocks := hg.blocks
  have hbrk := hg.brk
  have htotal := hg.total (Nat.le_refl _) (by simp [Heap.empty])
  have hbytes : sub32 (heapGrow (Heap.empty vm) (4 * pageSize)).2.brk kheapStart =
      (heapGrow (Heap.empty vm) (4 * pageSize)).2.totalBytes := by
    have hstart : (Heap.empty vm).brk = kheapStart := rfl
    rw [htotal, sub32_of_le]
    · omega
    · rw [hbrk, hstart]
      decide
  cases hrest
  unfold Heap.append newBlock
  rw [hblocks, hbytes]
  rfl

theorem shape_empty : Shape R [] kheapStart 0 0 where
  laid := ⟨refl_of R kheapStart, by simp, by simp⟩
  used := rfl
  total := (Nat.sub_self kheapStart).symm
  start := Nat.le_refl kheapStart
  limit := by decide
  page := by decide

theorem shape_heapInit {vm : Vm} (hinit : heapInit vm = some h) : HeapOk R h := by
  obtain ⟨-, vm', -, hg, rfl⟩ := heapInit_cases hinit
  have hempty : HeapOk R (Heap.empty vm) := shape_empty
  exact hempty.append vm' hg (Nat.succ_pos 3)

/-- Where the heap has to grow, tiling is kept exactly if the growth is whole. -/
theorem growsWell_iff_tiled {s t : Heap} (hlt : c.size ≤ maxRequest) (hok : HeapOk (· ≤ ·) s)
    (hs : Tiled s) (hstep : s.step c = some t) : s.GrowsWell c ↔ Tiled t := by
  unfold Heap.step at hstep
  split_ifs at hstep
  obtain ⟨⟨p, t'⟩, hres, rfl⟩ := Option.map_eq_some_iff.mp hstep
  constructor
  · intro hwell
    have hEq := (tiled_iff_shape hok).mp hs
    have hEq' := hEq.exec hlt (Or.inr hwell) hres
    exact (tiled_iff_shape (shape_weaken hEq')).mpr hEq'
  · intro ht size hreq hzero hnone
    rcases exec_cases hres with ⟨hno, -⟩ | ⟨size', g, hreq', halloc, hfin⟩
    · rw [hno] at hreq
      cases hreq
    · have hsame : size' = size := Option.some.inj (hreq'.symm.trans hreq)
      subst hsame
      obtain ⟨k, hk, hgo, hg, hend⟩ := heapGrow_cases (growSize (alignUp size' 8)) hok.limit
      rcases heapAllocRaw_succ hzero (kmalloc_eq ▸ halloc) with ⟨vm, b, l, htake, -⟩ | ⟨-, hcases⟩
      · exact absurd hnone (takeFirstFit_fits htake)
      · rcases hcases with ⟨hfail, rfl, rfl⟩ | ⟨hfull, -⟩
        · have hsame := hfin.of_null
          -- the blocks end where they ended before, so the break has not moved
          have htiles := ht.tiles
          rw [hsame, hg.blocks] at htiles
          have hmoved := hg.brk
          rw [← hs.tiles.hi_unique htiles] at hmoved
          have hk0 : k = 0 := by
            simp only [pageSize] at hmoved
            omega
          subst hk0
          rcases hend with ⟨-, heq⟩ | ⟨-, hstop, -⟩
          · rw [heq] at hfail
            cases hfail
          · exact Or.inl hstop
        · refine Or.inr fun j hj => hgo j ?_
          rcases hend with ⟨hk, -⟩ | ⟨-, -, hfail⟩
          · exact hk ▸ hj
          · rw [hfull] at hfail
            cases hfail

/-- The run stays tiled exactly when every growth in it stops before its first page or not at
all. -/
theorem tiled_iff_growsWell {vm : Vm} {calls : List HeapCall} (hinit : heapInit vm = some h)
    (hsmall : ∀ c ∈ calls, c.size ≤ maxRequest) :
    Run.EveryState Heap.step Tiled h calls ↔
      Run.EveryStep Heap.step (fun h c _ => h.GrowsWell c) h calls := by
  have hok : HeapOk Eq h := shape_heapInit hinit
  refine Run.everyState_iff_everyStep (I := HeapOk (· ≤ ·)) hsmall ?_ ?_ (shape_weaken hok)
    ((tiled_iff_shape (shape_weaken hok)).mpr hok)
  · intro s c t hlt hs hts hstep
    exact growsWell_iff_tiled hlt hs hts hstep
  · intro s c t hlt hs hstep
    unfold Heap.step at hstep
    split_ifs at hstep
    obtain ⟨⟨p, t'⟩, hres, rfl⟩ := Option.map_eq_some_iff.mp hstep
    exact hs.exec hlt (Or.inl fun _ _ hle => hle) hres

theorem smallVm_init : (heapInit (smallVm fun _ => false)).isSome = true := by
  rw [smallVm_eq]
  decide +kernel

theorem tiled_iff_growsWell_smallVm : ∃ h, heapInit (smallVm fun _ => false) = some h ∧
    (Run.EveryState Heap.step Tiled h [.kmalloc 0x100, .kzalloc 0x5000] ↔
      Run.EveryStep Heap.step (fun h c _ => h.GrowsWell c) h [.kmalloc 0x100, .kzalloc 0x5000]) := by
  obtain ⟨h, hinit⟩ := Option.isSome_iff_exists.mp smallVm_init
  refine ⟨h, hinit, tiled_iff_growsWell hinit ?_⟩
  intro c hc
  have hsizes : c.size = 0x100 ∨ c.size = 0x5000 := by
    rcases List.mem_cons.mp hc with rfl | hc
    · exact Or.inl rfl
    · rw [List.mem_singleton.mp hc]
      exact Or.inr rfl
  rcases hsizes with hsize | hsize
  · rw [hsize]
    decide
  · rw [hsize]
    decide

/-- Two of six pages are mapped before the memory is used up: the break moves, no block comes. -/
theorem smallVm_kmalloc : ((heapInit (smallVm fun _ => false)).bind fun h =>
    (h.exec (.kmalloc 0x5000)).map fun r => (h.brk, r.1, r.2.brk, r.2.blocks)) =
      some (0xD0004000, 0, 0xD0006000, [⟨0xD0000000, heapMagicFree, 0x3FF0, true⟩]) := by
  rw [smallVm_eq]
  decide +kernel

theorem not_tiled_smallVm :
    ¬ ∀ (mbi : MultibootInfo) (kernStart kernEnd : Nat) (mem : Mem) (starved : Nat → Bool)
      (h : Heap) (calls : List HeapCall),
      heapInit (bootVm mbi kernStart kernEnd mem starved) = some h →
        (∀ c ∈ calls, c.size ≤ maxRequest) → Run.EveryState Heap.step Tiled h calls := by
  intro hall
  obtain ⟨h, hinit, hstep⟩ := Option.bind_eq_some_iff.mp smallVm_kmalloc
  obtain ⟨⟨p, t⟩, hres, heq⟩ := Option.map_eq_some_iff.mp hstep
  have hafter := (Prod.mk.inj (Prod.mk.inj heq).2).2
  obtain ⟨hbrk, hblocks⟩ := Prod.mk.inj hafter
  have ht : h.step (.kmalloc 0x5000) = some t := by
    rw [step_kmalloc, hres]
    rfl
  have hsmall : ∀ c ∈ [HeapCall.kmalloc 0x5000], c.size ≤ maxRequest := by
    intro c hc
    rw [List.mem_singleton.mp hc]
    decide
  have htiles := ((hall _ _ _ _ _ _ _ hinit hsmall).2 t ht).tiles
  dsimp only at hbrk hblocks
  rw [hbrk, hblocks] at htiles
  have hend : (0xD0004000 : Nat) = 0xD0006000 := htiles.2
  exact absurd hend (by decide)

end PinguinOS.Mm
