import PinguinOS.Mm.HeapPages

/-! Calls that return NULL: when they leave the heap as it was. -/
namespace PinguinOS.Mm

/-- The block list, the counters, the payloads, the mappings and the free pages are the same. -/
structure Intact (h h' : Heap) : Prop where
  blocks : h'.blocks = h.blocks
  brk : h'.brk = h.brk
  total : h'.totalBytes = h.totalBytes
  used : h'.usedBytes = h.usedBytes
  bytes : h'.bytes = h.bytes
  mapped : ∀ a, pagingGetPhys h'.vm a = pagingGetPhys h.vm a
  pages : ∀ i, bitmapTest h'.vm.pmm i = bitmapTest h.vm.pmm i

/-- An allocation that returns NULL leaves the heap intact. -/
def FailsIntact (h : Heap) (c : HeapCall) (_ : Heap) : Prop :=
  ∀ size h', h.request c = some size → h.exec c = some (0, h') → Intact h h'

/-- The first free block that is large enough. -/
def Heap.firstFit (h : Heap) (size : Nat) : Option Block :=
  h.blocks.find? fun b => b.fits (alignUp size 8)

/-- The largest size for which the header still fits in 32 bits. -/
def maxHeadered : Nat := 0xFFFFFFE8

/-- The size is 0, or a block fits (at an address other than 0xFFFFFFF0, whose payload would be at
0), or the growth stops before its first page, or it gets all of its pages and makes a block that
is large enough. -/
def FailsClean (h : Heap) (c : HeapCall) (_ : Heap) : Prop :=
  ∀ size, h.request c = some size → size = 0 ∨
    (∃ b, h.firstFit size = some b ∧ u32 (b.addr + headerSize) ≠ 0) ∨
    h.firstFit size = none ∧
      (h.Stops ∨ size ≤ maxHeadered ∧ ∀ k < requestPages size, ¬ (h.afterPages k).Stops)

variable {kernStart kernEnd totalPages n k size p depth : Nat} {h h' g : Heap} {b : Block}
  {l : List Block} {c : HeapCall} {vm vm' v : Vm} {blocks : List Block}

/-! One pass, in terms of the first block that fits. -/

theorem firstFit_none :
    h.firstFit size = none ↔ ∀ b ∈ h.blocks, b.fits (alignUp size 8) = false := by
  unfold Heap.firstFit
  rw [List.find?_eq_none]
  simp only [Bool.not_eq_true]

theorem take_first (htake : takeFirstFit vm size blocks = some (vm', some b, l)) :
    ∃ blk, blocks.find? (fun b => b.fits size) = some blk ∧ blk.free = true ∧ b.addr = blk.addr ∧
      l ≠ blocks := by
  induction blocks generalizing l with
  | nil => cases htake
  | cons a rest ih =>
    unfold takeFirstFit at htake
    split_ifs at htake with hfits
    · obtain ⟨⟨vm₁, b₁, rest₁⟩, hsplit, hend⟩ := Option.bind_eq_some_iff.mp htake
      cases hend
      have hfree : a.free = true := by
        unfold Block.fits at hfits
        exact (Bool.and_eq_true_iff.mp hfits).1
      refine ⟨a, ?_, hfree, ?_, ?_⟩
      · rw [List.find?_cons_of_pos hfits]
      · rcases heapSplit_cases hsplit with ⟨-, rfl, -⟩ | ⟨rfl, -⟩
        · rfl
        · rfl
      · intro heq
        have hhead := congrArg Block.free (List.cons.inj heq).1
        rw [hfree] at hhead
        cases hhead
    · obtain ⟨⟨vm₁, taken, rest₁⟩, hrest, hend⟩ := Option.bind_eq_some_iff.mp htake
      cases hend
      obtain ⟨blk, hfind, hfree, haddr, hne⟩ := ih hrest
      refine ⟨blk, ?_, hfree, haddr, ?_⟩
      · rw [List.find?_cons_of_neg hfits]
        exact hfind
      · intro heq
        exact hne (List.cons.inj heq).2

/-- A block that fits is taken: the pointer is behind its header, and it is in the list as used. -/
theorem alloc_fit (hsize : size ≠ 0) (hfit : h.firstFit size = some b)
    (halloc : heapAllocRaw (depth + 1) h size = some (p, h')) :
    p = u32 (b.addr + headerSize) ∧ h'.blocks ≠ h.blocks := by
  rcases heapAllocRaw_succ hsize halloc with ⟨vm, blk, l, htake, hp, rfl⟩ | ⟨hnone, -⟩
  · obtain ⟨a, hfind, -, haddr, hne⟩ := take_first htake
    cases hfit.symm.trans hfind
    exact ⟨by rw [hp, haddr], hne⟩
  · have hno := firstFit_none.mpr hnone
    cases hfit.symm.trans hno

/-- Without one the heap grows. -/
theorem alloc_grow (hsize : size ≠ 0) (hno : h.firstFit size = none)
    (halloc : heapAllocRaw (depth + 1) h size = some (p, h')) :
    (heapGrow h (growSize (alignUp size 8))).1 = false ∧ p = 0 ∧
        h' = (heapGrow h (growSize (alignUp size 8))).2 ∨
      (heapGrow h (growSize (alignUp size 8))).1 = true ∧ ∃ vm,
        heapAllocRaw depth ((heapGrow h (growSize (alignUp size 8))).2.append h.brk vm)
          (alignUp size 8) = some (p, h') := by
  rcases heapAllocRaw_succ hsize halloc with ⟨vm, blk, l, htake, -, -⟩ | ⟨-, hgrow⟩
  · obtain ⟨a, hfind, -, -, -⟩ := take_first htake
    cases hno.symm.trans hfind
  · rcases hgrow with hfail | ⟨hfull, vm, -, hagain⟩
    · exact Or.inl hfail
    · exact Or.inr ⟨hfull, vm, hagain⟩

/-! A growth that stops at its first page. -/

theorem Intact.refl (h : Heap) : Intact h h :=
  ⟨rfl, rfl, rfl, rfl, rfl, fun _ => rfl, fun _ => rfl⟩

theorem intact_growPage (hv : TablesOk kernStart kernEnd totalPages h.vm) (hstop : h.Stops) :
    Intact h (heapGrowPage h).2 := by
  rcases growPage_stops hstop with heq | ⟨hzero, heq⟩
  · rw [heq]
    exact Intact.refl h
  · have hpmm : h.vm.allocPage.2.pmm = h.vm.pmm := by
      rcases h.vm.allocPage_cases hv.sane.placed.total with ⟨-, hpmm⟩ | ⟨i, haddr, -, ha⟩
      · exact hpmm
      · have hpos := ha.nonzero
        rw [haddr] at hzero
        simp only [pageSize] at hzero
        omega
    obtain ⟨-, hsame, -⟩ := hv.allocPage
    rw [heq]
    exact ⟨rfl, rfl, rfl, rfl, rfl, fun _ => hsame.getPhys, fun i => by rw [hpmm]⟩

theorem grow_stops (hstop : h.Stops) (hpages : growPages n ≠ 0) :
    heapGrow h n = (false, (heapGrowPage h).2) := by
  obtain ⟨k, hk⟩ := Nat.exists_eq_succ_of_ne_zero hpages
  have hfst : (heapGrowPage h).1 = false := by
    rw [← Bool.not_eq_true, growPage_fst, not_not]
    exact hstop
  unfold heapGrow
  rw [hk]
  exact heapGrowPages_stops hfst

/-! What the sizes ask for. -/

/-- An aligned size behind `maxRequest` with a header rounds up to no page at all. -/
theorem requestPages_none (hlt : maxRequest < size) (hle : size ≤ maxHeadered) :
    requestPages size = 0 ∧ alignUp size 8 ≤ maxHeadered := by
  unfold maxRequest at hlt
  unfold maxHeadered at hle
  have haligned : alignUp size 8 = (size + 7) / 8 * 8 := by
    rw [alignUp_eight, u32_of_lt (by omega)]
  have hfits : headerSize + alignUp size 8 < 2 ^ 32 := by
    simp only [headerSize]
    omega
  have hgrow : growSize (alignUp size 8) = headerSize + alignUp size 8 := by
    rw [growSize_eq hfits, max_eq_right]
    simp only [headerSize, pageSize]
    omega
  unfold requestPages growPages maxHeadered
  rw [hgrow, haligned]
  simp only [headerSize, pageSize]
  unfold u32
  omega

/-- With a header it does not fit in 32 bits, or it is 0 already without one. -/
theorem alignUp_huge (hlt : maxHeadered < size) (hsize : size < 2 ^ 32) :
    alignUp size 8 = 0 ∨ alignUp size 8 = 0xFFFFFFF0 ∨ alignUp size 8 = 0xFFFFFFF8 := by
  unfold maxHeadered at hlt
  rw [alignUp_eight]
  unfold u32
  omega

theorem requestPages_huge (hlt : maxHeadered < size) (hsize : size < 2 ^ 32) :
    requestPages size = 1 := by
  unfold requestPages
  rcases alignUp_huge hlt hsize with h | h | h
  · rw [h]
    decide
  · rw [h]
    decide
  · rw [h]
    decide

/-- The block that a growth of all pages appends is large enough up to `maxHeadered`. -/
theorem newBlock_fits (hle : size ≤ maxHeadered)
    (hg : Grown h g (requestPages size)) :
    (newBlock h.brk g.brk).fits (alignUp size 8) = true := by
  have hfree : (newBlock h.brk g.brk).free = true := rfl
  have hge : alignUp size 8 ≤ (newBlock h.brk g.brk).size := by
    by_cases hsmall : size ≤ maxRequest
    · obtain ⟨hpos, hroom⟩ := requestPages_bounds hsmall
      rw [newBlock_size hg hpos]
      omega
    · obtain ⟨hnone, hmost⟩ := requestPages_none (Nat.lt_of_not_le hsmall) hle
      have hbrk := hg.brk
      have hsize : (newBlock h.brk g.brk).size = 0xFFFFFFF0 := by
        rw [hnone, Nat.zero_mul, Nat.add_zero] at hbrk
        rw [hbrk]
        simp only [newBlock, headerSize]
        unfold sub32 u32
        omega
      rw [hsize]
      unfold maxHeadered at hmost
      omega
  simp [Block.fits, hfree, hge]

/-- One page is not enough behind `maxHeadered`. -/
theorem newBlock_unfit (hhuge : maxHeadered < size) (hg : Grown h g 1) :
    (newBlock h.brk g.brk).fits size = false := by
  have hsize := newBlock_size hg Nat.one_pos
  unfold maxHeadered at hhuge
  unfold Block.fits
  rw [hsize]
  unfold pageSize headerSize
  simp
  omega

theorem alignUp_headered (hle : size ≤ maxHeadered) :
    size ≤ alignUp size 8 ∧ alignUp (alignUp size 8) 8 = alignUp size 8 := by
  unfold maxHeadered at hle
  have haligned : alignUp size 8 = (size + 7) / 8 * 8 := by
    rw [alignUp_eight, u32_of_lt (by omega)]
  rw [haligned, alignUp_eight, u32_of_lt (by omega)]
  omega

/-- The new block is the first to fit, or the only one that might. -/
theorem firstFit_append {vm : Vm} (hno : h.firstFit size = none) (hblocks : g.blocks = h.blocks)
    (hfixed : alignUp (alignUp size 8) 8 = alignUp size 8) :
    (g.append h.brk vm).firstFit (alignUp size 8) =
      if (newBlock h.brk g.brk).fits (alignUp size 8) then some (newBlock h.brk g.brk) else none := by
  unfold Heap.firstFit Heap.append at *
  dsimp only
  rw [hfixed, hblocks, List.find?_append, hno, Option.none_or, List.find?_singleton]

/-! The growths that get all of their pages. -/

theorem alloc_whole (hstart : kheapStart ≤ h.brk) (hlimit : h.brk ≤ kheapMax) (hsize : size ≠ 0)
    (hle : size ≤ maxHeadered) (hno : h.firstFit size = none)
    (hall : ∀ k < requestPages size, ¬ (h.afterPages k).Stops)
    (halloc : heapAllocRaw (depth + 1) h size = some (p, h')) : p ≠ 0 := by
  obtain ⟨k, hk, -, hg, hend⟩ := heapGrow_cases (growSize (alignUp size 8)) hlimit
  obtain ⟨hge, hfixed⟩ := alignUp_headered hle
  rcases hend with ⟨rfl, hfull⟩ | ⟨hlt, hstop, -⟩
  · rcases alloc_grow hsize hno halloc with ⟨hfail, -⟩ | ⟨-, vm, hagain⟩
    · rw [hfull] at hfail
      cases hfail
    · cases depth with
      | zero => cases hagain
      | succ depth =>
        have hfirst := @firstFit_append _ _ _ vm hno hg.blocks hfixed
        rw [if_pos (newBlock_fits hle hg)] at hfirst
        obtain ⟨hp, -⟩ := alloc_fit (by omega) hfirst hagain
        have haddr : (newBlock h.brk (heapGrow h (growSize (alignUp size 8))).2.brk).addr = h.brk :=
          rfl
        unfold kheapStart at hstart
        unfold kheapMax at hlimit
        rw [hp, haddr]
        unfold headerSize u32
        omega
  · exact absurd hstop (hall k hlt)

/-- A size that no page can hold makes the heap grow to its end. -/
theorem alloc_never (hfixed : alignUp size 8 = size) (hhuge : maxHeadered < size)
    (hlt : size < 2 ^ 32) (hlimit : h.brk ≤ kheapMax) (hno : h.firstFit size = none)
    (halloc : heapAllocRaw depth h size = some (p, h')) : p = 0 ∧ h.brk ≤ h'.brk := by
  have hone : growPages (growSize (alignUp size 8)) = 1 := requestPages_huge hhuge hlt
  have hpos : size ≠ 0 := Nat.ne_zero_of_lt hhuge
  induction depth generalizing h with
  | zero => cases halloc
  | succ depth ih =>
    obtain ⟨k, hk, -, hg, hend⟩ := heapGrow_cases (growSize (alignUp size 8)) hlimit
    have hbrk := hg.brk
    rcases alloc_grow hpos hno halloc with ⟨-, rfl, rfl⟩ | ⟨hfull, vm, hagain⟩
    · exact ⟨rfl, by omega⟩
    · have hk : k = 1 := by
        rcases hend with ⟨hk, -⟩ | ⟨-, -, hfail⟩
        · exact hk.trans hone
        · rw [hfull] at hfail
          cases hfail
      rw [hk] at hg
      have hfirst := @firstFit_append _ _ _ vm hno hg.blocks (by rw [hfixed, hfixed])
      rw [hfixed] at hg hfirst hagain
      rw [newBlock_unfit hhuge hg, if_neg Bool.false_ne_true] at hfirst
      have hlimit' : ((heapGrow h (growSize size)).2.append h.brk vm).brk ≤ kheapMax := hg.limit
      obtain ⟨hp, hle⟩ := ih hlimit' hfirst hagain
      refine ⟨hp, Nat.le_trans ?_ hle⟩
      rw [hfixed] at hbrk
      unfold Heap.append
      dsimp only
      omega

/-! The growths that leave pages behind. -/

/-- A growth that stops later than at its first page has moved the break. -/
theorem alloc_partial (hlimit : h.brk ≤ kheapMax) (hsize : size ≠ 0) (hgo : ¬ h.Stops)
    (hno : h.firstFit size = none) (hpart : ∃ k < requestPages size, (h.afterPages k).Stops)
    (halloc : heapAllocRaw (depth + 1) h size = some (p, h')) : p = 0 ∧ h.brk < h'.brk := by
  obtain ⟨k, hk, hbefore, hg, hend⟩ := heapGrow_cases (growSize (alignUp size 8)) hlimit
  have hbrk := hg.brk
  obtain ⟨j, hj, hstop⟩ := hpart
  rcases hend with ⟨rfl, -⟩ | ⟨hlt, hlast, hfail⟩
  · exact absurd hstop (hbefore j hj)
  · have hpos : k ≠ 0 := by
      rintro rfl
      exact hgo hlast
    rcases alloc_grow hsize hno halloc with ⟨-, rfl, rfl⟩ | ⟨hfull, -⟩
    · unfold pageSize at hbrk
      exact ⟨rfl, by omega⟩
    · rw [hfail] at hfull
      cases hfull

/-- A size without room for the header takes one page, and more while there are. -/
theorem alloc_huge (hlimit : h.brk ≤ kheapMax) (hhuge : maxHeadered < size) (hlt : size < 2 ^ 32)
    (hgo : ¬ h.Stops) (hno : h.firstFit size = none)
    (halloc : heapAllocRaw (depth + 1) h size = some (p, h')) : p = 0 ∧ h.brk < h'.brk := by
  have hone : growPages (growSize (alignUp size 8)) = 1 := requestPages_huge hhuge hlt
  obtain ⟨k, hk, -, hg, hend⟩ := heapGrow_cases (growSize (alignUp size 8)) hlimit
  have hall : k = 1 := by
    rcases hend with ⟨hk, -⟩ | ⟨hless, hstop, -⟩
    · exact hk.trans hone
    · have hfirst : k = 0 := by omega
      rw [hfirst] at hstop
      exact absurd hstop hgo
  have hbrk : h.brk < (heapGrow h (growSize (alignUp size 8))).2.brk := by
    rw [hg.brk, hall]
    unfold pageSize
    omega
  have hpos : size ≠ 0 := by
    unfold maxHeadered at hhuge
    omega
  rcases alloc_grow hpos hno halloc with ⟨-, rfl, rfl⟩ | ⟨-, vm, hagain⟩
  · exact ⟨rfl, hbrk⟩
  · by_cases hzero : alignUp size 8 = 0
    · cases depth with
      | zero => cases hagain
      | succ depth =>
        rw [hzero, heapAllocRaw, if_pos rfl] at hagain
        cases hagain
        rw [hzero] at hbrk
        exact ⟨rfl, hbrk⟩
    · have hvalues := (alignUp_huge hhuge hlt).resolve_left hzero
      have hfixed : alignUp (alignUp size 8) 8 = alignUp size 8 := by
        rcases hvalues with h | h
        · rw [h]
          decide
        · rw [h]
          decide
      have hbounds : maxHeadered < alignUp size 8 ∧ alignUp size 8 < 2 ^ 32 := by
        unfold maxHeadered
        omega
      have hfirst := @firstFit_append _ _ _ vm hno hg.blocks hfixed
      rw [hall] at hg
      rw [newBlock_unfit hbounds.1 hg, if_neg Bool.false_ne_true] at hfirst
      have hlimit' : ((heapGrow h (growSize (alignUp size 8))).2.append h.brk vm).brk ≤ kheapMax :=
        hg.limit
      obtain ⟨hp, hle⟩ := alloc_never hfixed hbounds.1 hbounds.2 hlimit' hfirst hagain
      exact ⟨hp, Nat.lt_of_lt_of_le hbrk hle⟩

/-! Calls. -/

/-- The break stays between its bounds. -/
structure BrkOk (h : Heap) : Prop where
  start : kheapStart ≤ h.brk
  limit : h.brk ≤ kheapMax

theorem BrkOk.alloc (hok : BrkOk h) (halloc : heapAllocRaw depth h size = some (p, h')) :
    BrkOk h' := by
  induction depth generalizing h size with
  | zero => cases halloc
  | succ depth ih =>
    by_cases hsize : size = 0
    · rw [heapAllocRaw, if_pos hsize] at halloc
      cases halloc
      exact hok
    · have hgrown : BrkOk (heapGrow h (growSize (alignUp size 8))).2 := by
        obtain ⟨k, -, -, hg, -⟩ := heapGrow_cases (growSize (alignUp size 8)) hok.limit
        have hbrk := hg.brk
        exact ⟨Nat.le_trans hok.start (by omega), hg.limit⟩
      rcases heapAllocRaw_succ hsize halloc with ⟨vm, b, l, -, -, rfl⟩ | ⟨-, hgrow⟩
      · exact ⟨hok.start, hok.limit⟩
      · rcases hgrow with ⟨-, -, rfl⟩ | ⟨-, vm, -, hagain⟩
        · exact hgrown
        · have happended : BrkOk
              ((heapGrow h (growSize (alignUp size 8))).2.append h.brk vm) :=
            ⟨hgrown.start, hgrown.limit⟩
          exact ih happended hagain

theorem BrkOk.exec (hok : BrkOk h) (hres : h.exec c = some (p, h')) : BrkOk h' := by
  rcases exec_cases hres with ⟨-, rfl | ⟨ptr, hfree⟩⟩ | ⟨size, g, -, halloc, hfin⟩
  · exact hok
  · obtain ⟨-, hbrk⟩ := kfree_kept hfree
    exact ⟨hbrk ▸ hok.start, hbrk ▸ hok.limit⟩
  · have hg : BrkOk g := hok.alloc halloc
    have hbrk := hfin.brk
    exact ⟨hbrk ▸ hg.start, hbrk ▸ hg.limit⟩

/-- One request: what has to hold for a NULL to leave the heap as it was. -/
theorem null_intact_iff (hv : TablesOk kernStart kernEnd totalPages h.vm) (hok : BrkOk h)
    (hlt : size < 2 ^ 32) (halloc : kmalloc h size = some (p, h')) :
    (p = 0 → Intact h h') ↔ size = 0 ∨
      (∃ b, h.firstFit size = some b ∧ u32 (b.addr + headerSize) ≠ 0) ∨
      h.firstFit size = none ∧
        (h.Stops ∨ size ≤ maxHeadered ∧ ∀ k < requestPages size, ¬ (h.afterPages k).Stops) := by
  by_cases hsize : size = 0
  · rw [hsize, kmalloc_zero] at halloc
    cases halloc
    exact iff_of_true (fun _ => Intact.refl h) (Or.inl hsize)
  have hmoved : p = 0 ∧ h.brk < h'.brk → ¬ (p = 0 → Intact h h') := by
    rintro ⟨hp, hbrk⟩ hintact
    have hsame := (hintact hp).brk
    omega
  rw [kmalloc_eq] at halloc
  cases hfit : h.firstFit size with
  | some b =>
    obtain ⟨hp, hne⟩ := alloc_fit hsize hfit halloc
    constructor
    · intro hintact
      refine Or.inr (Or.inl ⟨b, rfl, fun hzero => ?_⟩)
      exact hne (hintact (hp.trans hzero)).blocks
    · rintro (hzero | ⟨_, ⟨⟩, hpos⟩ | ⟨hno, -⟩) hnull
      · exact absurd hzero hsize
      · exact absurd (hp.symm.trans hnull) hpos
      · cases hno
  | none =>
    have hcond : (size = 0 ∨ (∃ b : Block, none = some b ∧ u32 (b.addr + headerSize) ≠ 0) ∨
        (none : Option Block) = none ∧
          (h.Stops ∨ size ≤ maxHeadered ∧ ∀ k < requestPages size, ¬ (h.afterPages k).Stops)) ↔
        h.Stops ∨ size ≤ maxHeadered ∧ ∀ k < requestPages size, ¬ (h.afterPages k).Stops := by
      constructor
      · rintro (hzero | ⟨_, ⟨⟩, -⟩ | ⟨-, h⟩)
        · exact absurd hzero hsize
        · exact h
      · exact fun h => Or.inr (Or.inr ⟨rfl, h⟩)
    rw [hcond]
    by_cases hstop : h.Stops
    · refine iff_of_true (fun hnull => ?_) (Or.inl hstop)
      by_cases hpages : requestPages size = 0
      · have hle : size ≤ maxHeadered := by
          by_contra hhuge
          rw [requestPages_huge (Nat.lt_of_not_le hhuge) hlt] at hpages
          cases hpages
        refine absurd hnull (alloc_whole hok.start hok.limit hsize hle hfit ?_ halloc)
        rw [hpages]
        exact fun _ hk => absurd hk (Nat.not_lt_zero _)
      · have hgrow := grow_stops hstop hpages
        rcases alloc_grow hsize hfit halloc with ⟨-, -, rfl⟩ | ⟨hfull, -⟩
        · rw [hgrow]
          exact intact_growPage hv hstop
        · rw [hgrow] at hfull
          cases hfull
    · have hgo : (h.Stops ∨ size ≤ maxHeadered ∧
          ∀ k < requestPages size, ¬ (h.afterPages k).Stops) ↔
          size ≤ maxHeadered ∧ ∀ k < requestPages size, ¬ (h.afterPages k).Stops :=
        or_iff_right hstop
      rw [hgo]
      by_cases hle : size ≤ maxHeadered
      · by_cases hall : ∀ k < requestPages size, ¬ (h.afterPages k).Stops
        · refine iff_of_true (fun hnull => ?_) ⟨hle, hall⟩
          exact absurd hnull (alloc_whole hok.start hok.limit hsize hle hfit hall halloc)
        · refine iff_of_false (hmoved ?_) fun h => hall h.2
          push Not at hall
          exact alloc_partial hok.limit hsize hstop hfit hall halloc
      · exact iff_of_false
          (hmoved (alloc_huge hok.limit (Nat.lt_of_not_le hle) hlt hstop hfit halloc))
          fun h => hle h.1

theorem failsIntact_step (hv : TablesOk kernStart kernEnd totalPages h.vm) (hok : BrkOk h)
    (hsize : c.size < 2 ^ 32) (hres : h.exec c = some (p, h')) :
    FailsIntact h c h' ↔ FailsClean h c h' := by
  rcases exec_cases hres with ⟨hnone, -⟩ | ⟨size, g, hreq, halloc, hfin⟩
  · constructor
    · intro _ size hreq
      cases hnone.symm.trans hreq
    · intro _ size _ hreq
      cases hnone.symm.trans hreq
  · have hlt : size < 2 ^ 32 := request_size hreq ▸ hsize
    have hiff := null_intact_iff hv hok hlt halloc
    constructor
    · intro hintact size' hreq'
      cases hreq.symm.trans hreq'
      refine hiff.mp ?_
      rintro rfl
      have hsame := hfin.of_null
      exact hsame ▸ hintact size h' hreq hres
    · intro hclean size' h'' hreq' hres'
      cases hreq.symm.trans hreq'
      cases hres.symm.trans hres'
      rw [hfin.of_null]
      exact hiff.mpr (hclean size hreq) rfl

theorem brkOk_init (hinit : heapInit v = some h) : BrkOk h := by
  obtain ⟨-, vm, -, hg, rfl⟩ := heapInit_cases hinit
  have hbrk := hg.brk
  constructor
  case start =>
    unfold Heap.append
    dsimp only
    rw [hbrk]
    exact Nat.le_add_right _ _
  case limit => exact hg.limit

/-- Every NULL of a run leaves the heap intact as long as no growth stops between its first page and
its last, or takes pages for a size that cannot have a header. -/
theorem failsIntact_iff {calls : List HeapCall} (hv : TablesOk kernStart kernEnd totalPages v)
    (hinit : heapInit v = some h) (hsizes : ∀ c ∈ calls, c.size < 2 ^ 32) :
    Run.EveryStep Heap.step FailsIntact h calls ↔ Run.EveryStep Heap.step FailsClean h calls := by
  refine Run.everyStep_iff_of_forall
    (I := fun h => TablesOk kernStart kernEnd totalPages h.vm ∧ BrkOk h) hsizes ?_
    ⟨(mapsMore_init hv hinit).tables, brkOk_init hinit⟩
  rintro s c t hsize ⟨htables, hok⟩ hstep
  unfold Heap.step at hstep
  split_ifs at hstep
  obtain ⟨⟨p, t'⟩, hres, rfl⟩ := Option.map_eq_some_iff.mp hstep
  exact ⟨failsIntact_step htables hok hsize hres,
    fun _ => ⟨(mapsMore_exec htables hres).tables, hok.exec hres⟩⟩

/-- A call that is served needs nothing of this. -/
theorem failsIntact_iff_smallVm : ∃ h, heapInit (smallVm fun _ => false) = some h ∧
    (Run.EveryStep Heap.step FailsIntact h [.kmalloc 0x100, .kzalloc 0x5000] ↔
      Run.EveryStep Heap.step FailsClean h [.kmalloc 0x100, .kzalloc 0x5000]) := by
  obtain ⟨h, hinit⟩ := Option.isSome_iff_exists.mp smallVm_init
  refine ⟨h, hinit, failsIntact_iff tablesOk_smallVm hinit ?_⟩
  intro c hc
  rcases List.mem_cons.mp hc with rfl | hc
  · exact (by decide : 0x100 < 2 ^ 32)
  · rw [List.mem_singleton.mp hc]
    exact (by decide : 0x5000 < 2 ^ 32)

/-- The memory is used up at the third of six pages: the call returns NULL, and the two pages that
it got belong to no block. -/
theorem not_failsIntact_smallVm : ¬ ∀ h calls, heapInit (smallVm fun _ => false) = some h →
    Run.EveryStep Heap.step FailsIntact h calls := by
  intro hall
  obtain ⟨h, hinit, hnull⟩ := Option.bind_eq_some_iff.mp smallVm_kmalloc
  obtain ⟨⟨p, t⟩, hres, heq⟩ := Option.map_eq_some_iff.mp hnull
  obtain ⟨hbefore, hrest⟩ := Prod.mk.inj heq
  obtain ⟨hp, hrest⟩ := Prod.mk.inj hrest
  obtain ⟨hafter, -⟩ := Prod.mk.inj hrest
  dsimp only at hp hbefore hafter
  rw [hp] at hres
  have hstep : h.step (.kmalloc 0x5000) = some t := by
    rw [step_kmalloc, hres]
    rfl
  have hsame := ((hall h [.kmalloc 0x5000] hinit t hstep).1 0x5000 t rfl hres).brk
  rw [hbefore, hafter] at hsame
  exact absurd hsame (by decide)

end PinguinOS.Mm
