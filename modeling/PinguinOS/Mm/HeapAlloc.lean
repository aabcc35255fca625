import PinguinOS.Mm.HeapShape

/-! `heap_grow` page by page, and what one pass of `heap_alloc_raw` can do. -/
namespace PinguinOS.Mm

/-- The heap after `heap_grow` has gone through its loop `n` times. -/
def Heap.afterPages : Nat → Heap → Heap
  | 0, h => h
  | n + 1, h => Heap.afterPages n (heapGrowPage h).2

/-- `paging_map_page` returns 0 for the next page of a growth. -/
def Heap.MapsPage (h : Heap) : Prop :=
  (pagingMapPage h.vm.allocPage.2 h.brk h.vm.allocPage.1 (pdePresent ||| pdeWritable)).1 = 0

abbrev HeapOk (R : Nat → Nat → Prop) (h : Heap) : Prop :=
  Shape R h.blocks h.brk h.usedBytes h.totalBytes

/-- `h'` is `h` after `k` more pages. -/
structure Grown (h h' : Heap) (k : Nat) : Prop where
  blocks : h'.blocks = h.blocks
  used : h'.usedBytes = h.usedBytes
  bytes : h'.bytes = h.bytes
  brk : h'.brk = h.brk + k * pageSize
  limit : h'.brk ≤ kheapMax
  total : kheapStart ≤ h.brk → h.totalBytes = h.brk - kheapStart →
    h'.totalBytes = h'.brk - kheapStart

/-- A growth of `n` pages stops before its first page or not at all. -/
def Heap.GrowsWhole (h : Heap) (n : Nat) : Prop := h.Stops ∨ ∀ k < n, ¬ (h.afterPages k).Stops

/-- The heap with the block that a growth from `oldBrk` on appends. -/
def Heap.append (h : Heap) (oldBrk : Nat) (vm : Vm) : Heap :=
  { h with vm := vm, blocks := h.blocks ++ [newBlock oldBrk h.brk] }

variable {h h' h'' : Heap} {j n k size p depth needed : Nat}

theorem heapGrowPages_zero : heapGrowPages 0 h = (true, h.afterPages 0) := rfl

theorem heapGrowPages_succ : heapGrowPages (n + 1) h =
    if (heapGrowPage h).1 then heapGrowPages n (heapGrowPage h).2 else heapGrowPage h := rfl

theorem heapGrowPages_stops (hfst : (heapGrowPage h).1 = false) :
    heapGrowPages (n + 1) h = (false, (heapGrowPage h).2) :=
  heapGrowPages_succ.trans ((if_neg (ne_true_of_eq_false hfst)).trans (Prod.ext hfst rfl))

theorem heapGrowPages_goes (hfst : (heapGrowPage h).1 = true) :
    heapGrowPages (n + 1) h = heapGrowPages n (heapGrowPage h).2 :=
  heapGrowPages_succ.trans (if_pos hfst)

/-- How far `heap_grow` comes: through all its pages, or up to the first at which it stops. -/
theorem heapGrowPages_cases : ∃ k ≤ n, (∀ j < k, ¬ (h.afterPages j).Stops) ∧
    (k = n ∧ heapGrowPages n h = (true, h.afterPages k) ∨
      k < n ∧ (h.afterPages k).Stops ∧
        heapGrowPages n h = (false, (heapGrowPage (h.afterPages k)).2)) := by
  induction n generalizing h with
  | zero =>
    refine ⟨0, Nat.le_refl 0, ?_, ?_⟩
    · intro j hj
      omega
    · exact Or.inl ⟨rfl, heapGrowPages_zero⟩
  | succ n ih =>
    by_cases hstop : h.Stops
    · have hfst : (heapGrowPage h).1 = false := by
        rw [← Bool.not_eq_true, growPage_fst, not_not]
        exact hstop
      refine ⟨0, Nat.zero_le _, ?_, Or.inr ⟨Nat.succ_pos n, hstop, ?_⟩⟩
      · intro j hj
        omega
      · exact heapGrowPages_stops hfst
    · obtain ⟨k, hk, hbefore, hcases⟩ := ih (h := (heapGrowPage h).2)
      refine ⟨k + 1, Nat.succ_le_succ hk, ?_, ?_⟩
      · intro j hj
        cases j with
        | zero => exact hstop
        | succ j => exact hbefore j (Nat.lt_of_succ_lt_succ hj)
      · rw [heapGrowPages_goes (growPage_fst.mpr hstop)]
        rcases hcases with ⟨rfl, hres⟩ | ⟨hlt, hstops, hres⟩
        · exact Or.inl ⟨rfl, hres⟩
        · exact Or.inr ⟨Nat.succ_lt_succ hlt, hstops, hres⟩

theorem Grown.refl (hbrk : h.brk ≤ kheapMax) : Grown h h 0 :=
  ⟨rfl, rfl, rfl, by omega, hbrk, fun _ ht => ht⟩

theorem Grown.trans (hj : Grown h h' j) (hk : Grown h' h'' k) : Grown h h'' (j + k) where
  blocks := hk.blocks.trans hj.blocks
  used := hk.used.trans hj.used
  bytes := hk.bytes.trans hj.bytes
  brk := by
    rw [hk.brk, hj.brk, Nat.add_mul, Nat.add_assoc]
  limit := hk.limit
  total := by
    intro hstart ht
    have hbrk := hj.brk
    exact hk.total (by omega) (hj.total hstart ht)

theorem growPage_grown_stops (hbrk : h.brk ≤ kheapMax) (hstop : h.Stops) :
    Grown h (heapGrowPage h).2 0 := by
  rcases growPage_stops hstop with heq | ⟨-, heq⟩
  · rw [heq]
    exact Grown.refl hbrk
  · rw [heq]
    exact ⟨rfl, rfl, rfl, by dsimp only; omega, hbrk, fun _ ht => ht⟩

theorem growPage_grown_goes (hbrk : h.brk ≤ kheapMax) (hgo : ¬ h.Stops) :
    Grown h (heapGrowPage h).2 1 := by
  have hlimit := (not_or.mp hgo).1
  simp only [kheapMax, pageSize] at hbrk hlimit
  rw [u32_of_lt (by omega)] at hlimit
  have hbrk' : u32 (h.brk + pageSize) = h.brk + pageSize := by
    rw [u32_of_lt]
    simp only [pageSize]
    omega
  rw [growPage_goes hgo]
  refine ⟨rfl, rfl, rfl, ?_, ?_, ?_⟩
  · dsimp only
    rw [hbrk', Nat.one_mul]
  · dsimp only
    rw [hbrk']
    simp only [kheapMax, pageSize]
    omega
  · intro hstart ht
    dsimp only
    rw [hbrk', ht, u32_of_lt]
    · omega
    · simp only [kheapStart, pageSize]
      omega

theorem afterPages_grown (hbrk : h.brk ≤ kheapMax) (hgo : ∀ j < k, ¬ (h.afterPages j).Stops) :
    Grown h (h.afterPages k) k := by
  induction k generalizing h with
  | zero => exact Grown.refl hbrk
  | succ k ih =>
    have hfirst := growPage_grown_goes hbrk (hgo 0 (Nat.succ_pos k))
    have hrest := ih hfirst.limit fun j hj => hgo (j + 1) (Nat.succ_lt_succ hj)
    have hall := hfirst.trans hrest
    rwa [Nat.add_comm 1 k] at hall

/-- How far a growth comes, and what it leaves. -/
theorem heapGrow_cases (needed : Nat) (hbrk : h.brk ≤ kheapMax) :
    ∃ k ≤ growPages needed, (∀ j < k, ¬ (h.afterPages j).Stops) ∧
      Grown h (heapGrow h needed).2 k ∧
      (k = growPages needed ∧ heapGrow h needed = (true, h.afterPages k) ∨
        k < growPages needed ∧ (h.afterPages k).Stops ∧ (heapGrow h needed).1 = false) := by
  unfold heapGrow
  generalize growPages needed = n
  obtain ⟨k, hk, hgo, hcases⟩ := @heapGrowPages_cases h n
  have hgrown := afterPages_grown hbrk hgo
  rcases hcases with ⟨rfl, hres⟩ | ⟨hlt, hstop, hres⟩
  · exact ⟨k, hk, hgo, by rwa [hres], Or.inl ⟨rfl, hres⟩⟩
  · refine ⟨k, hk, hgo, ?_, Or.inr ⟨hlt, hstop, by rw [hres]⟩⟩
    rw [hres]
    exact hgrown.trans (growPage_grown_stops hgrown.limit hstop)

/-- One pass of `heap_alloc_raw`: it finds a block, or grows the heap and starts over. -/
theorem heapAllocRaw_succ (hsize : size ≠ 0)
    (halloc : heapAllocRaw (depth + 1) h size = some (p, h')) :
    (∃ vm b l, takeFirstFit h.vm (alignUp size 8) h.blocks = some (vm, some b, l) ∧
        p = u32 (b.addr + headerSize) ∧
        h' = { h with vm := vm, blocks := l, usedBytes := u32 (h.usedBytes + b.size) }) ∨
      (∀ b ∈ h.blocks, b.fits (alignUp size 8) = false) ∧
        ((heapGrow h (growSize (alignUp size 8))).1 = false ∧ p = 0 ∧
            h' = (heapGrow h (growSize (alignUp size 8))).2 ∨
          (heapGrow h (growSize (alignUp size 8))).1 = true ∧ ∃ vm,
            touch (heapGrow h (growSize (alignUp size 8))).2.vm h.brk headerSize = some vm ∧
            heapAllocRaw depth ((heapGrow h (growSize (alignUp size 8))).2.append h.brk vm)
              (alignUp size 8) = some (p, h')) := by
  rw [heapAllocRaw, if_neg hsize] at halloc
  obtain ⟨⟨vm, taken, l⟩, htake, hrest⟩ := Option.bind_eq_some_iff.mp halloc
  cases taken with
  | some b =>
    cases hrest
    exact Or.inl ⟨vm, b, l, htake, rfl, rfl⟩
  | none =>
    obtain ⟨rfl, rfl, hnone⟩ := takeFirstFit_none htake
    refine Or.inr ⟨hnone, ?_⟩
    dsimp only at hrest
    generalize heapGrow h (growSize (alignUp size 8)) = r at hrest ⊢
    obtain ⟨grown, g⟩ := r
    cases grown with
    | false =>
      cases hrest
      exact Or.inl ⟨rfl, rfl, rfl⟩
    | true =>
      obtain ⟨vm, htouch, hagain⟩ := Option.bind_eq_some_iff.mp hrest
      exact Or.inr ⟨rfl, vm, htouch, hagain⟩

/-! Requests whose size arithmetic does not wrap. -/

/-- The largest size that `ALIGN_UP`, the header and the rounding to pages leave below 2^32. -/
def maxRequest : Nat := 0xFFFFEFF0

/-- The pages `heap_alloc_raw` asks `heap_grow` for. -/
def requestPages (size : Nat) : Nat := growPages (growSize (alignUp size 8))

theorem alignUp_request (hlt : size ≤ maxRequest) :
    alignUp size 8 % 8 = 0 ∧ size ≤ alignUp size 8 ∧ alignUp size 8 ≤ maxRequest := by
  simp only [maxRequest] at hlt ⊢
  rw [alignUp_eight, u32_of_lt (by omega)]
  omega

theorem growSize_eq (hlt : headerSize + size < 2 ^ 32) :
    growSize size = max pageSize (headerSize + size) := by
  unfold growSize
  dsimp only
  rw [u32_of_lt hlt]
  split_ifs
  · omega
  · omega

theorem requestPages_bounds (hlt : size ≤ maxRequest) :
    0 < requestPages size ∧ headerSize + alignUp size 8 ≤ requestPages size * pageSize := by
  obtain ⟨-, -, hle⟩ := alignUp_request hlt
  simp only [maxRequest] at hle
  have hfits : headerSize + alignUp size 8 < 2 ^ 32 := by
    simp only [headerSize]
    omega
  have hgrow := growSize_eq hfits
  unfold requestPages growPages
  rw [hgrow, u32_of_lt]
  · simp only [headerSize, pageSize]
    omega
  · simp only [headerSize, pageSize]
    omega

variable {g : Heap} {vm : Vm}

theorem newBlock_size (hg : Grown h g k) (hk : 0 < k) :
    (newBlock h.brk g.brk).size = k * pageSize - headerSize := by
  have hbrk := hg.brk
  have hlimit := hg.limit
  simp only [kheapMax, pageSize] at hbrk hlimit
  simp only [newBlock, headerSize, pageSize]
  rw [sub32_of_le (a := g.brk) (by omega) (by omega), sub32_of_le (by omega) (by omega)]
  omega

variable {R : Nat → Nat → Prop} [Spacing R]

/-- A growth that leaves no gap, or where gaps are allowed, keeps the shape. -/
theorem Shape.grown (hok : HeapOk R h) (hg : Grown h g k) (hgap : k = 0 ∨ ∀ a b, a ≤ b → R a b) :
    HeapOk R g := by
  have hbrk := hg.brk
  have hstart := hok.start
  have hpage := hok.page
  have hR : R h.brk g.brk := by
    rcases hgap with rfl | hgap
    · rw [hbrk, Nat.zero_mul]
      exact refl_of R _
    · exact hgap _ _ (by omega)
  unfold HeapOk
  rw [hg.blocks, hg.used]
  refine ⟨⟨hok.laid.packed.upper hR, hok.laid.marked, hok.laid.aligned⟩, hok.used,
    hg.total hstart hok.total, by omega, hg.limit, ?_⟩
  simp only [pageSize] at hbrk
  omega

/-- A full growth and its block keep the shape. -/
theorem Shape.append (vm : Vm) (hok : HeapOk R h) (hg : Grown h g k) (hk : 0 < k) :
    HeapOk R (g.append h.brk vm) := by
  have hbrk := hg.brk
  have hstart := hok.start
  have hpage := hok.page
  have hsize := newBlock_size hg hk
  have hstop : (newBlock h.brk g.brk).stop = g.brk := by
    have haddr : (newBlock h.brk g.brk).addr = h.brk := rfl
    rw [Block.stop, hsize, haddr, hbrk]
    simp only [headerSize, pageSize]
    omega
  have hlaid : Laid R h.brk g.brk [newBlock h.brk g.brk] := by
    refine laid_cons.mpr ⟨refl_of R _, Or.inl ⟨rfl, rfl⟩, ⟨?_, ?_⟩, ?_⟩
    · have haddr : (newBlock h.brk g.brk).addr = h.brk := rfl
      omega
    · rw [hsize]
      simp only [headerSize, pageSize]
      omega
    · rw [hstop]
      exact ⟨refl_of R _, by simp, by simp⟩
  have hused := hok.used
  refine ⟨?_, ?_, hg.total hstart hok.total, ?_, hg.limit, ?_⟩
  · have hall := hok.laid.append hlaid
    rwa [← hg.blocks] at hall
  · have hfree : (newBlock h.brk g.brk).free = true := rfl
    simp only [Heap.append, usedSum_append, usedSum_cons, usedSum_nil, hg.blocks, hg.used, hfree,
      if_true]
    omega
  · simp only [Heap.append]
    omega
  · simp only [Heap.append, pageSize] at hbrk ⊢
    omega

/-- The appended block is large enough. -/
theorem append_fits (hlt : size ≤ maxRequest)
    (hg : Grown h g (requestPages size)) :
    ∃ b ∈ (g.append h.brk vm).blocks, b.fits (alignUp size 8) = true := by
  obtain ⟨hpos, hroom⟩ := requestPages_bounds hlt
  have hsize := newBlock_size hg hpos
  refine ⟨newBlock h.brk g.brk, by simp [Heap.append], ?_⟩
  have hge : alignUp size 8 ≤ (newBlock h.brk g.brk).size := by omega
  have hfree : (newBlock h.brk g.brk).free = true := rfl
  simp [Block.fits, hfree, hge]

/-- What a call that was served has taken. -/
def Served (h : Heap) (size p : Nat) (h' : Heap) : Prop :=
  ∃ b, p = b.addr + headerSize ∧ Taken h.blocks size b h'.blocks

/-- A pass that finds a block. -/
theorem Shape.served {l : List Block} {b : Block} (hok : HeapOk R h) (hlt : size ≤ maxRequest)
    (htake : takeFirstFit h.vm (alignUp size 8) h.blocks = some (vm, some b, l))
    (hp : p = u32 (b.addr + headerSize))
    (hres : h' = { h with vm := vm, blocks := l, usedBytes := u32 (h.usedBytes + b.size) }) :
    HeapOk R h' ∧ Served h size p h' := by
  obtain ⟨hmod, hge, hle⟩ := alignUp_request hlt
  obtain ⟨hshape, htaken⟩ := hok.take hmod hle htake
  have hb := hshape.bounds htaken.mem
  have hlimit := hok.limit
  subst hres
  refine ⟨hshape, b, ?_, htaken.mem, htaken.inUse, Nat.le_trans hge htaken.enough, htaken.old⟩
  simp only [Block.stop, headerSize, kheapMax] at hb hlimit
  rw [hp, u32_of_lt]
  simp only [headerSize]
  omega

/-- A pass over a list that has a block large enough serves the request. -/
theorem Shape.servedAgain (hok : HeapOk R h) (hsize : size ≠ 0) (hmod : size % 8 = 0)
    (hlt : size ≤ maxRequest) (hfits : ∃ b ∈ h.blocks, b.fits size = true)
    (halloc : heapAllocRaw depth h size = some (p, h')) : HeapOk R h' ∧ Served h size p h' := by
  have halign : alignUp size 8 = size := by
    simp only [maxRequest] at hlt
    rw [alignUp_eight, u32_of_lt (by omega)]
    omega
  cases depth with
  | zero => cases halloc
  | succ depth =>
    rcases heapAllocRaw_succ hsize halloc with ⟨vm, b, l, htake, hp, hres⟩ | ⟨hnone, -⟩
    · exact hok.served hlt htake hp hres
    · obtain ⟨b, hb, hbfits⟩ := hfits
      rw [← halign, hnone b hb] at hbfits
      cases hbfits

/-- A growth that fails and is whole has mapped nothing. -/
theorem eq_zero_of_whole (hgo : ∀ j < k, ¬ (h.afterPages j).Stops)
    (hend : k = growPages needed ∧ heapGrow h needed = (true, h.afterPages k) ∨
      k < growPages needed ∧ (h.afterPages k).Stops ∧ (heapGrow h needed).1 = false)
    (hfail : (heapGrow h needed).1 = false) (hwhole : h.GrowsWhole (growPages needed)) : k = 0 := by
  rcases hend with ⟨-, hres⟩ | ⟨hlt, hstop, -⟩
  · rw [hres] at hfail
    cases hfail
  · rcases hwhole with hfirst | hall
    · by_contra hk
      exact hgo 0 (Nat.pos_of_ne_zero hk) hfirst
    · exact absurd hstop (hall k hlt)

/-- `heap_alloc_raw` keeps the shape, and serves the request or returns NULL. -/
theorem Shape.alloc (hok : HeapOk R h) (hsize : size ≠ 0) (hlt : size ≤ maxRequest)
    (hgap : (∀ a b, a ≤ b → R a b) ∨ (∃ b ∈ h.blocks, b.fits (alignUp size 8) = true) ∨
      h.GrowsWhole (requestPages size))
    (halloc : heapAllocRaw (depth + 1) h size = some (p, h')) :
    HeapOk R h' ∧ (p = 0 ∨ Served h size p h') := by
  obtain ⟨hmod, hge, hle⟩ := alignUp_request hlt
  rcases heapAllocRaw_succ hsize halloc with ⟨vm, b, l, htake, hp, hres⟩ | ⟨hnone, hcases⟩
  · obtain ⟨hok', hserved⟩ := hok.served hlt htake hp hres
    exact ⟨hok', Or.inr hserved⟩
  · obtain ⟨k, hk, hgo, hg, hend⟩ := heapGrow_cases (growSize (alignUp size 8)) hok.limit
    rcases hcases with ⟨hfail, rfl, rfl⟩ | ⟨hfull, vm, -, hagain⟩
    · refine ⟨hok.grown hg ?_, Or.inl rfl⟩
      rcases hgap with hgap | ⟨b, hb, hfits⟩ | hwhole
      · exact Or.inr hgap
      · rw [hnone b hb] at hfits
        cases hfits
      · exact Or.inl (eq_zero_of_whole hgo hend hfail hwhole)
    · have hk : k = requestPages size := by
        rcases hend with ⟨hk, -⟩ | ⟨-, -, hfail⟩
        · exact hk
        · rw [hfull] at hfail
          cases hfail
      subst hk
      have hpos := (requestPages_bounds hlt).1
      obtain ⟨hok', b, hp, htaken⟩ := (hok.append vm hg hpos).servedAgain
        (by omega) hmod hle (append_fits hlt hg) hagain
      refine ⟨hok', Or.inr ⟨b, hp, htaken.mem, htaken.inUse, Nat.le_trans hge htaken.enough, ?_⟩⟩
      intro c hc hused
      refine htaken.old c ?_ hused
      rw [Heap.append, hg.blocks]
      exact List.mem_append_left _ hc

end PinguinOS.Mm
