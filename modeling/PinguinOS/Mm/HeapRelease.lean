import PinguinOS.Mm.HeapFailure

/-! What `kmalloc` has returned can be given back, whatever the size was. -/
namespace PinguinOS.Mm

/-- No two headers at one place, and all of them below the break. -/
structure Distinct (h : Heap) : Prop where
  addrs : h.blocks.Pairwise fun a b => a.addr ≠ b.addr
  below : ∀ b ∈ h.blocks, b.addr < h.brk
  limit : h.brk ≤ kheapMax

/-- A used block at `p`, and the only one at its place. -/
def Heap.Owned (h : Heap) (p : Nat) : Prop :=
  ∃ b, p = u32 (b.addr + headerSize) ∧ b.addr < 2 ^ 32 ∧ b.magic = heapMagicUsed ∧
    h.blockAt b.addr = some b

variable {h h' g : Heap} {b cur : Block} {l rest blocks : List Block} {R : Nat → Nat → Prop}
  [Spacing R] {vm vm' : Vm} {depth size p addr : Nat}

theorem Shape.distinct (hok : HeapOk R h) : Distinct h where
  addrs := by
    refine List.Pairwise.imp ?_ hok.pairwise
    intro a b hle heq
    unfold Block.stop headerSize at hle
    omega
  below := by
    intro b hb
    have hbounds := hok.bounds hb
    unfold Block.stop headerSize at hbounds
    omega
  limit := hok.limit

theorem take_owned (hdist : blocks.Pairwise fun a b => a.addr ≠ b.addr)
    (htake : takeFirstFit vm size blocks = some (vm', some b, l)) :
    (l.find? fun c => c.addr = b.addr) = some b ∧ b.magic = heapMagicUsed ∧
      ∃ c ∈ blocks, c.addr = b.addr := by
  obtain ⟨xs, blk, ys, blk', ys', rfl, -, hsplit, rfl, rfl⟩ := takeFirstFit_some htake
  have haddr : blk'.addr = blk.addr := by
    rcases heapSplit_cases hsplit with ⟨-, rfl, -⟩ | ⟨rfl, -⟩
    · rfl
    · rfl
  refine ⟨?_, rfl, blk, by simp, haddr.symm⟩
  rw [List.find?_append]
  have hnone : (xs.find? fun c => c.addr = blk'.addr) = none := by
    rw [List.find?_eq_none]
    intro c hc
    have hne := (List.pairwise_append.mp hdist).2.2 c hc blk List.mem_cons_self
    rw [haddr]
    simpa using hne
  rw [hnone]
  simp

/-- A pass that finds a block. -/
theorem owned_take (hdist : h.blocks.Pairwise fun a b => a.addr ≠ b.addr)
    (hbelow : ∀ b ∈ h.blocks, b.addr < 2 ^ 32)
    (htake : takeFirstFit h.vm size h.blocks = some (vm, some b, l)) {used : Nat} :
    { h with vm := vm, blocks := l, usedBytes := used }.Owned (u32 (b.addr + headerSize)) := by
  obtain ⟨hfind, hmagic, c, hc, haddr⟩ := take_owned hdist htake
  exact ⟨b, rfl, haddr ▸ hbelow c hc, hmagic, hfind⟩

theorem Distinct.append (hdist : Distinct h) (hg : Grown h g (depth + 1)) :
    Distinct (g.append h.brk vm) where
  addrs := by
    unfold Heap.append
    rw [hg.blocks, List.pairwise_append]
    refine ⟨hdist.addrs, List.pairwise_singleton _ _, ?_⟩
    intro a ha b hb
    obtain rfl := List.mem_singleton.mp hb
    exact Nat.ne_of_lt (hdist.below a ha)
  below := by
    have hbrk := hg.brk
    unfold pageSize at hbrk
    unfold Heap.append
    dsimp only
    intro b hb
    rw [hg.blocks] at hb
    rcases List.mem_append.mp hb with hb | hb
    · have hlt := hdist.below b hb
      omega
    · obtain rfl := List.mem_singleton.mp hb
      have haddr : (newBlock h.brk g.brk).addr = h.brk := rfl
      omega
  limit := hg.limit

/-- `heap_alloc_raw` returns NULL or a block of its own, for sizes that wrap too. -/
theorem Distinct.alloc (hdist : Distinct h) (hsize : size < 2 ^ 32)
    (halloc : heapAllocRaw depth h size = some (p, h')) : p = 0 ∨ h'.Owned p := by
  induction depth generalizing h size with
  | zero => cases halloc
  | succ depth ih =>
    have hlow : ∀ b ∈ h.blocks, b.addr < 2 ^ 32 := by
      intro b hb
      have hlt := hdist.below b hb
      have hlimit := hdist.limit
      unfold kheapMax at hlimit
      omega
    by_cases hzero : size = 0
    · rw [hzero, heapAllocRaw, if_pos rfl] at halloc
      cases halloc
      exact Or.inl rfl
    rcases heapAllocRaw_succ hzero halloc with ⟨vm, b, l, htake, rfl, rfl⟩ | ⟨-, hgrow⟩
    · exact Or.inr (owned_take hdist.addrs hlow htake)
    rcases hgrow with ⟨-, rfl, -⟩ | ⟨hfull, vm, -, hagain⟩
    · exact Or.inl rfl
    obtain ⟨k, -, -, hg, hend⟩ := heapGrow_cases (growSize (alignUp size 8)) hdist.limit
    have hlt : alignUp size 8 < 2 ^ 32 := by
      rw [alignUp_eight]
      unfold u32
      omega
    cases k with
    | succ k => exact ih (hdist.append hg) hlt hagain
    | zero =>
      -- No page was asked for, so the size is one whose block of no page is large enough.
      have hnone : requestPages size = 0 := by
        rcases hend with ⟨hk, -⟩ | ⟨-, -, hfail⟩
        · exact hk.symm
        · rw [hfull] at hfail
          cases hfail
      have hle : size ≤ maxHeadered := by
        by_contra hhuge
        rw [requestPages_huge (Nat.lt_of_not_le hhuge) hsize] at hnone
        cases hnone
      have hfits := newBlock_fits hle (hnone ▸ hg)
      cases depth with
      | zero => cases hagain
      | succ depth =>
        have hpos : alignUp size 8 ≠ 0 := by
          have hge := (alignUp_headered hle).1
          omega
        rcases heapAllocRaw_succ hpos hagain with ⟨vm', b, l, htake, rfl, rfl⟩ | ⟨hno, -⟩
        · refine Or.inr (owned_take ?_ ?_ htake)
          · unfold Heap.append
            rw [hg.blocks, List.pairwise_append]
            refine ⟨hdist.addrs, List.pairwise_singleton _ _, ?_⟩
            intro a ha b hb
            obtain rfl := List.mem_singleton.mp hb
            exact Nat.ne_of_lt (hdist.below a ha)
          · unfold Heap.append
            rw [hg.blocks]
            intro b hb
            rcases List.mem_append.mp hb with hb | hb
            · exact hlow b hb
            · obtain rfl := List.mem_singleton.mp hb
              have hlimit := hdist.limit
              unfold kheapMax at hlimit
              exact Nat.lt_of_le_of_lt hlimit (by decide)
        · have hmem : newBlock h.brk (heapGrow h (growSize (alignUp size 8))).2.brk ∈
              ((heapGrow h (growSize (alignUp size 8))).2.append h.brk vm).blocks :=
            List.mem_append_right _ (List.mem_singleton_self _)
          have hunfit := hno _ hmem
          rw [(alignUp_headered hle).2] at hunfit
          rw [hfits] at hunfit
          cases hunfit

/-! Giving back. -/

/-- What is used after merging has been a block before. -/
theorem coalesceFrom_used (hb : b ∈ coalesceFrom cur rest) (hused : b.free = false) :
    b ∈ cur :: rest := by
  induction rest generalizing cur with
  | nil => exact hb
  | cons next rest ih =>
    unfold coalesceFrom at hb
    split_ifs at hb with hboth
    · obtain rfl | hrest := List.mem_cons.mp (ih hb)
      · have hcur := (Bool.and_eq_true _ _ ▸ hboth).1
        rw [hcur] at hused
        cases hused
      · exact List.mem_cons_of_mem _ (List.mem_cons_of_mem _ hrest)
    · rcases List.mem_cons.mp hb with rfl | hrest
      · exact List.mem_cons_self
      · exact List.mem_cons_of_mem _ (ih hrest)

theorem coalesce_used (hb : b ∈ coalesce l) (hused : b.free = false) : b ∈ l := by
  cases l with
  | nil => exact hb
  | cons cur rest => exact coalesceFrom_used hb hused

/-- `kfree` of such a pointer ends, and nothing is live there afterwards. -/
theorem Heap.Owned.kfree (howned : h.Owned p) (hp : p ≠ 0) :
    ∃ h', kfree h p = some h' ∧ ¬ h'.Live p := by
  obtain ⟨b, rfl, hlt, hmagic, hblock⟩ := howned
  have haddr : sub32 (u32 (b.addr + headerSize)) headerSize = b.addr := by
    unfold sub32 u32 headerSize
    omega
  unfold PinguinOS.Mm.kfree heapFreeRaw
  rw [if_neg hp, haddr]
  dsimp only
  rw [hblock]
  refine ⟨_, if_neg (not_not.mpr hmagic), ?_⟩
  rintro ⟨c, hc, hused, heq⟩
  obtain ⟨d, -, rfl⟩ := List.mem_map.mp (coalesce_used hc hused)
  by_cases hhere : d.addr = b.addr
  · rw [Block.release, if_pos hhere] at hused
    cases hused
  · rw [Block.release, if_neg hhere] at heq
    unfold u32 headerSize at heq
    omega

end PinguinOS.Mm
