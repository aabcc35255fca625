import PinguinOS.Mm.SlabExclusive

/-! Which sizes and alignments `slab_cache_create` makes usable caches of. -/
namespace PinguinOS.Mm

open Bytes Linked Run

/-- Every slab made so far is on exactly one of the lists. -/
def SlabRun.OnOneList (r : SlabRun) : Prop :=
  ∃ lists : SlabList → List Nat, (∀ li, Chain 0 r.st.next (r.st.cache.head li) (lists li)) ∧
    (∀ li, ∀ s ∈ lists li, s ∈ r.slabs) ∧ ∀ s ∈ r.slabs, ∃! li, s ∈ lists li

/-- What callers expect of a cache that `slab_cache_create` has returned. -/
structure SlabCache.Usable (c : SlabCache) : Prop where
  objs : 1 ≤ c.objsPerSlab
  /-- `slab_new` writes inside the pages that `pmm_alloc_pages` has returned. -/
  inside : ∀ kernStart kernEnd totalPages pmm slab desc starved a,
    Sane kernStart kernEnd totalPages pmm → (slabNew ⟨pmm, slab, c⟩ desc starved).1 ≠ 0 →
    ¬ ((pmmAllocPages pmm c.slabPages).1 ≤ a ∧
      a < (pmmAllocPages pmm c.slabPages).1 + c.slabPages * pageSize) →
    byte (slabNew ⟨pmm, slab, c⟩ desc starved).2.pmm.mem a =
      byte (pmmAllocPages pmm c.slabPages).2.mem a
  runs : ∀ kernStart kernEnd totalPages pmm slab calls, Sane kernStart kernEnd totalPages pmm →
    EveryStep SlabRun.step (fun r call _ => r.Allowed kernStart kernEnd totalPages call)
      ⟨⟨pmm, slab, c⟩, [], []⟩ calls →
    EveryState SlabRun.step (fun r => r.OnOneList ∧
      ∀ desc starved, desc ∉ r.slabs → slabAlloc r.st desc starved ≠ none)
      ⟨⟨pmm, slab, c⟩, [], []⟩ calls

/-- `slab_cache_create` does not divide by zero, and a cache that it returns is usable. -/
def CreatesUsable (size align : Nat) : Prop :=
  ∀ cacheCount fails, slabCacheCreate cacheCount fails size align ≠ .divideError ∧
    ∀ c, slabCacheCreate cacheCount fails size align = .cache c → c.Usable

variable {cacheCount size align k n m stride : Nat} {fails : Bool} {c : SlabCache}

/-! The sizes. -/

theorem alignUp_pow_bounds (hk : k < 32) (hle : size ≤ m) (hdvd : 2 ^ k ∣ m)
    (hm : m + 2 ^ k ≤ 2 ^ 32) : size ≤ alignUp size (2 ^ k) ∧ alignUp size (2 ^ k) ≤ m := by
  have hpos : 0 < 2 ^ k := Nat.two_pow_pos k
  rw [alignUp_pow hk, u32_of_lt (by omega)]
  constructor
  · have hmod := Nat.div_add_mod (size + 2 ^ k - 1) (2 ^ k)
    have hlt := Nat.mod_lt (size + 2 ^ k - 1) hpos
    rw [Nat.mul_comm] at hmod
    omega
  · obtain ⟨q, rfl⟩ := hdvd
    rw [Nat.mul_comm (2 ^ k) q] at hle ⊢
    refine Nat.mul_le_mul_right _ (Nat.le_of_lt_succ ?_)
    rw [Nat.div_lt_iff_lt_mul hpos, Nat.succ_mul]
    omega

theorem slabPagesFrom_large (h : 2048 < stride) : slabPagesFrom stride 3 1 = 4 := by
  have hfew : ∀ pages ≤ 3, pages * pageSize / stride < 8 := by
    intro pages hpages
    rw [Nat.div_lt_iff_lt_mul (by omega)]
    simp only [pageSize]
    omega
  simp only [slabPagesFrom, hfew 1 (by decide), hfew 2 (by decide), hfew 3 (by decide), if_true]

theorem SlabCache.Made.many (h : c.Made size align) (hle : c.stride ≤ 8192) :
    2 ≤ c.objsPerSlab := by
  have hpos := Nat.pos_of_ne_zero h.stride
  rw [h.objsPerSlab, h.slabPages, Nat.le_div_iff_mul_le hpos]
  by_cases hlarge : 2048 < c.stride
  · rw [slabPagesFrom_large hlarge]
    simp only [pageSize]
    omega
  · have hone := (@slabPagesFrom_le 3 1 c.stride).1
    simp only [pageSize]
    omega

theorem SlabCache.Made.few (h : c.Made size align) (hlt : 8192 < c.stride) :
    c.slabPages = 4 ∧ c.objsPerSlab ≤ 1 := by
  have hpages : c.slabPages = 4 := by
    rw [h.slabPages]
    exact slabPagesFrom_large (by omega)
  refine ⟨hpages, Nat.le_of_lt_succ ?_⟩
  rw [h.objsPerSlab, hpages, Nat.div_lt_iff_lt_mul (by omega)]
  simp only [pageSize]
  omega

/-- The rounded size does not wrap to 0, and two objects fit. -/
theorem stride_of_small (hreq : SlabRequest size align) (hsize : size ≤ 8192)
    (halign : align ≤ 8192) :
    0 < alignUp (if size < 4 then 4 else size) (if align ≠ 0 then align else 8) ∧
      alignUp (if size < 4 then 4 else size) (if align ≠ 0 then align else 8) ≤ 8192 := by
  have hpow : ∃ k ≤ 13, (if align ≠ 0 then align else 8) = 2 ^ k := by
    rcases hreq.align_ok with rfl | ⟨k, -, rfl⟩
    · exact ⟨3, by decide, rfl⟩
    · have hle : 2 ^ k ≤ 2 ^ 13 := halign
      exact ⟨k, (Nat.pow_le_pow_iff_right (by decide)).mp hle, if_pos (Nat.two_pow_pos k).ne'⟩
  obtain ⟨k, hk, hpow⟩ := hpow
  have hobj : 4 ≤ (if size < 4 then 4 else size) ∧ (if size < 4 then 4 else size) ≤ 8192 := by
    split_ifs <;> omega
  have hdvd : 2 ^ k ∣ 8192 := Nat.pow_dvd_pow 2 hk
  have hle := Nat.le_of_dvd (by decide) hdvd
  have hbounds := alignUp_pow_bounds (show k < 32 by omega) hobj.2 hdvd (by omega)
  rw [hpow]
  omega

/-! Two objects in a slab: everything holds. -/

section

variable {kernStart kernEnd totalPages a desc : Nat} {pmm : Pmm} {slab : Nat → SlabDesc}
  {starved : Bool} {r : SlabRun}

theorem slot_outside {p size : Nat} (hk : k < n) (hptr : 4 ≤ stride) (hinside : n * stride ≤ size)
    (ha : ¬ (p ≤ a ∧ a < p + size)) : ¬ (p + k * stride ≤ a ∧ a < p + k * stride + 4) := by
  have hle := @slot_le p stride n k hk
  omega

theorem slabNew_inside (hfits : c.Fits) (hsane : Sane kernStart kernEnd totalPages pmm)
    (hnew : (slabNew ⟨pmm, slab, c⟩ desc starved).1 ≠ 0)
    (ha : ¬ ((pmmAllocPages pmm c.slabPages).1 ≤ a ∧
      a < (pmmAllocPages pmm c.slabPages).1 + c.slabPages * pageSize)) :
    byte (slabNew ⟨pmm, slab, c⟩ desc starved).2.pmm.mem a =
      byte (pmmAllocPages pmm c.slabPages).2.mem a := by
  unfold slabNew at hnew ⊢
  by_cases hdesc : desc = 0
  · rw [if_pos hdesc] at hnew
    exact absurd rfl hnew
  rw [if_neg hdesc] at hnew ⊢
  cases starved with
  | true => exact absurd rfl hnew
  | false =>
    have hmany := hfits.many
    have hinside := hfits.inside
    have hptr := hfits.stride_pos
    have hlimit := hsane.limit
    rcases pmmAllocPages_result (n := c.slabPages) hsane.placed.total with hnone | ⟨i, hsome, -, hal⟩
    · rw [if_neg Bool.false_ne_true, hnone] at hnew
      exact absurd rfl hnew
    · have hrange := hal.inRange
      rw [hsane.total] at hrange
      have hi := hal.nonzero
      have hne : i * pageSize ≠ 0 := by
        simp only [pageSize]
        omega
      clear hnew
      rw [hsome] at ha
      rw [if_neg Bool.false_ne_true, hsome]
      dsimp only at ha ⊢
      rw [if_neg hne]
      refine buildFreelist_frame (f := fun m => byte m a) ?_ (by omega) hfits.objs_lt ?_
      · simp only [pageSize] at hinside ⊢
        omega
      · intro mem k y hk
        exact byte_writePtr.trans (if_neg (slot_outside hk hptr hinside ha))

theorem onOneList_of_inv (h : SlabInv kernStart kernEnd totalPages r.st r.slabs r.live) :
    r.OnOneList := by
  obtain ⟨lists, hl, -, -⟩ := h
  refine ⟨lists, hl.chain, fun li s hs => (hl.listed li s hs).1, fun s hs => ?_⟩
  obtain ⟨li, hli⟩ := (hl.owned s hs).resolve_left (by simp)
  exact ⟨li, hli, fun lj hlj => hl.once s lj li hlj hli⟩

theorem usable_of_fits (hfits : c.Fits) (hheads : c.head = fun _ => 0) : c.Usable where
  objs := by
    have hmany := hfits.many
    omega
  inside := by
    intro kernStart kernEnd totalPages pmm slab desc starved a hsane hnew ha
    exact slabNew_inside hfits hsane hnew ha
  runs := by
    intro kernStart kernEnd totalPages pmm slab calls hsane hsteps
    refine hsteps.everyState
      (I := fun r => SlabInv kernStart kernEnd totalPages r.st r.slabs r.live) ?_ ?_
      (slabInv_new hsane hfits hheads)
    · intro r call r' hinv hstep hcall
      obtain ⟨_, hstep', hinv', -⟩ := r.step_inv hinv hcall
      cases hstep.symm.trans hstep'
      exact hinv'
    · intro r hinv
      refine ⟨onOneList_of_inv hinv, fun desc starved hdesc hnone => ?_⟩
      obtain ⟨obj, st', hsome, -⟩ := @SlabInv.alloc _ _ _ _ _ _ desc starved hinv hdesc
      rw [hsome] at hnone
      cases hnone

end

/-! One object in a slab: the slab is found empty and becomes full in one step, and stays on both
lists. -/

section

/-- The only slab of a cache of one object a slab. -/
structure Lone (c : SlabCache) (st : SlabState) (full empty count first : Nat) : Prop where
  sizes : SameSizes c st.cache
  inUse : st.cache.partialSlabs = 0
  full : st.cache.fullSlabs = full
  empty : st.cache.emptySlabs = empty
  slab : st.slab 1 = ⟨0x103000, 1, count, first, 0⟩

variable {st st' : SlabState} {empty full desc : Nat} {starved : Bool}

/-- The object is taken. The list of empty slabs keeps its head. -/
theorem Lone.take (h : Lone c st 0 empty 1 0x103000) (hlast : readPtr st.pmm.mem 0x103000 = 0)
    (hpick : pickSlab st' desc starved = (1, st)) :
    ∃ t, slabAlloc st' desc starved = some (0x103000, t) ∧ Lone c t 1 empty 0 0 := by
  have hfirst : (st.slab 1).freelist = 0x103000 := by rw [h.slab]
  have halloc := slabAlloc_eq hpick Nat.one_ne_zero (ne_of_eq_of_ne hfirst (by decide))
  have htaken : (st.takeObj 1).slab 1 = ⟨0x103000, 1, 0, 0, 0⟩ := by
    rw [takeObj_slab, h.slab]
    dsimp only
    rw [hlast]
    rfl
  have hmove : moveAfterAlloc (st.takeObj 1) 1 = (st.takeObj 1).push .full 1 := by
    have hhead : ¬ (st.takeObj 1).cache.partialSlabs = 1 := ne_of_eq_of_ne h.inUse Nat.zero_ne_one
    unfold moveAfterAlloc
    rw [htaken, if_pos rfl]
    dsimp only
    rw [if_neg hhead]
  have hpushed : ((st.takeObj 1).push .full 1).slab 1 = ⟨0x103000, 1, 0, 0, 0⟩ := by
    rw [push_slab, htaken]
    exact congrArg (SlabDesc.mk 0x103000 1 0 0) h.full
  rw [hfirst, hmove] at halloc
  exact ⟨_, halloc, ⟨h.sizes, h.inUse, rfl, h.empty, hpushed⟩⟩

theorem Lone.give (h : Lone c st 1 0 0 0) (hpages : c.slabPages = 4) :
    ∃ t, slabFree st 0x103000 = some t ∧ Lone c t 0 1 1 0x103000 ∧
      readPtr t.pmm.mem 0x103000 = 0 := by
  have hholds : st.holds 0x103000 1 = true := by
    unfold SlabState.holds
    rw [h.slab, h.sizes.2.2.2, hpages]
    decide
  have hnext : st.next 1 = 0 := congrArg SlabDesc.next h.slab
  have hchain : Chain 0 st.next 1 ([] ++ 1 :: []) := ⟨rfl, Nat.one_ne_zero, hnext⟩
  have hfind : findFrom st 0x103000 walkDepth 0 (st.cache.head .full) = some (some (0, 1)) := by
    have hhead : st.cache.head .full = 1 := h.full
    rw [hhead]
    exact findFrom_some hchain (by decide) (fun _ ht => absurd ht List.not_mem_nil) hholds
  have hunlink : st.unlink .full 0 1 = st.dropHead .full 1 := if_neg (not_not.mpr rfl)
  have htake : takeOut st 0x103000 [.full, .inUse, .empty] = some (1, st.dropHead .full 1) := by
    unfold takeOut
    rw [hfind]
    exact congrArg (fun t => some (1, t)) hunlink
  have hgiven : ((st.dropHead .full 1).giveObj 1 0x103000).slab 1 =
      ⟨0x103000, 1, 1, 0x103000, 0⟩ := by
    have hdropped : (st.dropHead .full 1).slab 1 = ⟨0x103000, 1, 0, 0, 0⟩ := h.slab
    rw [giveObj_slab, hdropped]
    rfl
  have hpushed : (((st.dropHead .full 1).giveObj 1 0x103000).push .empty 1).slab 1 =
      ⟨0x103000, 1, 1, 0x103000, 0⟩ := by
    rw [push_slab, hgiven]
    exact congrArg (SlabDesc.mk 0x103000 1 1 0x103000) h.empty
  refine ⟨((st.dropHead .full 1).giveObj 1 0x103000).push .empty 1, ?_,
    ⟨h.sizes, h.inUse, hnext, rfl, hpushed⟩, ?_⟩
  · unfold slabFree
    rw [if_neg (by decide), htake]
    refine congrArg some (if_pos ?_)
    rw [hgiven]
  · have hold : ((st.dropHead .full 1).slab 1).freelist = 0 := congrArg SlabDesc.freelist h.slab
    change readPtr (writePtr st.pmm.mem 0x103000 ((st.dropHead .full 1).slab 1).freelist) 0x103000 = 0
    rw [hold]
    exact readPtr_writePtr (by decide)

/-- The slab on the list of empty slabs has no object left. -/
theorem Lone.null (h : Lone c st 1 1 0 0) : slabAlloc st desc starved = none := by
  have hpick : pickSlab st desc starved = (1, st) := by
    unfold pickSlab
    rw [if_neg (not_not.mpr h.inUse), h.empty, if_pos Nat.one_ne_zero]
  unfold slabAlloc
  rw [hpick]
  dsimp only
  rw [if_neg Nat.one_ne_zero]
  exact if_pos (congrArg SlabDesc.freelist h.slab)

/-- The first slab of the cache. -/
theorem lone_new {slab : Nat → SlabDesc} (hheads : c.head = fun _ => 0) (hpages : c.slabPages = 4)
    (hone : c.objsPerSlab = 1) :
    ∃ st, pickSlab ⟨oddPmm, slab, c⟩ 1 false = (1, st) ∧ Lone c st 0 0 1 0x103000 ∧
      readPtr st.pmm.mem 0x103000 = 0 := by
  obtain ⟨p, hpick, hmem⟩ := @pickSlab_oddPmm c slab hheads hpages
  refine ⟨_, hpick, ⟨⟨rfl, rfl, rfl, rfl⟩, congrFun hheads .inUse, congrFun hheads .full,
    congrFun hheads .empty, ?_⟩, ?_⟩
  · dsimp only
    rw [Function.update_self, SlabCache.newDesc, hone]
  · have hlast : u32 (0x103000 + u32 (sub32 1 1 * c.stride)) = 0x103000 := by
      have hzero : sub32 1 1 = 0 := rfl
      rw [hzero, Nat.zero_mul]
      rfl
    rw [hmem, hone, buildFreelist, hlast]
    exact readPtr_writePtr (by decide)

theorem step_alloc_some {r : SlabRun} {obj : Nat} (h : slabAlloc r.st desc starved = some (obj, st))
    (hobj : obj ≠ 0) : ∃ slabs, r.step (.alloc desc starved) = some ⟨st, obj :: r.live, slabs⟩ ∧
      ∀ s ∈ slabs, s = desc ∨ s ∈ r.slabs := by
  refine ⟨_, (SlabRun.step_alloc h).trans (by rw [if_neg hobj]), fun s hs => ?_⟩
  split_ifs at hs
  · exact List.mem_cons.mp hs
  · exact Or.inr hs

/-- One object is allocated, freed, and allocated again. -/
theorem not_usable_of_one (hheads : c.head = fun _ => 0) (hpages : c.slabPages = 4)
    (hone : c.objsPerSlab = 1) : ¬ c.Usable := by
  intro husable
  let slab : Nat → SlabDesc := fun _ => ⟨0, 0, 0, 0, 0⟩
  obtain ⟨st₁, hpick, hnew, hlast⟩ := @lone_new c slab hheads hpages hone
  obtain ⟨st₂, halloc, htaken⟩ := hnew.take hlast hpick
  obtain ⟨st₃, hfree, hgiven, hlast'⟩ := htaken.give hpages
  have hpick' : pickSlab st₃ 0 true = (1, st₃) := by
    unfold pickSlab
    rw [if_neg (not_not.mpr hgiven.inUse), hgiven.empty, if_pos Nat.one_ne_zero]
  obtain ⟨st₄, halloc', htaken'⟩ := hgiven.take hlast' hpick'
  obtain ⟨slabs, hstep, hslabs⟩ := @step_alloc_some _ _ _ ⟨⟨oddPmm, slab, c⟩, [], []⟩ _ halloc
    (by decide)
  have hstep' := @SlabRun.step_free _ _ ⟨st₂, [0x103000], slabs⟩ hfree
  obtain ⟨slabs', hstep'', hslabs'⟩ := @step_alloc_some _ _ _
    ⟨st₃, [0x103000].erase 0x103000, slabs⟩ _ halloc' (by decide)
  have hold : ∀ s ∈ slabs', s = 0 ∨ s = 1 := by
    intro s hs
    refine (hslabs' s hs).imp_right fun hmem => ?_
    exact (hslabs s hmem).resolve_right List.not_mem_nil
  have hsafe := husable.runs 0x100000 0x102000 _ oddPmm slab
    [.alloc 1 false, .free 0x103000, .alloc 0 true] sane_oddPmm ?_
  · have hlast := (((hsafe.2 _ hstep).2 _ hstep').2 _ hstep'').first.2 2 false ?_
    · exact hlast htaken'.null
    · intro hmem
      exact absurd (hold 2 hmem) (by decide)
  · intro t ht
    cases ht.symm.trans hstep
    refine ⟨List.not_mem_nil, fun t ht => ?_⟩
    cases ht.symm.trans hstep'
    refine ⟨Or.inr List.mem_cons_self, fun t ht => ⟨fun hmem => ?_, trivial⟩⟩
    exact absurd ((hslabs 0 hmem).resolve_right List.not_mem_nil) (by decide)

end

/-! The condition. -/

/-- The table of caches has room and the heap has memory. -/
theorem slabCacheCreate_zero : slabCacheCreate 0 false size align = .divideError ∨
    ∃ c, slabCacheCreate 0 false size align = .cache c := by
  have hroom : ¬ 0 ≥ slabMaxCaches := by decide
  unfold slabCacheCreate
  rw [if_neg hroom]
  dsimp only
  rw [if_neg Bool.false_ne_true]
  by_cases hstride : alignUp (if size < 4 then 4 else size) (if align ≠ 0 then align else 8) = 0
  · exact Or.inl (if_pos hstride)
  · exact Or.inr ⟨_, if_neg hstride⟩

theorem stride_of_divideError (h : slabCacheCreate cacheCount fails size align = .divideError) :
    alignUp (if size < 4 then 4 else size) (if align ≠ 0 then align else 8) = 0 := by
  by_contra hstride
  unfold slabCacheCreate at h
  by_cases hcount : cacheCount ≥ slabMaxCaches
  · rw [if_pos hcount] at h
    cases h
  rw [if_neg hcount] at h
  cases fails with
  | true => cases h
  | false =>
    dsimp only at h
    rw [if_neg Bool.false_ne_true, if_neg hstride] at h
    cases h

theorem createsUsable_of_small (hreq : SlabRequest size align) (hsize : size ≤ 8192)
    (halign : align ≤ 8192) : CreatesUsable size align := by
  obtain ⟨hpos, hle⟩ := stride_of_small hreq hsize halign
  intro cacheCount fails
  refine ⟨fun hdiv => ?_, fun c hc => ?_⟩
  · exact hpos.ne' (stride_of_divideError hdiv)
  · have hmade := slabCacheCreate_made hc
    have hstride : c.stride ≤ 8192 := by
      unfold SlabCache.stride
      rwa [hmade.objSize, hmade.objAlign]
    exact usable_of_fits (hmade.fits hreq (hmade.many hstride)) hmade.heads

/-- A larger size or alignment leaves no room for two objects. -/
theorem not_usable_of_large (hmade : c.Made size align) (hreq : SlabRequest size align)
    (hlarge : ¬ (size ≤ 8192 ∧ align ≤ 8192)) : ¬ c.Usable := by
  intro husable
  have hsize : size ≤ c.objSize := by
    rw [hmade.objSize]
    split_ifs <;> omega
  have halign : align ≤ c.objAlign := by
    rw [hmade.objAlign]
    split_ifs <;> omega
  have hle := (hmade.le_stride hreq).1
  have hdvd := Nat.le_of_dvd (Nat.pos_of_ne_zero hmade.stride) (hmade.dvd_stride hreq)
  obtain ⟨hpages, hfew⟩ := hmade.few (by omega)
  have hone := husable.objs
  exact not_usable_of_one hmade.heads hpages (by omega) husable

theorem createsUsable_iff (hreq : SlabRequest size align) :
    CreatesUsable size align ↔ size ≤ 8192 ∧ align ≤ 8192 := by
  constructor
  · intro hall
    by_contra hlarge
    obtain ⟨hdiv, husable⟩ := hall 0 false
    obtain ⟨c, hc⟩ := (@slabCacheCreate_zero size align).resolve_left hdiv
    exact not_usable_of_large (slabCacheCreate_made hc) hreq hlarge (husable c hc)
  · rintro ⟨hsize, halign⟩
    exact createsUsable_of_small hreq hsize halign

theorem createsUsable_iff_task : CreatesUsable 256 8 ↔ 256 ≤ 8192 ∧ 8 ≤ 8192 :=
  createsUsable_iff ⟨by decide, Or.inr ⟨3, by decide, rfl⟩⟩

theorem not_createsUsable_9000 : ¬ CreatesUsable 9000 8 := by
  intro hall
  have hc : slabCacheCreate 0 false 9000 8 = .cache
      { objSize := 9000, objAlign := 8, objsPerSlab := 1, slabPages := 4, partialSlabs := 0,
        fullSlabs := 0, emptySlabs := 0, allocCount := 0, freeCount := 0 } := rfl
  exact not_usable_of_large (slabCacheCreate_made hc) ⟨by decide, Or.inr ⟨3, by decide, rfl⟩⟩
    (by decide) ((hall 0 false).2 _ hc)

end PinguinOS.Mm
