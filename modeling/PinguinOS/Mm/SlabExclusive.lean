import PinguinOS.Mm.Boot
import PinguinOS.Mm.SlabRun

/-! Slab exclusivity: objects are aligned and apart, and every slab is on the list it belongs to. -/
namespace PinguinOS.Mm

open Bytes Linked Run

/-! The sizes that `slab_cache_create` computes. -/

/-- The bytes of an object and of an alignment, as `slab_cache_create` is given them. -/
structure SlabRequest (size align : Nat) : Prop where
  size_lt : size < 2 ^ 32
  align_ok : align = 0 ∨ ∃ k < 32, align = 2 ^ k

variable {cacheCount size align k n pages stride : Nat} {fails : Bool} {c : SlabCache}

theorem alignUp_pow (hk : k < 32) : alignUp size (2 ^ k) = u32 (size + 2 ^ k - 1) / 2 ^ k * 2 ^ k :=
  and_not32 (Nat.le_of_lt hk) u32_lt

/-- A stride that is not 0 did not wrap. -/
theorem le_alignUp_pow (hk : k < 32) (hsize : size < 2 ^ 32) (hne : alignUp size (2 ^ k) ≠ 0) :
    size ≤ alignUp size (2 ^ k) ∧ alignUp size (2 ^ k) < size + 2 ^ k := by
  have hpow : 2 ^ k < 2 ^ 32 := Nat.pow_lt_pow_right (by decide) hk
  have hpos : 0 < 2 ^ k := Nat.two_pow_pos k
  rw [alignUp_pow hk] at hne ⊢
  by_cases hwrap : size + 2 ^ k - 1 < 2 ^ 32
  · rw [u32_of_lt hwrap]
    have hmod := Nat.div_add_mod (size + 2 ^ k - 1) (2 ^ k)
    have hlt := Nat.mod_lt (size + 2 ^ k - 1) hpos
    rw [Nat.mul_comm] at hmod
    omega
  · have hsmall : u32 (size + 2 ^ k - 1) < 2 ^ k := by
      unfold u32
      omega
    rw [Nat.div_eq_of_lt hsmall, Nat.zero_mul] at hne
    exact absurd rfl hne

theorem slabPagesFrom_le : pages ≤ slabPagesFrom stride n pages ∧
    slabPagesFrom stride n pages ≤ pages + n := by
  induction n generalizing pages with
  | zero => exact ⟨Nat.le_refl _, Nat.le_refl _⟩
  | succ n ih =>
    unfold slabPagesFrom
    split_ifs
    · have h := @ih (pages + 1)
      omega
    · omega

/-- What `slab_cache_create` returns, when it returns a cache. -/
structure SlabCache.Made (c : SlabCache) (size align : Nat) : Prop where
  objSize : c.objSize = if size < 4 then 4 else size
  objAlign : c.objAlign = if align ≠ 0 then align else 8
  stride : c.stride ≠ 0
  slabPages : c.slabPages = slabPagesFrom c.stride 3 1
  objsPerSlab : c.objsPerSlab = c.slabPages * pageSize / c.stride
  heads : c.head = fun _ => 0

theorem slabCacheCreate_made (h : slabCacheCreate cacheCount fails size align = .cache c) :
    c.Made size align := by
  unfold slabCacheCreate at h
  by_cases hcount : cacheCount ≥ slabMaxCaches
  · rw [if_pos hcount] at h
    cases h
  rw [if_neg hcount] at h
  cases fails with
  | true => cases h
  | false =>
    dsimp only at h
    rw [if_neg Bool.false_ne_true] at h
    by_cases hstride : alignUp (if size < 4 then 4 else size) (if align ≠ 0 then align else 8) = 0
    · rw [if_pos hstride] at h
      cases h
    · rw [if_neg hstride] at h
      cases h
      refine ⟨rfl, rfl, hstride, rfl, rfl, ?_⟩
      funext li
      cases li <;> rfl

section

variable (h : c.Made size align) (hreq : SlabRequest size align)

include h hreq

theorem SlabCache.Made.objAlign_pow : ∃ k < 32, c.objAlign = 2 ^ k := by
  rw [h.objAlign]
  rcases hreq.align_ok with rfl | ⟨k, hk, rfl⟩
  · exact ⟨3, by decide, rfl⟩
  · exact ⟨k, hk, if_pos (Nat.two_pow_pos k).ne'⟩

theorem SlabCache.Made.objSize_bounds : 4 ≤ c.objSize ∧ c.objSize < 2 ^ 32 := by
  have hsize := hreq.size_lt
  rw [h.objSize]
  split_ifs <;> omega

theorem SlabCache.Made.le_stride : c.objSize ≤ c.stride ∧ c.stride < c.objSize + c.objAlign := by
  obtain ⟨k, hk, hpow⟩ := h.objAlign_pow hreq
  have hstride := h.stride
  unfold SlabCache.stride at hstride ⊢
  rw [hpow] at hstride ⊢
  exact le_alignUp_pow hk (h.objSize_bounds hreq).2 hstride

theorem SlabCache.Made.dvd_stride : c.objAlign ∣ c.stride := by
  obtain ⟨k, hk, hpow⟩ := h.objAlign_pow hreq
  unfold SlabCache.stride
  rw [hpow, alignUp_pow hk]
  exact Nat.dvd_mul_left _ _

theorem SlabCache.Made.fits (hmany : 2 ≤ c.objsPerSlab) : c.Fits where
  objSize := (h.objSize_bounds hreq).1
  stride := (h.le_stride hreq).1
  many := hmany
  inside := by
    rw [h.objsPerSlab]
    exact Nat.div_mul_le_self _ _
  pages := by
    rw [h.slabPages]
    exact slabPagesFrom_le.2

theorem SlabCache.Made.dvd_page (hpage : c.objAlign ≤ pageSize) : c.objAlign ∣ pageSize := by
  obtain ⟨k, -, hpow⟩ := h.objAlign_pow hreq
  rw [hpow] at hpage ⊢
  have hle : 2 ^ k ≤ 2 ^ 12 := hpage
  exact Nat.pow_dvd_pow 2 ((Nat.pow_le_pow_iff_right (by decide : 1 < 2)).mp hle)

/-- Two objects of a larger alignment just fit into the four pages. -/
theorem SlabCache.Made.two_pages (hmany : 2 ≤ c.objsPerSlab) (hpage : ¬ c.objAlign ≤ pageSize) :
    c.objAlign = 8192 ∧ c.slabPages = 4 := by
  have hfits := h.fits hreq hmany
  have hle := Nat.le_of_dvd (Nat.pos_of_ne_zero h.stride) (h.dvd_stride hreq)
  have hinside := hfits.inside
  have hpages := hfits.pages
  have hmul := Nat.mul_le_mul_right c.stride hmany
  obtain ⟨k, -, hpow⟩ := h.objAlign_pow hreq
  simp only [pageSize] at hpage hinside
  have hk : k = 13 := by
    have hlo : 12 < k := (Nat.pow_lt_pow_iff_right (by decide : 1 < 2)).mp
      (show 2 ^ 12 < 2 ^ k by omega)
    have hhi : k < 14 := (Nat.pow_lt_pow_iff_right (by decide : 1 < 2)).mp
      (show 2 ^ k < 2 ^ 14 by omega)
    omega
  subst hk
  omega

end

/-! The runs. -/

/-- The lists, the freelists and the live objects of a cache. -/
structure SlabRun.Exclusive (r : SlabRun) : Prop where
  lists : ∃ lists : SlabList → List Nat,
    (∀ li, Chain 0 r.st.next (r.st.cache.head li) (lists li)) ∧
    (∀ li, ∀ s ∈ lists li, s ∈ r.slabs) ∧
    ∀ s ∈ r.slabs, (∃! li, s ∈ lists li) ∧ ∀ li, s ∈ lists li ↔ li.Counts (r.st.slab s)
  freelist : ∀ s ∈ r.slabs, ∃ fl, Chain 0 (readPtr r.st.pmm.mem) (r.st.slab s).freelist fl ∧
    fl.length = (r.st.slab s).freeCount ∧ fl.Nodup ∧
    ∀ o ∈ fl, r.st.cache.IsSlot (r.st.slab s).base o ∧ o ∉ r.live
  aligned : ∀ o ∈ r.live, o % r.st.cache.objAlign = 0
  inside : ∀ o ∈ r.live, ∃ s ∈ r.slabs, (r.st.slab s).base ≤ o ∧
    o + r.st.cache.objSize ≤ (r.st.slab s).base + r.st.cache.slabPages * pageSize
  apart : r.live.Pairwise fun o o' =>
    o + r.st.cache.objSize ≤ o' ∨ o' + r.st.cache.objSize ≤ o

/-- In every run on a new cache: whatever state the page allocator is in, and whatever the memory
that descriptors will be made in holds. -/
def SlabsExclusive (c : SlabCache) : Prop :=
  ∀ kernStart kernEnd totalPages pmm slab calls, Sane kernStart kernEnd totalPages pmm →
    EveryStep SlabRun.step (fun r call _ => r.Allowed kernStart kernEnd totalPages call)
      ⟨⟨pmm, slab, c⟩, [], []⟩ calls →
    EveryState SlabRun.step SlabRun.Exclusive ⟨⟨pmm, slab, c⟩, [], []⟩ calls

variable {kernStart kernEnd totalPages : Nat} {r : SlabRun} {li lj : SlabList} {d : SlabDesc}
  {st : SlabState}

theorem SlabList.Counts.unique (h : li.Counts d) (h' : lj.Counts d) (hpos : 0 < d.total) :
    li = lj := by
  cases li <;> cases lj <;> simp only [SlabList.Counts] at h h' <;> first | rfl | omega

theorem exclusive_of_inv (h : SlabInv kernStart kernEnd totalPages r.st r.slabs r.live)
    (hdvd : r.st.cache.objAlign ∣ r.st.cache.stride) (hpage : r.st.cache.objAlign ∣ pageSize) :
    r.Exclusive := by
  obtain ⟨lists, hl, hok, hcounted⟩ := h
  have hsize := hok.fits.stride
  refine ⟨⟨lists, hl.chain, fun li s hs => (hl.listed li s hs).1, fun s hs => ?_⟩, fun s hs => ?_,
    fun o ho => ?_, fun o ho => ?_, ?_⟩
  · obtain ⟨li, hli⟩ := (hl.owned s hs).resolve_left (by simp)
    have htotal := (hok.each s hs).total
    have hmany := hok.fits.many
    refine ⟨⟨li, hli, fun lj hlj => hl.once s lj li hlj hli⟩, fun lj => ⟨hcounted lj s, fun hlj => ?_⟩⟩
    rwa [hlj.unique (hcounted li s hli) (by omega)]
  · obtain ⟨fl, hchain, hlength, hslots⟩ := (hok.each s hs).free
    exact ⟨fl, hchain, hlength, hchain.nodup, hslots⟩
  · obtain ⟨s, hs, k, -, rfl⟩ := hok.liveIn o ho
    have hbase := hpage.trans (Nat.dvd_of_mod_eq_zero (hok.each s hs).aligned)
    exact Nat.mod_eq_zero_of_dvd (Nat.dvd_add hbase (Nat.dvd_mul_left_of_dvd hdvd k))
  · obtain ⟨s, hs, hslot⟩ := hok.liveIn o ho
    have hbounds := hok.fits.slot hslot
    exact ⟨s, hs, by omega, by omega⟩
  · refine hok.liveNodup.imp_of_mem fun ho ho' hne => ?_
    obtain ⟨s, hs, hslot⟩ := hok.liveIn _ ho
    obtain ⟨t, ht, hslot'⟩ := hok.liveIn _ ho'
    have hap := hok.slots_apart hs ht hslot hslot' hne
    omega

/-- A new cache has no slabs. -/
theorem slabInv_new {pmm : Pmm} {slab : Nat → SlabDesc} (h : Sane kernStart kernEnd totalPages pmm)
    (hfits : c.Fits) (hheads : c.head = fun _ => 0) :
    SlabInv kernStart kernEnd totalPages ⟨pmm, slab, c⟩ [] [] := by
  refine ⟨fun _ => [], ⟨fun li => congrFun hheads li, ?_, ?_, ?_, ?_⟩, ⟨h, hfits, ?_, ?_, ?_,
    List.nodup_nil⟩, ?_⟩
  all_goals simp [Counted]

theorem exclusive_of_align (h : c.Made size align) (hreq : SlabRequest size align)
    (hmany : 2 ≤ c.objsPerSlab) (hpage : c.objAlign ≤ pageSize) : SlabsExclusive c := by
  intro kernStart kernEnd totalPages pmm slab calls hsane hsteps
  refine hsteps.everyState (I := fun r => SlabInv kernStart kernEnd totalPages r.st r.slabs r.live ∧
    SameSizes c r.st.cache) ?_ ?_ ⟨slabInv_new hsane (h.fits hreq hmany) h.heads, rfl, rfl, rfl, rfl⟩
  · rintro r call r' ⟨hinv, hsizes⟩ hstep hcall
    obtain ⟨_, hstep', hinv', hsizes'⟩ := r.step_inv hinv hcall
    cases hstep.symm.trans hstep'
    exact ⟨hinv', hsizes.trans hsizes'⟩
  · rintro r ⟨hinv, hsizes⟩
    refine exclusive_of_inv hinv ?_ ?_
    · rw [hsizes.stride, hsizes.2.1]
      exact h.dvd_stride hreq
    · rw [hsizes.2.1]
      exact h.dvd_page hreq hpage

/-! Memory whose first free page is odd. -/

def oddPmm : Pmm := pmmInit (oneRegion 0x100000 0x9000) 0x100000 0x102000 fun _ => 0

theorem sane_oddPmm : Sane 0x100000 0x102000 (oneRegion 0x100000 0x9000).totalPages oddPmm :=
  sane_pmmInit (by decide) (by decide) (by decide)

theorem oddPmm_allocPages : (pmmAllocPages oddPmm 4).1 = 0x103000 := by
  unfold oddPmm
  rw [pmmInit_oneRegion smallVm_totalPages]
  decide +kernel

/-- The first slab of a cache whose slabs have four pages. -/
theorem pickSlab_oddPmm {slab : Nat → SlabDesc} (hheads : c.head = fun _ => 0)
    (hpages : c.slabPages = 4) :
    ∃ p, pickSlab ⟨oddPmm, slab, c⟩ 1 false =
        (1, ⟨p, Function.update slab 1 (c.newDesc 0x103000), c⟩) ∧
      p.mem = buildFreelist (pmmAllocPages oddPmm 4).2.mem 0x103000 c.stride c.objsPerSlab := by
  have huse : c.partialSlabs = 0 := congrFun hheads .inUse
  have hempty : c.emptySlabs = 0 := congrFun hheads .empty
  have hbase := oddPmm_allocPages
  have hnew : ∃ p, slabNew ⟨oddPmm, slab, c⟩ 1 false =
        (1, ⟨p, Function.update slab 1 (c.newDesc 0x103000), c⟩) ∧
      p.mem = buildFreelist (pmmAllocPages oddPmm 4).2.mem 0x103000 c.stride c.objsPerSlab := by
    unfold slabNew
    rw [if_neg Nat.one_ne_zero, if_neg Bool.false_ne_true]
    dsimp only
    rw [hpages, hbase]
    exact ⟨_, if_neg (by decide), rfl⟩
  obtain ⟨p, hnew, hmem⟩ := hnew
  refine ⟨p, ?_, hmem⟩
  unfold pickSlab
  rw [if_neg (not_not.mpr huse), if_neg (not_not.mpr hempty), hnew]

/-- The first object of a cache whose slabs have four pages. -/
theorem slabAlloc_oddPmm {slab : Nat → SlabDesc} (hheads : c.head = fun _ => 0)
    (hpages : c.slabPages = 4) :
    ∃ st, slabAlloc ⟨oddPmm, slab, c⟩ 1 false = some (0x103000, st) := by
  obtain ⟨p, hpick, -⟩ := @pickSlab_oddPmm c slab hheads hpages
  have hfirst : (Function.update slab 1 (c.newDesc 0x103000) 1).freelist = 0x103000 := by
    rw [Function.update_self]
    rfl
  have halloc := slabAlloc_eq hpick Nat.one_ne_zero (ne_of_eq_of_ne hfirst (by decide))
  dsimp only at halloc
  rw [hfirst] at halloc
  exact ⟨_, halloc⟩

theorem not_exclusive_of_align (h : c.Made size align) (hreq : SlabRequest size align)
    (hmany : 2 ≤ c.objsPerSlab) (hpage : ¬ c.objAlign ≤ pageSize) : ¬ SlabsExclusive c := by
  intro hall
  obtain ⟨halign, hpages⟩ := h.two_pages hreq hmany hpage
  let slab : Nat → SlabDesc := fun _ => ⟨0, 0, 0, 0, 0⟩
  obtain ⟨st, halloc⟩ := @slabAlloc_oddPmm c slab h.heads hpages
  have hsteps := hall 0x100000 0x102000 _ oddPmm slab [.alloc 1 false] sane_oddPmm
    fun r _ => ⟨List.not_mem_nil, trivial⟩
  have hinv := @slabInv_new c _ _ _ oddPmm slab sane_oddPmm (h.fits hreq hmany) h.heads
  obtain ⟨r, hstep, -, hsizes⟩ := @SlabRun.step_inv _ _ _ ⟨⟨oddPmm, slab, c⟩, [], []⟩
    (.alloc 1 false) hinv List.not_mem_nil
  have hlive : r.live = [0x103000] := by
    have hstep' := @SlabRun.step_alloc _ _ ⟨⟨oddPmm, slab, c⟩, [], []⟩ _ _ halloc
    cases hstep.symm.trans hstep'
    rfl
  have hmod := (hsteps.2 r hstep).first.aligned 0x103000 (by simp [hlive])
  rw [hsizes.2.1, halign] at hmod
  exact absurd hmod (by decide)

theorem slabsExclusive_iff (hreq : SlabRequest size align)
    (hc : slabCacheCreate cacheCount fails size align = .cache c) (hmany : 2 ≤ c.objsPerSlab) :
    SlabsExclusive c ↔ c.objAlign ≤ pageSize := by
  have hmade := slabCacheCreate_made hc
  constructor
  · intro hall
    by_contra hpage
    exact not_exclusive_of_align hmade hreq hmany hpage hall
  · exact exclusive_of_align hmade hreq hmany

/-- The cache that `slab_init` makes for `vma_t`. -/
def vmaCache : SlabCache where
  objSize := 64
  objAlign := 8
  objsPerSlab := 64
  slabPages := 1
  partialSlabs := 0
  fullSlabs := 0
  emptySlabs := 0
  allocCount := 0
  freeCount := 0

theorem slabsExclusive_iff_vmaCache : slabCacheCreate 1 false 64 8 = .cache vmaCache ∧
    (SlabsExclusive vmaCache ↔ 8 ≤ pageSize) := by
  have hc : slabCacheCreate 1 false 64 8 = .cache vmaCache := rfl
  exact ⟨hc, slabsExclusive_iff ⟨by decide, Or.inr ⟨3, by decide, rfl⟩⟩ hc (by decide)⟩

/-- Objects of 8192 bytes, aligned to their size. -/
def wideCache : SlabCache where
  objSize := 8192
  objAlign := 8192
  objsPerSlab := 2
  slabPages := 4
  partialSlabs := 0
  fullSlabs := 0
  emptySlabs := 0
  allocCount := 0
  freeCount := 0

theorem not_slabsExclusive_wideCache : slabCacheCreate 0 false 8192 8192 = .cache wideCache ∧
    2 ≤ wideCache.objsPerSlab ∧ ¬ SlabsExclusive wideCache := by
  have hc : slabCacheCreate 0 false 8192 8192 = .cache wideCache := rfl
  exact ⟨hc, by decide, not_exclusive_of_align (slabCacheCreate_made hc)
    ⟨by decide, Or.inr ⟨13, by decide, rfl⟩⟩ (by decide) (by decide)⟩

end PinguinOS.Mm
