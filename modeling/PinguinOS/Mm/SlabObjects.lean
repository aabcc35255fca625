import PinguinOS.Lib.Linked
import PinguinOS.Mm.PmmRun
import PinguinOS.Mm.Slab

/-! The slots of the slabs: free ones are linked, live ones are handed out, none is both. -/
namespace PinguinOS.Mm

open Bytes Linked

/-- What `slab_cache_create` makes of a size and an alignment that leave room for two objects. -/
structure SlabCache.Fits (c : SlabCache) : Prop where
  objSize : 4 ≤ c.objSize
  stride : c.objSize ≤ c.stride
  many : 2 ≤ c.objsPerSlab
  inside : c.objsPerSlab * c.stride ≤ c.slabPages * pageSize
  pages : c.slabPages ≤ 4

/-- The sizes are the same. -/
def SameSizes (c c' : SlabCache) : Prop :=
  c'.objSize = c.objSize ∧ c'.objAlign = c.objAlign ∧ c'.objsPerSlab = c.objsPerSlab ∧
    c'.slabPages = c.slabPages

/-- The object `o` is a slot of a slab at `base`. -/
def SlabCache.IsSlot (c : SlabCache) (base o : Nat) : Prop :=
  ∃ k < c.objsPerSlab, o = base + k * c.stride

/-- The pages and the freelist of one slab. -/
structure SlabOk (kernStart kernEnd totalPages : Nat) (st : SlabState) (live : List Nat)
    (d : SlabDesc) : Prop where
  total : d.total = st.cache.objsPerSlab
  aligned : d.base % pageSize = 0
  pos : 0 < d.base
  inRange : d.base / pageSize + st.cache.slabPages ≤ totalPages
  used : ∀ j, d.base / pageSize ≤ j → j < d.base / pageSize + st.cache.slabPages →
    bitmapTest st.pmm j = true
  outside : ∀ j, d.base / pageSize ≤ j → j < d.base / pageSize + st.cache.slabPages →
    ¬ InKernel kernStart kernEnd totalPages j
  free : ∃ fl, Chain 0 (readPtr st.pmm.mem) d.freelist fl ∧ fl.length = d.freeCount ∧
    ∀ o ∈ fl, st.cache.IsSlot d.base o ∧ o ∉ live

/-- The slabs of a cache and the objects that are live. -/
structure SlabsOk (kernStart kernEnd totalPages : Nat) (st : SlabState) (slabs live : List Nat) :
    Prop where
  sane : Sane kernStart kernEnd totalPages st.pmm
  fits : st.cache.Fits
  each : ∀ s ∈ slabs, SlabOk kernStart kernEnd totalPages st live (st.slab s)
  apart : ∀ s ∈ slabs, ∀ t ∈ slabs, s ≠ t →
    (st.slab s).base + st.cache.slabPages * pageSize ≤ (st.slab t).base ∨
      (st.slab t).base + st.cache.slabPages * pageSize ≤ (st.slab s).base
  liveIn : ∀ o ∈ live, ∃ s ∈ slabs, st.cache.IsSlot (st.slab s).base o
  liveNodup : live.Nodup

variable {kernStart kernEnd totalPages base o o' s t : Nat} {st st' : SlabState}
  {slabs live fl : List Nat} {c c' : SlabCache} {d : SlabDesc}

theorem SameSizes.stride (h : SameSizes c c') : c'.stride = c.stride := by
  unfold SlabCache.stride
  rw [h.1, h.2.1]

theorem SameSizes.isSlot (h : SameSizes c c') : c'.IsSlot base o ↔ c.IsSlot base o := by
  unfold SlabCache.IsSlot
  rw [h.stride, h.2.2.1]

theorem SameSizes.fits (h : SameSizes c c') (hc : c.Fits) : c'.Fits := by
  refine ⟨?_, ?_, ?_, ?_, ?_⟩
  · exact h.1 ▸ hc.objSize
  · rw [h.1, h.stride]
    exact hc.stride
  · exact h.2.2.1 ▸ hc.many
  · rw [h.2.2.1, h.stride, h.2.2.2]
    exact hc.inside
  · exact h.2.2.2 ▸ hc.pages

theorem sameSizes_setHead {li : SlabList} : SameSizes c (c.setHead li s) := by
  cases li <;> exact ⟨rfl, rfl, rfl, rfl⟩

/-- Two slots of one slab do not overlap. -/
theorem isSlot_apart (h : c.IsSlot base o) (h' : c.IsSlot base o') (hne : o ≠ o') :
    o + c.stride ≤ o' ∨ o' + c.stride ≤ o := by
  obtain ⟨k, -, rfl⟩ := h
  obtain ⟨k', -, rfl⟩ := h'
  rcases Nat.lt_trichotomy k k' with hlt | rfl | hlt
  · left
    have hmul := Nat.mul_le_mul_right c.stride (show k + 1 ≤ k' from hlt)
    rw [Nat.succ_mul] at hmul
    omega
  · exact absurd rfl hne
  · right
    have hmul := Nat.mul_le_mul_right c.stride (show k' + 1 ≤ k from hlt)
    rw [Nat.succ_mul] at hmul
    omega

/-- A slot lies inside the pages of its slab. -/
theorem SlabCache.Fits.slot (hc : c.Fits) (h : c.IsSlot base o) :
    base ≤ o ∧ o + c.stride ≤ base + c.slabPages * pageSize := by
  obtain ⟨k, hk, rfl⟩ := h
  have hinside := hc.inside
  have hmul := Nat.mul_le_mul_right c.stride (show k + 1 ≤ c.objsPerSlab from hk)
  rw [Nat.succ_mul] at hmul
  omega

theorem SlabCache.Fits.stride_pos (hc : c.Fits) : 4 ≤ c.stride :=
  Nat.le_trans hc.objSize hc.stride

theorem SlabCache.Fits.objs_lt (hc : c.Fits) : c.objsPerSlab < 2 ^ 32 := by
  have hinside := hc.inside
  have hpages := hc.pages
  have hmul := Nat.mul_le_mul_left c.objsPerSlab hc.stride_pos
  simp only [pageSize] at hinside
  omega

/-- Slots of any two slabs are the same or do not overlap. -/
theorem SlabsOk.slots_apart (h : SlabsOk kernStart kernEnd totalPages st slabs live)
    (hs : s ∈ slabs) (ht : t ∈ slabs) (ho : st.cache.IsSlot (st.slab s).base o)
    (ho' : st.cache.IsSlot (st.slab t).base o') (hne : o ≠ o') :
    o + st.cache.stride ≤ o' ∨ o' + st.cache.stride ≤ o := by
  by_cases hst : s = t
  · subst hst
    exact isSlot_apart ho ho' hne
  · have hin := h.fits.slot ho
    have hin' := h.fits.slot ho'
    have hap := h.apart s hs t ht hst
    omega

/-- A slot belongs to one slab. -/
theorem SlabsOk.slot_unique (h : SlabsOk kernStart kernEnd totalPages st slabs live)
    (hs : s ∈ slabs) (ht : t ∈ slabs) (ho : st.cache.IsSlot (st.slab s).base o)
    (ho' : st.cache.IsSlot (st.slab t).base o) : s = t := by
  by_contra hst
  have hin := h.fits.slot ho
  have hin' := h.fits.slot ho'
  have hap := h.apart s hs t ht hst
  have hpos := h.fits.stride_pos
  omega

/-- No more slots than objects per slab. -/
theorem slots_length (hnodup : fl.Nodup) (hslot : ∀ o ∈ fl, c.IsSlot base o) :
    fl.length ≤ c.objsPerSlab := by
  have hsub : fl ⊆ (List.range c.objsPerSlab).map fun k => base + k * c.stride := by
    intro o ho
    obtain ⟨k, hk, rfl⟩ := hslot o ho
    exact List.mem_map.mpr ⟨k, List.mem_range.mpr hk, rfl⟩
  have hle := (hnodup.subperm hsub).length_le
  rwa [List.length_map, List.length_range] at hle

theorem SlabOk.freeCount_le (h : SlabOk kernStart kernEnd totalPages st live d) :
    d.freeCount ≤ st.cache.objsPerSlab := by
  obtain ⟨fl, hchain, hlength, hslots⟩ := h.free
  exact hlength ▸ slots_length hchain.nodup fun o ho => (hslots o ho).1

/-- A live object leaves room on the freelist of its slab. -/
theorem SlabOk.freeCount_lt (h : SlabOk kernStart kernEnd totalPages st live d)
    (ho : st.cache.IsSlot d.base o) (hlive : o ∈ live) : d.freeCount < st.cache.objsPerSlab := by
  obtain ⟨fl, hchain, hlength, hslots⟩ := h.free
  have hout : o ∉ fl := fun hmem => (hslots o hmem).2 hlive
  have hall : ∀ x ∈ o :: fl, st.cache.IsSlot d.base x := by
    intro x hx
    rcases List.mem_cons.mp hx with rfl | hx
    · exact ho
    · exact (hslots x hx).1
  have hle := slots_length (List.nodup_cons.mpr ⟨hout, hchain.nodup⟩) hall
  rw [List.length_cons, hlength] at hle
  omega

/-! Changes of the memory, of the lists, of one freelist. -/

/-- The memory changes outside the free slots, and no page of a slab is given back. -/
theorem SlabsOk.elsewhere (h : SlabsOk kernStart kernEnd totalPages st slabs live) {p : Pmm}
    (hsane : Sane kernStart kernEnd totalPages p)
    (hused : ∀ s ∈ slabs, ∀ j, (st.slab s).base / pageSize ≤ j →
      j < (st.slab s).base / pageSize + st.cache.slabPages → bitmapTest p j = true)
    (hfree : ∀ s ∈ slabs, ∀ o, st.cache.IsSlot (st.slab s).base o → o ∉ live →
      readPtr p.mem o = readPtr st.pmm.mem o) :
    SlabsOk kernStart kernEnd totalPages { st with pmm := p } slabs live := by
  refine ⟨hsane, h.fits, fun s hs => ?_, h.apart, h.liveIn, h.liveNodup⟩
  obtain ⟨htotal, haligned, hpos, hrange, hu, hout, fl, hchain, hlength, hslots⟩ := h.each s hs
  exact ⟨htotal, haligned, hpos, hrange, hused s hs, hout, fl,
    hchain.congr fun o ho => hfree s hs o (hslots o ho).1 (hslots o ho).2, hlength, hslots⟩

/-- Bodies of descriptors, without the link. -/
def SameBody (d d' : SlabDesc) : Prop :=
  d'.base = d.base ∧ d'.total = d.total ∧ d'.freeCount = d.freeCount ∧ d'.freelist = d.freelist

/-- The lists may change. -/
theorem SlabsOk.relist (h : SlabsOk kernStart kernEnd totalPages st slabs live)
    (hpmm : st'.pmm = st.pmm) (hsizes : SameSizes st.cache st'.cache)
    (hbody : ∀ s, SameBody (st.slab s) (st'.slab s)) :
    SlabsOk kernStart kernEnd totalPages st' slabs live := by
  have hbase : ∀ s, (st'.slab s).base = (st.slab s).base := fun s => (hbody s).1
  have hpages := hsizes.2.2.2
  refine ⟨hpmm ▸ h.sane, hsizes.fits h.fits, fun s hs => ?_, ?_, ?_, h.liveNodup⟩
  · obtain ⟨htotal, haligned, hpos, hrange, hu, hout, fl, hchain, hlength, hslots⟩ := h.each s hs
    obtain ⟨hb, ht, hcount, hlist⟩ := hbody s
    refine ⟨?_, hb ▸ haligned, hb ▸ hpos, ?_, ?_, ?_, fl, ?_, ?_, ?_⟩
    · rw [ht, htotal, hsizes.2.2.1]
    · rw [hb, hpages]
      exact hrange
    · rw [hb, hpages, hpmm]
      exact hu
    · rw [hb, hpages]
      exact hout
    · rw [hpmm, hlist]
      exact hchain
    · rw [hcount, hlength]
    · intro o ho
      rw [hb, hsizes.isSlot]
      exact hslots o ho
  · intro s hs t ht hst
    rw [hbase, hbase, hpages]
    exact h.apart s hs t ht hst
  · intro o ho
    obtain ⟨s, hs, hslot⟩ := h.liveIn o ho
    refine ⟨s, hs, ?_⟩
    rwa [hbase, hsizes.isSlot]

theorem sameBody_update {p x : Nat} : SameBody (st.slab s)
    (Function.update st.slab p { st.slab p with next := x } s) := by
  by_cases hs : s = p
  · subst hs
    rw [Function.update_self]
    exact ⟨rfl, rfl, rfl, rfl⟩
  · rw [Function.update_of_ne hs]
    exact ⟨rfl, rfl, rfl, rfl⟩

theorem SlabsOk.dropHead {li : SlabList} (h : SlabsOk kernStart kernEnd totalPages st slabs live) :
    SlabsOk kernStart kernEnd totalPages (st.dropHead li s) slabs live :=
  h.relist rfl sameSizes_setHead fun _ => ⟨rfl, rfl, rfl, rfl⟩

theorem SlabsOk.push {li : SlabList} (h : SlabsOk kernStart kernEnd totalPages st slabs live) :
    SlabsOk kernStart kernEnd totalPages (st.push li s) slabs live :=
  h.relist rfl sameSizes_setHead fun _ => sameBody_update

theorem SlabsOk.unlink {li : SlabList} {prev : Nat}
    (h : SlabsOk kernStart kernEnd totalPages st slabs live) :
    SlabsOk kernStart kernEnd totalPages (st.unlink li prev s) slabs live := by
  unfold SlabState.unlink
  split_ifs
  · exact h.relist rfl ⟨rfl, rfl, rfl, rfl⟩ fun _ => sameBody_update
  · exact h.dropHead

/-- One slab gets another freelist; objects become live or die in that slab only. -/
theorem SlabsOk.relink {live' : List Nat} (h : SlabsOk kernStart kernEnd totalPages st slabs live)
    (hs : s ∈ slabs) (hsane : Sane kernStart kernEnd totalPages st'.pmm)
    (hused : ∀ j, j < totalPages → bitmapTest st.pmm j = true → bitmapTest st'.pmm j = true)
    (hsizes : SameSizes st.cache st'.cache) (hbase : (st'.slab s).base = (st.slab s).base)
    (htotal : (st'.slab s).total = (st.slab s).total)
    (hothers : ∀ t, t ≠ s → SameBody (st.slab t) (st'.slab t))
    (hmem : ∀ t ∈ slabs, t ≠ s → ∀ o, st.cache.IsSlot (st.slab t).base o → o ∉ live →
      readPtr st'.pmm.mem o = readPtr st.pmm.mem o)
    (hfree : ∃ fl, Chain 0 (readPtr st'.pmm.mem) (st'.slab s).freelist fl ∧
      fl.length = (st'.slab s).freeCount ∧
      ∀ o ∈ fl, st.cache.IsSlot (st.slab s).base o ∧ o ∉ live')
    (hlive : ∀ o ∈ live', o ∈ live ∨ st.cache.IsSlot (st.slab s).base o) (hnodup : live'.Nodup) :
    SlabsOk kernStart kernEnd totalPages st' slabs live' := by
  have hbases : ∀ t, (st'.slab t).base = (st.slab t).base := by
    intro t
    by_cases hts : t = s
    · exact hts ▸ hbase
    · exact (hothers t hts).1
  have hpages := hsizes.2.2.2
  refine ⟨hsane, hsizes.fits h.fits, fun t ht => ?_, ?_, ?_, hnodup⟩
  · obtain ⟨htot, haligned, hpos, hrange, hu, hout, fl, hchain, hlength, hslots⟩ := h.each t ht
    have htot' : (st'.slab t).total = st'.cache.objsPerSlab := by
      by_cases hts : t = s
      · rw [hts, htotal, ← hts, htot, hsizes.2.2.1]
      · rw [(hothers t hts).2.1, htot, hsizes.2.2.1]
    refine ⟨htot', (hbases t).symm ▸ haligned, (hbases t).symm ▸ hpos, ?_, ?_, ?_, ?_⟩
    · rw [hbases, hpages]
      exact hrange
    · rw [hbases, hpages]
      intro j hj hj'
      exact hused j (by omega) (hu j hj hj')
    · rw [hbases, hpages]
      exact hout
    · by_cases hts : t = s
      · subst hts
        obtain ⟨fl', hchain', hlength', hslots'⟩ := hfree
        refine ⟨fl', hchain', hlength', fun o ho => ?_⟩
        rw [hbases, hsizes.isSlot]
        exact hslots' o ho
      · obtain ⟨hb, -, hcount, hlist⟩ := hothers t hts
        refine ⟨fl, ?_, by rw [hcount, hlength], fun o ho => ?_⟩
        · rw [hlist]
          exact hchain.congr fun o ho => hmem t ht hts o (hslots o ho).1 (hslots o ho).2
        · rw [hb, hsizes.isSlot]
          refine ⟨(hslots o ho).1, fun hmem' => ?_⟩
          rcases hlive o hmem' with hold | hslot
          · exact (hslots o ho).2 hold
          · exact hts (h.slot_unique ht hs (hslots o ho).1 hslot)
  · intro t ht u hu htu
    rw [hbases, hbases, hpages]
    exact h.apart t ht u hu htu
  · intro o ho
    rcases hlive o ho with hold | hslot
    · obtain ⟨t, ht, hslot⟩ := h.liveIn o hold
      refine ⟨t, ht, ?_⟩
      rwa [hbases, hsizes.isSlot]
    · refine ⟨s, hs, ?_⟩
      rwa [hbases, hsizes.isSlot]

theorem takeObj_slab : (st.takeObj s).slab s = { st.slab s with
    freelist := readPtr st.pmm.mem (st.slab s).freelist
    freeCount := sub32 (st.slab s).freeCount 1 } := Function.update_self _ _ _

theorem giveObj_slab : (st.giveObj s o).slab s = { st.slab s with
    freelist := o
    freeCount := u32 ((st.slab s).freeCount + 1) } := Function.update_self _ _ _

theorem sameBody_of_ne {d : SlabDesc} (hts : t ≠ s) :
    SameBody (st.slab t) (Function.update st.slab s d t) := by
  rw [Function.update_of_ne hts]
  exact ⟨rfl, rfl, rfl, rfl⟩

/-- The first free object becomes live. -/
theorem SlabsOk.takeObj (h : SlabsOk kernStart kernEnd totalPages st slabs live) (hs : s ∈ slabs)
    (hcount : (st.slab s).freeCount ≠ 0) :
    (st.slab s).freelist ≠ 0 ∧ st.cache.IsSlot (st.slab s).base (st.slab s).freelist ∧
      SlabsOk kernStart kernEnd totalPages (st.takeObj s) slabs ((st.slab s).freelist :: live) := by
  have hle := (h.each s hs).freeCount_le
  have hlt := h.fits.objs_lt
  obtain ⟨fl, hchain, hlength, hslots⟩ := (h.each s hs).free
  cases fl with
  | nil => exact absurd hlength.symm hcount
  | cons o rest =>
    have hnodup := hchain.nodup
    obtain ⟨hfirst, hnull, hrest⟩ := hchain
    obtain ⟨hslot, hdead⟩ := hslots o List.mem_cons_self
    have hcount' : sub32 (st.slab s).freeCount 1 = rest.length := by
      rw [← hlength, List.length_cons] at hle ⊢
      rw [sub32_of_le (by omega) (by omega)]
      omega
    rw [hfirst]
    refine ⟨hnull, hslot, h.relink hs h.sane (fun _ _ hset => hset) ⟨rfl, rfl, rfl, rfl⟩ ?_ ?_
      (fun t hts => sameBody_of_ne hts) (fun _ _ _ _ _ _ => rfl) ⟨rest, ?_, ?_, ?_⟩ ?_ ?_⟩
    · rw [takeObj_slab]
    · rw [takeObj_slab]
    · rw [takeObj_slab, hfirst]
      exact hrest
    · rw [takeObj_slab, hcount']
    · intro x hx
      obtain ⟨hxslot, hxdead⟩ := hslots x (List.mem_cons_of_mem o hx)
      refine ⟨hxslot, fun hmem => ?_⟩
      rcases List.mem_cons.mp hmem with rfl | hmem
      · exact (List.nodup_cons.mp hnodup).1 hx
      · exact hxdead hmem
    · intro x hx
      rcases List.mem_cons.mp hx with rfl | hx
      · exact Or.inr hslot
      · exact Or.inl hx
    · exact List.nodup_cons.mpr ⟨hdead, h.liveNodup⟩

/-- No word of the kernel or of the bitmap meets a slot. -/
theorem SlabsOk.slot_word {n w : Nat} (h : SlabsOk kernStart kernEnd totalPages st slabs live)
    (hs : s ∈ slabs) (hslot : st.cache.IsSlot (st.slab s).base o) (hn : n ≤ st.cache.stride)
    (hin : InKernel kernStart kernEnd totalPages (w / 1024)) : 4 * w + 4 ≤ o ∨ o + n ≤ 4 * w := by
  have hbounds := h.fits.slot hslot
  have haligned := (h.each s hs).aligned
  by_contra hmeet
  refine (h.each s hs).outside (w / 1024) ?_ ?_ hin
  · simp only [pageSize] at haligned ⊢
    omega
  · simp only [pageSize] at haligned hbounds ⊢
    omega

theorem SlabsOk.slot_lt (h : SlabsOk kernStart kernEnd totalPages st slabs live) (hs : s ∈ slabs)
    (hslot : st.cache.IsSlot (st.slab s).base o) : o < 2 ^ 30 := by
  have hbounds := h.fits.slot hslot
  have hpos := h.fits.stride_pos
  have hrange := (h.each s hs).inRange
  have haligned := (h.each s hs).aligned
  have hlimit := h.sane.limit
  simp only [pageSize] at hbounds hrange haligned
  omega

/-- `memset` of a live object. -/
theorem SlabsOk.zeroObj (h : SlabsOk kernStart kernEnd totalPages st slabs live) (ho : o ∈ live) :
    SlabsOk kernStart kernEnd totalPages
      { st with pmm := { st.pmm with mem := zeroBytes st.pmm.mem o st.cache.objSize } } slabs live := by
  obtain ⟨s, hs, hslot⟩ := h.liveIn o ho
  have hsize := h.fits.stride
  have hptr := h.fits.stride_pos
  obtain ⟨hsane, htest⟩ := h.sane.withMem (m := zeroBytes st.pmm.mem o st.cache.objSize)
    fun w hin => zeroBytes_word (h.slot_word hs hslot hsize hin)
  refine h.elsewhere hsane (fun t ht j hj hj' => ?_) fun t ht x hx hdead => ?_
  · have hrange := (h.each t ht).inRange
    exact (htest j (by omega)).trans ((h.each t ht).used j hj hj')
  · have hap := h.slots_apart hs ht hslot hx (ne_of_mem_of_not_mem ho hdead)
    exact readPtr_zeroBytes_apart (by omega)

/-- A live object dies: it becomes the first free one of its slab. -/
theorem SlabsOk.giveObj (h : SlabsOk kernStart kernEnd totalPages st slabs live) (hs : s ∈ slabs)
    (ho : o ∈ live) (hnull : o ≠ 0) (hslot : st.cache.IsSlot (st.slab s).base o) :
    SlabsOk kernStart kernEnd totalPages (st.giveObj s o) slabs (live.erase o) := by
  have hptr := h.fits.stride_pos
  have hobjs := h.fits.objs_lt
  have hlt := (h.each s hs).freeCount_lt hslot ho
  obtain ⟨fl, hchain, hlength, hslots⟩ := (h.each s hs).free
  obtain ⟨hsane, htest⟩ := h.sane.withMem
    (m := writePtr st.pmm.mem o (st.slab s).freelist) fun w hin =>
      writePtr_word (h.slot_word hs hslot hptr hin)
  have hfirst : (st.slab s).freelist < 2 ^ 32 := by
    cases fl with
    | nil =>
      have hend : (st.slab s).freelist = 0 := hchain
      omega
    | cons x rest =>
      have hx := h.slot_lt hs (hslots x List.mem_cons_self).1
      have hhead : (st.slab s).freelist = x := hchain.1
      omega
  have hout : o ∉ fl := fun hmem => (hslots o hmem).2 ho
  have hsame : ∀ t ∈ slabs, ∀ x, st.cache.IsSlot (st.slab t).base x → x ≠ o →
      readPtr (writePtr st.pmm.mem o (st.slab s).freelist) x = readPtr st.pmm.mem x := by
    intro t ht x hx hne
    have hap := h.slots_apart hs ht hslot hx hne.symm
    exact readPtr_writePtr_apart (by omega)
  refine h.relink hs hsane (fun j hj hset => (htest j hj).trans hset) ⟨rfl, rfl, rfl, rfl⟩ ?_ ?_
    (fun t hts => sameBody_of_ne hts) ?_ ⟨o :: fl, ?_, ?_, ?_⟩ ?_ (h.liveNodup.erase o)
  · rw [giveObj_slab]
  · rw [giveObj_slab]
  · intro t ht _ x hx hdead
    exact hsame t ht x hx (ne_of_mem_of_not_mem ho hdead).symm
  · rw [giveObj_slab]
    refine ⟨rfl, hnull, ?_⟩
    change Chain 0 _ (readPtr (writePtr st.pmm.mem o (st.slab s).freelist) o) fl
    rw [readPtr_writePtr hfirst]
    exact hchain.congr fun x hx => hsame s hs x (hslots x hx).1 (ne_of_mem_of_not_mem hx hout)
  · rw [giveObj_slab, List.length_cons, hlength, u32_of_lt (by omega)]
  · intro x hx
    rcases List.mem_cons.mp hx with rfl | hx
    · exact ⟨hslot, fun hmem => (h.liveNodup.mem_erase_iff.mp hmem).1 rfl⟩
    · exact ⟨(hslots x hx).1, fun hmem => (hslots x hx).2 (List.mem_of_mem_erase hmem)⟩
  · intro x hx
    exact Or.inl (List.mem_of_mem_erase hx)

/-! `slab_new` links all slots of its pages. -/

section

variable {mem : Mem} {p stride objs i n k x w : Nat}

theorem slot_le (hk : k < n) : p + k * stride + stride ≤ p + n * stride := by
  have hmul := Nat.mul_le_mul_right stride (show k + 1 ≤ n from hk)
  rw [Nat.succ_mul] at hmul
  omega

theorem u32_slot (hlt : p + n * stride < 2 ^ 32) (hk : k ≤ n) :
    u32 (p + u32 (k * stride)) = p + k * stride := by
  have hmul := Nat.mul_le_mul_right stride hk
  rw [@u32_of_lt (k * stride) (by omega), u32_of_lt (by omega)]

/-- Only the slots that are linked are written. -/
theorem linkSlots_frame {f : Mem → α} (hlt : p + (i + n) * stride < 2 ^ 32)
    (hframe : ∀ (m : Mem) k y, i ≤ k → k < i + n → f (writePtr m (p + k * stride) y) = f m) :
    f (linkSlots mem p stride i n) = f mem := by
  induction n generalizing mem i with
  | zero => rfl
  | succ n ih =>
    have hsum : i + 1 + n = i + (n + 1) := by omega
    unfold linkSlots
    rw [u32_slot hlt (show i ≤ i + (n + 1) by omega),
      ih (hsum.symm ▸ hlt) fun m k y hk hkn => hframe m k y (by omega) (by omega)]
    exact hframe mem i _ (Nat.le_refl i) (by omega)

theorem linkSlots_slot (hstride : 4 ≤ stride) (hlt : p + (i + n) * stride < 2 ^ 32) (hik : i ≤ k)
    (hkn : k < i + n) :
    readPtr (linkSlots mem p stride i n) (p + k * stride) = p + (k + 1) * stride := by
  induction n generalizing mem i with
  | zero => omega
  | succ n ih =>
    have hsum : i + 1 + n = i + (n + 1) := by omega
    have hlt' : p + (i + 1 + n) * stride < 2 ^ 32 := hsum.symm ▸ hlt
    unfold linkSlots
    by_cases hk : k = i
    · subst hk
      have hnext := @u32_slot p stride (k + (n + 1)) (k + 1) hlt (by omega)
      have hval : p + (k + 1) * stride < 2 ^ 32 := by
        have hmul := Nat.mul_le_mul_right stride (show k + 1 ≤ k + (n + 1) by omega)
        omega
      rw [linkSlots_frame (f := fun m => readPtr m (p + k * stride)) hlt', u32_slot hlt (by omega),
        hnext, readPtr_writePtr hval]
      intro m j y hj hjn
      have hle := @slot_le p stride j k (by omega)
      exact readPtr_writePtr_apart (by omega)
    · exact ih hlt' (by omega) (by omega)

/-- The freelist that `slab_new` builds: every slot points to the next one, the last to NULL. -/
theorem buildFreelist_slot (hstride : 4 ≤ stride) (hlt : p + objs * stride < 2 ^ 32)
    (hobjs : objs < 2 ^ 32) (hk : k < objs) :
    readPtr (buildFreelist mem p stride objs) (p + k * stride) =
      if k + 1 < objs then p + (k + 1) * stride else 0 := by
  have hcount : sub32 objs 1 = objs - 1 := sub32_of_le (by omega) hobjs
  unfold buildFreelist
  rw [hcount, u32_slot hlt (by omega)]
  by_cases hlast : k + 1 < objs
  · have hle := @slot_le p stride (objs - 1) k (by omega)
    have hlt' : p + (0 + (objs - 1)) * stride < 2 ^ 32 := by
      have hmul := Nat.mul_le_mul_right stride (show 0 + (objs - 1) ≤ objs by omega)
      omega
    rw [if_pos hlast, readPtr_writePtr_apart (by omega)]
    exact linkSlots_slot hstride hlt' (Nat.zero_le k) (by omega)
  · obtain rfl : k = objs - 1 := by omega
    rw [if_neg hlast, readPtr_writePtr (by decide)]

theorem buildFreelist_frame {f : Mem → α} (hlt : p + objs * stride < 2 ^ 32) (hpos : 0 < objs)
    (hobjs : objs < 2 ^ 32)
    (hframe : ∀ (m : Mem) k y, k < objs → f (writePtr m (p + k * stride) y) = f m) :
    f (buildFreelist mem p stride objs) = f mem := by
  have hcount : sub32 objs 1 = objs - 1 := sub32_of_le (by omega) hobjs
  have hlt' : p + (0 + (objs - 1)) * stride < 2 ^ 32 := by
    have hmul := Nat.mul_le_mul_right stride (show 0 + (objs - 1) ≤ objs by omega)
    omega
  unfold buildFreelist
  rw [hcount, u32_slot hlt (by omega), hframe _ (objs - 1) 0 (by omega)]
  exact linkSlots_frame hlt' fun m k y _ hk => hframe m k y (by omega)

theorem chain_slots {next : Nat → Nat} (hp : 0 < p)
    (hnext : ∀ k < objs, next (p + k * stride) = if k + 1 < objs then p + (k + 1) * stride else 0)
    (n k : Nat) (hk : k + n = objs) :
    Chain 0 next (if k < objs then p + k * stride else 0)
      ((List.range' k n).map fun k => p + k * stride) := by
  induction n generalizing k with
  | zero => exact if_neg (by omega)
  | succ n ih =>
    rw [List.range'_succ, List.map_cons, if_pos (show k < objs by omega)]
    refine ⟨rfl, by omega, ?_⟩
    rw [hnext k (by omega)]
    exact ih (k + 1) (by omega)

end

/-- A slab joins the others. -/
theorem SlabsOk.enter {desc : Nat} (h : SlabsOk kernStart kernEnd totalPages st slabs live)
    (hdesc : desc ∉ slabs) (hd : SlabOk kernStart kernEnd totalPages st live d)
    (hapart : ∀ t ∈ slabs, d.base + st.cache.slabPages * pageSize ≤ (st.slab t).base ∨
      (st.slab t).base + st.cache.slabPages * pageSize ≤ d.base) :
    SlabsOk kernStart kernEnd totalPages { st with slab := Function.update st.slab desc d }
      (desc :: slabs) live := by
  have hold : ∀ t ∈ slabs, Function.update st.slab desc d t = st.slab t := fun t ht =>
    Function.update_of_ne (ne_of_mem_of_not_mem ht hdesc) _ _
  have hnew : Function.update st.slab desc d desc = d := Function.update_self _ _ _
  refine ⟨h.sane, h.fits, fun t ht => ?_, fun t ht u hu htu => ?_, fun o ho => ?_, h.liveNodup⟩
  · dsimp only
    rcases List.mem_cons.mp ht with rfl | hmem
    · rw [hnew]
      exact ⟨hd.total, hd.aligned, hd.pos, hd.inRange, hd.used, hd.outside, hd.free⟩
    · rw [hold t hmem]
      have hk := h.each t hmem
      exact ⟨hk.total, hk.aligned, hk.pos, hk.inRange, hk.used, hk.outside, hk.free⟩
  · dsimp only
    rcases List.mem_cons.mp ht with rfl | hmem
    · rcases List.mem_cons.mp hu with rfl | hmem'
      · exact absurd rfl htu
      · rw [hnew, hold u hmem']
        exact hapart u hmem'
    · rcases List.mem_cons.mp hu with rfl | hmem'
      · rw [hnew, hold t hmem]
        exact Or.symm (hapart t hmem)
      · rw [hold t hmem, hold u hmem']
        exact h.apart t hmem u hmem' htu
  · obtain ⟨t, ht, hslot⟩ := h.liveIn o ho
    refine ⟨t, List.mem_cons_of_mem desc ht, ?_⟩
    dsimp only
    rwa [hold t ht]

/-- The pages that an allocation takes meet no slab. -/
theorem SlabsOk.fresh_pages {i n : Nat} (h : SlabsOk kernStart kernEnd totalPages st slabs live)
    (hfree : ∀ j, i ≤ j → j < i + n → bitmapTest st.pmm j = false) (hs : s ∈ slabs) {j : Nat}
    (hj : (st.slab s).base / pageSize ≤ j) (hj' : j < (st.slab s).base / pageSize + st.cache.slabPages) :
    ¬ (i ≤ j ∧ j < i + n) := by
  rintro ⟨hij, hjn⟩
  have hused := (h.each s hs).used j hj hj'
  rw [hfree j hij hjn] at hused
  cases hused

/-- A word of a slot lies in the pages of its slab. -/
theorem SlabsOk.slot_page {a : Nat} (h : SlabsOk kernStart kernEnd totalPages st slabs live)
    (hs : s ∈ slabs) (hslot : st.cache.IsSlot (st.slab s).base o) (ha : o ≤ a) (ha' : a < o + 4) :
    (st.slab s).base / pageSize ≤ a / 4 / 1024 ∧
      a / 4 / 1024 < (st.slab s).base / pageSize + st.cache.slabPages := by
  have hbounds := h.fits.slot hslot
  have haligned := (h.each s hs).aligned
  have hptr := h.fits.stride_pos
  simp only [pageSize] at hbounds haligned ⊢
  omega

/-- The allocator after `slab_new` has taken pages from page `i` on and linked their slots. -/
def SlabState.linked (st : SlabState) (i : Nat) : Pmm :=
  { takePages st.pmm i st.cache.slabPages with
    mem := buildFreelist (takePages st.pmm i st.cache.slabPages).mem (i * pageSize)
      st.cache.stride st.cache.objsPerSlab }

section

variable {i : Nat} (h : SlabsOk kernStart kernEnd totalPages st slabs live)
  (ha : Allocates st.pmm i st.cache.slabPages (takePages st.pmm i st.cache.slabPages))

include h ha

theorem SlabsOk.linked_range : i + st.cache.slabPages ≤ totalPages := by
  have hrange := ha.inRange
  rwa [h.sane.total] at hrange

theorem SlabsOk.linked_lt : i * pageSize + st.cache.objsPerSlab * st.cache.stride < 2 ^ 32 := by
  have hinside := h.fits.inside
  have hlimit := h.sane.limit
  have hrange := h.linked_range ha
  simp only [pageSize] at hinside ⊢
  omega

theorem SlabsOk.linked_outside : ∀ j, i ≤ j → j < i + st.cache.slabPages →
    ¬ InKernel kernStart kernEnd totalPages j := by
  intro j hij hjn hin
  have hrange := h.linked_range ha
  have hbit := h.sane.kernel j (by omega) hin
  rw [ha.free j hij hjn] at hbit
  cases hbit

/-- Only the pages taken are written. -/
theorem SlabsOk.linked_word {w : Nat} (hw : ¬ (i ≤ w / 1024 ∧ w / 1024 < i + st.cache.slabPages)) :
    (st.linked i).mem w = (takePages st.pmm i st.cache.slabPages).mem w := by
  have hmany := h.fits.many
  have hinside := h.fits.inside
  have hstride := h.fits.stride_pos
  refine buildFreelist_frame (f := fun m => m w) (h.linked_lt ha) (by omega) h.fits.objs_lt
    fun m k y hk => ?_
  have hle := @slot_le (i * pageSize) st.cache.stride _ k hk
  refine writePtr_word ?_
  simp only [pageSize] at hle hinside ⊢
  omega

theorem SlabsOk.linked_sane : Sane kernStart kernEnd totalPages (st.linked i) ∧
    ∀ j < totalPages, (bitmapTest (st.linked i) j = true ↔
      (i ≤ j ∧ j < i + st.cache.slabPages) ∨ bitmapTest st.pmm j = true) := by
  obtain ⟨hsane, htest⟩ := (h.sane.allocates ha).withMem (m := (st.linked i).mem) fun w hin =>
    h.linked_word ha fun hw => h.linked_outside ha _ hw.1 hw.2 hin
  refine ⟨hsane, fun j hj => ?_⟩
  have hbits := h.sane.allocates_test ha (h.sane.total.symm ▸ hj)
  rw [← hbits]
  exact Eq.congr_left (htest j hj)

theorem SlabsOk.linked_kept :
    SlabsOk kernStart kernEnd totalPages { st with pmm := st.linked i } slabs live := by
  obtain ⟨hsane, hbits⟩ := h.linked_sane ha
  refine h.elsewhere hsane ?_ fun s hs o hslot _ => readPtr_congr fun j hj => ?_
  · intro s hs j hj hj'
    have hin := (h.each s hs).inRange
    exact (hbits j (by omega)).mpr (Or.inr ((h.each s hs).used j hj hj'))
  · obtain ⟨hlo, hhi⟩ := h.slot_page hs hslot (Nat.le_add_right o j) (by omega)
    have hfresh := h.fresh_pages ha.free hs hlo hhi
    unfold byte
    rw [h.linked_word ha hfresh, takePages_mem h.sane (h.linked_range ha) hfresh
      ((h.each s hs).outside _ hlo hhi)]

/-- A live object lies in pages that were not free. -/
theorem SlabsOk.linked_dead (hslot : st.cache.IsSlot (i * pageSize) o) : o ∉ live := by
  intro hlive
  have hbounds := h.fits.slot hslot
  have hptr := h.fits.stride_pos
  obtain ⟨t, ht, hold⟩ := h.liveIn _ hlive
  obtain ⟨hlo, hhi⟩ := h.slot_page ht hold (Nat.le_refl o) (by omega)
  refine h.fresh_pages ha.free ht hlo hhi ?_
  simp only [pageSize] at hbounds ⊢
  omega

theorem SlabsOk.linked_slab : SlabOk kernStart kernEnd totalPages { st with pmm := st.linked i } live
    (st.cache.newDesc (i * pageSize)) := by
  obtain ⟨hsane, hbits⟩ := h.linked_sane ha
  have hrange := h.linked_range ha
  have hmany := h.fits.many
  have hi := ha.nonzero
  have hpos : 0 < i * pageSize := by
    simp only [pageSize]
    omega
  have hpage : i * pageSize / pageSize = i := Nat.mul_div_cancel i (by decide)
  have hslots : ∀ k < st.cache.objsPerSlab, readPtr (st.linked i).mem
      (i * pageSize + k * st.cache.stride) =
        if k + 1 < st.cache.objsPerSlab then i * pageSize + (k + 1) * st.cache.stride else 0 :=
    fun k hk => buildFreelist_slot h.fits.stride_pos (h.linked_lt ha) h.fits.objs_lt hk
  have hchain := chain_slots hpos hslots st.cache.objsPerSlab 0 (by omega)
  have hfirst : 0 < st.cache.objsPerSlab := by omega
  rw [if_pos hfirst, Nat.zero_mul, Nat.add_zero] at hchain
  refine ⟨rfl, Nat.mul_mod_left i pageSize, hpos, ?_, ?_, ?_, _, hchain, ?_, ?_⟩
  · change i * pageSize / pageSize + st.cache.slabPages ≤ totalPages
    rwa [hpage]
  · change ∀ j, i * pageSize / pageSize ≤ j → j < i * pageSize / pageSize + st.cache.slabPages →
      bitmapTest (st.linked i) j = true
    rw [hpage]
    intro j hij hjn
    exact (hbits j (by omega)).mpr (Or.inl ⟨hij, hjn⟩)
  · change ∀ j, i * pageSize / pageSize ≤ j → j < i * pageSize / pageSize + st.cache.slabPages →
      ¬ InKernel kernStart kernEnd totalPages j
    rw [hpage]
    exact h.linked_outside ha
  · rw [List.length_map, List.length_range']
    rfl
  · intro o ho
    obtain ⟨k, hk, rfl⟩ := List.mem_map.mp ho
    rw [List.mem_range'_1] at hk
    have hslot : st.cache.IsSlot (i * pageSize) (i * pageSize + k * st.cache.stride) :=
      ⟨k, by omega, rfl⟩
    exact ⟨hslot, h.linked_dead ha hslot⟩

theorem SlabsOk.linked_apart : ∀ t ∈ slabs,
    i * pageSize + st.cache.slabPages * pageSize ≤ (st.slab t).base ∨
      (st.slab t).base + st.cache.slabPages * pageSize ≤ i * pageSize := by
  intro t ht
  have haligned := (h.each t ht).aligned
  by_contra hmeet
  rcases Nat.le_total i ((st.slab t).base / pageSize) with hle | hle
  · refine h.fresh_pages ha.free ht (Nat.le_refl _) ?_ ⟨hle, ?_⟩
    · simp only [pageSize] at hmeet haligned hle ⊢
      omega
    · simp only [pageSize] at hmeet haligned hle ⊢
      omega
  · refine h.fresh_pages ha.free ht hle ?_ ⟨Nat.le_refl i, ?_⟩
    · simp only [pageSize] at hmeet haligned hle ⊢
      omega
    · simp only [pageSize] at hmeet haligned hle ⊢
      omega

end

/-- A new slab enters with all its slots free, or nothing changes. -/
theorem SlabsOk.slabNew {desc : Nat} {starved : Bool}
    (h : SlabsOk kernStart kernEnd totalPages st slabs live) (hdesc : desc ∉ slabs) :
    slabNew st desc starved = (0, st) ∨
      desc ≠ 0 ∧ ∃ p base, slabNew st desc starved = (desc,
          { st with pmm := p, slab := Function.update st.slab desc (st.cache.newDesc base) }) ∧
        SlabsOk kernStart kernEnd totalPages
          { st with pmm := p, slab := Function.update st.slab desc (st.cache.newDesc base) }
          (desc :: slabs) live := by
  unfold PinguinOS.Mm.slabNew
  by_cases hnull : desc = 0
  · exact Or.inl (if_pos hnull)
  rw [if_neg hnull]
  cases starved with
  | true => exact Or.inl (if_pos rfl)
  | false =>
    rcases pmmAllocPages_result (n := st.cache.slabPages) h.sane.placed.total with
      hnone | ⟨i, hsome, -, ha⟩
    · rw [if_neg Bool.false_ne_true, hnone]
      exact Or.inl (if_pos rfl)
    · have hi := ha.nonzero
      have hne : i * pageSize ≠ 0 := by
        simp only [pageSize]
        omega
      rw [if_neg Bool.false_ne_true, hsome]
      exact Or.inr ⟨hnull, st.linked i, i * pageSize, if_neg hne,
        (h.linked_kept ha).enter hdesc (h.linked_slab ha) (h.linked_apart ha)⟩

end PinguinOS.Mm
