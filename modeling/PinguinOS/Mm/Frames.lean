import PinguinOS.Mm.PageRights

/-! Frames of mapped pages: no call on other pages writes to them. -/
namespace PinguinOS.Mm

variable {kernStart kernEnd totalPages virt phys x i j m n d w : Nat} {v u t : Vm} {p : Pmm}
  {flags : BitVec 32} {mem : Mem}

/-! The memory of an allocated page that is neither the kernel's nor a page table. -/

/-- The words of the page are the same. -/
def SamePage (v u : Vm) (x : Nat) : Prop := ∀ w, w / 1024 = x → u.pmm.mem w = v.pmm.mem w

theorem SamePage.trans (h : SamePage v u x) (h' : SamePage u t x) : SamePage v t x :=
  fun w hw => (h' w hw).trans (h w hw)

/-- The page stays allocated and keeps its contents. -/
structure Keeps (kernStart kernEnd totalPages : Nat) (v u : Vm) (x : Nat) : Prop where
  fresh : FreshPage kernStart kernEnd totalPages u x
  same : SamePage v u x

theorem Keeps.trans (h : Keeps kernStart kernEnd totalPages v u x)
    (h' : Keeps kernStart kernEnd totalPages u t x) : Keeps kernStart kernEnd totalPages v t x :=
  ⟨h'.fresh, h.same.trans h'.same⟩

theorem FreshPage.refl (hx : FreshPage kernStart kernEnd totalPages v x) :
    Keeps kernStart kernEnd totalPages v v x := ⟨hx, fun _ _ => rfl⟩

theorem FreshPage.allocPage (hx : FreshPage kernStart kernEnd totalPages v x)
    (h : TablesOk kernStart kernEnd totalPages v) :
    Keeps kernStart kernEnd totalPages v v.allocPage.2 x ∧ v.allocPage.1 ≠ x * pageSize := by
  have hpos := hx.pos
  have hapart : ∀ d, v.allocPage.2.HasTable d → v.allocPage.2.tablePfn d ≠ x := by
    intro d hd
    rw [tablePfn_allocPage]
    exact hx.apart d (hasTable_allocPage.mp hd)
  rcases v.allocPage_cases h.sane.placed.total with ⟨hzero, hpmm⟩ | ⟨i, haddr, hpmm, ha⟩
  · refine ⟨⟨⟨hpos, hx.inRange, ?_, hx.outside, hapart⟩, fun w _ => by rw [hpmm]⟩, ?_⟩
    · rw [hpmm]
      exact hx.used
    · rw [hzero]
      simp only [pageSize]
      omega
  · have hne : x ≠ i := by
      rintro rfl
      have hfree := ha.free x (Nat.le_refl x) (by omega)
      rw [hx.used] at hfree
      cases hfree
    have hrange := ha.inRange
    rw [h.sane.total] at hrange
    refine ⟨⟨⟨hpos, hx.inRange, ?_, hx.outside, hapart⟩, fun w hw => ?_⟩, ?_⟩
    · rw [hpmm]
      exact (h.sane.allocates_test ha (h.sane.total.symm ▸ hx.inRange)).mpr (Or.inr hx.used)
    · rw [hpmm]
      exact takePages_mem h.sane hrange (by omega) (hw.symm ▸ hx.outside)
    · rw [haddr]
      simp only [pageSize]
      omega

/-- Memory outside the bitmap is written. -/
theorem FreshPage.withMem (hx : FreshPage kernStart kernEnd totalPages v x)
    (h : TablesOk kernStart kernEnd totalPages v)
    (hm : ∀ w, InKernel kernStart kernEnd totalPages (w / 1024) → mem w = v.pmm.mem w) :
    FreshPage kernStart kernEnd totalPages (v.withMem mem) x :=
  ⟨hx.pos, hx.inRange, ((h.sane.withMem hm).2 x hx.inRange).trans hx.used, hx.outside, hx.apart⟩

theorem FreshPage.newTable (hx : FreshPage kernStart kernEnd totalPages v x)
    (h : TablesOk kernStart kernEnd totalPages v)
    (hi : FreshPage kernStart kernEnd totalPages v i) (hne : x ≠ i) :
    Keeps kernStart kernEnd totalPages v (v.newTable d i flags) x := by
  have hlimit := h.sane.limit
  have hrange := hi.inRange
  have hmem : ∀ w, InKernel kernStart kernEnd totalPages (w / 1024) →
      (v.newTable d i flags).pmm.mem w = v.pmm.mem w := fun w hin =>
    newTable_mem fun hw => hi.outside (hw ▸ hin)
  refine ⟨⟨hx.pos, hx.inRange, ?_, hx.outside, fun j hj => ?_⟩, fun w hw => newTable_mem ?_⟩
  · exact ((h.sane.withMem hmem).2 x hx.inRange).trans hx.used
  · by_cases hjd : j = d
    · rw [hjd, (newTable_hasTable v d flags (by omega)).2]
      exact hne.symm
    · have hpd : (v.newTable d i flags).kernelPd j = v.kernelPd j := newTable_of_ne hjd
      rw [tablePfn_congr hpd]
      exact hx.apart j ((hasTable_congr hpd).mp hj)
  · rw [hw]
    exact hne

/-- `get_or_alloc_pt` for some other page. -/
theorem FreshPage.getsTable {r : Nat × Vm} (hx : FreshPage kernStart kernEnd totalPages v x)
    (h : TablesOk kernStart kernEnd totalPages v)
    (hr : GetsTable kernStart kernEnd totalPages v d flags r) :
    Keeps kernStart kernEnd totalPages v r.2 x := by
  obtain ⟨hkeep, hother⟩ := hx.allocPage h
  cases hr with
  | huge => exact hx.refl
  | present => exact hx.refl
  | noPage => exact hkeep
  | create hd i haddr hfresh =>
    have hne : x ≠ i := by
      rintro rfl
      exact hother haddr
    exact hkeep.trans (hkeep.fresh.newTable h.allocPage.1 hfresh hne)

theorem setWord_other {base : Nat} {y : BitVec 32} (hw : w / 1024 ≠ base) (hi : i < 1024) :
    (v.setWord (base * pageSize) i y).pmm.mem w = v.pmm.mem w := by
  rw [setWord_mem]
  refine if_neg ?_
  simp only [pageSize]
  omega

/-- An entry of a page table is written. -/
theorem FreshPage.setPte {y : BitVec 32} (hx : FreshPage kernStart kernEnd totalPages v x)
    (h : TablesOk kernStart kernEnd totalPages v) (ht : v.HasTable d) (hi : i < 1024) :
    Keeps kernStart kernEnd totalPages v (v.setWord (v.tablePfn d * pageSize) i y) x := by
  refine ⟨hx.withMem h fun w hin => setWord_other (fun hw => ?_) hi,
    fun w hw => setWord_other (fun heq => hx.apart d ht (heq.symm.trans hw)) hi⟩
  exact h.outside d ht (hw ▸ hin)

theorem FreshPage.mapPage (hx : FreshPage kernStart kernEnd totalPages v x)
    (h : TablesOk kernStart kernEnd totalPages v) :
    Keeps kernStart kernEnd totalPages v (pagingMapPage v virt phys flags).2 x := by
  have hkeep := hx.getsTable h (h.getsTable (pdIndex virt) flags)
  obtain ⟨hok, -, hpt⟩ := h.getOrAllocPt (pdIndex virt) flags
  unfold pagingMapPage
  dsimp only
  by_cases hzero : (getOrAllocPt v (pdIndex virt) true flags).1 = 0
  · rw [if_pos hzero]
    exact hkeep
  · rw [if_neg hzero]
    obtain ⟨htable, haddr⟩ := hpt.resolve_left hzero
    rw [haddr]
    exact hkeep.trans (hkeep.fresh.setPte hok htable ptIndex_lt)

theorem FreshPage.unmapPage (hx : FreshPage kernStart kernEnd totalPages v x)
    (h : TablesOk kernStart kernEnd totalPages v) :
    Keeps kernStart kernEnd totalPages v (pagingUnmapPage v virt) x := by
  rcases v.entry_cases (pdIndex virt) with habsent | hhuge | ht
  · rw [unmapPage_absent habsent]
    exact hx.refl
  · rw [unmapPage_huge hhuge]
    exact hx.refl
  · rw [h.unmapPage_table ht]
    exact hx.setPte h ht ptIndex_lt

theorem SameTables.refl (v : Vm) : SameTables v v := ⟨rfl, fun _ _ _ _ => rfl⟩

theorem SameTables.trans {t : Vm} (h : SameTables v u) (h' : SameTables u t) : SameTables v t := by
  refine ⟨h'.1.trans h.1, fun d hd w hw => ?_⟩
  have hpd : u.kernelPd d = v.kernelPd d := congrFun h.1 d
  have hd' : u.HasTable d := (hasTable_congr hpd).mpr hd
  have hw' : w / 1024 = u.tablePfn d := hw.trans (tablePfn_congr hpd).symm
  exact (h'.2 d hd' w hw').trans (h.2 d hd w hw)

/-! Pages are given back. -/

theorem markFree_mem (hw : w ≠ bitmapWord p i) : (markFree p i).mem w = p.mem w := by
  unfold markFree
  split_ifs
  · exact Function.update_of_ne hw _ _
  · rfl

/-- Giving a page back changes a word of the bitmap only. -/
theorem Sane.freePage_mem (h : Sane kernStart kernEnd totalPages p)
    (hw : ¬ InKernel kernStart kernEnd totalPages (w / 1024)) :
    (pmmFreePage p phys).mem w = p.mem w := by
  unfold pmmFreePage
  dsimp only
  split_ifs with hrange
  · rfl
  · refine markFree_mem ?_
    rintro rfl
    have htotal := h.total
    exact hw (h.bitmapWord_inKernel (by omega))

theorem TablesOk.freePage_tables (h : TablesOk kernStart kernEnd totalPages v) :
    SameTables v (v.freePage phys) := by
  refine ⟨rfl, fun d hd w hw => h.sane.freePage_mem ?_⟩
  rw [hw]
  exact h.outside d hd

theorem Sane.freePage (h : Sane kernStart kernEnd totalPages p)
    (hout : ¬ InKernel kernStart kernEnd totalPages (phys / 4096)) :
    Sane kernStart kernEnd totalPages (pmmFreePage p phys) := by
  have htotal := h.total
  have hlimit := h.limit
  refine h.samePlace pmmFreePage_samePlace (accounted_pmmFreePage h.accounted (by omega)) ?_
  intro pfn hpfn hin
  refine pmmFreePage_test.mpr ⟨?_, h.kernel pfn hpfn hin⟩
  rintro ⟨-, -, rfl⟩
  exact hout hin

/-- Another page is given back. -/
theorem FreshPage.freePage (hx : FreshPage kernStart kernEnd totalPages v x)
    (h : TablesOk kernStart kernEnd totalPages v) (hne : phys / 4096 ≠ x) :
    Keeps kernStart kernEnd totalPages v (v.freePage phys) x := by
  refine ⟨⟨hx.pos, hx.inRange, pmmFreePage_test.mpr ⟨fun hfreed => hne hfreed.2.2, hx.used⟩,
    hx.outside, hx.apart⟩, fun w hw => h.sane.freePage_mem ?_⟩
  rw [hw]
  exact hx.outside

theorem TablesOk.freePage (h : TablesOk kernStart kernEnd totalPages v)
    (hx : FreshPage kernStart kernEnd totalPages v (phys / 4096)) :
    TablesOk kernStart kernEnd totalPages (v.freePage phys) := by
  refine ⟨h.sane.freePage hx.outside, h.inRange, fun d hd => ?_, h.outside, h.apart⟩
  exact pmmFreePage_test.mpr ⟨fun hfreed => hx.apart d hd hfreed.2.2.symm, h.used d hd⟩

/-! A frame that has just been allocated, and perhaps filled. -/

/-- `f` is new in `u`, and the rest is as in `v`. -/
structure NewFrame (kernStart kernEnd totalPages : Nat) (v u : Vm) (f : Nat) : Prop where
  tablesOk : TablesOk kernStart kernEnd totalPages u
  same : SameTables v u
  fresh : FreshPage kernStart kernEnd totalPages u f
  keeps : ∀ x, FreshPage kernStart kernEnd totalPages v x →
    Keeps kernStart kernEnd totalPages v u x ∧ x ≠ f

theorem TablesOk.newFrame (h : TablesOk kernStart kernEnd totalPages v)
    (hsome : v.allocPage.1 ≠ 0) : ∃ f, v.allocPage.1 = f * pageSize ∧
      NewFrame kernStart kernEnd totalPages v v.allocPage.2 f := by
  obtain ⟨f, haddr, hfresh⟩ := h.allocPage_fresh hsome
  refine ⟨f, haddr, h.allocPage.1, h.allocPage.2.1, hfresh, fun x hx => ?_⟩
  obtain ⟨hkeep, hother⟩ := hx.allocPage h
  refine ⟨hkeep, ?_⟩
  rintro rfl
  exact hother haddr

/-- One page is written that is neither the kernel's nor a page table. -/
theorem TablesOk.fill (h : TablesOk kernStart kernEnd totalPages v)
    (hi : FreshPage kernStart kernEnd totalPages v i)
    (hm : ∀ w, w / 1024 ≠ i → mem w = v.pmm.mem w) :
    TablesOk kernStart kernEnd totalPages (v.withMem mem) ∧ SameTables v (v.withMem mem) ∧
      ∀ x, FreshPage kernStart kernEnd totalPages v x →
        FreshPage kernStart kernEnd totalPages (v.withMem mem) x := by
  have hkernel : ∀ w, InKernel kernStart kernEnd totalPages (w / 1024) → mem w = v.pmm.mem w :=
    fun w hin => hm w fun hw => hi.outside (hw ▸ hin)
  obtain ⟨hsane, htest⟩ := h.sane.withMem hkernel
  refine ⟨h.samePd rfl hsane fun j hj hset => (htest j hj).trans hset, ⟨rfl, fun d hd w hw => ?_⟩,
    fun x hx => hx.withMem h hkernel⟩
  exact hm w fun heq => hi.apart d hd (hw.symm.trans heq)

theorem NewFrame.fill {f : Nat} (h : NewFrame kernStart kernEnd totalPages v u f)
    (hm : ∀ w, w / 1024 ≠ f → mem w = u.pmm.mem w) :
    NewFrame kernStart kernEnd totalPages v (u.withMem mem) f := by
  obtain ⟨hok, hsame, hkeep⟩ := h.tablesOk.fill h.fresh hm
  refine ⟨hok, h.same.trans hsame, hkeep f h.fresh, fun x hx => ?_⟩
  obtain ⟨hx', hne⟩ := h.keeps x hx
  refine ⟨⟨hkeep x hx'.fresh, fun w hw => ?_⟩, hne⟩
  rw [← hx'.same w hw]
  exact hm w fun heq => hne (hw.symm.trans heq)

/-! The frames of pages that are mapped through page tables. -/

/-- The page `n` goes to the frame `i`. -/
def Vm.MapsTo (v : Vm) (n i : Nat) : Prop :=
  v.HasTable (n / 1024) ∧ pagingGetPhys v (n * 4096) = i * 4096 ∧ 0 < i

/-- Every mapped page has a frame of its own. -/
structure Owned (kernStart kernEnd totalPages : Nat) (v : Vm) : Prop where
  own : ∀ n i, n < 2 ^ 20 → v.MapsTo n i → FreshPage kernStart kernEnd totalPages v i
  apart : ∀ m n i, m < 2 ^ 20 → n < 2 ^ 20 → v.MapsTo m i → v.MapsTo n i → m = n

theorem page_pdIndex : pdIndex (n * 4096) = n / 1024 := by
  rw [pdIndex_eq]
  omega

/-- A directory entry that was there stays. -/
theorem mapPage_pd (h : TablesOk kernStart kernEnd totalPages v) (d : Nat) :
    (pagingMapPage v virt phys flags).2.kernelPd d = v.kernelPd d ∨
      v.kernelPd d &&& pdePresent = 0 := by
  have hget := h.getsTable (pdIndex virt) flags
  unfold pagingMapPage
  dsimp only
  generalize getOrAllocPt v (pdIndex virt) true flags = r at hget ⊢
  have hpd : r.2.kernelPd d = v.kernelPd d ∨ v.kernelPd d &&& pdePresent = 0 := by
    cases hget with
    | huge => exact Or.inl rfl
    | present => exact Or.inl rfl
    | noPage => exact Or.inl (congrFun allocPage_kernelPd d)
    | create habsent i haddr hfresh =>
      by_cases hd : d = pdIndex virt
      · exact Or.inr (hd ▸ habsent)
      · exact Or.inl ((newTable_of_ne hd).trans (congrFun allocPage_kernelPd d))
  split_ifs
  · exact hpd
  · exact hpd

theorem mapsTo_congr (hpd : t.kernelPd (n / 1024) = v.kernelPd (n / 1024) ∨
      v.kernelPd (n / 1024) &&& pdePresent = 0)
    (hphys : pagingGetPhys t (n * 4096) = pagingGetPhys v (n * 4096)) :
    t.MapsTo n i ↔ v.MapsTo n i := by
  unfold Vm.MapsTo
  rw [hphys]
  constructor
  · rintro ⟨ht, hframe, hpos⟩
    refine ⟨?_, hframe, hpos⟩
    have hsame := hpd.resolve_right fun habsent => by
      rw [← page_pdIndex] at habsent
      rw [pagingGetPhys_absent habsent] at hframe
      omega
    exact (hasTable_congr hsame).mp ht
  · rintro ⟨ht, hframe, hpos⟩
    exact ⟨(hasTable_congr (hpd.resolve_right ht.1)).mpr ht, hframe, hpos⟩

theorem SameTables.mapsTo (h : SameTables v u) : u.MapsTo n i ↔ v.MapsTo n i :=
  mapsTo_congr (Or.inl (congrFun h.1 _)) h.getPhys

theorem Owned.sameTables (ho : Owned kernStart kernEnd totalPages v) (h : SameTables v u)
    (hkeep : ∀ x, FreshPage kernStart kernEnd totalPages v x →
      FreshPage kernStart kernEnd totalPages u x) : Owned kernStart kernEnd totalPages u := by
  refine ⟨fun n i hn hmap => hkeep i (ho.own n i hn (h.mapsTo.mp hmap)), ?_⟩
  intro m n i hm hn hmap hmap'
  exact ho.apart m n i hm hn (h.mapsTo.mp hmap) (h.mapsTo.mp hmap')

/-- The page `n` is unmapped and its frame given back. -/
structure Drops (kernStart kernEnd totalPages : Nat) (v u : Vm) (n f : Nat) : Prop where
  tablesOk : TablesOk kernStart kernEnd totalPages u
  owned : Owned kernStart kernEnd totalPages u
  pd : u.kernelPd = v.kernelPd
  mapsTo : ∀ m i, u.MapsTo m i ↔ m ≠ n ∧ v.MapsTo m i
  keeps : ∀ x, FreshPage kernStart kernEnd totalPages v x → x ≠ f →
    Keeps kernStart kernEnd totalPages v u x

theorem Owned.drops {f : Nat} (ho : Owned kernStart kernEnd totalPages v)
    (h : TablesOk kernStart kernEnd totalPages v) (hn : n < 2 ^ 20) (hmap : v.MapsTo n f) :
    Drops kernStart kernEnd totalPages v
      ((PinguinOS.Mm.pagingUnmapPage v (n * 4096)).freePage (f * 4096)) n f := by
  have htable : v.HasTable (pdIndex (n * 4096)) := page_pdIndex ▸ hmap.1
  have hok : TablesOk kernStart kernEnd totalPages (PinguinOS.Mm.pagingUnmapPage v (n * 4096)) :=
    h.pagingUnmapPage
  have hpfn : f * 4096 / 4096 = f := Nat.mul_div_cancel f (by decide)
  have hfresh : FreshPage kernStart kernEnd totalPages (PinguinOS.Mm.pagingUnmapPage v (n * 4096))
      (f * 4096 / 4096) := hpfn.symm ▸ ((ho.own n f hn hmap).unmapPage h).fresh
  have hpd : ((PinguinOS.Mm.pagingUnmapPage v (n * 4096)).freePage (f * 4096)).kernelPd =
      v.kernelPd := by
    rw [h.unmapPage_table htable]
    rfl
  have hkeep : ∀ x, FreshPage kernStart kernEnd totalPages v x → x ≠ f →
      Keeps kernStart kernEnd totalPages v
        ((PinguinOS.Mm.pagingUnmapPage v (n * 4096)).freePage (f * 4096)) x := by
    intro x hx hne
    refine (hx.unmapPage h).trans ((hx.unmapPage h).fresh.freePage hok ?_)
    rw [hpfn]
    exact hne.symm
  have hmaps : ∀ m i, ((PinguinOS.Mm.pagingUnmapPage v (n * 4096)).freePage (f * 4096)).MapsTo m i ↔
      m ≠ n ∧ v.MapsTo m i := by
    intro m i
    unfold Vm.MapsTo
    rw [hok.freePage_tables.getPhys, h.unmapPage_getPhys (fun hhuge => hhuge.2 htable.2), unmapped,
      hasTable_congr (congrFun hpd _)]
    by_cases hmn : m = n
    · rw [hmn, if_pos rfl]
      constructor
      · rintro ⟨-, hzero, hpos⟩
        omega
      · rintro ⟨hne, -⟩
        exact absurd rfl hne
    · rw [if_neg (by omega), and_iff_right hmn]
  refine ⟨hok.freePage hfresh, ⟨fun m i hm hi => ?_, fun m m' i hm hm' hi hi' => ?_⟩, hpd, hmaps,
    hkeep⟩
  · obtain ⟨hne, hold⟩ := (hmaps m i).mp hi
    refine (hkeep i (ho.own m i hm hold) ?_).fresh
    rintro rfl
    exact hne (ho.apart m n i hm hn hold hmap)
  · exact ho.apart m m' i hm hm' ((hmaps m i).mp hi).2 ((hmaps m' i).mp hi').2

/-- What becomes of the mappings when `f` is mapped at page `n`. -/
theorem mapsTo_mapPage {f : Nat} (h : TablesOk kernStart kernEnd totalPages v) (hf : 0 < f)
    (hlt : f < 2 ^ 18) :
    (pagingMapPage v (n * 4096) (f * pageSize) flags).1 = -1 ∧ (∀ m i,
        (pagingMapPage v (n * 4096) (f * pageSize) flags).2.MapsTo m i ↔ v.MapsTo m i) ∨
      (pagingMapPage v (n * 4096) (f * pageSize) flags).1 = 0 ∧ ∀ m i,
        ((pagingMapPage v (n * 4096) (f * pageSize) flags).2.MapsTo m i ↔
          m = n ∧ i = f ∨ m ≠ n ∧ v.MapsTo m i) := by
  have hphys : f * pageSize < 2 ^ 32 := by
    simp only [pageSize]
    omega
  rcases @TablesOk.pagingMapPage _ _ _ (n * 4096) v flags (f * pageSize) h hphys with
    ⟨hfail, hold⟩ | ⟨hdone, hnew⟩
  · exact Or.inl ⟨hfail, fun m i => mapsTo_congr (mapPage_pd h _) (hold _)⟩
  · refine Or.inr ⟨hdone, fun m i => ?_⟩
    by_cases hmn : m = n
    · subst hmn
      have htable := (mapPage_mapsEntry h hdone).hasTable
      rw [page_pdIndex] at htable
      have hframe := hnew (m * 4096)
      rw [if_pos rfl] at hframe
      unfold Vm.MapsTo
      rw [hframe, and_iff_right htable]
      simp only [pageSize, true_and, ne_eq, not_true_eq_false, false_and, or_false]
      omega
    · have hframe := hnew (m * 4096)
      rw [if_neg (by omega)] at hframe
      rw [mapsTo_congr (mapPage_pd h _) hframe]
      simp [hmn]

/-- A fresh frame is mapped. -/
theorem Owned.mapFresh {f : Nat} (ho : Owned kernStart kernEnd totalPages v)
    (hnew : NewFrame kernStart kernEnd totalPages v u f) :
    Owned kernStart kernEnd totalPages (pagingMapPage u (n * 4096) (f * pageSize) flags).2 := by
  obtain ⟨hu, hsame, hf, hkeep⟩ := hnew
  have hlimit := hu.sane.limit
  have hrange := hf.inRange
  have hold : ∀ m i, m < 2 ^ 20 → u.MapsTo m i → FreshPage kernStart kernEnd totalPages
      (pagingMapPage u (n * 4096) (f * pageSize) flags).2 i ∧ i ≠ f := by
    intro m i hm hmap
    obtain ⟨hi, hne⟩ := hkeep i (ho.own m i hm (hsame.mapsTo.mp hmap))
    exact ⟨(hi.fresh.mapPage hu).fresh, hne⟩
  have hapart : ∀ m m' i, m < 2 ^ 20 → m' < 2 ^ 20 → u.MapsTo m i → u.MapsTo m' i → m = m' := by
    intro m m' i hm hm' hmap hmap'
    exact ho.apart m m' i hm hm' (hsame.mapsTo.mp hmap) (hsame.mapsTo.mp hmap')
  rcases @mapsTo_mapPage _ _ _ n u flags f hu hf.pos (by omega) with ⟨-, hmaps⟩ | ⟨-, hmaps⟩
  · refine ⟨fun m i hm hmap => (hold m i hm ((hmaps m i).mp hmap)).1, ?_⟩
    intro m m' i hm hm' hmap hmap'
    exact hapart m m' i hm hm' ((hmaps m i).mp hmap) ((hmaps m' i).mp hmap')
  · refine ⟨fun m i hm hmap => ?_, ?_⟩
    · rcases (hmaps m i).mp hmap with ⟨-, rfl⟩ | ⟨-, hbefore⟩
      · exact (hf.mapPage hu).fresh
      · exact (hold m i hm hbefore).1
    · intro m m' i hm hm' hmap hmap'
      rcases (hmaps m i).mp hmap with ⟨rfl, rfl⟩ | ⟨-, hbefore⟩
      · rcases (hmaps m' i).mp hmap' with ⟨rfl, -⟩ | ⟨-, hbefore'⟩
        · rfl
        · exact absurd rfl (hold m' i hm' hbefore').2
      · rcases (hmaps m' i).mp hmap' with ⟨rfl, rfl⟩ | ⟨-, hbefore'⟩
        · exact absurd rfl (hold m i hm hbefore).2
        · exact hapart m m' i hm hm' hbefore hbefore'

/-- A frame is mapped at page `n`, or cannot be. -/
structure Maps (kernStart kernEnd totalPages : Nat) (v u : Vm) (n : Nat) : Prop where
  tablesOk : TablesOk kernStart kernEnd totalPages u
  owned : Owned kernStart kernEnd totalPages u
  hasTable : ∀ d, v.HasTable d → u.HasTable d
  mapsTo : ∀ m i, m ≠ n → (u.MapsTo m i ↔ v.MapsTo m i)
  keeps : ∀ x, FreshPage kernStart kernEnd totalPages v x →
    Keeps kernStart kernEnd totalPages v u x

theorem Owned.maps {f : Nat} (ho : Owned kernStart kernEnd totalPages v)
    (hnew : NewFrame kernStart kernEnd totalPages v u f) :
    Maps kernStart kernEnd totalPages v
      (PinguinOS.Mm.pagingMapPage u (n * 4096) (f * pageSize) flags).2 n := by
  have hlimit := hnew.tablesOk.sane.limit
  have hrange := hnew.fresh.inRange
  refine ⟨hnew.tablesOk.mapPage, ho.mapFresh hnew, fun d hd => ?_, fun m i hne => ?_, fun x hx => ?_⟩
  · have hd' : u.HasTable d := (hasTable_congr (congrFun hnew.same.1 d)).mpr hd
    have hpd := @mapPage_pd _ _ _ (n * 4096) (f * pageSize) u flags hnew.tablesOk d
    exact (hasTable_congr (hpd.resolve_right hd'.1)).mpr hd'
  · rw [← hnew.same.mapsTo]
    rcases @mapsTo_mapPage _ _ _ n u flags f hnew.tablesOk hnew.fresh.pos (by omega) with
      ⟨-, hmaps⟩ | ⟨-, hmaps⟩
    · exact hmaps m i
    · rw [hmaps, or_iff_right fun hboth => hne hboth.1, and_iff_right hne]
  · obtain ⟨hkeep, -⟩ := hnew.keeps x hx
    exact hkeep.trans (hkeep.fresh.mapPage hnew.tablesOk)

/-- The new frame is given back. -/
theorem NewFrame.freed {f : Nat} (hnew : NewFrame kernStart kernEnd totalPages v u f) :
    TablesOk kernStart kernEnd totalPages (u.freePage (f * pageSize)) ∧
      SameTables v (u.freePage (f * pageSize)) ∧ ∀ x, FreshPage kernStart kernEnd totalPages v x →
        Keeps kernStart kernEnd totalPages v (u.freePage (f * pageSize)) x := by
  have hpfn : f * pageSize / 4096 = f := Nat.mul_div_cancel f (by decide)
  refine ⟨hnew.tablesOk.freePage (hpfn.symm ▸ hnew.fresh),
    hnew.same.trans hnew.tablesOk.freePage_tables, fun x hx => ?_⟩
  obtain ⟨hkeep, hne⟩ := hnew.keeps x hx
  refine hkeep.trans (hkeep.fresh.freePage hnew.tablesOk ?_)
  rw [hpfn]
  exact hne.symm

end PinguinOS.Mm
