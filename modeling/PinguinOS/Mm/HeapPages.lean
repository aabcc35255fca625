import PinguinOS.Mm.HeapTiling
import PinguinOS.Mm.PageTables

/-! What the heap does to the page tables: it maps pages, and unmaps none. -/
namespace PinguinOS.Mm

variable {kernStart kernEnd totalPages virt phys a addr len n k size p depth : Nat} {v u t : Vm}
  {flags : BitVec 32} {h h' : Heap} {b : Block} {l : List Block} {c : HeapCall}

/-- `u` maps at least the pages of `v`, by page tables that are in order. -/
structure MapsMore (kernStart kernEnd totalPages : Nat) (v u : Vm) : Prop where
  tables : TablesOk kernStart kernEnd totalPages u
  mapped : ∀ a, pagingGetPhys v a ≠ 0 → pagingGetPhys u a ≠ 0

theorem MapsMore.trans (h : MapsMore kernStart kernEnd totalPages v u)
    (h' : MapsMore kernStart kernEnd totalPages u t) :
    MapsMore kernStart kernEnd totalPages v t :=
  ⟨h'.tables, fun a ha => h'.mapped a (h.mapped a ha)⟩

theorem mapsMore_refl (h : TablesOk kernStart kernEnd totalPages v) :
    MapsMore kernStart kernEnd totalPages v v := ⟨h, fun _ ha => ha⟩

theorem mapsMore_allocPage (h : TablesOk kernStart kernEnd totalPages v) :
    MapsMore kernStart kernEnd totalPages v v.allocPage.2 := by
  obtain ⟨hok, hsame, -⟩ := h.allocPage
  refine ⟨hok, fun a ha => ?_⟩
  rw [hsame.getPhys]
  exact ha

/-- The page that `pmm_alloc_page` returns. -/
theorem TablesOk.allocPage_addr (h : TablesOk kernStart kernEnd totalPages v)
    (hsome : v.allocPage.1 ≠ 0) : 4096 ≤ v.allocPage.1 ∧ v.allocPage.1 < 2 ^ 32 := by
  obtain ⟨i, haddr, hfresh⟩ := h.allocPage_fresh hsome
  have hlimit := h.sane.limit
  have hpos := hfresh.pos
  have hrange := hfresh.inRange
  rw [haddr]
  simp only [pageSize]
  omega

theorem mapsMore_mapPage (h : TablesOk kernStart kernEnd totalPages v) (hphys : 4096 ≤ phys)
    (hlt : phys < 2 ^ 32) :
    MapsMore kernStart kernEnd totalPages v (pagingMapPage v virt phys flags).2 := by
  refine ⟨h.mapPage, fun a ha => ?_⟩
  rcases h.pagingMapPage hlt with ⟨-, hgets⟩ | ⟨-, hgets⟩
  · rw [hgets]
    exact ha
  · rw [hgets]
    split_ifs
    · omega
    · exact ha

/-- Where `paging_map_page` returns 0 the page is mapped. -/
theorem mapPage_maps (h : TablesOk kernStart kernEnd totalPages v) (hphys : 4096 ≤ phys)
    (hlt : phys < 2 ^ 32) (hres : (pagingMapPage v virt phys flags).1 = 0)
    (ha : a / 4096 = virt / 4096) : pagingGetPhys (pagingMapPage v virt phys flags).2 a ≠ 0 := by
  rcases h.pagingMapPage hlt with ⟨hfail, -⟩ | ⟨-, hgets⟩
  · rw [hfail] at hres
    cases hres
  · rw [hgets, if_pos ha]
    omega

theorem mapsMore_heapFault (h : TablesOk kernStart kernEnd totalPages v)
    (hf : heapFault v addr = some u) : MapsMore kernStart kernEnd totalPages v u := by
  unfold heapFault at hf
  dsimp only at hf
  split_ifs at hf with hheap hsome hmapped
  obtain rfl := Option.some.inj hf
  have halloc := mapsMore_allocPage h
  obtain ⟨hphys, hlt⟩ := h.allocPage_addr hsome
  exact halloc.trans (mapsMore_mapPage halloc.tables hphys hlt)

/-- One page of an access. -/
theorem mapsMore_touchPages {pages : List Nat} (h : TablesOk kernStart kernEnd totalPages v)
    (ht : pages.foldlM (fun v page =>
      if pagingGetPhys v (page * pageSize) = 0 then heapFault v (page * pageSize) else some v) v =
        some u) : MapsMore kernStart kernEnd totalPages v u := by
  induction pages generalizing v with
  | nil =>
    obtain rfl := Option.some.inj ht
    exact mapsMore_refl h
  | cons page pages ih =>
    rw [List.foldlM_cons] at ht
    obtain ⟨w, hw, hrest⟩ := Option.bind_eq_some_iff.mp ht
    split_ifs at hw with hzero
    · have hfault := mapsMore_heapFault h hw
      exact hfault.trans (ih hfault.tables hrest)
    · obtain rfl := Option.some.inj hw
      exact ih h hrest

theorem mapsMore_touch (h : TablesOk kernStart kernEnd totalPages v)
    (ht : touch v addr len = some u) : MapsMore kernStart kernEnd totalPages v u :=
  mapsMore_touchPages h ht

/-- An access to pages that are mapped changes nothing. -/
theorem touch_mapped (h : ∀ page ∈ pagesOf addr len, pagingGetPhys v (page * pageSize) ≠ 0) :
    touch v addr len = some v := by
  unfold touch
  generalize pagesOf addr len = pages at h
  induction pages with
  | nil => rfl
  | cons page pages ih =>
    rw [List.foldlM_cons, if_neg (h page List.mem_cons_self)]
    exact ih fun q hq => h q (List.mem_cons_of_mem page hq)

theorem heapFault_maps (h : TablesOk kernStart kernEnd totalPages v)
    (hf : heapFault v addr = some u) : pagingGetPhys u addr ≠ 0 := by
  unfold heapFault at hf
  dsimp only at hf
  split_ifs at hf with hheap hsome hmapped
  obtain rfl := Option.some.inj hf
  obtain ⟨hphys, hlt⟩ := h.allocPage_addr hsome
  have hbelow : addr < 2 ^ 32 := by
    have hmax := hheap.2
    unfold kheapMax at hmax
    omega
  refine mapPage_maps (mapsMore_allocPage h).tables hphys hlt (not_not.mp hmapped) ?_
  rw [alignDown_page hbelow]
  omega

/-- After an access its pages are mapped. -/
theorem touchPages_maps {pages : List Nat} (h : TablesOk kernStart kernEnd totalPages v)
    (ht : pages.foldlM (fun v page =>
      if pagingGetPhys v (page * pageSize) = 0 then heapFault v (page * pageSize) else some v) v =
        some u) : ∀ page ∈ pages, pagingGetPhys u (page * pageSize) ≠ 0 := by
  induction pages generalizing v with
  | nil =>
    intro page hpage
    cases hpage
  | cons page pages ih =>
    rw [List.foldlM_cons] at ht
    obtain ⟨w, hw, hrest⟩ := Option.bind_eq_some_iff.mp ht
    have hfirst : TablesOk kernStart kernEnd totalPages w ∧ pagingGetPhys w (page * pageSize) ≠ 0 := by
      split_ifs at hw with hzero
      · exact ⟨(mapsMore_heapFault h hw).tables, heapFault_maps h hw⟩
      · obtain rfl := Option.some.inj hw
        exact ⟨h, hzero⟩
    rw [List.forall_mem_cons]
    exact ⟨(mapsMore_touchPages hfirst.1 hrest).mapped _ hfirst.2, ih hfirst.1 hrest⟩

/-- After an access, an access to a part of the range changes nothing. -/
theorem touch_within {a n : Nat} (h : TablesOk kernStart kernEnd totalPages v)
    (ht : touch v addr len = some u) (hlo : addr ≤ a) (hhi : a + n ≤ addr + len) :
    touch u a n = some u := by
  refine touch_mapped fun page hpage => touchPages_maps h ht page ?_
  unfold pagesOf at hpage ⊢
  split_ifs at hpage with hzero
  · cases hpage
  · obtain ⟨i, hi, rfl⟩ := List.mem_range'.mp hpage
    rw [if_neg (by omega), List.mem_range']
    unfold pageSize at *
    exact ⟨a / 4096 + i - addr / 4096, by omega, by omega⟩

/-! The growth of the heap. -/

theorem mapsMore_growPage (h : TablesOk kernStart kernEnd totalPages h'.vm) :
    MapsMore kernStart kernEnd totalPages h'.vm (heapGrowPage h').2.vm := by
  have halloc := mapsMore_allocPage h
  by_cases hstop : h'.Stops
  · rcases growPage_stops hstop with heq | ⟨-, heq⟩
    · rw [heq]
      exact mapsMore_refl h
    · rw [heq]
      exact halloc
  · obtain ⟨hphys, hlt⟩ := h.allocPage_addr (not_or.mp hstop).2
    rw [growPage_goes hstop]
    exact halloc.trans (mapsMore_mapPage halloc.tables hphys hlt)

theorem mapsMore_growPages (h : TablesOk kernStart kernEnd totalPages h'.vm) :
    MapsMore kernStart kernEnd totalPages h'.vm (heapGrowPages n h').2.vm := by
  induction n generalizing h' with
  | zero => exact mapsMore_refl h
  | succ n ih =>
    have hfirst := mapsMore_growPage h
    rw [heapGrowPages_succ]
    split_ifs
    · exact hfirst.trans (ih hfirst.tables)
    · exact hfirst

theorem mapsMore_grow (h : TablesOk kernStart kernEnd totalPages h'.vm) (needed : Nat) :
    MapsMore kernStart kernEnd totalPages h'.vm (heapGrow h' needed).2.vm :=
  mapsMore_growPages h

theorem mapsMore_take {vm vm' : Vm} (h : TablesOk kernStart kernEnd totalPages vm)
    {blocks : List Block} (htake : takeFirstFit vm size blocks = some (vm', some b, l)) :
    MapsMore kernStart kernEnd totalPages vm vm' := by
  obtain ⟨xs, blk, ys, blk', ys', -, -, hsplit, -, -⟩ := takeFirstFit_some htake
  rcases heapSplit_cases hsplit with ⟨rfl, -⟩ | ⟨-, -, htouch, -⟩
  · exact mapsMore_refl h
  · exact mapsMore_touch h htouch

theorem mapsMore_alloc (hv : TablesOk kernStart kernEnd totalPages h.vm)
    (halloc : heapAllocRaw depth h size = some (p, h')) :
    MapsMore kernStart kernEnd totalPages h.vm h'.vm := by
  induction depth generalizing h size with
  | zero => cases halloc
  | succ depth ih =>
    by_cases hsize : size = 0
    · rw [heapAllocRaw, if_pos hsize] at halloc
      cases halloc
      exact mapsMore_refl hv
    rcases heapAllocRaw_succ hsize halloc with ⟨vm, b, l, htake, -, rfl⟩ | ⟨-, hgrow⟩
    · exact mapsMore_take hv htake
    · have hgrown := mapsMore_grow hv (growSize (alignUp size 8))
      rcases hgrow with ⟨-, -, rfl⟩ | ⟨-, vm, htouch, hagain⟩
      · exact hgrown
      · have htouched := mapsMore_touch hgrown.tables htouch
        exact hgrown.trans (htouched.trans (ih htouched.tables hagain))

theorem kfree_kept {ptr : Nat} (hfree : kfree h ptr = some h') : h'.vm = h.vm ∧ h'.brk = h.brk := by
  unfold kfree heapFreeRaw at hfree
  split_ifs at hfree with hptr
  · cases hfree
    exact ⟨rfl, rfl⟩
  · obtain ⟨blk, hblk, hrest⟩ := Option.bind_eq_some_iff.mp hfree
    split_ifs at hrest with hmagic
    cases hrest
    exact ⟨rfl, rfl⟩

/-- After `heap_alloc_raw` a call only touches memory. -/
theorem mapsMore_finishes {g : Heap} (hg : TablesOk kernStart kernEnd totalPages g.vm)
    (hfin : Finishes g p c h') : MapsMore kernStart kernEnd totalPages g.vm h'.vm := by
  cases hfin with
  | null hq => exact mapsMore_refl hg
  | kmalloc => exact mapsMore_refl hg
  | kreallocNull => exact mapsMore_refl hg
  | kzalloc hq htouch => exact mapsMore_touch hg htouch
  | krealloc hq hblk hsrc hdst hfree =>
    have hfirst := mapsMore_touch hg hsrc
    have hsecond := mapsMore_touch hfirst.tables hdst
    rw [(kfree_kept hfree).1]
    exact hfirst.trans hsecond

theorem Finishes.brk {g : Heap} (hfin : Finishes g p c h') : h'.brk = g.brk := by
  cases hfin with
  | null hq => rfl
  | kmalloc => rfl
  | kreallocNull => rfl
  | kzalloc hq htouch => rfl
  | krealloc hq hblk hsrc hdst hfree => exact (kfree_kept hfree).2.trans rfl

theorem mapsMore_exec (hv : TablesOk kernStart kernEnd totalPages h.vm)
    (hres : h.exec c = some (p, h')) : MapsMore kernStart kernEnd totalPages h.vm h'.vm := by
  rcases exec_cases hres with ⟨-, rfl | ⟨ptr, hfree⟩⟩ | ⟨size, g, -, halloc, hfin⟩
  · exact mapsMore_refl hv
  · rw [(kfree_kept hfree).1]
    exact mapsMore_refl hv
  · have hg := mapsMore_alloc hv halloc
    exact hg.trans (mapsMore_finishes hg.tables hfin)

theorem mapsMore_init (hv : TablesOk kernStart kernEnd totalPages v)
    (hinit : heapInit v = some h) : MapsMore kernStart kernEnd totalPages v h.vm := by
  obtain ⟨-, vm, htouch, -, rfl⟩ := heapInit_cases hinit
  have hgrown := @mapsMore_grow kernStart kernEnd totalPages (Heap.empty v) hv (4 * pageSize)
  exact hgrown.trans (mapsMore_touch hgrown.tables htouch)

end PinguinOS.Mm
