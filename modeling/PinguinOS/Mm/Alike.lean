import Mathlib.Data.List.Find
import PinguinOS.Mm.Write

/-! Two memories that differ inside frames only: the allocator and the page tables do the same in
both. -/
namespace PinguinOS.Mm

/-- `u` is `w`, but for the contents of allocated pages that are neither the kernel's nor page
tables. -/
structure Alike (kernStart kernEnd totalPages : Nat) (w u : Vm) : Prop where
  rest : u = w.withMem u.pmm.mem
  mem : ∀ x, ¬ FreshPage kernStart kernEnd totalPages w (x / 1024) → u.pmm.mem x = w.pmm.mem x

/-- `w'` and `u'` are as alike as `w` and `u`. -/
structure Moves (w u w' u' : Vm) : Prop where
  rest : u' = w'.withMem u'.pmm.mem
  mem : ∀ x, u.pmm.mem x = w.pmm.mem x → u'.pmm.mem x = w'.pmm.mem x

variable {kernStart kernEnd totalPages a d f i n j x virt phys faults : Nat}
  {v u w t w' u' : Vm} {flags right : BitVec 32} {b : BitVec 8} {current : Option Process}

theorem Moves.trans {w'' u'' : Vm} (h : Moves w u w' u') (h' : Moves w' u' w'' u'') :
    Moves w u w'' u'' :=
  ⟨h'.rest, fun x heq => h'.mem x (h.mem x heq)⟩

theorem Alike.refl (v : Vm) : Alike kernStart kernEnd totalPages v v := ⟨rfl, fun _ _ => rfl⟩

theorem Alike.move (h : Alike kernStart kernEnd totalPages w u) (hmove : Moves w u w' u')
    (hkeep : ∀ i, FreshPage kernStart kernEnd totalPages w i →
      FreshPage kernStart kernEnd totalPages w' i) : Alike kernStart kernEnd totalPages w' u' := by
  refine ⟨hmove.rest, ?_⟩
  intro x hx
  exact hmove.mem x (h.mem x fun hfresh => hx (hkeep _ hfresh))

theorem Alike.pd (h : Alike kernStart kernEnd totalPages w u) : u.kernelPd = w.kernelPd := by
  rw [h.rest]
  rfl

theorem Alike.kernel (h : Alike kernStart kernEnd totalPages w u)
    (hin : InKernel kernStart kernEnd totalPages (x / 1024)) : u.pmm.mem x = w.pmm.mem x :=
  h.mem x fun hfresh => hfresh.outside hin

theorem Alike.sameTables (h : Alike kernStart kernEnd totalPages w u) : SameTables w u := by
  refine ⟨h.pd, ?_⟩
  intro d hd x hx
  exact h.mem x fun hfresh => hfresh.apart d hd hx.symm

theorem Alike.test (h : Alike kernStart kernEnd totalPages w u)
    (hok : TablesOk kernStart kernEnd totalPages w) (hj : j < totalPages) :
    bitmapTest u.pmm j = bitmapTest w.pmm j := by
  have htest := (hok.sane.withMem fun x hin => h.kernel hin).2 j hj
  rw [h.rest]
  exact htest

theorem Alike.tablesOk (h : Alike kernStart kernEnd totalPages w u)
    (hok : TablesOk kernStart kernEnd totalPages w) :
    TablesOk kernStart kernEnd totalPages u := by
  have hsane := (hok.sane.withMem fun x hin => h.kernel hin).1
  refine hok.samePd h.pd ?_ fun j hj hset => (h.test hok hj).trans hset
  rw [h.rest]
  exact hsane

/-! `pmm_alloc_page` -/

/-- The allocator finds the same page in both. -/
theorem moves_pmmAllocPage {p : Pmm} {m : Mem}
    (htest : ∀ j < p.totalPages, bitmapTest { p with mem := m } j = bitmapTest p j) :
    (pmmAllocPage { p with mem := m }).1 = (pmmAllocPage p).1 ∧
      (pmmAllocPage { p with mem := m }).2 =
        { (pmmAllocPage p).2 with mem := (pmmAllocPage { p with mem := m }).2.mem } ∧
      ∀ x, m x = p.mem x →
        (pmmAllocPage { p with mem := m }).2.mem x = (pmmAllocPage p).2.mem x := by
  have hfind : (pfnsFromOne p).find? (fun pfn => !bitmapTest { p with mem := m } pfn) =
      (pfnsFromOne p).find? fun pfn => !bitmapTest p pfn := by
    apply List.find?_congr
    intro j hj
    have hrange := List.mem_range'_1.mp hj
    rw [htest j (by omega)]
  unfold pmmAllocPage
  change _ ∧ _ ∧ _
  have hlist : pfnsFromOne { p with mem := m } = pfnsFromOne p := rfl
  rw [hlist, hfind]
  cases (pfnsFromOne p).find? fun pfn => !bitmapTest p pfn with
  | none => exact ⟨rfl, rfl, fun x hx => hx⟩
  | some pfn =>
    refine ⟨rfl, rfl, ?_⟩
    intro x hx
    refine if_congr Iff.rfl rfl ?_
    unfold Pmm.decFree bitmapSet BitTable.set
    dsimp only
    by_cases hword : x = bitmapWord p pfn
    · subst hword
      have hsame : bitmapWord { p with mem := m } pfn = bitmapWord p pfn := rfl
      rw [hsame, Function.update_self, Function.update_self, hx]
    · have hsame : bitmapWord { p with mem := m } pfn = bitmapWord p pfn := rfl
      rw [hsame, Function.update_of_ne hword, Function.update_of_ne hword, hx]

theorem moves_allocPage {m : Mem}
    (htest : ∀ j < w.pmm.totalPages, bitmapTest (w.withMem m).pmm j = bitmapTest w.pmm j) :
    (w.withMem m).allocPage.1 = w.allocPage.1 ∧
      Moves w (w.withMem m) w.allocPage.2 (w.withMem m).allocPage.2 := by
  obtain ⟨hphys, hrest, hmem⟩ := moves_pmmAllocPage htest
  unfold Vm.allocPage
  dsimp only
  by_cases hstarved : w.starved 0 = true
  · have hstarved' : (w.withMem m).starved 0 = true := hstarved
    rw [if_pos hstarved, if_pos hstarved']
    exact ⟨rfl, rfl, fun x hx => hx⟩
  · have hstarved' : ¬ (w.withMem m).starved 0 = true := hstarved
    rw [if_neg hstarved, if_neg hstarved']
    refine ⟨hphys, ?_, hmem⟩
    unfold Vm.withMem
    dsimp only
    rw [Vm.mk.injEq]
    exact ⟨hrest, rfl, rfl⟩

theorem Alike.movesAlloc (h : Alike kernStart kernEnd totalPages w u)
    (hok : TablesOk kernStart kernEnd totalPages w) :
    u.allocPage.1 = w.allocPage.1 ∧ Moves w u w.allocPage.2 u.allocPage.2 := by
  have htest : ∀ j < w.pmm.totalPages,
      bitmapTest (w.withMem u.pmm.mem).pmm j = bitmapTest w.pmm j := by
    intro j hj
    rw [← h.rest]
    exact h.test hok (hok.sane.total ▸ hj)
  have hmoves := moves_allocPage htest
  rw [← h.rest] at hmoves
  exact hmoves

theorem Alike.allocPage (h : Alike kernStart kernEnd totalPages w u)
    (hok : TablesOk kernStart kernEnd totalPages w) :
    u.allocPage.1 = w.allocPage.1 ∧
      Alike kernStart kernEnd totalPages w.allocPage.2 u.allocPage.2 := by
  obtain ⟨hphys, hmoves⟩ := h.movesAlloc hok
  exact ⟨hphys, h.move hmoves fun i hi => (hi.allocPage hok).1.fresh⟩

/-! `paging_map_page` -/

theorem Alike.getOrAllocPt (h : Alike kernStart kernEnd totalPages w u)
    (hok : TablesOk kernStart kernEnd totalPages w) :
    (getOrAllocPt u d true flags).1 = (getOrAllocPt w d true flags).1 ∧
      Moves w u (getOrAllocPt w d true flags).2 (getOrAllocPt u d true flags).2 := by
  obtain ⟨hphys, hmoves⟩ := h.movesAlloc hok
  have hsame : Moves w u w u := ⟨h.rest, fun _ hx => hx⟩
  unfold PinguinOS.Mm.getOrAllocPt
  dsimp only
  rw [h.pd]
  by_cases hpresent : w.kernelPd d &&& pdePresent ≠ 0
  · rw [if_pos hpresent, if_pos hpresent]
    by_cases hhuge : w.kernelPd d &&& pdeHuge ≠ 0
    · rw [if_pos hhuge, if_pos hhuge]
      exact ⟨rfl, hsame⟩
    · rw [if_neg hhuge, if_neg hhuge]
      exact ⟨rfl, hsame⟩
  · have hcreate : ¬ (!true) = true := by decide
    rw [if_neg hpresent, if_neg hpresent, if_neg hcreate, if_neg hcreate, hphys]
    by_cases hzero : w.allocPage.1 = 0
    · rw [if_pos hzero, if_pos hzero]
      exact ⟨rfl, hmoves⟩
    · rw [if_neg hzero, if_neg hzero]
      refine ⟨rfl, ?_, ?_⟩
      · have hrest := hmoves.rest
        generalize u.allocPage.2.pmm.mem = m at hrest
        rw [hrest]
        rfl
      · intro x hx
        exact if_congr Iff.rfl rfl (hmoves.mem x hx)

theorem moves_setWord {base : Nat} {y : BitVec 32} (h : Moves w u w' u') :
    Moves w u (w'.setWord base i y) (u'.setWord base i y) := by
  refine ⟨?_, ?_⟩
  · have hrest := h.rest
    generalize u'.pmm.mem = m at hrest
    subst hrest
    rfl
  · intro x hx
    rw [setWord_mem, setWord_mem]
    exact if_congr Iff.rfl rfl (h.mem x hx)

theorem Alike.mapPage (h : Alike kernStart kernEnd totalPages w u)
    (hok : TablesOk kernStart kernEnd totalPages w) :
    (pagingMapPage u virt phys flags).1 = (pagingMapPage w virt phys flags).1 ∧
      Alike kernStart kernEnd totalPages (pagingMapPage w virt phys flags).2
        (pagingMapPage u virt phys flags).2 := by
  obtain ⟨hpt, hmoves⟩ := @Alike.getOrAllocPt _ _ _ (pdIndex virt) u w flags h hok
  have hkeep := fun i hi => (@FreshPage.mapPage _ _ _ virt phys i w flags hi hok).fresh
  have hboth : (pagingMapPage u virt phys flags).1 = (pagingMapPage w virt phys flags).1 ∧
      Moves w u (pagingMapPage w virt phys flags).2 (pagingMapPage u virt phys flags).2 := by
    unfold pagingMapPage
    dsimp only
    rw [hpt]
    split_ifs
    · exact ⟨rfl, hmoves⟩
    · exact ⟨rfl, moves_setWord hmoves⟩
  exact ⟨hboth.1, h.move hboth.2 hkeep⟩

/-! The rights of pages with a page table. -/

theorem pte_eq : v.pte a = v.pmm.mem (v.tablePfn (pdIndex a) * 1024 + ptIndex a) := by
  unfold Vm.pte Vm.word
  rw [table_address, table_word]

theorem grants_congr (hpd : u.kernelPd (pdIndex a) = w.kernelPd (pdIndex a))
    (hpte : u.pte a = w.pte a) : u.Grants a right ↔ w.Grants a right := by
  unfold Vm.Grants Vm.Huge
  rw [hpd, hpte]

theorem SameTables.pte (h : SameTables w u) (ht : w.HasTable (pdIndex a)) :
    u.pte a = w.pte a := by
  have hidx := @ptIndex_lt a
  rw [pte_eq, pte_eq, tablePfn_congr (congrFun h.1 _)]
  exact h.2 _ ht _ (by omega)

theorem SameTables.grants (h : SameTables w u) (ht : w.HasTable (pdIndex a)) :
    u.Grants a right ↔ w.Grants a right :=
  grants_congr (congrFun h.1 _) (h.pte ht)

/-- `get_or_alloc_pt` leaves the entries of the tables that there are. -/
theorem GetsTable.pte {r : Nat × Vm} (hget : GetsTable kernStart kernEnd totalPages w d flags r)
    (h : TablesOk kernStart kernEnd totalPages w) (ht : w.HasTable (pdIndex a)) :
    r.2.HasTable (pdIndex a) ∧ r.2.kernelPd (pdIndex a) = w.kernelPd (pdIndex a) ∧
      r.2.pte a = w.pte a := by
  have hidx := @ptIndex_lt a
  obtain ⟨-, hsame, -⟩ := h.allocPage
  have hpd : r.2.kernelPd (pdIndex a) = w.kernelPd (pdIndex a) := by
    cases hget with
    | huge hd => rfl
    | present hd => rfl
    | noPage hd hzero => exact congrFun hsame.1 _
    | create hd i haddr hfresh =>
      have hne : pdIndex a ≠ d := by
        rintro rfl
        exact ht.1 hd
      exact (newTable_of_ne hne).trans (congrFun hsame.1 _)
  refine ⟨(hasTable_congr hpd).mpr ht, hpd, ?_⟩
  cases hget with
  | huge hd => rfl
  | present hd => rfl
  | noPage hd hzero => exact hsame.pte ht
  | create hd i haddr hfresh =>
    have ht' := hasTable_allocPage.mpr ht
    have hapart := hfresh.apart _ ht'
    rw [← hsame.pte ht, pte_eq, pte_eq, tablePfn_congr hpd, tablePfn_allocPage]
    rw [tablePfn_allocPage] at hapart
    exact newTable_mem (by omega)

/-- The entries of other pages stay. -/
theorem TablesOk.setPte_pte {y : BitVec 32} (h : TablesOk kernStart kernEnd totalPages w)
    (ht : w.HasTable (pdIndex a)) (hd : w.HasTable (pdIndex virt))
    (hne : a / 4096 ≠ virt / 4096) :
    (w.setWord (w.tablePfn (pdIndex virt) * pageSize) (ptIndex virt) y).pte a = w.pte a := by
  have hsame : (w.setWord (w.tablePfn (pdIndex virt) * pageSize) (ptIndex virt) y).tablePfn
      (pdIndex a) = w.tablePfn (pdIndex a) := rfl
  rw [pte_eq, pte_eq, hsame, setWord_mem, table_word]
  exact if_neg fun heq => hne (h.samePage_of_word ht hd heq)

theorem mapPage_grants (h : TablesOk kernStart kernEnd totalPages w)
    (ht : w.HasTable (pdIndex a)) (hne : a / 4096 ≠ virt / 4096) :
    (pagingMapPage w virt phys flags).2.Grants a right ↔ w.Grants a right := by
  obtain ⟨ht', hpd, hpte⟩ := (h.getsTable (pdIndex virt) flags).pte h ht
  obtain ⟨hok, -, hpt⟩ := h.getOrAllocPt (pdIndex virt) flags
  unfold pagingMapPage
  dsimp only
  by_cases hzero : (PinguinOS.Mm.getOrAllocPt w (pdIndex virt) true flags).1 = 0
  · rw [if_pos hzero]
    exact grants_congr hpd hpte
  · rw [if_neg hzero]
    obtain ⟨hd, haddr⟩ := hpt.resolve_left hzero
    rw [haddr]
    exact grants_congr hpd ((hok.setPte_pte ht' hd hne).trans hpte)

/-! A byte is written to a page that is mapped and writable. -/

theorem faultIn_writable (h : v.Writable a) : faultIn current a faults v = some v := by
  cases faults with
  | zero => exact if_pos h
  | succ faults => exact if_pos h

theorem Alike.writeByte (h : Alike kernStart kernEnd totalPages w u)
    (hmap : w.MapsTo (a / 4096) f) (hfresh : FreshPage kernStart kernEnd totalPages w f)
    (hw : w.Writable a) : ∃ t, PinguinOS.Mm.writeByte current faults u a b = some t ∧
      Alike kernStart kernEnd totalPages w t := by
  have hsame := h.sameTables
  have htable : w.HasTable (pdIndex a) := by
    have hd := hmap.1
    rw [← page_pdIndex, (samePage_iff.mp (by omega : a / 4096 * 4096 / 4096 = a / 4096)).1] at hd
    exact hd
  have hu : u.Writable a := ⟨(hsame.grants htable).mpr hw.1, (hsame.grants htable).mpr hw.2⟩
  refine ⟨_, Option.map_eq_some_iff.mpr ⟨u, faultIn_writable hu, rfl⟩, ?_, ?_⟩
  · have hrest := h.rest
    generalize u.pmm.mem = m at hrest
    rw [hrest]
    rfl
  · intro x hx
    refine (Bytes.setByte_word ?_).trans (h.mem x hx)
    rw [hsame.getPhys, hmap.getPhys rfl]
    rintro rfl
    refine hx ?_
    have hpage : (f * 4096 + a % 4096) / 4 / 1024 = f := by omega
    rw [hpage]
    exact hfresh

end PinguinOS.Mm
