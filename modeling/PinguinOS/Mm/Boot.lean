import PinguinOS.Mm.PageTables

/-! The machine that `pmm_init` and `paging_init` hand to the rest of the kernel. -/
namespace PinguinOS.Mm

/-- `pmm_init`, then `paging_init`. -/
def bootVm (mbi : MultibootInfo) (kernStart kernEnd : Nat) (mem : Mem) (starved : Nat → Bool) :
    Vm :=
  pagingInit
    { pmm := pmmInit mbi kernStart kernEnd mem
      kernelPd := fun _ => 0
      starved := starved }

variable {kernStart kernEnd totalPages d addr len total : Nat} {v : Vm} {mbi : MultibootInfo}
  {mem : Mem} {starved : Nat → Bool}

/-- `paging_init` enters 4 MB pages only. -/
theorem not_hasTable_pagingInit : ¬ (pagingInit v).HasTable d := by
  rintro ⟨hpresent, hhuge⟩
  rw [pagingInit_pd] at hpresent hhuge
  have hset : ∀ flags i, hugePde flags i &&& pdeHuge ≠ 0 := by
    intro flags i hzero
    unfold hugePde at hzero
    rw [BitVec.and_or_distrib_right, BitVec.and_or_distrib_right] at hzero
    have hhuge := (BitVec.or_eq_zero_iff.mp (BitVec.or_eq_zero_iff.mp hzero).1).2
    exact absurd hhuge (by decide)
  split_ifs at hpresent hhuge
  · exact hset _ _ hhuge
  · exact hset _ _ hhuge
  · exact hset _ _ hhuge
  · exact hpresent (BitVec.zero_and)

theorem tablesOk_pagingInit (h : Sane kernStart kernEnd totalPages v.pmm) :
    TablesOk kernStart kernEnd totalPages (pagingInit v) where
  sane := h
  inRange := fun _ ht => absurd ht not_hasTable_pagingInit
  used := fun _ ht => absurd ht not_hasTable_pagingInit
  outside := fun _ ht => absurd ht not_hasTable_pagingInit
  apart := fun _ _ ht _ _ => absurd ht not_hasTable_pagingInit

theorem tablesOk_bootVm (hs : kernStart < 2 ^ 32) (he : kernEnd < 2 ^ 32)
    (halign : kernEnd % pageSize = 0) :
    TablesOk kernStart kernEnd mbi.totalPages (bootVm mbi kernStart kernEnd mem starved) :=
  tablesOk_pagingInit (sane_pmmInit hs he halign)

/-! A machine with nine pages of memory from 1 MB on, the first of them the kernel's. -/

theorem pmmInit_oneRegion (htotal : (oneRegion addr len).totalPages = total) :
    pmmInit (oneRegion addr len) kernStart kernEnd mem =
      reserve (freeEntry
        { mem := memset mem kernEnd (BitVec.allOnes 32) (bitmapBytes total)
          bitmap := kernEnd
          totalPages := total
          freePages := 0 }
        { size := 20, addr := addr, len := len, type := 1 }) kernStart kernEnd := by
  subst htotal
  unfold pmmInit MultibootInfo.freeRegions
  rw [oneRegion_entries]
  rfl

def smallVm (starved : Nat → Bool) : Vm :=
  bootVm (oneRegion 0x100000 0x9000) 0x100000 0x101000 (fun _ => 0) starved

theorem smallVm_totalPages : (oneRegion 0x100000 0x9000).totalPages = 0x109 := by
  simp only [MultibootInfo.totalPages, MultibootInfo.memBytes, oneRegion_entries]
  decide

theorem tablesOk_smallVm : TablesOk 0x100000 0x101000 0x109 (smallVm starved) := by
  rw [← smallVm_totalPages]
  exact tablesOk_bootVm (by decide) (by decide) (by decide)

/-- The same machine without the walk of the memory map, which `decide` cannot follow. -/
def smallVmDirect (starved : Nat → Bool) : Vm :=
  pagingInit
    { pmm := reserve (freeEntry
        { mem := memset (fun _ => 0) 0x101000 (BitVec.allOnes 32) (bitmapBytes 0x109)
          bitmap := 0x101000
          totalPages := 0x109
          freePages := 0 }
        { size := 20, addr := 0x100000, len := 0x9000, type := 1 }) 0x100000 0x101000
      kernelPd := fun _ => 0
      starved := starved }

theorem smallVm_eq : smallVm starved = smallVmDirect starved := by
  unfold smallVm bootVm smallVmDirect
  rw [pmmInit_oneRegion smallVm_totalPages]

end PinguinOS.Mm
