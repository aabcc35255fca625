import PinguinOS.Lib.Run
import PinguinOS.Mm.Boot

/-! Runs of the paging calls: the directory is a partial map from pages to frames. -/
namespace PinguinOS.Mm

inductive PagingCall
  | mapPage (virt phys : Nat) (flags : BitVec 32)
  | mapRange (virt phys count : Nat) (flags : BitVec 32)
  | unmapPage (virt : Nat)

def Vm.paging (v : Vm) : PagingCall → Vm
  | .mapPage virt phys flags => (pagingMapPage v virt phys flags).2
  | .mapRange virt phys count flags => (pagingMapRange v virt phys count flags).2
  | .unmapPage virt => pagingUnmapPage v virt

def Vm.pagingStep (v : Vm) (c : PagingCall) : Option Vm := some (v.paging c)

/-! The abstract map: where each address goes, 0 for an address of no mapped page. -/

/-- The page of `virt` goes to the frame of `phys`. -/
def mapped (m : Nat → Nat) (virt phys : Nat) : Nat → Nat := fun a =>
  if a / 4096 = virt / 4096 then phys / 4096 * 4096 + a % 4096 else m a

def unmapped (m : Nat → Nat) (virt : Nat) : Nat → Nat := fun a =>
  if a / 4096 = virt / 4096 then 0 else m a

/-- Each call of the directory does to the translation what the map operation does. -/
structure Vm.RefinesMap (v : Vm) : Prop where
  map : ∀ virt phys flags, virt < 2 ^ 32 → phys < 2 ^ 32 → phys / 4096 ≠ 0 →
    (pagingMapPage v virt phys flags).1 = 0 ∧
        pagingGetPhys (pagingMapPage v virt phys flags).2 = mapped (pagingGetPhys v) virt phys ∨
      (pagingMapPage v virt phys flags).1 = -1 ∧
        pagingGetPhys (pagingMapPage v virt phys flags).2 = pagingGetPhys v
  unmap : ∀ virt, virt < 2 ^ 32 → ¬ v.Huge (pdIndex virt) →
    pagingGetPhys (pagingUnmapPage v virt) = unmapped (pagingGetPhys v) virt
  unmapHuge : ∀ virt, virt < 2 ^ 32 → v.Huge (pdIndex virt) → pagingUnmapPage v virt = v

variable {kernStart kernEnd totalPages virt phys : Nat} {v : Vm} {mbi : MultibootInfo} {mem : Mem}
  {starved : Nat → Bool} {calls : List PagingCall} {flags : BitVec 32}

theorem unmapPage_huge (h : v.Huge (pdIndex virt)) : pagingUnmapPage v virt = v := by
  unfold pagingUnmapPage getOrAllocPt
  dsimp only
  rw [if_pos h.1, if_pos h.2, if_pos rfl]

theorem unmapPage_absent (h : v.kernelPd (pdIndex virt) &&& pdePresent = 0) :
    pagingUnmapPage v virt = v := by
  unfold pagingUnmapPage getOrAllocPt
  dsimp only
  have hcreate : (!false) = true := rfl
  rw [if_neg (not_not.mpr h), if_pos hcreate, if_pos rfl]

theorem TablesOk.unmapPage_table (h : TablesOk kernStart kernEnd totalPages v)
    (ht : v.HasTable (pdIndex virt)) : pagingUnmapPage v virt =
      v.setWord (v.tablePfn (pdIndex virt) * pageSize) (ptIndex virt) 0 := by
  have hpos := (h.inRange _ ht).1
  have hne : v.tablePfn (pdIndex virt) * pageSize ≠ 0 := by
    simp only [pageSize]
    omega
  unfold pagingUnmapPage PinguinOS.Mm.getOrAllocPt
  dsimp only
  rw [if_pos ht.1, if_neg (not_not.mpr ht.2), table_address, if_neg hne]

/-- A directory entry is absent, a 4 MB page or a page table. -/
theorem Vm.entry_cases (v : Vm) (d : Nat) :
    v.kernelPd d &&& pdePresent = 0 ∨ v.Huge d ∨ v.HasTable d := by
  by_cases hpresent : v.kernelPd d &&& pdePresent = 0
  · exact Or.inl hpresent
  · by_cases hhuge : v.kernelPd d &&& pdeHuge = 0
    · exact Or.inr (Or.inr ⟨hpresent, hhuge⟩)
    · exact Or.inr (Or.inl ⟨hpresent, hhuge⟩)

theorem TablesOk.pagingUnmapPage (h : TablesOk kernStart kernEnd totalPages v) :
    TablesOk kernStart kernEnd totalPages (pagingUnmapPage v virt) := by
  rcases v.entry_cases (pdIndex virt) with habsent | hhuge | ht
  · rwa [unmapPage_absent habsent]
  · rwa [unmapPage_huge hhuge]
  · rw [h.unmapPage_table ht]
    exact h.setPte ht ptIndex_lt

theorem TablesOk.unmapPage_getPhys (h : TablesOk kernStart kernEnd totalPages v)
    (hd : ¬ v.Huge (pdIndex virt)) :
    pagingGetPhys (PinguinOS.Mm.pagingUnmapPage v virt) = unmapped (pagingGetPhys v) virt := by
  funext a
  unfold unmapped
  rcases v.entry_cases (pdIndex virt) with habsent | hhuge | ht
  · rw [unmapPage_absent habsent]
    by_cases hpage : a / 4096 = virt / 4096
    · rw [if_pos hpage]
      exact pagingGetPhys_absent ((samePage_iff.mp hpage).1 ▸ habsent)
    · rw [if_neg hpage]
  · exact absurd hhuge hd
  · rw [h.unmapPage_table ht, h.setPte_getPhys ht]
    exact if_congr Iff.rfl (if_pos (BitVec.zero_and)) rfl

theorem TablesOk.mapRangeFrom (h : TablesOk kernStart kernEnd totalPages v) (i n : Nat) :
    TablesOk kernStart kernEnd totalPages (mapRangeFrom v virt phys flags i n).2 := by
  induction n generalizing v i with
  | zero => exact h
  | succ n ih =>
    unfold PinguinOS.Mm.mapRangeFrom
    dsimp only
    split_ifs
    · exact h.mapPage
    · exact ih h.mapPage (i + 1)

theorem TablesOk.paging {c : PagingCall} (h : TablesOk kernStart kernEnd totalPages v) :
    TablesOk kernStart kernEnd totalPages (v.paging c) := by
  cases c with
  | mapPage virt phys flags => exact h.mapPage
  | mapRange virt phys count flags => exact h.mapRangeFrom 0 count
  | unmapPage virt => exact h.pagingUnmapPage

theorem TablesOk.refinesMap (h : TablesOk kernStart kernEnd totalPages v) : v.RefinesMap where
  map := by
    intro virt phys flags _ hphys _
    rcases @TablesOk.pagingMapPage _ _ _ virt v flags phys h hphys with
      ⟨hfail, hsame⟩ | ⟨hdone, hmap⟩
    · exact Or.inr ⟨hfail, funext hsame⟩
    · exact Or.inl ⟨hdone, funext hmap⟩
  unmap := fun virt _ hd => h.unmapPage_getPhys hd
  unmapHuge := fun virt _ hd => unmapPage_huge hd

/-- In every state that paging calls reach, the directory refines the map. -/
theorem paging_refinesMap (hs : kernStart < 2 ^ 32) (he : kernEnd < 2 ^ 32)
    (halign : kernEnd % pageSize = 0)
    (hrun : Run.run Vm.pagingStep (bootVm mbi kernStart kernEnd mem starved) calls = some v) :
    v.RefinesMap := by
  have hok : TablesOk kernStart kernEnd mbi.totalPages v := by
    refine Run.run_invariant ?_ (tablesOk_bootVm hs he halign) hrun
    rintro s c _ h ⟨⟩
    exact h.paging
  exact hok.refinesMap

theorem paging_refinesMap_small :
    (Vm.paging (Vm.paging (smallVm fun _ => false) (.mapRange 0x803FF000 0x106000 2 2))
      (.unmapPage 0x80400000)).RefinesMap :=
  @paging_refinesMap 0x100000 0x101000 _ _ _ _
    [.mapRange 0x803FF000 0x106000 2 2, .unmapPage 0x80400000] (by decide) (by decide) (by decide) rfl

end PinguinOS.Mm
