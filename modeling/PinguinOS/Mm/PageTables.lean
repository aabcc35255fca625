import PinguinOS.Mm.Paging
import PinguinOS.Mm.PmmRun

/-! Page tables in allocated pages: no allocation disturbs them, and a mapping changes one
translation. -/
namespace PinguinOS.Mm

/-- The directory entry points to a page table. -/
def Vm.HasTable (v : Vm) (d : Nat) : Prop :=
  v.kernelPd d &&& pdePresent ≠ 0 ∧ v.kernelPd d &&& pdeHuge = 0

/-- The page of the page table. -/
def Vm.tablePfn (v : Vm) (d : Nat) : Nat := (v.kernelPd d).toNat / 4096

/-- The page tables lie in distinct allocated pages outside the kernel and the bitmap. -/
structure TablesOk (kernStart kernEnd totalPages : Nat) (v : Vm) : Prop where
  sane : Sane kernStart kernEnd totalPages v.pmm
  inRange : ∀ d, v.HasTable d → 0 < v.tablePfn d ∧ v.tablePfn d < totalPages
  used : ∀ d, v.HasTable d → bitmapTest v.pmm (v.tablePfn d) = true
  outside : ∀ d, v.HasTable d → ¬ InKernel kernStart kernEnd totalPages (v.tablePfn d)
  apart : ∀ d d', v.HasTable d → v.HasTable d' → v.tablePfn d = v.tablePfn d' → d = d'

variable {kernStart kernEnd totalPages a d i j w virt : Nat} {v u : Vm} {p : Pmm} {m : Mem}

theorem table_address : (v.kernelPd d &&& pageMask).toNat = v.tablePfn d * pageSize :=
  toNat_and_pageMask

/-- The first word of the page table. -/
theorem table_word : v.tablePfn d * pageSize / 4 = v.tablePfn d * 1024 := by
  simp only [pageSize]
  omega

theorem ptIndex_lt : ptIndex virt < 1024 := by
  have h : ptIndex virt = (virt >>> 12) % 2 ^ 10 := Nat.and_two_pow_sub_one_eq_mod _ 10
  omega

theorem ptIndex_eq : ptIndex virt = virt / 4096 % 1024 := by
  have h : ptIndex virt = (virt >>> 12) % 2 ^ 10 := Nat.and_two_pow_sub_one_eq_mod _ 10
  rw [h, Nat.shiftRight_eq_div_pow]
  rfl

/-- Two addresses lie in one page if both their indices are the same. -/
theorem samePage_iff {b : Nat} :
    a / 4096 = b / 4096 ↔ pdIndex a = pdIndex b ∧ ptIndex a = ptIndex b := by
  rw [pdIndex_eq, pdIndex_eq, ptIndex_eq, ptIndex_eq]
  omega

/-! Translations depend on the directory and on the words of the page tables only. -/

/-- The words of every page table are the same. -/
def SameTables (v u : Vm) : Prop :=
  u.kernelPd = v.kernelPd ∧
    ∀ d, v.HasTable d → ∀ w, w / 1024 = v.tablePfn d → u.pmm.mem w = v.pmm.mem w

theorem pagingGetPhys_congr (hpd : u.kernelPd (pdIndex virt) = v.kernelPd (pdIndex virt))
    (hmem : v.HasTable (pdIndex virt) → u.pmm.mem (v.tablePfn (pdIndex virt) * 1024 + ptIndex virt) =
      v.pmm.mem (v.tablePfn (pdIndex virt) * 1024 + ptIndex virt)) :
    pagingGetPhys u virt = pagingGetPhys v virt := by
  have hword : v.HasTable (pdIndex virt) →
      u.word (v.kernelPd (pdIndex virt) &&& pageMask).toNat (ptIndex virt) =
        v.word (v.kernelPd (pdIndex virt) &&& pageMask).toNat (ptIndex virt) := by
    intro htable
    unfold Vm.word
    rw [table_address, table_word]
    exact hmem htable
  unfold pagingGetPhys
  dsimp only
  rw [hpd]
  by_cases hpresent : v.kernelPd (pdIndex virt) &&& pdePresent = 0
  · rw [if_pos hpresent, if_pos hpresent]
  · by_cases hhuge : v.kernelPd (pdIndex virt) &&& pdeHuge = 0
    · rw [hword ⟨hpresent, hhuge⟩]
    · rw [if_neg hpresent, if_neg hpresent, if_pos hhuge, if_pos hhuge]

theorem SameTables.getPhys (h : SameTables v u) : pagingGetPhys u virt = pagingGetPhys v virt := by
  have hidx := @ptIndex_lt virt
  refine pagingGetPhys_congr (by rw [h.1]) fun htable => h.2 _ htable _ ?_
  omega

theorem hasTable_congr (hpd : u.kernelPd d = v.kernelPd d) : u.HasTable d ↔ v.HasTable d := by
  unfold Vm.HasTable
  rw [hpd]

theorem tablePfn_congr (hpd : u.kernelPd d = v.kernelPd d) : u.tablePfn d = v.tablePfn d := by
  unfold Vm.tablePfn
  rw [hpd]

/-- The directory stays, and no used page is given back. -/
theorem TablesOk.samePd (h : TablesOk kernStart kernEnd totalPages v)
    (hpd : u.kernelPd = v.kernelPd) (hsane : Sane kernStart kernEnd totalPages u.pmm)
    (hkeep : ∀ j < totalPages, bitmapTest v.pmm j = true → bitmapTest u.pmm j = true) :
    TablesOk kernStart kernEnd totalPages u := by
  have htable : ∀ d, u.HasTable d ↔ v.HasTable d := fun d => hasTable_congr (by rw [hpd])
  have hpfn : ∀ d, u.tablePfn d = v.tablePfn d := fun d => tablePfn_congr (by rw [hpd])
  refine ⟨hsane, ?_, ?_, ?_, ?_⟩
  · intro d hd
    rw [hpfn]
    exact h.inRange d ((htable d).mp hd)
  · intro d hd
    have hd := (htable d).mp hd
    rw [hpfn]
    exact hkeep _ (h.inRange d hd).2 (h.used d hd)
  · intro d hd
    rw [hpfn]
    exact h.outside d ((htable d).mp hd)
  · intro d d' hd hd' heq
    rw [hpfn, hpfn] at heq
    exact h.apart d d' ((htable d).mp hd) ((htable d').mp hd') heq

@[simp] theorem allocPage_kernelPd : v.allocPage.2.kernelPd = v.kernelPd := by
  unfold Vm.allocPage
  dsimp only
  split_ifs
  · rfl
  · rfl

theorem Vm.allocPage_cases (htotal : v.pmm.totalPages ≤ 2 ^ 18) :
    (v.allocPage.1 = 0 ∧ v.allocPage.2.pmm = v.pmm) ∨
      ∃ i, v.allocPage.1 = i * pageSize ∧ v.allocPage.2.pmm = takePages v.pmm i 1 ∧
        Allocates v.pmm i 1 (takePages v.pmm i 1) := by
  unfold Vm.allocPage
  dsimp only
  split_ifs
  · exact Or.inl ⟨rfl, rfl⟩
  · rcases pmmAllocPage_cases htotal with hnone | ⟨i, hsome, ha⟩
    · rw [hnone]
      exact Or.inl ⟨rfl, rfl⟩
    · rw [hsome]
      exact Or.inr ⟨i, rfl, rfl, ha⟩

/-- What `pmm_alloc_page` hands out is a fresh page; page tables stay as they are. -/
theorem TablesOk.allocPage (h : TablesOk kernStart kernEnd totalPages v) :
    TablesOk kernStart kernEnd totalPages v.allocPage.2 ∧ SameTables v v.allocPage.2 ∧
      (v.allocPage.1 = 0 ∨ ∃ i, v.allocPage.1 = i * pageSize ∧ 0 < i ∧ i < totalPages ∧
        bitmapTest v.allocPage.2.pmm i = true ∧ ¬ InKernel kernStart kernEnd totalPages i ∧
        ∀ d, v.HasTable d → v.tablePfn d ≠ i) := by
  have htotal := h.sane.total
  rcases v.allocPage_cases h.sane.placed.total with ⟨hzero, hpmm⟩ | ⟨i, hphys, hpmm, ha⟩
  · have hsame : SameTables v v.allocPage.2 := ⟨allocPage_kernelPd, fun _ _ _ _ => by rw [hpmm]⟩
    refine ⟨h.samePd allocPage_kernelPd (hpmm ▸ h.sane) ?_, hsame, Or.inl hzero⟩
    intro j _ hj
    rwa [hpmm]
  · have hi : i < totalPages := by
      have hrange := ha.inRange
      omega
    have hfree := ha.free i (Nat.le_refl i) (by omega)
    have hfresh : ∀ d, v.HasTable d → v.tablePfn d ≠ i := by
      intro d hd heq
      have hused := h.used d hd
      rw [heq, hfree] at hused
      cases hused
    have hsame : SameTables v v.allocPage.2 := by
      refine ⟨allocPage_kernelPd, fun d hd w hw => ?_⟩
      rw [hpmm]
      have hne := hfresh d hd
      refine takePages_mem h.sane (by omega) (by omega) ?_
      rw [hw]
      exact h.outside d hd
    have htest := fun j (hj : j < totalPages) => h.sane.allocates_test ha (htotal.symm ▸ hj)
    refine ⟨h.samePd allocPage_kernelPd (hpmm ▸ h.sane.allocates ha) ?_, hsame,
      Or.inr ⟨i, hphys, ha.nonzero, hi, ?_, ?_, hfresh⟩⟩
    · intro j hj hset
      rw [hpmm]
      exact (htest j hj).mpr (Or.inr hset)
    · rw [hpmm]
      exact (htest i hi).mpr (Or.inl ⟨Nat.le_refl i, by omega⟩)
    · intro hin
      rw [h.sane.kernel i hi hin] at hfree
      cases hfree

/-! `get_or_alloc_pt` -/

theorem pagingGetPhys_absent (h : v.kernelPd (pdIndex virt) &&& pdePresent = 0) :
    pagingGetPhys v virt = 0 := if_pos h

theorem pagingGetPhys_table (h : v.HasTable (pdIndex virt)) {pte : BitVec 32}
    (hpte : v.pmm.mem (v.tablePfn (pdIndex virt) * 1024 + ptIndex virt) = pte) :
    pagingGetPhys v virt = if pte &&& pdePresent = 0 then 0
      else ((pte &&& pageMask) ||| (BitVec.ofNat 32 virt &&& 0xFFF)).toNat := by
  unfold pagingGetPhys Vm.word
  dsimp only
  rw [if_neg h.1, if_neg (not_not.mpr h.2), table_address, table_word, hpte]

/-- Flags below the page mask. -/
theorem lt_of_and_low {f : BitVec 32} (h : f &&& 0xFFF = f) : f.toNat < 4096 := by
  rw [← h, toNat_and_low]
  exact Nat.mod_lt _ (by decide)

/-- The flags of a new directory entry. -/
def tableFlags (flags : BitVec 32) : BitVec 32 := pdePresent ||| pdeWritable ||| (flags &&& pdeUser)

theorem tableFlags_low (flags : BitVec 32) : tableFlags flags &&& 0xFFF = tableFlags flags := by
  unfold tableFlags
  rw [BitVec.and_or_distrib_right, BitVec.and_assoc]
  rfl

theorem tableFlags_present {flags : BitVec 32} : tableFlags flags &&& pdePresent ≠ 0 := by
  unfold tableFlags
  rw [BitVec.and_or_distrib_right]
  intro h
  exact absurd (BitVec.or_eq_zero_iff.mp h).1 (by decide)

theorem tableFlags_huge {flags : BitVec 32} : tableFlags flags &&& pdeHuge = 0 := by
  have huser : pdeUser &&& pdeHuge = 0#32 := by decide
  unfold tableFlags
  rw [BitVec.and_or_distrib_right, BitVec.and_assoc, huser, BitVec.and_zero]
  decide

/-- A new page table: the page `i`, zeroed, entered at `d`. -/
def Vm.newTable (v : Vm) (d i : Nat) (flags : BitVec 32) : Vm :=
  { v with
    pmm := { v.pmm with mem := memset v.pmm.mem (i * pageSize) 0 pageSize }
    kernelPd := Function.update v.kernelPd d (BitVec.ofNat 32 (i * pageSize) ||| tableFlags flags) }

theorem newTable_mem {flags : BitVec 32} (hw : w / 1024 ≠ i) :
    (v.newTable d i flags).pmm.mem w = v.pmm.mem w := by
  refine if_neg ?_
  simp only [pageSize]
  omega

theorem newTable_zero {flags : BitVec 32} (hw : w / 1024 = i) :
    (v.newTable d i flags).pmm.mem w = 0 := by
  refine if_pos ?_
  simp only [pageSize]
  omega

theorem newTable_hasTable (v : Vm) (d : Nat) (flags : BitVec 32) (hi : i < 2 ^ 18) :
    (v.newTable d i flags).HasTable d ∧ (v.newTable d i flags).tablePfn d = i := by
  have ha : i * pageSize % 4096 = 0 := Nat.mul_mod_left i 4096
  have hlt : i * pageSize < 2 ^ 32 := by
    simp only [pageSize]
    omega
  have hentry : (v.newTable d i flags).kernelPd d =
      BitVec.ofNat 32 (i * pageSize) ||| tableFlags flags := Function.update_self _ _ _
  have hflags := lt_of_and_low (tableFlags_low flags)
  refine ⟨⟨?_, ?_⟩, ?_⟩
  · rw [hentry, entry_flag ha hlt hflags (by decide)]
    exact tableFlags_present
  · rw [hentry, entry_flag ha hlt hflags (by decide)]
    exact tableFlags_huge
  · rw [Vm.tablePfn, hentry, entry_toNat ha hlt hflags]
    simp only [pageSize]
    omega

theorem newTable_of_ne {flags : BitVec 32} (hj : j ≠ d) :
    (v.newTable d i flags).kernelPd j = v.kernelPd j := Function.update_of_ne hj _ _

theorem TablesOk.newTable {flags : BitVec 32} (h : TablesOk kernStart kernEnd totalPages v)
    (hpos : 0 < i) (hi : i < totalPages) (hused : bitmapTest v.pmm i = true)
    (hout : ¬ InKernel kernStart kernEnd totalPages i)
    (hfresh : ∀ d, v.HasTable d → v.tablePfn d ≠ i) :
    TablesOk kernStart kernEnd totalPages (v.newTable d i flags) := by
  have hlimit := h.sane.limit
  obtain ⟨hnew, hpfn⟩ := newTable_hasTable v d flags (show i < 2 ^ 18 by omega)
  obtain ⟨hsane, htest⟩ := h.sane.withMem (m := (v.newTable d i flags).pmm.mem) fun w hin =>
    newTable_mem fun hw => hout (hw ▸ hin)
  have hold : ∀ j, j ≠ d → (v.newTable d i flags).HasTable j →
      v.HasTable j ∧ (v.newTable d i flags).tablePfn j = v.tablePfn j := by
    intro j hj ht
    have hpd : (v.newTable d i flags).kernelPd j = v.kernelPd j := newTable_of_ne hj
    exact ⟨(hasTable_congr hpd).mp ht, tablePfn_congr hpd⟩
  refine ⟨hsane, ?_, ?_, ?_, ?_⟩
  · intro j hj
    by_cases hjd : j = d
    · rw [hjd, hpfn]
      exact ⟨hpos, hi⟩
    · rw [(hold j hjd hj).2]
      exact h.inRange j (hold j hjd hj).1
  · intro j hj
    by_cases hjd : j = d
    · rw [hjd, hpfn]
      exact (htest i hi).trans hused
    · rw [(hold j hjd hj).2]
      have hv := (hold j hjd hj).1
      exact (htest _ (h.inRange j hv).2).trans (h.used j hv)
  · intro j hj
    by_cases hjd : j = d
    · rw [hjd, hpfn]
      exact hout
    · rw [(hold j hjd hj).2]
      exact h.outside j (hold j hjd hj).1
  · intro j k hj hk heq
    by_cases hjd : j = d
    · by_cases hkd : k = d
      · exact hjd.trans hkd.symm
      · rw [hjd, hpfn, (hold k hkd hk).2] at heq
        exact absurd heq.symm (hfresh k (hold k hkd hk).1)
    · by_cases hkd : k = d
      · rw [hkd, hpfn, (hold j hjd hj).2] at heq
        exact absurd heq (hfresh j (hold j hjd hj).1)
      · rw [(hold j hjd hj).2, (hold k hkd hk).2] at heq
        exact h.apart j k (hold j hjd hj).1 (hold k hkd hk).1 heq

/-- A table that is entered zeroed adds no translation. -/
theorem newTable_getPhys {flags : BitVec 32} (hi : i < 2 ^ 18)
    (habsent : v.kernelPd d &&& pdePresent = 0) (hfresh : ∀ d, v.HasTable d → v.tablePfn d ≠ i) :
    pagingGetPhys (v.newTable d i flags) virt = pagingGetPhys v virt := by
  have hidx := @ptIndex_lt virt
  by_cases hd : pdIndex virt = d
  · subst hd
    obtain ⟨hnew, hpfn⟩ := newTable_hasTable v (pdIndex virt) flags hi
    rw [pagingGetPhys_absent habsent, pagingGetPhys_table hnew (newTable_zero _)]
    · rfl
    · rw [hpfn]
      omega
  · refine pagingGetPhys_congr (newTable_of_ne hd) fun htable => newTable_mem ?_
    have hne := hfresh _ htable
    omega

/-- A directory entry that maps 4 MB. -/
def Vm.Huge (v : Vm) (d : Nat) : Prop :=
  v.kernelPd d &&& pdePresent ≠ 0 ∧ v.kernelPd d &&& pdeHuge ≠ 0

instance : Decidable (v.Huge d) :=
  inferInstanceAs (Decidable (v.kernelPd d &&& pdePresent ≠ 0 ∧ v.kernelPd d &&& pdeHuge ≠ 0))

instance : Decidable (v.HasTable d) :=
  inferInstanceAs (Decidable (v.kernelPd d &&& pdePresent ≠ 0 ∧ v.kernelPd d &&& pdeHuge = 0))

/-- The allocated page `i` is fit for a page table of `v`. -/
structure FreshPage (kernStart kernEnd totalPages : Nat) (v : Vm) (i : Nat) : Prop where
  pos : 0 < i
  inRange : i < totalPages
  used : bitmapTest v.pmm i = true
  outside : ¬ InKernel kernStart kernEnd totalPages i
  apart : ∀ d, v.HasTable d → v.tablePfn d ≠ i

theorem hasTable_allocPage : v.allocPage.2.HasTable d ↔ v.HasTable d :=
  hasTable_congr (by rw [allocPage_kernelPd])

theorem tablePfn_allocPage : v.allocPage.2.tablePfn d = v.tablePfn d :=
  tablePfn_congr (by rw [allocPage_kernelPd])

theorem TablesOk.allocPage_fresh (h : TablesOk kernStart kernEnd totalPages v)
    (hsome : v.allocPage.1 ≠ 0) : ∃ i, v.allocPage.1 = i * pageSize ∧
      FreshPage kernStart kernEnd totalPages v.allocPage.2 i := by
  obtain ⟨-, -, hphys⟩ := h.allocPage
  obtain ⟨i, haddr, hpos, hi, hused, hout, hfresh⟩ := hphys.resolve_left hsome
  refine ⟨i, haddr, hpos, hi, hused, hout, fun d hd => ?_⟩
  rw [tablePfn_allocPage]
  exact hfresh d (hasTable_allocPage.mp hd)

/-- What `get_or_alloc_pt` does when it may create a table. -/
inductive GetsTable (kernStart kernEnd totalPages : Nat) (v : Vm) (d : Nat) (flags : BitVec 32) :
    Nat × Vm → Prop
  | huge (h : v.Huge d) : GetsTable kernStart kernEnd totalPages v d flags (0, v)
  | present (h : v.HasTable d) :
    GetsTable kernStart kernEnd totalPages v d flags (v.tablePfn d * pageSize, v)
  | noPage (h : v.kernelPd d &&& pdePresent = 0) (hzero : v.allocPage.1 = 0) :
    GetsTable kernStart kernEnd totalPages v d flags (0, v.allocPage.2)
  | create (h : v.kernelPd d &&& pdePresent = 0) (i : Nat) (hsome : v.allocPage.1 = i * pageSize)
    (hfresh : FreshPage kernStart kernEnd totalPages v.allocPage.2 i) :
    GetsTable kernStart kernEnd totalPages v d flags
      (i * pageSize, v.allocPage.2.newTable d i flags)

theorem TablesOk.getsTable (h : TablesOk kernStart kernEnd totalPages v) (d : Nat)
    (flags : BitVec 32) :
    GetsTable kernStart kernEnd totalPages v d flags (getOrAllocPt v d true flags) := by
  unfold PinguinOS.Mm.getOrAllocPt
  dsimp only
  by_cases hpresent : v.kernelPd d &&& pdePresent ≠ 0
  · rw [if_pos hpresent]
    by_cases hhuge : v.kernelPd d &&& pdeHuge ≠ 0
    · rw [if_pos hhuge]
      exact .huge ⟨hpresent, hhuge⟩
    · rw [if_neg hhuge, table_address]
      exact .present ⟨hpresent, not_not.mp hhuge⟩
  · rw [if_neg hpresent, if_neg (by decide)]
    have habsent := not_not.mp hpresent
    by_cases hzero : v.allocPage.1 = 0
    · rw [if_pos hzero]
      exact .noPage habsent hzero
    · rw [if_neg hzero]
      obtain ⟨i, haddr, hfresh⟩ := h.allocPage_fresh hzero
      have hentry : BitVec.ofNat 32 (i * pageSize) ||| pdePresent ||| pdeWritable |||
          (flags &&& pdeUser) = BitVec.ofNat 32 (i * pageSize) ||| tableFlags flags := by
        simp only [tableFlags, BitVec.or_assoc]
      rw [haddr, hentry]
      exact .create habsent i haddr hfresh

/-- `get_or_alloc_pt` changes no translation. -/
theorem TablesOk.getOrAllocPt (h : TablesOk kernStart kernEnd totalPages v) (d : Nat)
    (flags : BitVec 32) :
    TablesOk kernStart kernEnd totalPages (getOrAllocPt v d true flags).2 ∧
      (∀ virt, pagingGetPhys (getOrAllocPt v d true flags).2 virt = pagingGetPhys v virt) ∧
      ((getOrAllocPt v d true flags).1 = 0 ∨
        (getOrAllocPt v d true flags).2.HasTable d ∧
          (getOrAllocPt v d true flags).1 =
            (getOrAllocPt v d true flags).2.tablePfn d * pageSize) := by
  obtain ⟨hok, hsame, -⟩ := h.allocPage
  have hlimit := h.sane.limit
  have hget := h.getsTable d flags
  generalize PinguinOS.Mm.getOrAllocPt v d true flags = r at hget ⊢
  cases hget with
  | huge hd => exact ⟨h, fun _ => rfl, Or.inl rfl⟩
  | present hd => exact ⟨h, fun _ => rfl, Or.inr ⟨hd, rfl⟩⟩
  | noPage hd hzero => exact ⟨hok, fun _ => hsame.getPhys, Or.inl rfl⟩
  | create hd i haddr hfresh =>
    have hlt : i < 2 ^ 18 := by
      have hrange := hfresh.inRange
      omega
    have habsent : v.allocPage.2.kernelPd d &&& pdePresent = 0 := by rwa [allocPage_kernelPd]
    obtain ⟨hnew, hpfn⟩ := newTable_hasTable v.allocPage.2 d flags hlt
    refine ⟨hok.newTable hfresh.pos hfresh.inRange hfresh.used hfresh.outside hfresh.apart, ?_,
      Or.inr ⟨hnew, ?_⟩⟩
    · intro virt
      exact (newTable_getPhys hlt habsent hfresh.apart).trans hsame.getPhys
    · exact congrArg (· * pageSize) hpfn.symm

/-! `paging_map_page` -/

theorem setWord_mem {base : Nat} {x : BitVec 32} : (v.setWord base i x).pmm.mem w =
    if w = base / 4 + i then x else v.pmm.mem w := Function.update_apply _ _ _ _

/-- The entry that maps the page of `phys`. -/
theorem pte_getPhys (virt : Nat) {flags : BitVec 32} {phys : Nat} (hlt : phys < 2 ^ 32)
    {pte : BitVec 32}
    (hpte : pte = (BitVec.ofNat 32 phys &&& pageMask) ||| pdePresent ||| (flags &&& 0xFFF)) :
    pte &&& pdePresent ≠ 0 ∧
      ((pte &&& pageMask) ||| (BitVec.ofNat 32 virt &&& 0xFFF)).toNat =
        phys / 4096 * 4096 + virt % 4096 := by
  have hbase : BitVec.ofNat 32 phys &&& pageMask = BitVec.ofNat 32 (phys / 4096 * 4096) := by
    apply BitVec.eq_of_toNat_eq
    rw [toNat_and_pageMask, BitVec.toNat_ofNat, BitVec.toNat_ofNat]
    omega
  have hphys : phys / 4096 * 4096 % 4096 = 0 := Nat.mul_mod_left _ 4096
  have hlt : phys / 4096 * 4096 < 2 ^ 32 := by omega
  have hentry : pte = BitVec.ofNat 32 (phys / 4096 * 4096) ||| (pdePresent ||| (flags &&& 0xFFF)) := by
    rw [hpte, hbase, BitVec.or_assoc]
  have hlow : (pdePresent ||| (flags &&& 0xFFF)) &&& 0xFFF = pdePresent ||| (flags &&& 0xFFF) := by
    rw [BitVec.and_or_distrib_right, BitVec.and_assoc]
    rfl
  constructor
  · rw [hentry, entry_flag hphys hlt (lt_of_and_low hlow) (by decide), BitVec.and_or_distrib_right]
    intro hzero
    exact absurd (BitVec.or_eq_zero_iff.mp hzero).1 (by decide)
  · have hoffset : virt % 4096 < 2 ^ 12 := Nat.mod_lt _ (by decide)
    rw [BitVec.toNat_or, hentry, entry_pageMask hphys hlt (lt_of_and_low hlow), toNat_and_low,
      BitVec.toNat_ofNat, Nat.mod_mod_of_dvd virt (by decide), Nat.mul_comm]
    exact (Nat.two_pow_add_eq_or_of_lt hoffset (phys / 4096)).symm

/-- An entry of a page table is written. -/
theorem TablesOk.setPte {x : BitVec 32} (h : TablesOk kernStart kernEnd totalPages v)
    (ht : v.HasTable d) (hi : i < 1024) :
    TablesOk kernStart kernEnd totalPages (v.setWord (v.tablePfn d * pageSize) i x) := by
  have hout := h.outside d ht
  obtain ⟨hsane, htest⟩ := h.sane.withMem
      (m := (v.setWord (v.tablePfn d * pageSize) i x).pmm.mem) fun w hin => by
    rw [setWord_mem, if_neg]
    rintro rfl
    have hpage : (v.tablePfn d * pageSize / 4 + i) / 1024 = v.tablePfn d := by
      simp only [pageSize]
      omega
    exact hout (hpage ▸ hin)
  exact h.samePd rfl hsane fun j hj hset => (htest j hj).trans hset

/-- One word is the entry of one page. -/
theorem TablesOk.samePage_of_word (h : TablesOk kernStart kernEnd totalPages v)
    (ha : v.HasTable (pdIndex a)) (ht : v.HasTable (pdIndex virt))
    (heq : v.tablePfn (pdIndex a) * 1024 + ptIndex a =
      v.tablePfn (pdIndex virt) * 1024 + ptIndex virt) : a / 4096 = virt / 4096 := by
  have hidx := @ptIndex_lt a
  have hidx' := @ptIndex_lt virt
  have hd := h.apart _ _ ha ht (by omega)
  rw [hd] at heq
  exact samePage_iff.mpr ⟨hd, by omega⟩

theorem TablesOk.setPte_getPhys {x : BitVec 32} (h : TablesOk kernStart kernEnd totalPages v)
    (ht : v.HasTable (pdIndex virt)) :
    pagingGetPhys (v.setWord (v.tablePfn (pdIndex virt) * pageSize) (ptIndex virt) x) a =
      if a / 4096 = virt / 4096 then
        if x &&& pdePresent = 0 then 0
        else ((x &&& pageMask) ||| (BitVec.ofNat 32 a &&& 0xFFF)).toNat
      else pagingGetPhys v a := by
  by_cases hpage : a / 4096 = virt / 4096
  · obtain ⟨hd, hi⟩ := samePage_iff.mp hpage
    rw [if_pos hpage]
    refine pagingGetPhys_table (hd ▸ ht) ?_
    rw [setWord_mem, table_word, hd, hi]
    exact if_pos rfl
  · rw [if_neg hpage]
    refine pagingGetPhys_congr rfl fun hta => ?_
    rw [setWord_mem, table_word]
    exact if_neg fun heq => hpage (h.samePage_of_word hta ht heq)

/-- `paging_map_page` writes an entry of a page table, if it finds or makes one. -/
theorem TablesOk.mapPage {flags : BitVec 32} {phys : Nat}
    (h : TablesOk kernStart kernEnd totalPages v) :
    TablesOk kernStart kernEnd totalPages (pagingMapPage v virt phys flags).2 := by
  obtain ⟨hok, -, hpt⟩ := h.getOrAllocPt (pdIndex virt) flags
  unfold PinguinOS.Mm.pagingMapPage
  dsimp only
  by_cases hzero : (PinguinOS.Mm.getOrAllocPt v (pdIndex virt) true flags).1 = 0
  · rw [if_pos hzero]
    exact hok
  · rw [if_neg hzero]
    obtain ⟨htable, haddr⟩ := hpt.resolve_left hzero
    rw [haddr]
    exact hok.setPte htable ptIndex_lt

/-- `paging_map_page` changes at most the translation of its page. -/
theorem TablesOk.pagingMapPage {flags : BitVec 32} {phys : Nat}
    (h : TablesOk kernStart kernEnd totalPages v) (hlt : phys < 2 ^ 32) :
    (pagingMapPage v virt phys flags).1 = -1 ∧
        (∀ a, pagingGetPhys (pagingMapPage v virt phys flags).2 a = pagingGetPhys v a) ∨
      (pagingMapPage v virt phys flags).1 = 0 ∧
        ∀ a, pagingGetPhys (pagingMapPage v virt phys flags).2 a =
          if a / 4096 = virt / 4096 then phys / 4096 * 4096 + a % 4096
          else pagingGetPhys v a := by
  obtain ⟨hok, hsame, hpt⟩ := h.getOrAllocPt (pdIndex virt) flags
  unfold PinguinOS.Mm.pagingMapPage
  dsimp only
  by_cases hzero : (PinguinOS.Mm.getOrAllocPt v (pdIndex virt) true flags).1 = 0
  · rw [if_pos hzero]
    exact Or.inl ⟨rfl, hsame⟩
  · rw [if_neg hzero]
    obtain ⟨htable, haddr⟩ := hpt.resolve_left hzero
    generalize PinguinOS.Mm.getOrAllocPt v (pdIndex virt) true flags = r at *
    rw [haddr]
    refine Or.inr ⟨rfl, fun a => ?_⟩
    obtain ⟨hpresent, hvalue⟩ := pte_getPhys a hlt rfl
    rw [hok.setPte_getPhys htable, if_neg hpresent, hvalue, hsame]

end PinguinOS.Mm
