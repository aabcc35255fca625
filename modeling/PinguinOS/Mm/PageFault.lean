import PinguinOS.Mm.Heap
import PinguinOS.Mm.PageRights
import PinguinOS.Mm.Process

/-! `page_fault_handler`: which accesses it lets through, and with which rights. -/
namespace PinguinOS.Mm

/-- Bits of the error code. -/
def errPresent : BitVec 32 := 1
def errWrite : BitVec 32 := 2
def errUser : BitVec 32 := 4

/-- The flags with which a page of the area is mapped. -/
def Vma.pteFlags (vma : Vma) : BitVec 32 :=
  if vma.flags &&& vmaWrite ≠ 0 then pdePresent ||| pdeUser ||| pdeWritable
  else pdePresent ||| pdeUser

/-- `none` is `kpanic`. -/
def pageFaultHandler (v : Vm) (current : Option Process) (err : BitVec 32) (faultAddr : Nat) :
    Option Vm :=
  if err &&& errPresent ≠ 0 ∧ err &&& errWrite ≠ 0 then
    let (result, v) := pagingCopyOnWrite v faultAddr
    if result = 0 then some v else none
  else if err &&& errPresent = 0 then
    if kheapStart ≤ faultAddr ∧ faultAddr < kheapMax then heapFault v faultAddr
    else do
      let proc ← current
      let vma ← vmaFind proc faultAddr
      let (phys, v) := v.allocPage
      if phys = 0 then none
      else some (pagingMapPage v (alignDown faultAddr pageSize) phys vma.pteFlags).2
  else none

def InHeap (addr : Nat) : Prop := kheapStart ≤ addr ∧ addr < kheapMax

instance {addr : Nat} : Decidable (InHeap addr) :=
  inferInstanceAs (Decidable (kheapStart ≤ addr ∧ addr < kheapMax))

/-- The address lies in an area of the process. -/
def InVma (current : Option Process) (addr : Nat) : Prop :=
  ∃ proc, current = some proc ∧ ∃ vma ∈ proc.vmaList, vma.Contains addr

/-- The address lies in an area that may be written. -/
def InWritableVma (current : Option Process) (addr : Nat) : Prop :=
  ∃ proc, current = some proc ∧ ∃ vma ∈ proc.vmaList, vma.Contains addr ∧ vma.flags &&& vmaWrite ≠ 0

/-- A kernel access to the heap, or an access that an area of the process allows. -/
def LegalAccess (current : Option Process) (err : BitVec 32) (addr : Nat) : Prop :=
  err &&& errUser = 0 ∧ InHeap addr ∨
    InVma current addr ∧ (err &&& errWrite ≠ 0 → InWritableVma current addr)

/-- The access would not fault again, and the page is open to nothing that its region forbids. -/
structure Permits (current : Option Process) (err : BitVec 32) (addr : Nat) (t : Vm) : Prop where
  present : t.Grants addr pdePresent
  user : err &&& errUser ≠ 0 → t.Grants addr pdeUser
  write : err &&& errWrite ≠ 0 → t.Grants addr pdeWritable
  onlyUser : t.Grants addr pdeUser → InVma current addr
  onlyWrite : t.Grants addr pdeWritable → InHeap addr ∨ InWritableVma current addr

/-- If the handler returns, the access was legal, it is permitted now, and no other page moved. -/
def FaultLawful (v : Vm) (current : Option Process) (err : BitVec 32) (addr : Nat) : Prop :=
  ∀ t, pageFaultHandler v current err addr = some t →
    LegalAccess current err addr ∧ Permits current err addr t ∧
      ∀ a, a / 4096 ≠ addr / 4096 → pagingGetPhys t a = pagingGetPhys v a

/-- The directory between calls: page tables in pages of their own, writable; 4 MB pages are
kernel pages. -/
structure Directory (kernStart kernEnd totalPages : Nat) (v : Vm) : Prop where
  tables : TablesOk kernStart kernEnd totalPages v
  writable : TablesWritable v
  huge : ∀ d, v.Huge d → v.kernelPd d &&& pdeUser = 0 ∧ v.kernelPd d &&& pdeWritable ≠ 0

variable {kernStart kernEnd totalPages virt phys d i a addr : Nat} {v u t : Vm}
  {flags err right : BitVec 32} {current : Option Process}

theorem setEntry_present : ((BitVec.ofNat 32 phys &&& pageMask) ||| pdePresent |||
    (flags &&& 0xFFF)) &&& pdePresent ≠ 0 := by
  rw [BitVec.and_or_distrib_right, BitVec.and_or_distrib_right]
  intro hzero
  have hbit := (BitVec.or_eq_zero_iff.mp (BitVec.or_eq_zero_iff.mp hzero).1).2
  exact absurd hbit (by decide)

theorem MapsEntry.present_grant (h : MapsEntry v virt phys flags t) :
    t.Grants virt pdePresent := by
  refine ⟨h.hasTable.1, Or.inr ?_⟩
  cases h with
  | present hd hpd hpte =>
    rw [hpte]
    exact setEntry_present
  | create hd i hi hpd hpte =>
    rw [hpte]
    exact setEntry_present

theorem page_div (ha : addr < 2 ^ 32) : alignDown addr pageSize / 4096 = addr / 4096 := by
  rw [alignDown_page ha]
  omega

theorem page_index (ha : addr < 2 ^ 32) : pdIndex (alignDown addr pageSize) = pdIndex addr ∧
    ptIndex (alignDown addr pageSize) = ptIndex addr := samePage_iff.mp (page_div ha)

theorem grants_page (ha : addr < 2 ^ 32) :
    t.Grants (alignDown addr pageSize) right ↔ t.Grants addr right :=
  grants_samePage (page_div ha)

/-! A page that has just been allocated, and perhaps filled, is mapped. -/

/-- `v` after one allocation and a write to the new page. -/
structure Prepared (kernStart kernEnd totalPages : Nat) (v u : Vm) (phys : Nat) : Prop where
  directory : TablesOk kernStart kernEnd totalPages u
  pd : u.kernelPd = v.kernelPd
  same : ∀ a, pagingGetPhys u a = pagingGetPhys v a
  lt : phys < 2 ^ 32

theorem TablesOk.prepared (h : TablesOk kernStart kernEnd totalPages v) (hsome : v.allocPage.1 ≠ 0) :
    Prepared kernStart kernEnd totalPages v v.allocPage.2 v.allocPage.1 := by
  obtain ⟨hok, hsame, -⟩ := h.allocPage
  obtain ⟨i, haddr, hfresh⟩ := h.allocPage_fresh hsome
  have hlimit := h.sane.limit
  have hrange := hfresh.inRange
  refine ⟨hok, allocPage_kernelPd, fun a => hsame.getPhys, ?_⟩
  rw [haddr]
  simp only [pageSize]
  omega

theorem TablesOk.preparedCopy (h : TablesOk kernStart kernEnd totalPages v)
    (hsome : v.allocPage.1 ≠ 0) (src : Nat) : Prepared kernStart kernEnd totalPages v
      (v.allocPage.2.copyPage v.allocPage.1 src) v.allocPage.1 := by
  obtain ⟨hok, hsame, -⟩ := h.allocPage
  obtain ⟨i, haddr, hfresh⟩ := h.allocPage_fresh hsome
  have hout : ∀ w, w / 1024 ≠ i →
      (v.allocPage.2.copyPage v.allocPage.1 src).pmm.mem w = v.allocPage.2.pmm.mem w := by
    intro w hw
    refine if_neg ?_
    rw [haddr]
    simp only [pageSize]
    omega
  obtain ⟨hsane, htest⟩ := hok.sane.withMem
    (m := (v.allocPage.2.copyPage v.allocPage.1 src).pmm.mem) fun w hin =>
      hout w fun hw => hfresh.outside (hw ▸ hin)
  have htables : SameTables v.allocPage.2 (v.allocPage.2.copyPage v.allocPage.1 src) := by
    refine ⟨rfl, fun d hd w hw => hout w ?_⟩
    rw [hw]
    exact hfresh.apart d hd
  refine ⟨hok.samePd rfl hsane fun j hj hset => (htest j hj).trans hset, allocPage_kernelPd,
    fun a => htables.getPhys.trans hsame.getPhys, (h.prepared hsome).lt⟩

/-- Mapping the new page changes the translation of its page only. -/
theorem Prepared.others (h : Prepared kernStart kernEnd totalPages v u phys) (haddr : addr < 2 ^ 32)
    (ha : a / 4096 ≠ addr / 4096) :
    pagingGetPhys (pagingMapPage u (alignDown addr pageSize) phys flags).2 a = pagingGetPhys v a := by
  have hcases := @TablesOk.pagingMapPage _ _ _ (alignDown addr pageSize) u flags phys h.directory h.lt
  rcases hcases with ⟨-, hsame⟩ | ⟨-, hmap⟩
  · exact (hsame a).trans (h.same a)
  · rw [hmap a, page_div haddr, if_neg ha, h.same]

/-- The rights of the page, when the mapping was made. -/
theorem Prepared.entry (h : Prepared kernStart kernEnd totalPages v u phys) (hw : TablesWritable v)
    (haddr : addr < 2 ^ 32)
    (hres : (pagingMapPage u (alignDown addr pageSize) phys flags).1 = 0)
    (ht : t = (pagingMapPage u (alignDown addr pageSize) phys flags).2) :
    t.Grants addr pdePresent ∧ (t.Grants addr pdeWritable ↔ flags &&& pdeWritable ≠ 0) ∧
      (t.Grants addr pdeUser ↔ flags &&& pdeUser ≠ 0 ∧
        (v.kernelPd (pdIndex addr) &&& pdePresent = 0 ∨
          v.kernelPd (pdIndex addr) &&& pdeUser ≠ 0)) := by
  subst ht
  have hentry := mapPage_mapsEntry h.directory hres
  have hwu : TablesWritable u := hw.enters (enters_of_pd h.pd)
  have huser := hentry.user
  rw [(page_index haddr).1, h.pd, grants_page haddr] at huser
  exact ⟨(grants_page haddr).mp hentry.present_grant,
    (grants_page haddr).symm.trans (hentry.writable hwu), huser⟩

/-! When the handler is lawful, one branch after the other. -/

/-- A copy-on-write fault: nothing is mapped, or the access is legal and the directory entry is a
user entry exactly as far as the access and the areas ask for it. -/
def CowSafe (v : Vm) (current : Option Process) (err : BitVec 32) (addr : Nat) : Prop :=
  pagingGetPhys v (alignDown addr pageSize) = 0 ∨ v.allocPage.1 = 0 ∨ v.Huge (pdIndex addr) ∨
    LegalAccess current err addr ∧
      (err &&& errUser ≠ 0 → v.kernelPd (pdIndex addr) &&& pdeUser ≠ 0) ∧
      (v.kernelPd (pdIndex addr) &&& pdeUser ≠ 0 → InVma current addr)

/-- A fault in the heap region: nothing is mapped, or it is the kernel's. -/
def HeapSafe (v : Vm) (err : BitVec 32) (addr : Nat) : Prop :=
  v.allocPage.1 = 0 ∨ v.allocPage.2.NoTable (pdIndex addr) ∨ err &&& errUser = 0

/-- A fault in the area `vma`, the first that contains the address. -/
def VmaSafe (v : Vm) (current : Option Process) (vma : Vma) (err : BitVec 32) (addr : Nat) : Prop :=
  v.allocPage.1 = 0 ∨
    (v.Huge (pdIndex addr) ∧ err &&& errUser = 0 ∧ InWritableVma current addr) ∨
    (¬ v.allocPage.2.NoTable (pdIndex addr) ∧
      (err &&& errWrite ≠ 0 → vma.flags &&& vmaWrite ≠ 0) ∧
      (err &&& errUser ≠ 0 → v.kernelPd (pdIndex addr) &&& pdePresent = 0 ∨
        v.kernelPd (pdIndex addr) &&& pdeUser ≠ 0))

def FaultSafe (v : Vm) (current : Option Process) (err : BitVec 32) (addr : Nat) : Prop :=
  if err &&& errPresent ≠ 0 ∧ err &&& errWrite ≠ 0 then CowSafe v current err addr
  else if err &&& errPresent = 0 then
    if InHeap addr then HeapSafe v err addr
    else ∀ proc vma, current = some proc → vmaFind proc addr = some vma →
      VmaSafe v current vma err addr
  else True

theorem permits_iff {user writable : Prop} (hpresent : t.Grants addr pdePresent)
    (hwritable : t.Grants addr pdeWritable ↔ writable) (huser : t.Grants addr pdeUser ↔ user) :
    Permits current err addr t ↔ (err &&& errUser ≠ 0 → user) ∧ (err &&& errWrite ≠ 0 → writable) ∧
      (user → InVma current addr) ∧ (writable → InHeap addr ∨ InWritableVma current addr) := by
  rw [← hwritable, ← huser]
  exact ⟨fun h => ⟨h.user, h.write, h.onlyUser, h.onlyWrite⟩,
    fun h => ⟨hpresent, h.1, h.2.1, h.2.2.1, h.2.2.2⟩⟩

theorem lawful_of_panic (h : pageFaultHandler v current err addr = none) :
    FaultLawful v current err addr := by
  intro t ht
  rw [h] at ht
  cases ht

theorem lawful_iff_of_return (h : pageFaultHandler v current err addr = some t)
    (hothers : ∀ a, a / 4096 ≠ addr / 4096 → pagingGetPhys t a = pagingGetPhys v a) :
    FaultLawful v current err addr ↔
      LegalAccess current err addr ∧ Permits current err addr t := by
  constructor
  · intro hlaw
    exact ⟨(hlaw t h).1, (hlaw t h).2.1⟩
  · rintro ⟨hlegal, hpermits⟩ u hu
    obtain rfl : t = u := Option.some.inj (h.symm.trans hu)
    exact ⟨hlegal, hpermits, hothers⟩

theorem LegalAccess.write (h : LegalAccess current err addr) (hw : err &&& errWrite ≠ 0) :
    InHeap addr ∨ InWritableVma current addr := by
  rcases h with ⟨-, hheap⟩ | ⟨-, hvma⟩
  · exact Or.inl hheap
  · exact Or.inr (hvma hw)

theorem lawful_cow_iff (h : Directory kernStart kernEnd totalPages v) (haddr : addr < 2 ^ 32)
    (herr : err &&& errPresent ≠ 0 ∧ err &&& errWrite ≠ 0) :
    FaultLawful v current err addr ↔ CowSafe v current err addr := by
  have hrun : pageFaultHandler v current err addr =
      if (pagingCopyOnWrite v addr).1 = 0 then some (pagingCopyOnWrite v addr).2 else none :=
    if_pos herr
  unfold pagingCopyOnWrite at hrun
  dsimp only at hrun
  have hindex := (page_index haddr).1
  by_cases hold : pagingGetPhys v (alignDown addr pageSize) = 0
  · have hfail : ¬ (-1 : Int) = 0 := by decide
    rw [if_pos hold, if_neg hfail] at hrun
    exact iff_of_true (lawful_of_panic hrun) (Or.inl hold)
  rw [if_neg hold] at hrun
  by_cases hsome : v.allocPage.1 = 0
  · rw [if_pos hsome] at hrun
    exact iff_of_true (lawful_of_panic hrun) (Or.inr (Or.inl hsome))
  rw [if_neg hsome] at hrun
  have hprep := h.tables.preparedCopy hsome (pagingGetPhys v (alignDown addr pageSize))
  generalize v.allocPage.2.copyPage v.allocPage.1 (pagingGetPhys v (alignDown addr pageSize)) = u
    at hrun hprep
  rcases v.entry_cases (pdIndex addr) with habsent | hhuge | ht
  · rw [← hindex] at habsent
    exact absurd (pagingGetPhys_absent habsent) hold
  · have hfail : u.Huge (pdIndex (alignDown addr pageSize)) := by
      unfold Vm.Huge
      rw [hindex, hprep.pd]
      exact hhuge
    rw [mapPage_huge hfail] at hrun
    exact iff_of_true (lawful_of_panic hrun) (Or.inr (Or.inr (Or.inl hhuge)))
  · have htable : u.HasTable (pdIndex (alignDown addr pageSize)) := by
      rw [hindex]
      exact (hasTable_congr (congrFun hprep.pd _)).mpr ht
    have hdone : (pagingMapPage u (alignDown addr pageSize) v.allocPage.1
        (pdePresent ||| pdeWritable ||| pdeUser)).1 = 0 := mapPage_present hprep.directory htable
    rw [if_pos hdone] at hrun
    obtain ⟨hpresent, hwritable, huser⟩ := hprep.entry h.writable haddr hdone rfl
    rw [lawful_iff_of_return hrun fun a ha => hprep.others haddr ha,
      permits_iff hpresent hwritable huser]
    have hw : (pdePresent ||| pdeWritable ||| pdeUser) &&& pdeWritable ≠ 0 := by decide
    have hu : (pdePresent ||| pdeWritable ||| pdeUser) &&& pdeUser ≠ 0 := by decide
    have hnot : ¬ v.kernelPd (pdIndex addr) &&& pdePresent = 0 := ht.1
    have hsafe : CowSafe v current err addr ↔ LegalAccess current err addr ∧
        (err &&& errUser ≠ 0 → v.kernelPd (pdIndex addr) &&& pdeUser ≠ 0) ∧
        (v.kernelPd (pdIndex addr) &&& pdeUser ≠ 0 → InVma current addr) := by
      unfold CowSafe
      rw [or_iff_right hold, or_iff_right hsome, or_iff_right (HasTable.not_huge ht)]
    rw [hsafe]
    refine and_congr_right fun hlegal => ?_
    rw [or_iff_right hnot, and_iff_right hu]
    exact ⟨fun hp => ⟨hp.1, hp.2.2.1⟩, fun hp => ⟨hp.1, fun _ => hw, hp.2, fun _ =>
      hlegal.write herr.2⟩⟩

theorem lawful_heap_iff (h : Directory kernStart kernEnd totalPages v) (haddr : addr < 2 ^ 32)
    (herr : err &&& errPresent = 0) (hheap : InHeap addr) :
    FaultLawful v current err addr ↔ HeapSafe v err addr := by
  have hrun : pageFaultHandler v current err addr = heapFault v addr := by
    unfold pageFaultHandler
    rw [if_neg (not_and.mpr fun hne => absurd herr hne), if_pos herr]
    exact if_pos hheap
  unfold heapFault at hrun
  dsimp only at hrun
  rw [if_pos (show kheapStart ≤ addr ∧ addr < kheapMax from hheap)] at hrun
  have hindex := (page_index haddr).1
  by_cases hsome : v.allocPage.1 = 0
  · rw [if_pos hsome] at hrun
    exact iff_of_true (lawful_of_panic hrun) (Or.inl hsome)
  rw [if_neg hsome] at hrun
  have hprep := h.tables.prepared hsome
  have hmaps := @mapPage_fst _ _ _ (alignDown addr pageSize) v.allocPage.1 v.allocPage.2
    (pdePresent ||| pdeWritable) hprep.directory
  rw [hindex] at hmaps
  by_cases hno : v.allocPage.2.NoTable (pdIndex addr)
  · rw [if_pos (fun hdone => hmaps.mp hdone hno)] at hrun
    exact iff_of_true (lawful_of_panic hrun) (Or.inr (Or.inl hno))
  · have hdone := hmaps.mpr hno
    rw [if_neg (not_not.mpr hdone)] at hrun
    obtain ⟨hpresent, hwritable, huser⟩ := hprep.entry h.writable haddr hdone rfl
    have hu : (pdePresent ||| pdeWritable) &&& pdeUser = 0 := by decide
    rw [lawful_iff_of_return hrun fun a ha => hprep.others haddr ha,
      permits_iff hpresent hwritable huser]
    have hw : (pdePresent ||| pdeWritable) &&& pdeWritable ≠ 0 := by decide
    have hsafe : HeapSafe v err addr ↔ err &&& errUser = 0 := by
      unfold HeapSafe
      rw [or_iff_right hsome, or_iff_right hno]
    rw [hsafe]
    constructor
    · rintro ⟨-, hpermit, -⟩
      by_contra huserErr
      exact (hpermit huserErr).1 hu
    · intro hkernel
      exact ⟨Or.inl ⟨hkernel, hheap⟩, fun hne => absurd hkernel hne, fun _ => hw,
        fun hgrant => absurd hu hgrant.1, fun _ => Or.inl hheap⟩

theorem mapPage_noPage (habsent : v.kernelPd (pdIndex virt) &&& pdePresent = 0)
    (hzero : v.allocPage.1 = 0) : pagingMapPage v virt phys flags = (-1, v.allocPage.2) := by
  have hcreate : ¬ (!true) = true := by decide
  unfold pagingMapPage getOrAllocPt
  dsimp only
  rw [if_neg (not_not.mpr habsent), if_neg hcreate, if_pos hzero]
  rfl

theorem vmaFind_some {proc : Process} {vma : Vma} (h : vmaFind proc addr = some vma) :
    vma ∈ proc.vmaList ∧ vma.Contains addr := by
  have hfound : proc.vmaList.find? (fun v => decide (v.Contains addr)) = some vma := h
  have hcontains := List.find?_some hfound
  exact ⟨List.mem_of_find?_eq_some hfound, of_decide_eq_true hcontains⟩

theorem pteFlags_user {vma : Vma} : vma.pteFlags &&& pdeUser ≠ 0 := by
  unfold Vma.pteFlags
  split_ifs
  · decide
  · decide

theorem pteFlags_writable {vma : Vma} :
    vma.pteFlags &&& pdeWritable ≠ 0 ↔ vma.flags &&& vmaWrite ≠ 0 := by
  unfold Vma.pteFlags
  split_ifs with hw
  · exact iff_of_true (by decide) hw
  · exact iff_of_false (by decide) hw

theorem lawful_vma_iff {proc : Process} {vma : Vma} (h : Directory kernStart kernEnd totalPages v)
    (haddr : addr < 2 ^ 32) (herr : err &&& errPresent = 0) (hheap : ¬ InHeap addr)
    (hproc : current = some proc) (hfind : vmaFind proc addr = some vma) :
    FaultLawful v current err addr ↔ VmaSafe v current vma err addr := by
  obtain ⟨hmem, hcontains⟩ := vmaFind_some hfind
  have hvma : InVma current addr := ⟨proc, hproc, vma, hmem, hcontains⟩
  have hrun : pageFaultHandler v current err addr =
      if v.allocPage.1 = 0 then none
      else some (pagingMapPage v.allocPage.2 (alignDown addr pageSize) v.allocPage.1
        vma.pteFlags).2 := by
    unfold pageFaultHandler
    rw [if_neg (not_and.mpr fun hne => absurd herr hne), if_pos herr]
    rw [if_neg (show ¬ (kheapStart ≤ addr ∧ addr < kheapMax) from hheap), hproc]
    dsimp only [Option.bind_eq_bind, Option.bind_some]
    rw [hfind]
    rfl
  have hindex := (page_index haddr).1
  by_cases hsome : v.allocPage.1 = 0
  · rw [if_pos hsome] at hrun
    exact iff_of_true (lawful_of_panic hrun) (Or.inl hsome)
  rw [if_neg hsome] at hrun
  have hprep := h.tables.prepared hsome
  have hothers := fun a ha => @Prepared.others _ _ _ _ a addr _ _ vma.pteFlags hprep haddr ha
  rw [lawful_iff_of_return hrun hothers]
  unfold VmaSafe
  rw [or_iff_right hsome]
  by_cases hhuge : v.Huge (pdIndex addr)
  · -- the fault was spurious: the page has been mapped all along, for the kernel
    have hstuck : v.allocPage.2.Huge (pdIndex (alignDown addr pageSize)) := by
      unfold Vm.Huge
      rw [hindex, hprep.pd]
      exact hhuge
    have hno : v.allocPage.2.NoTable (pdIndex addr) := Or.inl (hindex ▸ hstuck)
    have hgrant : ∀ right, v.allocPage.2.Grants addr right ↔
        v.kernelPd (pdIndex addr) &&& right ≠ 0 := by
      intro right
      unfold Vm.Grants
      rw [hprep.pd]
      exact and_iff_left (Or.inl (hindex ▸ hstuck))
    obtain ⟨hkernel, hwritable⟩ := h.huge _ hhuge
    rw [or_iff_left (fun hmapped => absurd hno hmapped.1)]
    rw [mapPage_huge hstuck, permits_iff ((hgrant _).mpr hhuge.1) (hgrant _) (hgrant _)]
    constructor
    · rintro ⟨-, huser, -, -, hregion⟩
      refine ⟨hhuge, ?_, (hregion hwritable).resolve_left hheap⟩
      by_contra hne
      exact huser hne hkernel
    · rintro ⟨-, huser, hwvma⟩
      exact ⟨Or.inr ⟨hvma, fun _ => hwvma⟩, fun hne => absurd huser hne, fun _ => hwritable,
        fun _ => hvma, fun _ => Or.inr hwvma⟩
  · rw [or_iff_right (fun hspurious => hhuge hspurious.1)]
    by_cases hno : v.allocPage.2.NoTable (pdIndex addr)
    · -- no table: the handler returns and the page is still absent
      have hnot : ¬ v.allocPage.2.Huge (pdIndex addr) := by
        unfold Vm.Huge
        rw [hprep.pd]
        exact hhuge
      obtain ⟨habsent, hzero⟩ := hno.resolve_left hnot
      rw [← hindex] at habsent
      rw [mapPage_noPage habsent hzero]
      refine iff_of_false ?_ fun hsafe => hsafe.1 hno
      rintro ⟨-, hpermits⟩
      refine hpermits.present.1 ?_
      rw [allocPage_kernelPd, ← hindex]
      exact habsent
    · have hmaps := @mapPage_fst _ _ _ (alignDown addr pageSize) v.allocPage.1 v.allocPage.2
        vma.pteFlags hprep.directory
      rw [hindex] at hmaps
      obtain ⟨hpresent, hwritable, huser⟩ := hprep.entry h.writable haddr (hmaps.mpr hno) rfl
      rw [pteFlags_writable] at hwritable
      rw [and_iff_right pteFlags_user] at huser
      rw [permits_iff hpresent hwritable huser]
      have hwvma : vma.flags &&& vmaWrite ≠ 0 → InWritableVma current addr :=
        fun hw => ⟨proc, hproc, vma, hmem, hcontains, hw⟩
      constructor
      · rintro ⟨-, hu, hw, -⟩
        exact ⟨hno, hw, hu⟩
      · rintro ⟨-, hw, hu⟩
        exact ⟨Or.inr ⟨hvma, fun hne => hwvma (hw hne)⟩, hu, hw, fun _ => hvma,
          fun hset => Or.inr (hwvma hset)⟩

theorem lawful_iff_safe (h : Directory kernStart kernEnd totalPages v) (haddr : addr < 2 ^ 32) :
    FaultLawful v current err addr ↔ FaultSafe v current err addr := by
  unfold FaultSafe
  by_cases hcow : err &&& errPresent ≠ 0 ∧ err &&& errWrite ≠ 0
  · rw [if_pos hcow]
    exact lawful_cow_iff h haddr hcow
  rw [if_neg hcow]
  by_cases herr : err &&& errPresent = 0
  · rw [if_pos herr]
    by_cases hheap : InHeap addr
    · rw [if_pos hheap]
      exact lawful_heap_iff h haddr herr hheap
    rw [if_neg hheap]
    by_cases hvma : ∃ proc vma, current = some proc ∧ vmaFind proc addr = some vma
    · obtain ⟨proc, vma, hproc, hfind⟩ := hvma
      rw [lawful_vma_iff h haddr herr hheap hproc hfind]
      constructor
      · intro hsafe proc' vma' hproc' hfind'
        obtain rfl : proc = proc' := Option.some.inj (hproc.symm.trans hproc')
        obtain rfl : vma = vma' := Option.some.inj (hfind.symm.trans hfind')
        exact hsafe
      · intro hsafe
        exact hsafe proc vma hproc hfind
    · refine iff_of_true (lawful_of_panic ?_) fun proc vma hproc hfind =>
        absurd ⟨proc, vma, hproc, hfind⟩ hvma
      unfold pageFaultHandler
      rw [if_neg hcow, if_pos herr,
        if_neg (show ¬ (kheapStart ≤ addr ∧ addr < kheapMax) from hheap)]
      cases hproc : current with
      | none => rfl
      | some proc =>
        cases hfind : vmaFind proc addr with
        | none =>
          dsimp only [Option.bind_eq_bind, Option.bind_some]
          rw [hfind]
          rfl
        | some vma => exact absurd ⟨proc, vma, hproc, hfind⟩ hvma
  · rw [if_neg herr]
    refine iff_of_true (lawful_of_panic ?_) trivial
    unfold pageFaultHandler
    rw [if_neg hcow, if_neg herr]

/-! Runs of paging calls, allocations and faults. -/

inductive VmCall
  | paging (c : PagingCall)
  | allocPage
  | fault (current : Option Process) (err : BitVec 32) (addr : Nat)

/-- `none` is `kpanic`. -/
def Vm.call (v : Vm) : VmCall → Option Vm
  | .paging c => some (v.paging c)
  | .allocPage => some v.allocPage.2
  | .fault current err addr => pageFaultHandler v current err addr

/-- Every fault in the run, whatever its error code, is handled lawfully. -/
def LawfulCall (s : Vm) (c : VmCall) : Prop :=
  ∀ current err addr, c = .fault current err addr → addr < 2 ^ 32 → FaultLawful s current err addr

def SafeCall (s : Vm) (c : VmCall) : Prop :=
  ∀ current err addr, c = .fault current err addr → addr < 2 ^ 32 → FaultSafe s current err addr

theorem Directory.enters (h : Directory kernStart kernEnd totalPages v)
    (ht : TablesOk kernStart kernEnd totalPages t) (henters : Enters v t) :
    Directory kernStart kernEnd totalPages t := by
  refine ⟨ht, h.writable.enters henters, fun d hd => ?_⟩
  rcases henters d with hsame | hnew
  · rw [hsame]
    refine h.huge d ?_
    unfold Vm.Huge at hd ⊢
    rwa [← hsame]
  · exact absurd hnew.1 hd.2

theorem directory_pagingInit (h : Sane kernStart kernEnd totalPages v.pmm) :
    Directory kernStart kernEnd totalPages (pagingInit v) := by
  refine ⟨tablesOk_pagingInit h, tablesWritable_pagingInit, fun d hd => ?_⟩
  have hflags : ∀ f n, f = 0 ∨ f = pdeNocache → n < 1024 →
      hugePde f n &&& pdeUser = 0 ∧ hugePde f n &&& pdeWritable ≠ 0 := by
    intro f n hf hn
    rw [hugePde_flag hf hn (by decide), hugePde_flag hf hn (by decide)]
    rcases hf with rfl | rfl
    · decide
    · decide
  have hpresent := hd.1
  rw [pagingInit_pd] at hpresent ⊢
  split_ifs at hpresent ⊢
  · exact hflags _ _ (Or.inl rfl) (by omega)
  · exact hflags _ _ (Or.inr rfl) (by omega)
  · exact hflags _ _ (Or.inl rfl) (by omega)
  · exact absurd BitVec.zero_and hpresent

theorem directory_bootVm {mbi : MultibootInfo} {mem : Mem} {starved : Nat → Bool}
    (hs : kernStart < 2 ^ 32) (he : kernEnd < 2 ^ 32) (halign : kernEnd % pageSize = 0) :
    Directory kernStart kernEnd mbi.totalPages (bootVm mbi kernStart kernEnd mem starved) :=
  directory_pagingInit (sane_pmmInit hs he halign)

theorem directory_smallVm {starved : Nat → Bool} :
    Directory 0x100000 0x101000 0x109 (smallVm starved) := by
  rw [← smallVm_totalPages]
  exact directory_bootVm (by decide) (by decide) (by decide)

/-- A page that is not present: a new page is mapped there, if anything. -/
theorem fault_notPresent (herr : err &&& errPresent = 0)
    (ht : pageFaultHandler v current err addr = some t) : v.allocPage.1 ≠ 0 ∧ ∃ flags,
      t = (pagingMapPage v.allocPage.2 (alignDown addr pageSize) v.allocPage.1 flags).2 := by
  unfold pageFaultHandler at ht
  dsimp only at ht
  rw [if_neg (not_and.mpr fun hne => absurd herr hne), if_pos herr] at ht
  by_cases hheap : kheapStart ≤ addr ∧ addr < kheapMax
  · rw [if_pos hheap] at ht
    unfold heapFault at ht
    dsimp only at ht
    split_ifs at ht with hsome hfail
    cases ht
    exact ⟨hsome, _, rfl⟩
  · rw [if_neg hheap] at ht
    obtain ⟨proc, -, ht⟩ := Option.bind_eq_some_iff.mp ht
    obtain ⟨vma, -, ht⟩ := Option.bind_eq_some_iff.mp ht
    split_ifs at ht with hsome
    cases ht
    exact ⟨hsome, _, rfl⟩

/-- Whatever way the handler returns, it has mapped one page that it allocated. -/
theorem Directory.fault (h : Directory kernStart kernEnd totalPages v)
    (ht : pageFaultHandler v current err addr = some t) :
    Directory kernStart kernEnd totalPages t := by
  have hreturn := ht
  have hmap : ∀ {u : Vm} {virt phys : Nat} {flags : BitVec 32},
      Prepared kernStart kernEnd totalPages v u phys →
        Directory kernStart kernEnd totalPages (pagingMapPage u virt phys flags).2 := by
    intro u virt phys flags hprep
    exact h.enters hprep.directory.mapPage
      ((enters_of_pd hprep.pd).trans (enters_mapPage hprep.directory))
  unfold pageFaultHandler at ht
  dsimp only at ht
  by_cases hcow : err &&& errPresent ≠ 0 ∧ err &&& errWrite ≠ 0
  · rw [if_pos hcow] at ht
    unfold pagingCopyOnWrite at ht
    dsimp only at ht
    have hfail : ¬ (-1 : Int) = 0 := by decide
    by_cases hold : pagingGetPhys v (alignDown addr pageSize) = 0
    · rw [if_pos hold, if_neg hfail] at ht
      cases ht
    rw [if_neg hold] at ht
    by_cases hsome : v.allocPage.1 = 0
    · rw [if_pos hsome, if_neg hfail] at ht
      cases ht
    rw [if_neg hsome] at ht
    split_ifs at ht with hdone
    cases ht
    exact hmap (h.tables.preparedCopy hsome _)
  rw [if_neg hcow] at ht
  by_cases herr : err &&& errPresent = 0
  · obtain ⟨hsome, flags, rfl⟩ := fault_notPresent herr hreturn
    exact hmap (h.tables.prepared hsome)
  · rw [if_neg herr] at ht
    cases ht

theorem Directory.call {c : VmCall} (h : Directory kernStart kernEnd totalPages v)
    (ht : v.call c = some t) : Directory kernStart kernEnd totalPages t := by
  cases c with
  | paging c =>
    cases ht
    exact h.enters h.tables.paging (enters_paging h.tables)
  | allocPage =>
    cases ht
    exact h.enters h.tables.allocPage.1 (enters_of_pd allocPage_kernelPd)
  | fault current err addr => exact h.fault ht

/-- In a run of paging calls, allocations and faults, every fault is handled lawfully exactly when
every fault is a safe one. -/
theorem lawful_iff_safe_run {mbi : MultibootInfo} {mem : Mem} {starved : Nat → Bool}
    {calls : List VmCall} (hs : kernStart < 2 ^ 32) (he : kernEnd < 2 ^ 32)
    (halign : kernEnd % pageSize = 0) :
    Run.EveryStep Vm.call (fun s c _ => LawfulCall s c)
        (bootVm mbi kernStart kernEnd mem starved) calls ↔
      Run.EveryStep Vm.call (fun s c _ => SafeCall s c)
        (bootVm mbi kernStart kernEnd mem starved) calls := by
  refine Run.everyStep_iff (I := Directory kernStart kernEnd mbi.totalPages) ?_
    (directory_pagingInit (sane_pmmInit hs he halign))
  intro s c t h hstep
  refine ⟨?_, fun _ => h.call hstep⟩
  have hiff : ∀ current err addr, addr < 2 ^ 32 →
      (FaultLawful s current err addr ↔ FaultSafe s current err addr) :=
    fun current err addr haddr => lawful_iff_safe h haddr
  constructor
  · intro hlaw current err addr hc haddr
    exact (hiff current err addr haddr).mp (hlaw current err addr hc haddr)
  · intro hsafe current err addr hc haddr
    exact (hiff current err addr haddr).mpr (hsafe current err addr hc haddr)

/-- A process with one writable area. -/
def oneArea : Process where
  cr3 := 0
  vmaList := [{ start := 0x40000000, end_ := 0x40002000, flags := 3, fileOffset := 0 }]

theorem lawful_iff_safe_small :
    Run.EveryStep Vm.call (fun s c _ => LawfulCall s c) (smallVm fun _ => false)
        [.fault (some oneArea) 6 0x40000123, .fault none 2 0xD0000000] ↔
      Run.EveryStep Vm.call (fun s c _ => SafeCall s c) (smallVm fun _ => false)
        [.fault (some oneArea) 6 0x40000123, .fault none 2 0xD0000000] :=
  lawful_iff_safe_run (by decide) (by decide) (by decide)

/-- User mode writes to a page that is mapped read-only, outside every area: the handler makes
the page writable and returns. -/
theorem smallVm_cow :
    let s := (smallVm fun _ => false).paging (.mapPage 0x40000000 0x105000 4)
    (pageFaultHandler s none 7 0x40000000).isSome = true := by
  rw [smallVm_eq]
  decide +kernel

theorem not_lawful_small :
    ¬ ∀ (mbi : MultibootInfo) (kernStart kernEnd : Nat) (mem : Mem) (starved : Nat → Bool)
      (calls : List VmCall),
      Run.EveryStep Vm.call (fun s c _ => LawfulCall s c)
        (bootVm mbi kernStart kernEnd mem starved) calls := by
  intro hall
  have hsteps := hall (oneRegion 0x100000 0x9000) 0x100000 0x101000 (fun _ => 0) (fun _ => false)
    [.paging (.mapPage 0x40000000 0x105000 4), .fault none 7 0x40000000]
  obtain ⟨t, ht⟩ := Option.isSome_iff_exists.mp smallVm_cow
  have hlaw := ((hsteps _ rfl).2 t ht).1 none 7 0x40000000 rfl (by decide)
  rcases (hlaw t ht).1 with ⟨huser, -⟩ | ⟨⟨proc, hproc, -⟩, -⟩
  · exact absurd huser (by decide)
  · cases hproc

end PinguinOS.Mm
