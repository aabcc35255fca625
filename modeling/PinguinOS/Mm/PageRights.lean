import PinguinOS.Mm.PagingRun

/-! Effective rights of a page: what its directory entry and its table entry both allow. -/
namespace PinguinOS.Mm

/-- The entry of `virt` in the page table of its directory entry. -/
def Vm.pte (v : Vm) (virt : Nat) : BitVec 32 :=
  v.word (v.kernelPd (pdIndex virt) &&& pageMask).toNat (ptIndex virt)

/-- Both entries have the bit; a 4 MB page has one entry only. -/
def Vm.Grants (v : Vm) (virt : Nat) (right : BitVec 32) : Prop :=
  v.kernelPd (pdIndex virt) &&& right ≠ 0 ∧ (v.Huge (pdIndex virt) ∨ v.pte virt &&& right ≠ 0)

/-- A mapping that returns 0 leaves the page with the rights of its flags. -/
def RightsExact (s : Vm) (c : PagingCall) (t : Vm) : Prop :=
  ∀ virt phys flags, c = .mapPage virt phys flags → (pagingMapPage s virt phys flags).1 = 0 →
    (t.Grants virt pdeUser ↔ flags &&& pdeUser ≠ 0) ∧
      (t.Grants virt pdeWritable ↔ flags &&& pdeWritable ≠ 0)

/-- A mapping for user mode goes to a region whose directory entry is a user entry, is still to
be made, or maps 4 MB. -/
def UserRegion (s : Vm) (c : PagingCall) : Prop :=
  ∀ virt phys flags, c = .mapPage virt phys flags → flags &&& pdeUser ≠ 0 →
    s.kernelPd (pdIndex virt) &&& pdePresent = 0 ∨ s.Huge (pdIndex virt) ∨
      s.kernelPd (pdIndex virt) &&& pdeUser ≠ 0

/-- Every directory entry with a page table is writable. -/
def TablesWritable (v : Vm) : Prop := ∀ d, v.HasTable d → v.kernelPd d &&& pdeWritable ≠ 0

instance {v : Vm} {virt : Nat} {right : BitVec 32} : Decidable (v.Grants virt right) :=
  inferInstanceAs (Decidable (v.kernelPd (pdIndex virt) &&& right ≠ 0 ∧
    (v.Huge (pdIndex virt) ∨ v.pte virt &&& right ≠ 0)))

variable {kernStart kernEnd totalPages virt phys d i : Nat} {v s t : Vm} {mbi : MultibootInfo}
  {mem : Mem} {starved : Nat → Bool} {calls : List PagingCall} {c : PagingCall}
  {flags right : BitVec 32}

/-- Two addresses in one page. -/
theorem grants_samePage {a b : Nat} (h : a / 4096 = b / 4096) :
    v.Grants a right ↔ v.Grants b right := by
  obtain ⟨hd, hi⟩ := samePage_iff.mp h
  unfold Vm.Grants Vm.pte
  rw [hd, hi]

/-- The flags that `paging_map_page` writes into the table entry. -/
theorem pte_flag (hright : right = pdeUser ∨ right = pdeWritable) :
    ((BitVec.ofNat 32 phys &&& pageMask) ||| pdePresent ||| (flags &&& 0xFFF)) &&& right =
      flags &&& right := by
  have hbase : (BitVec.ofNat 32 phys &&& pageMask) &&& right = 0#32 := by
    rw [BitVec.and_assoc]
    rcases hright with rfl | rfl
    · exact BitVec.and_zero
    · exact BitVec.and_zero
  have hpresent : pdePresent &&& right = 0#32 := by
    rcases hright with rfl | rfl
    · rfl
    · rfl
  have hlow : 0xFFF &&& right = right := by
    rcases hright with rfl | rfl
    · rfl
    · rfl
  rw [BitVec.and_or_distrib_right, BitVec.and_or_distrib_right, hbase, hpresent, BitVec.and_assoc,
    hlow, BitVec.or_zero, BitVec.zero_or]

theorem newTable_pd : (v.newTable d i flags).kernelPd d =
    BitVec.ofNat 32 (i * pageSize) ||| tableFlags flags := Function.update_self _ _ _

theorem newTable_flag (hi : i < 2 ^ 18) (hright : 0xFFF &&& right = right) :
    (v.newTable d i flags).kernelPd d &&& right = tableFlags flags &&& right := by
  have ha : i * pageSize % 4096 = 0 := Nat.mul_mod_left i 4096
  have hlt : i * pageSize < 2 ^ 32 := by
    simp only [pageSize]
    omega
  rw [newTable_pd]
  exact entry_flag ha hlt (lt_of_and_low (tableFlags_low flags)) hright

theorem tableFlags_user : tableFlags flags &&& pdeUser = flags &&& pdeUser := by
  have hsame : pdeUser &&& pdeUser = pdeUser := by decide
  have hothers : (pdePresent ||| pdeWritable) &&& pdeUser = 0#32 := by decide
  unfold tableFlags
  rw [BitVec.and_or_distrib_right, hothers, BitVec.and_assoc, hsame, BitVec.zero_or]

theorem tableFlags_writable : tableFlags flags &&& pdeWritable ≠ 0 := by
  unfold tableFlags
  rw [BitVec.and_or_distrib_right]
  intro hzero
  exact absurd (BitVec.or_eq_zero_iff.mp hzero).1 (by decide)

/-- What a mapping that returns 0 leaves in the directory and in the table. -/
inductive MapsEntry (v : Vm) (virt phys : Nat) (flags : BitVec 32) (t : Vm) : Prop
  | present (h : v.HasTable (pdIndex virt)) (hpd : t.kernelPd = v.kernelPd)
    (hpte : t.pte virt =
      (BitVec.ofNat 32 phys &&& pageMask) ||| pdePresent ||| (flags &&& 0xFFF))
  | create (h : v.kernelPd (pdIndex virt) &&& pdePresent = 0) (i : Nat) (hi : i < 2 ^ 18)
    (hpd : t.kernelPd = (v.newTable (pdIndex virt) i flags).kernelPd)
    (hpte : t.pte virt =
      (BitVec.ofNat 32 phys &&& pageMask) ||| pdePresent ||| (flags &&& 0xFFF))

theorem setWord_pte {base : Nat} {x : BitVec 32}
    (hbase : (v.kernelPd (pdIndex virt) &&& pageMask).toNat = base) :
    (v.setWord base (ptIndex virt) x).pte virt = x := by
  subst hbase
  exact Function.update_self _ _ _

theorem mapPage_mapsEntry (h : TablesOk kernStart kernEnd totalPages v)
    (hres : (pagingMapPage v virt phys flags).1 = 0) :
    MapsEntry v virt phys flags (pagingMapPage v virt phys flags).2 := by
  have hlimit := h.sane.limit
  have hget := h.getsTable (pdIndex virt) flags
  unfold pagingMapPage at hres ⊢
  dsimp only at hres ⊢
  generalize getOrAllocPt v (pdIndex virt) true flags = r at hget hres ⊢
  cases hget with
  | huge hd =>
    have hfail : (-1 : Int) = 0 := hres
    exact absurd hfail (by decide)
  | noPage hd hzero =>
    have hfail : (-1 : Int) = 0 := hres
    exact absurd hfail (by decide)
  | present hd =>
    have hpos := (h.inRange _ hd).1
    have hne : v.tablePfn (pdIndex virt) * pageSize ≠ 0 := by
      simp only [pageSize]
      omega
    rw [if_neg hne]
    exact .present hd rfl (setWord_pte table_address)
  | create hd i haddr hfresh =>
    have hpos := hfresh.pos
    have hrange := hfresh.inRange
    have hlt : i < 2 ^ 18 := by omega
    have hne : i * pageSize ≠ 0 := by
      simp only [pageSize]
      omega
    obtain ⟨-, hpfn⟩ := newTable_hasTable v.allocPage.2 (pdIndex virt) flags hlt
    rw [if_neg hne]
    refine .create hd i hlt ?_ (setWord_pte ?_)
    · change (v.allocPage.2.newTable (pdIndex virt) i flags).kernelPd = _
      unfold Vm.newTable
      rw [allocPage_kernelPd]
    · rw [table_address, hpfn]

theorem MapsEntry.hasTable (h : MapsEntry v virt phys flags t) : t.HasTable (pdIndex virt) := by
  cases h with
  | present hd hpd hpte => exact (hasTable_congr (congrFun hpd _)).mpr hd
  | create hd i hi hpd hpte =>
    exact (hasTable_congr (congrFun hpd _)).mpr (newTable_hasTable v _ flags hi).1

theorem HasTable.not_huge (h : v.HasTable d) : ¬ v.Huge d := fun hd => hd.2 h.2

theorem MapsEntry.grants_iff (h : MapsEntry v virt phys flags t)
    (hright : right = pdeUser ∨ right = pdeWritable) :
    t.Grants virt right ↔ t.kernelPd (pdIndex virt) &&& right ≠ 0 ∧ flags &&& right ≠ 0 := by
  have hnot := HasTable.not_huge h.hasTable
  have hpte : t.pte virt =
      (BitVec.ofNat 32 phys &&& pageMask) ||| pdePresent ||| (flags &&& 0xFFF) := by
    cases h with
    | present hd hpd hpte => exact hpte
    | create hd i hi hpd hpte => exact hpte
  unfold Vm.Grants
  rw [hpte, pte_flag hright, or_iff_right hnot]

/-- Every page table is entered writable, so a mapping is writable as its flags say. -/
theorem MapsEntry.writable (h : MapsEntry v virt phys flags t) (hw : TablesWritable v) :
    t.Grants virt pdeWritable ↔ flags &&& pdeWritable ≠ 0 := by
  rw [h.grants_iff (Or.inr rfl)]
  refine and_iff_right ?_
  cases h with
  | present hd hpd hpte =>
    rw [hpd]
    exact hw _ hd
  | create hd i hi hpd hpte =>
    rw [hpd, newTable_flag hi (by decide)]
    exact tableFlags_writable

/-- User mode may use the page if the flags say so and the region is one for user mode. -/
theorem MapsEntry.user (h : MapsEntry v virt phys flags t) :
    t.Grants virt pdeUser ↔ flags &&& pdeUser ≠ 0 ∧
      (v.kernelPd (pdIndex virt) &&& pdePresent = 0 ∨
        v.kernelPd (pdIndex virt) &&& pdeUser ≠ 0) := by
  rw [h.grants_iff (Or.inl rfl), and_comm]
  refine and_congr_right fun hflags => ?_
  cases h with
  | present hd hpd hpte =>
    rw [hpd]
    exact (or_iff_right hd.1).symm
  | create hd i hi hpd hpte =>
    rw [hpd, newTable_flag hi (by decide), tableFlags_user]
    exact iff_of_true hflags (Or.inl hd)

/-! Runs -/

theorem tablesWritable_pagingInit : TablesWritable (pagingInit v) :=
  fun _ ht => absurd ht not_hasTable_pagingInit

/-- Directory entries stay, or become writable entries of page tables. -/
def Enters (v t : Vm) : Prop := ∀ d, t.kernelPd d = v.kernelPd d ∨
  t.kernelPd d &&& pdeHuge = 0 ∧ t.kernelPd d &&& pdeWritable ≠ 0

theorem enters_of_pd (h : t.kernelPd = v.kernelPd) : Enters v t := fun d => Or.inl (congrFun h d)

theorem Enters.trans (h : Enters v s) (h' : Enters s t) : Enters v t := by
  intro d
  rcases h' d with hsame | hnew
  · rcases h d with hsame' | hnew'
    · exact Or.inl (hsame.trans hsame')
    · exact Or.inr (hsame ▸ hnew')
  · exact Or.inr hnew

theorem TablesWritable.enters (hw : TablesWritable v) (h : Enters v t) : TablesWritable t := by
  intro d hd
  rcases h d with hsame | hnew
  · rw [hsame]
    exact hw d ((hasTable_congr hsame).mp hd)
  · exact hnew.2

theorem enters_newTable (hi : i < 2 ^ 18) : Enters v (v.newTable d i flags) := by
  intro j
  by_cases hj : j = d
  · subst hj
    rw [newTable_flag hi (by decide), newTable_flag hi (by decide)]
    exact Or.inr ⟨tableFlags_huge, tableFlags_writable⟩
  · exact Or.inl (newTable_of_ne hj)

theorem enters_mapPage (h : TablesOk kernStart kernEnd totalPages v) :
    Enters v (pagingMapPage v virt phys flags).2 := by
  have hlimit := h.sane.limit
  have hget := h.getsTable (pdIndex virt) flags
  unfold pagingMapPage
  dsimp only
  generalize getOrAllocPt v (pdIndex virt) true flags = r at hget ⊢
  have henters : Enters v r.2 := by
    cases hget with
    | huge hd => exact enters_of_pd rfl
    | present hd => exact enters_of_pd rfl
    | noPage hd hzero => exact enters_of_pd allocPage_kernelPd
    | create hd i haddr hfresh =>
      have hrange := hfresh.inRange
      exact (enters_of_pd allocPage_kernelPd).trans (enters_newTable (by omega))
  split_ifs
  · exact henters
  · exact henters

theorem enters_mapRangeFrom (h : TablesOk kernStart kernEnd totalPages v) (k n : Nat) :
    Enters v (mapRangeFrom v virt phys flags k n).2 := by
  induction n generalizing v k with
  | zero => exact enters_of_pd rfl
  | succ n ih =>
    unfold mapRangeFrom
    dsimp only
    split_ifs
    · exact enters_mapPage h
    · exact (enters_mapPage h).trans (ih h.mapPage (k + 1))

theorem enters_unmapPage (h : TablesOk kernStart kernEnd totalPages v) :
    Enters v (pagingUnmapPage v virt) := by
  rcases v.entry_cases (pdIndex virt) with habsent | hhuge | ht
  · rw [unmapPage_absent habsent]
    exact enters_of_pd rfl
  · rw [unmapPage_huge hhuge]
    exact enters_of_pd rfl
  · rw [h.unmapPage_table ht]
    exact enters_of_pd rfl

theorem enters_paging (h : TablesOk kernStart kernEnd totalPages v) : Enters v (v.paging c) := by
  cases c with
  | mapPage virt phys flags => exact enters_mapPage h
  | mapRange virt phys count flags => exact enters_mapRangeFrom h 0 count
  | unmapPage virt => exact enters_unmapPage h

theorem mapPage_huge (h : v.Huge (pdIndex virt)) : pagingMapPage v virt phys flags = (-1, v) := by
  unfold pagingMapPage getOrAllocPt
  dsimp only
  rw [if_pos h.1, if_pos h.2]
  rfl

theorem mapPage_present (h : TablesOk kernStart kernEnd totalPages v)
    (ht : v.HasTable (pdIndex virt)) : (pagingMapPage v virt phys flags).1 = 0 := by
  have hpos := (h.inRange _ ht).1
  have hne : v.tablePfn (pdIndex virt) * pageSize ≠ 0 := by
    simp only [pageSize]
    omega
  unfold pagingMapPage getOrAllocPt
  dsimp only
  rw [if_pos ht.1, if_neg (not_not.mpr ht.2), table_address, if_neg hne]

/-- `get_or_alloc_pt` has no page table for the entry, and cannot make one. -/
def Vm.NoTable (v : Vm) (d : Nat) : Prop :=
  v.Huge d ∨ v.kernelPd d &&& pdePresent = 0 ∧ v.allocPage.1 = 0

theorem mapPage_fst (h : TablesOk kernStart kernEnd totalPages v) :
    (pagingMapPage v virt phys flags).1 = 0 ↔ ¬ v.NoTable (pdIndex virt) := by
  rcases v.entry_cases (pdIndex virt) with habsent | hhuge | ht
  · have hget := h.getsTable (pdIndex virt) flags
    unfold pagingMapPage Vm.NoTable
    dsimp only
    generalize getOrAllocPt v (pdIndex virt) true flags = r at hget ⊢
    cases hget with
    | huge hd => exact absurd habsent hd.1
    | present hd => exact absurd habsent hd.1
    | noPage hd hzero =>
      refine iff_of_false ?_ (not_not.mpr (Or.inr ⟨hd, hzero⟩))
      intro hfail
      have hfail : (-1 : Int) = 0 := hfail
      exact absurd hfail (by decide)
    | create hd i haddr hfresh =>
      have hpos := hfresh.pos
      have hne : i * pageSize ≠ 0 := by
        simp only [pageSize]
        omega
      rw [if_neg hne]
      refine iff_of_true rfl ?_
      rintro (hhuge | ⟨-, hzero⟩)
      · exact hhuge.1 hd
      · exact hne (haddr.symm.trans hzero)
  · rw [mapPage_huge hhuge]
    refine iff_of_false ?_ (not_not.mpr (Or.inl hhuge))
    intro hfail
    have hfail : (-1 : Int) = 0 := hfail
    exact absurd hfail (by decide)
  · refine iff_of_true (mapPage_present h ht) ?_
    rintro (hhuge | ⟨habsent, -⟩)
    · exact HasTable.not_huge ht hhuge
    · exact ht.1 habsent

/-- One mapping has exact rights exactly when it is made in a region that grants them. -/
theorem rightsExact_iff_userRegion (h : TablesOk kernStart kernEnd totalPages s)
    (hw : TablesWritable s) (hstep : s.pagingStep c = some t) :
    RightsExact s c t ↔ UserRegion s c := by
  cases hstep
  constructor
  · rintro hexact virt phys flags rfl hflags
    rcases s.entry_cases (pdIndex virt) with habsent | hhuge | ht
    · exact Or.inl habsent
    · exact Or.inr (Or.inl hhuge)
    · have hres : (pagingMapPage s virt phys flags).1 = 0 := mapPage_present h ht
      have hgrant := (hexact virt phys flags rfl hres).1.mpr hflags
      have hset := (((mapPage_mapsEntry h hres).user).mp hgrant).2
      exact Or.inr (Or.inr (hset.resolve_left ht.1))
  · rintro hregion virt phys flags rfl hres
    have hentry := mapPage_mapsEntry h hres
    refine ⟨⟨fun hgrant => (hentry.user.mp hgrant).1, fun hflags => ?_⟩, hentry.writable hw⟩
    refine hentry.user.mpr ⟨hflags, ?_⟩
    rcases hregion virt phys flags rfl hflags with habsent | hhuge | hset
    · exact Or.inl habsent
    · rw [mapPage_huge hhuge] at hres
      have hfail : (-1 : Int) = 0 := hres
      exact absurd hfail (by decide)
    · exact Or.inr hset

/-- In a run of paging calls every mapping has the rights of its flags exactly when every mapping
for user mode goes to a user region. -/
theorem rightsExact_iff (hs : kernStart < 2 ^ 32) (he : kernEnd < 2 ^ 32)
    (halign : kernEnd % pageSize = 0) :
    Run.EveryStep Vm.pagingStep RightsExact (bootVm mbi kernStart kernEnd mem starved) calls ↔
      Run.EveryStep Vm.pagingStep (fun s c _ => UserRegion s c)
        (bootVm mbi kernStart kernEnd mem starved) calls := by
  refine Run.everyStep_iff
    (I := fun v => TablesOk kernStart kernEnd mbi.totalPages v ∧ TablesWritable v) ?_
    ⟨tablesOk_bootVm hs he halign, tablesWritable_pagingInit⟩
  rintro s c t ⟨h, hw⟩ hstep
  refine ⟨rightsExact_iff_userRegion h hw hstep, fun _ => ?_⟩
  cases hstep
  exact ⟨h.paging, hw.enters (enters_paging h)⟩

theorem rightsExact_iff_small :
    Run.EveryStep Vm.pagingStep RightsExact (smallVm fun _ => false)
        [.mapPage 0x40000000 0x105000 6, .mapPage 0x40001000 0x106000 2] ↔
      Run.EveryStep Vm.pagingStep (fun s c _ => UserRegion s c) (smallVm fun _ => false)
        [.mapPage 0x40000000 0x105000 6, .mapPage 0x40001000 0x106000 2] :=
  rightsExact_iff (by decide) (by decide) (by decide)

/-- A user page in a region whose page table was made for a kernel page. -/
theorem smallVm_user_after_kernel :
    let s := (smallVm fun _ => false).paging (.mapPage 0x40000000 0x105000 2)
    (pagingMapPage s 0x40001000 0x106000 6).1 = 0 ∧
      ¬ (pagingMapPage s 0x40001000 0x106000 6).2.Grants 0x40001000 pdeUser := by
  rw [smallVm_eq]
  decide +kernel

theorem not_rightsExact_small :
    ¬ ∀ (mbi : MultibootInfo) (kernStart kernEnd : Nat) (mem : Mem) (starved : Nat → Bool)
      (calls : List PagingCall),
      Run.EveryStep Vm.pagingStep RightsExact (bootVm mbi kernStart kernEnd mem starved) calls := by
  intro hall
  obtain ⟨hres, hdenied⟩ := smallVm_user_after_kernel
  have hsteps := hall (oneRegion 0x100000 0x9000) 0x100000 0x101000 (fun _ => 0) (fun _ => false)
    [.mapPage 0x40000000 0x105000 2, .mapPage 0x40001000 0x106000 6]
  have hexact := ((hsteps _ rfl).2 _ rfl).1
  exact hdenied ((hexact 0x40001000 0x106000 6 rfl hres).1.mpr (by decide))

end PinguinOS.Mm
