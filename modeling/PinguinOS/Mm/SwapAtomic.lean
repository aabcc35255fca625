import PinguinOS.Mm.Frames
import PinguinOS.Mm.PageFault
import PinguinOS.Mm.SwapTable

/-! When `swap_out` and `swap_in` are all or nothing. -/
namespace PinguinOS.Mm

inductive SwapOp
  | out (virt good : Nat)
  | in_ (virt slot good : Nat)

def SwapOp.virt : SwapOp → Nat
  | .out virt _ => virt
  | .in_ virt _ _ => virt

def SwapState.op (st : SwapState) : SwapOp → Int × SwapState
  | .out virt good => swapOut st virt good
  | .in_ virt slot good => swapIn st virt slot good

/-- The mappings, the free pages, the slots and the table are as before. -/
structure Untouched (st st' : SwapState) : Prop where
  mappings : SameTables st.vm st'.vm
  freePages : st'.vm.pmm.freePages = st.vm.pmm.freePages
  free : ∀ pfn < st.vm.pmm.totalPages, bitmapTest st'.vm.pmm pfn = bitmapTest st.vm.pmm pfn
  slots : ∀ slot, st'.swap.slotTest slot = st.swap.slotTest slot
  lookup : st'.swap.lookup = st.swap.lookup

/-- The page is gone, and nothing is mapped to its frame. -/
def SwappedOut (st : SwapState) (virt : Nat) (v : Vm) : Prop :=
  (∀ a < 2 ^ 32, a / 4096 = virt / 4096 → pagingGetPhys v a = 0) ∧
    ∀ a < 2 ^ 32, pagingGetPhys v a / 4096 ≠ st.frame virt / 4096

/-- The page goes to the frame that was loaded. -/
def SwappedIn (st : SwapState) (virt : Nat) (v : Vm) : Prop :=
  ∀ a < 2 ^ 32, a / 4096 = virt / 4096 → pagingGetPhys v a = st.vm.allocPage.1 + a % 4096

def AllOrNothing (st : SwapState) (o : SwapOp) : Prop :=
  ((st.op o).1 = 0 → match o with
    | .out virt _ => SwappedOut st virt (st.op o).2.vm
    | .in_ virt _ _ => SwappedIn st virt (st.op o).2.vm) ∧
    ((st.op o).1 ≠ 0 → Untouched st (st.op o).2)

/-- If the call gets to the mappings: the page to be swapped out is in no 4 MB page and no other
page has its frame; for the page to be swapped in there is a page table, or can be one, or it is
in a 4 MB page that happens to map it to the new frame. -/
def SwapSafe (st : SwapState) : SwapOp → Prop
  | .out virt good => st.swap.bereit = true → st.frame virt ≠ 0 →
    (∃ k < st.swap.slotCount, st.swap.slotTest k = false) → sektorenProSlot ≤ good →
      ¬ st.vm.Huge (pdIndex virt) ∧ ∀ a < 2 ^ 32, a / 4096 ≠ virt / 4096 →
        pagingGetPhys st.vm a / 4096 ≠ st.frame virt / 4096
  | .in_ virt _ good => st.swap.bereit = true → st.vm.allocPage.1 ≠ 0 → sektorenProSlot ≤ good →
    ¬ st.vm.allocPage.2.NoTable (pdIndex virt) ∨ st.frame virt = st.vm.allocPage.1

variable {kernStart kernEnd totalPages virt phys good slot i k n a w buf lba : Nat} {v u : Vm}
  {st : SwapState} {disk : Disk} {mem : Mem} {o : SwapOp} {p : Pmm}

/-! Addresses of one page. -/

theorem pageAddr_page (h : virt < 2 ^ 32) : pageAddr virt = virt / 4096 * 4096 := by
  rw [pageAddr_eq, u32_of_lt h]

theorem pageAddr_div (h : virt < 2 ^ 32) : pageAddr virt / 4096 = virt / 4096 := by
  rw [pageAddr_page h]
  omega

theorem pageAddr_index (h : virt < 2 ^ 32) : pdIndex (pageAddr virt) = pdIndex virt := by
  rw [pageAddr_page h, pdIndex_eq, pdIndex_eq]
  omega

theorem frame_or_offset {x y hi lo : BitVec 32} (hk : k ≤ 32) (hhi : hi.toNat = not32 (2 ^ k - 1))
    (hlo : lo.toNat = 2 ^ k - 1) :
    ((x &&& hi) ||| (y &&& lo)).toNat = x.toNat / 2 ^ k * 2 ^ k + y.toNat % 2 ^ k := by
  have hoffset : y.toNat % 2 ^ k < 2 ^ k := Nat.mod_lt _ (Nat.two_pow_pos k)
  rw [BitVec.toNat_or, toNat_and_high hk hhi, BitVec.toNat_and, hlo,
    Nat.and_two_pow_sub_one_eq_mod, Nat.mul_comm]
  exact (Nat.two_pow_add_eq_or_of_lt hoffset _).symm

theorem getPhys_hugeEntry (hd : v.Huge (pdIndex a)) (ha : a < 2 ^ 32) :
    pagingGetPhys v a =
      (v.kernelPd (pdIndex a)).toNat / 2 ^ 22 * 2 ^ 22 + a % 2 ^ 22 := by
  unfold pagingGetPhys
  dsimp only
  rw [if_neg hd.1, if_pos hd.2, frame_or_offset (k := 22) (by decide) rfl rfl, BitVec.toNat_ofNat,
    Nat.mod_eq_of_lt ha]

theorem getPhys_tableEntry (ht : v.HasTable (pdIndex a)) (ha : a < 2 ^ 32) {pte : BitVec 32}
    (hpte : v.pmm.mem (v.tablePfn (pdIndex a) * 1024 + ptIndex a) = pte) :
    pagingGetPhys v a =
      if pte &&& pdePresent = 0 then 0 else pte.toNat / 4096 * 4096 + a % 4096 := by
  rw [pagingGetPhys_table ht hpte]
  refine if_congr Iff.rfl rfl ?_
  rw [frame_or_offset (k := 12) (by decide) rfl rfl, BitVec.toNat_ofNat, Nat.mod_eq_of_lt ha]
  rfl

theorem frame_aligned : pagingGetPhys v (pageAddr virt) % 4096 = 0 := by
  have haligned := pageAddr_aligned virt
  have hlt : pageAddr virt < 2 ^ 32 := by
    have hsmall := @u32_lt virt
    rw [pageAddr_eq]
    omega
  rcases v.entry_cases (pdIndex (pageAddr virt)) with habsent | hhuge | ht
  · rw [pagingGetPhys_absent habsent]
  · rw [getPhys_hugeEntry hhuge hlt]
    omega
  · rw [getPhys_tableEntry ht hlt rfl]
    split_ifs
    · rfl
    · omega

/-- A page goes to a frame as a whole. -/
theorem getPhys_offset (ha : a < 2 ^ 32) (hvirt : virt < 2 ^ 32) (hpage : a / 4096 = virt / 4096)
    (hne : pagingGetPhys v (pageAddr virt) ≠ 0) :
    pagingGetPhys v a = pagingGetPhys v (pageAddr virt) + a % 4096 := by
  have hstart := pageAddr_page hvirt
  have hlt : pageAddr virt < 2 ^ 32 := by omega
  have hd : pdIndex a = pdIndex (pageAddr virt) := by
    rw [hstart, pdIndex_eq, pdIndex_eq]
    omega
  have hi : ptIndex a = ptIndex (pageAddr virt) := by
    rw [hstart, ptIndex_eq, ptIndex_eq]
    omega
  rcases v.entry_cases (pdIndex (pageAddr virt)) with habsent | hhuge | ht
  · exact absurd (pagingGetPhys_absent habsent) hne
  · have hhuge' : v.Huge (pdIndex a) := hd ▸ hhuge
    rw [getPhys_hugeEntry hhuge' ha, getPhys_hugeEntry hhuge hlt, hd]
    omega
  · have ht' : v.HasTable (pdIndex a) := hd ▸ ht
    rw [getPhys_tableEntry ht hlt rfl] at hne
    rw [getPhys_tableEntry ht' ha rfl, getPhys_tableEntry ht hlt rfl, hd, hi]
    split_ifs at hne ⊢ with habsent
    · exact absurd rfl hne
    · omega

/-! Memory that no page table is in. -/

theorem readSectors_out (h : ¬ (buf / 4 ≤ w ∧ w < buf / 4 + n * 128)) :
    readSectors disk buf lba n mem w = mem w := by
  induction n with
  | zero => rfl
  | succ n ih =>
    rw [Nat.succ_mul] at h
    unfold readSectors
    rw [if_neg (by omega), ih (by omega)]

/-! `swap_out` -/

/-- The page is unmapped and its frame freed. -/
theorem swapOut_getPhys (h : TablesOk kernStart kernEnd totalPages v) (hvirt : virt < 2 ^ 32) :
    pagingGetPhys ((pagingUnmapPage v (pageAddr virt)).freePage phys) a =
      if v.Huge (pdIndex virt) then pagingGetPhys v a else unmapped (pagingGetPhys v) virt a := by
  have hok : TablesOk kernStart kernEnd totalPages (pagingUnmapPage v (pageAddr virt)) :=
    h.pagingUnmapPage
  rw [hok.freePage_tables.getPhys]
  by_cases hhuge : v.Huge (pdIndex virt)
  · rw [if_pos hhuge, unmapPage_huge]
    rwa [pageAddr_index hvirt]
  · rw [if_neg hhuge, h.unmapPage_getPhys (by rwa [pageAddr_index hvirt])]
    unfold unmapped
    rw [pageAddr_div hvirt]

theorem swappedOut_iff (h : TablesOk kernStart kernEnd totalPages st.vm)
    (hvirt : virt < 2 ^ 32) (hframe : st.frame virt ≠ 0) :
    SwappedOut st virt ((pagingUnmapPage st.vm (pageAddr virt)).freePage (st.frame virt)) ↔
      ¬ st.vm.Huge (pdIndex virt) ∧ ∀ a < 2 ^ 32, a / 4096 ≠ virt / 4096 →
        pagingGetPhys st.vm a / 4096 ≠ st.frame virt / 4096 := by
  have hpage : pageAddr virt / 4096 = virt / 4096 := pageAddr_div hvirt
  have hlt : pageAddr virt < 2 ^ 32 := by
    rw [pageAddr_page hvirt]
    omega
  constructor
  · rintro ⟨hgone, hnone⟩
    have hhuge : ¬ st.vm.Huge (pdIndex virt) := by
      intro hhuge
      have hzero := hgone _ hlt hpage
      rw [swapOut_getPhys h hvirt, if_pos hhuge] at hzero
      exact hframe hzero
    refine ⟨hhuge, fun a ha hne heq => hnone a ha ?_⟩
    rw [swapOut_getPhys h hvirt, if_neg hhuge, unmapped, if_neg hne]
    exact heq
  · rintro ⟨hhuge, hnone⟩
    have hgone : ∀ a, a / 4096 = virt / 4096 → pagingGetPhys
        ((pagingUnmapPage st.vm (pageAddr virt)).freePage (st.frame virt)) a = 0 := by
      intro a ha
      rw [swapOut_getPhys h hvirt, if_neg hhuge, unmapped, if_pos ha]
    refine ⟨fun a _ ha => hgone a ha, fun a ha => ?_⟩
    by_cases hsame : a / 4096 = virt / 4096
    · have haligned : st.frame virt % 4096 = 0 := frame_aligned
      rw [hgone a hsame]
      omega
    · rw [swapOut_getPhys h hvirt, if_neg hhuge, unmapped, if_neg hsame]
      exact hnone a ha hsame

/-- Only the swap variables that count are compared. -/
theorem untouched_of_swap {s : Swap} (hslots : ∀ slot, s.slotTest slot = st.swap.slotTest slot)
    (hlookup : s.lookup = st.swap.lookup) : Untouched st { st with swap := s, disk := disk } :=
  ⟨SameTables.refl _, rfl, fun _ _ => rfl, hslots, hlookup⟩

theorem allOrNothing_out (h : TablesOk kernStart kernEnd totalPages st.vm) (hvirt : virt < 2 ^ 32) :
    AllOrNothing st (.out virt good) ↔ SwapSafe st (.out virt good) := by
  have houts := swapOut_outs st virt good
  unfold AllOrNothing SwapState.op SwapSafe
  dsimp only
  generalize swapOut st virt good = r at houts ⊢
  have hfail : ¬ (-1 : Int) = 0 := by decide
  cases houts with
  | unready hunready =>
    refine iff_of_true ⟨fun hres => absurd hres hfail, fun _ => ?_⟩ fun hready => ?_
    · exact untouched_of_swap (fun _ => rfl) rfl
    · rw [hunready] at hready
      cases hready
  | unmapped hready hframe =>
    refine iff_of_true ⟨fun hres => absurd hres hfail, fun _ => ?_⟩ fun _ hne => absurd hframe hne
    exact untouched_of_swap (fun _ => rfl) rfl
  | noSlot hready hframe hall =>
    refine iff_of_true ⟨fun hres => absurd hres hfail, fun _ => ?_⟩ fun _ _ => ?_
    · exact untouched_of_swap (fun _ => rfl) rfl
    · rintro ⟨k, hk, hfree⟩
      rw [hall k hk] at hfree
      cases hfree
  | failed hready hframe k hk hfree hgood =>
    refine iff_of_true ⟨fun hres => absurd hres hfail, fun _ => ?_⟩ fun _ _ _ hle => ?_
    · exact untouched_of_swap (fun _ => giveBack_slotTest hk hfree) slotFreigeben_lookup
    · exact absurd hgood (Nat.not_lt.mpr hle)
  | done hready hframe k hk hfree hgood hslot =>
    have hsafe := swappedOut_iff h hvirt hframe
    constructor
    · rintro ⟨hdone, -⟩ - - - -
      exact hsafe.mp (hdone rfl)
    · intro hcond
      exact ⟨fun _ => hsafe.mpr (hcond hready hframe ⟨k, hk, hfree⟩ hgood), fun hne => absurd rfl hne⟩

/-! `swap_in` -/

/-- The new page, with what has been read into it. -/
theorem TablesOk.loaded (h : TablesOk kernStart kernEnd totalPages st.vm)
    (hpage : st.vm.allocPage.1 ≠ 0) (hn : n ≤ sektorenProSlot) :
    ∃ i, st.vm.allocPage.1 = i * pageSize ∧ 0 < i ∧ i < totalPages ∧
      bitmapTest st.vm.pmm i = false ∧ TablesOk kernStart kernEnd totalPages (st.loaded slot n) ∧
      SameTables st.vm (st.loaded slot n) ∧ ∀ j < totalPages,
        (bitmapTest (st.loaded slot n).pmm j = true ↔ j = i ∨ bitmapTest st.vm.pmm j = true) := by
  obtain ⟨hok, hsame, hphys⟩ := h.allocPage
  obtain ⟨i, haddr, hpos, hi, hused, hout, hfresh⟩ := hphys.resolve_left hpage
  rcases st.vm.allocPage_cases h.sane.placed.total with ⟨hzero, -⟩ | ⟨i', haddr', hpmm, ha⟩
  · exact absurd hzero hpage
  have hii : i' = i := Nat.eq_of_mul_eq_mul_right (by decide) (haddr'.symm.trans haddr)
  subst hii
  have hread : ∀ w, w / 1024 ≠ i' →
      (st.loaded slot n).pmm.mem w = st.vm.allocPage.2.pmm.mem w := by
    intro w hw
    refine readSectors_out ?_
    rw [haddr]
    simp only [pageSize, sektorenProSlot] at hn ⊢
    omega
  obtain ⟨hsane, htest⟩ := hok.sane.withMem (m := (st.loaded slot n).pmm.mem) fun w hin =>
    hread w fun hw => hout (hw ▸ hin)
  have htables : SameTables st.vm.allocPage.2 (st.loaded slot n) := by
    refine ⟨rfl, fun d hd w hw => hread w ?_⟩
    rw [hw, tablePfn_allocPage]
    exact hfresh d (hasTable_allocPage.mp hd)
  refine ⟨i', haddr, hpos, hi, ha.free i' (Nat.le_refl _) (by omega),
    hok.samePd rfl hsane fun j hj hset => (htest j hj).trans hset, hsame.trans htables, ?_⟩
  intro j hj
  have hbits := h.sane.allocates_test ha (h.sane.total.symm ▸ hj)
  rw [← hpmm] at hbits
  have hbit : bitmapTest (st.loaded slot n).pmm j = bitmapTest st.vm.allocPage.2.pmm j := htest j hj
  rw [hbit, hbits]
  refine or_congr_left ?_
  omega

/-- The page goes back. -/
theorem TablesOk.loaded_freed (h : TablesOk kernStart kernEnd totalPages st.vm)
    (hpage : st.vm.allocPage.1 ≠ 0) (hn : n ≤ sektorenProSlot) :
    Untouched st { st with vm := (st.loaded slot n).freePage st.vm.allocPage.1 } := by
  obtain ⟨i, haddr, hpos, hi, hfree, hok, hsame, hbits⟩ := @TablesOk.loaded _ _ _ slot n st h hpage hn
  have htotal := h.sane.total
  have htotal' := hok.sane.total
  have hlimit := h.sane.limit
  have hpfn : st.vm.allocPage.1 / 4096 = i := by
    rw [haddr]
    exact Nat.mul_div_cancel i (by decide)
  have hback : ∀ j < totalPages, bitmapTest ((st.loaded slot n).freePage st.vm.allocPage.1).pmm j =
      bitmapTest st.vm.pmm j := by
    intro j hj
    refine Bool.eq_iff_iff.mpr (pmmFreePage_test.trans ?_)
    rw [hbits j hj, hpfn, htotal']
    constructor
    · rintro ⟨hnot, rfl | hset⟩
      · exact absurd ⟨hpos, hi, rfl⟩ hnot
      · exact hset
    · intro hset
      refine ⟨?_, Or.inr hset⟩
      rintro ⟨-, -, rfl⟩
      rw [hfree] at hset
      cases hset
  refine ⟨hsame.trans hok.freePage_tables, ?_, fun j hj => hback j (htotal ▸ hj), fun _ => rfl, rfl⟩
  have hacc : Accounted ((st.loaded slot n).freePage st.vm.allocPage.1).pmm :=
    accounted_pmmFreePage hok.sane.accounted (by omega)
  have hplace : SamePlace (st.loaded slot n).pmm
      ((st.loaded slot n).freePage st.vm.allocPage.1).pmm := pmmFreePage_samePlace
  refine hacc.trans (Eq.trans (clearCount_congr ?_ ?_) h.sane.accounted.symm)
  · rw [hplace.1, htotal', htotal]
  · exact fun j hj => hback j (htotal ▸ hj)

/-- `pmm_alloc_page` fails when no page is free, or when it is made to. -/
theorem allocPage_zero_iff (h : Sane kernStart kernEnd totalPages v.pmm) : v.allocPage.1 = 0 ↔
    v.starved 0 = true ∨ ∀ j, 0 < j → j < totalPages → bitmapTest v.pmm j = true := by
  have htotal := h.total
  unfold Vm.allocPage
  dsimp only
  by_cases hstarved : v.starved 0 = true
  · rw [if_pos hstarved]
    exact iff_of_true rfl (Or.inl hstarved)
  rw [if_neg hstarved, or_iff_right hstarved]
  rcases pmmAllocPage_result h.placed.total with ⟨hnone, hall⟩ | ⟨i, hsome, hpos, hi, hfree, -⟩
  · rw [hnone]
    exact iff_of_true rfl fun j hj hjt => hall j hj (by omega)
  · rw [hsome]
    refine iff_of_false ?_ fun hall => ?_
    · simp only [pageSize]
      omega
    · rw [hall i hpos (by omega)] at hfree
      cases hfree

/-- What is read into the new page does not bear on the allocator. -/
theorem noTable_loaded {d : Nat} (h : TablesOk kernStart kernEnd totalPages st.vm)
    (hpage : st.vm.allocPage.1 ≠ 0) (hn : n ≤ sektorenProSlot) :
    (st.loaded slot n).NoTable d ↔ st.vm.allocPage.2.NoTable d := by
  obtain ⟨i, haddr, -, -, -, hok, -, hbits⟩ := @TablesOk.loaded _ _ _ slot n st h hpage hn
  obtain ⟨i', haddr', -, -, -, hok', -, hbits'⟩ :=
    @TablesOk.loaded _ _ _ slot 0 st h hpage (Nat.zero_le _)
  have hii : i' = i := Nat.eq_of_mul_eq_mul_right (by decide) (haddr'.symm.trans haddr)
  subst hii
  have hsame : (st.loaded slot n).allocPage.1 = 0 ↔ (st.loaded slot 0).allocPage.1 = 0 := by
    rw [allocPage_zero_iff hok.sane, allocPage_zero_iff hok'.sane]
    refine or_congr Iff.rfl (forall_congr' fun j => forall_congr' fun _ => ?_)
    exact forall_congr' fun hj => (hbits j hj).trans (hbits' j hj).symm
  exact or_congr Iff.rfl (and_congr_right fun _ => hsame)

theorem swappedIn_iff (h : TablesOk kernStart kernEnd totalPages st.vm) (hvirt : virt < 2 ^ 32)
    (hpage : st.vm.allocPage.1 ≠ 0) :
    SwappedIn st virt (pagingMapPage (st.loaded slot sektorenProSlot) (pageAddr virt)
        st.vm.allocPage.1 (pdePresent ||| pdeWritable ||| pdeUser)).2 ↔
      ¬ st.vm.allocPage.2.NoTable (pdIndex virt) ∨ st.frame virt = st.vm.allocPage.1 := by
  obtain ⟨i, haddr, hpos, hi, -, hok, hsame, -⟩ :=
    @TablesOk.loaded _ _ _ slot sektorenProSlot st h hpage (Nat.le_refl _)
  have hlimit := h.sane.limit
  have hlt : st.vm.allocPage.1 < 2 ^ 32 := by
    rw [haddr]
    simp only [pageSize]
    omega
  have hstart := pageAddr_page hvirt
  have hmaps := @mapPage_fst _ _ _ (pageAddr virt) st.vm.allocPage.1
    (st.loaded slot sektorenProSlot) (pdePresent ||| pdeWritable ||| pdeUser) hok
  rw [pageAddr_index hvirt, noTable_loaded h hpage (Nat.le_refl _)] at hmaps
  rcases @TablesOk.pagingMapPage _ _ _ (pageAddr virt) (st.loaded slot sektorenProSlot)
    (pdePresent ||| pdeWritable ||| pdeUser) st.vm.allocPage.1 hok hlt with
    ⟨hfail, hold⟩ | ⟨hdone, hnew⟩
  · have hno : ¬ ¬ st.vm.allocPage.2.NoTable (pdIndex virt) := by
      intro htable
      rw [hmaps.mpr htable] at hfail
      exact absurd hfail (by decide)
    rw [or_iff_right hno]
    unfold SwappedIn
    constructor
    · intro hin
      have hfirst := hin (pageAddr virt) (by omega) (pageAddr_div hvirt)
      rw [hold, hsame.getPhys, pageAddr_aligned virt] at hfirst
      exact hfirst
    · intro hframe a ha hsamePage
      rw [hold, hsame.getPhys, ← hframe]
      refine getPhys_offset ha hvirt hsamePage ?_
      intro hzero
      exact hpage (hframe.symm.trans hzero)
  · refine iff_of_true (fun a ha hsamePage => ?_) (Or.inl (hmaps.mp hdone))
    rw [hnew, pageAddr_div hvirt, if_pos hsamePage, haddr]
    simp only [pageSize]
    omega

theorem allOrNothing_in (h : TablesOk kernStart kernEnd totalPages st.vm) (hvirt : virt < 2 ^ 32) :
    AllOrNothing st (.in_ virt slot good) ↔ SwapSafe st (.in_ virt slot good) := by
  have hins := swapIn_ins st virt slot good
  unfold AllOrNothing SwapState.op SwapSafe
  dsimp only
  generalize swapIn st virt slot good = r at hins ⊢
  have hfail : ¬ (-1 : Int) = 0 := by decide
  cases hins with
  | unready hunready =>
    refine iff_of_true ⟨fun hres => absurd hres hfail, fun _ => ?_⟩ fun hready => ?_
    · exact untouched_of_swap (fun _ => rfl) rfl
    · rw [hunready] at hready
      cases hready
  | noPage hready hzero =>
    refine iff_of_true ⟨fun hres => absurd hres hfail, fun _ => ?_⟩ fun _ hne => absurd hzero hne
    obtain ⟨-, hsame, -⟩ := h.allocPage
    rcases st.vm.allocPage_cases h.sane.placed.total with ⟨-, hpmm⟩ | ⟨i, haddr, -, ha⟩
    · exact ⟨hsame, congrArg Pmm.freePages hpmm, fun j _ => congrArg (bitmapTest · j) hpmm,
        fun _ => rfl, rfl⟩
    · have hpos := ha.nonzero
      rw [haddr] at hzero
      simp only [pageSize] at hzero
      omega
  | failed hready hpage hgood =>
    refine iff_of_true ⟨fun hres => absurd hres hfail, fun _ => ?_⟩ fun _ _ hle => ?_
    · exact h.loaded_freed hpage (Nat.le_of_lt hgood)
    · exact absurd hgood (Nat.not_lt.mpr hle)
  | done hready hpage hgood =>
    have hsafe := @swappedIn_iff _ _ _ _ slot st h hvirt hpage
    constructor
    · rintro ⟨hdone, -⟩ - - -
      exact hsafe.mp (hdone rfl)
    · intro hcond
      exact ⟨fun _ => hsafe.mpr (hcond hready hpage hgood), fun hne => absurd rfl hne⟩

/-- A call is all or nothing exactly when it is safe. -/
theorem allOrNothing_iff (h : TablesOk kernStart kernEnd totalPages st.vm)
    (hvirt : o.virt < 2 ^ 32) : AllOrNothing st o ↔ SwapSafe st o := by
  cases o with
  | out virt good => exact allOrNothing_out h hvirt
  | in_ virt slot good => exact allOrNothing_in h hvirt

theorem swapInit_vm {sizeSectors : Nat} : (swapInit st lba sizeSectors good).vm = st.vm := by
  unfold swapInit
  by_cases hsize : sizeSectors < sektorenProSlot
  · rw [if_pos hsize]
  · rw [if_neg hsize]

theorem tablesOk_smallSwap : TablesOk 0x100000 0x101000 0x109 smallSwap.vm := by
  unfold smallSwap
  rw [swapInit_vm]
  dsimp only
  exact tablesOk_smallVm.paging

theorem allOrNothing_iff_small : AllOrNothing smallSwap (.out 0x40000000 8) ↔
    SwapSafe smallSwap (.out 0x40000000 8) :=
  allOrNothing_iff tablesOk_smallSwap (by decide)

/-- The page of a 4 MB page is swapped out and still mapped. -/
theorem not_allOrNothing_small : ¬ AllOrNothing smallSwap (.out 0x105000 8) := by
  intro h
  have hres : (smallSwap.op (.out 0x105000 8)).1 = 0 := by
    unfold smallSwap
    rw [smallVm_eq]
    decide +kernel
  have hmapped : pagingGetPhys (smallSwap.op (.out 0x105000 8)).2.vm 0x105000 = 0x105000 := by
    unfold smallSwap
    rw [smallVm_eq]
    decide +kernel
  have hgone := (h.1 hres).1 0x105000 (by decide) rfl
  rw [hmapped] at hgone
  exact absurd hgone (by decide)

end PinguinOS.Mm
