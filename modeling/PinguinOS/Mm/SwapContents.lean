import PinguinOS.Mm.Frames
import PinguinOS.Mm.PageFault
import PinguinOS.Mm.SwapAtomic

/-! Contents of pages across swapping: what an access sees is what was swapped out. -/
namespace PinguinOS.Mm

def pageNo (virt : Nat) : Nat := pageAddr virt / 4096

/-- The pages, and what each page that was swapped out held, until its next access. -/
structure SwapRun where
  st : SwapState
  held : Nat → Option (Nat → BitVec 32)

inductive PageEvent
  /-- `swap_out(virt)`; the drive is good for `good` sectors. -/
  | out (virt good : Nat)
  /-- `swap_in` with the slot recorded for the page. -/
  | in_ (virt good : Nat)
  /-- A fault on a page that is not present. -/
  | fault (current : Option Process) (err : BitVec 32) (addr : Nat)
  /-- A load, or a store of one word, through a page table. -/
  | access (addr : Nat) (store : Option (BitVec 32))

/-- The words of the frame of the page. -/
def SwapState.words (st : SwapState) (virt : Nat) : Nat → BitVec 32 := st.vm.word (st.frame virt)

def SwapState.store (st : SwapState) (addr : Nat) : Option (BitVec 32) → SwapState
  | some w => { st with vm := st.vm.setWord (st.frame addr) (addr % 4096 / 4) w }
  | none => st

/-- `none` is `kpanic`, or an event that cannot happen. -/
def SwapRun.step (r : SwapRun) : PageEvent → Option SwapRun
  | .out virt good =>
    let (result, st) := swapOut r.st virt good
    some
      { st := st
        held := if result = 0 then Function.update r.held (pageNo virt) (some (r.st.words virt))
          else r.held }
  | .in_ virt good =>
    let slot := lookupGet r.st.swap (pageAddr virt)
    if slot < 0 then none
    else some { r with st := (swapIn r.st virt (u32OfInt slot) good).2 }
  | .fault current err addr =>
    if addr < 2 ^ 32 ∧ err &&& errPresent = 0 ∧ r.st.frame addr = 0 then
      (pageFaultHandler r.st.vm current err addr).map fun vm => { r with st := { r.st with vm := vm } }
    else none
  | .access addr store =>
    if addr < 2 ^ 32 ∧ r.st.vm.HasTable (pdIndex addr) ∧ r.st.frame addr ≠ 0 then
      some { st := r.st.store addr store, held := Function.update r.held (pageNo addr) none }
    else none

/-- An access finds what the page held when it was swapped out. -/
def SeesHeld (r : SwapRun) (e : PageEvent) (_ : SwapRun) : Prop :=
  ∀ addr store ws, e = .access addr store → r.held (pageNo addr) = some ws →
    ∀ i < 1024, r.st.words addr i = ws i

/-- What is swapped out goes through a page table and can be recorded; a fault is for a page that
has no slot recorded. -/
def KeepsPages (r : SwapRun) : PageEvent → Prop
  | .out virt good => r.st.swap.bereit = true → r.st.frame virt ≠ 0 →
    (∃ k < r.st.swap.slotCount, r.st.swap.slotTest k = false) → sektorenProSlot ≤ good →
      ¬ r.st.vm.Huge (pdIndex (pageAddr virt)) ∧ pageAddr virt ≠ 0 ∧ ∃ i < swapLookupSize,
        (r.st.swap.lookup i).virt = 0 ∨ (r.st.swap.lookup i).virt = pageAddr virt
  | .in_ virt _ => pageAddr virt ≠ 0
  | .fault _ _ addr => pageAddr addr = 0 ∨ lookupGet r.st.swap (pageAddr addr) < 0
  | .access _ _ => True

variable {kernStart kernEnd totalPages virt phys addr good slot i j k m n f a w x buf lba : Nat}
  {v u t : Vm} {st : SwapState} {s : Swap} {disk : Disk} {mem : Mem} {r : SwapRun}
  {ws : Nat → BitVec 32} {err flags : BitVec 32} {current : Option Process}

theorem pageNo_lt : pageNo virt < 2 ^ 20 := by
  have hlt := @u32_lt virt
  unfold pageNo
  rw [pageAddr_eq]
  omega

theorem pageAddr_pageNo : pageAddr virt = pageNo virt * 4096 := by
  have haligned := pageAddr_aligned virt
  unfold pageNo
  omega

theorem pageNo_of_lt (h : virt < 2 ^ 32) : pageNo virt = virt / 4096 := pageAddr_div h

theorem frame_pageNo : st.frame virt = pagingGetPhys st.vm (pageNo virt * 4096) := by
  rw [← pageAddr_pageNo]
  rfl

/-! The drive gives back what it was given. -/

theorem writeSectors_in (h : i < n) :
    writeSectors mem buf lba n disk (lba + i) j = mem (buf / 4 + i * 128 + j) := by
  induction n with
  | zero => exact absurd h (Nat.not_lt_zero i)
  | succ n ih =>
    unfold writeSectors
    by_cases hin : i = n
    · rw [hin, Function.update_self]
    · rw [Function.update_of_ne (by omega), ih (by omega)]

theorem writeSectors_out (h : x < lba ∨ lba + n ≤ x) : writeSectors mem buf lba n disk x = disk x := by
  induction n with
  | zero => rfl
  | succ n ih =>
    unfold writeSectors
    rw [Function.update_of_ne (by omega), ih (by omega)]

theorem readSectors_in (h : i < n * 128) :
    readSectors disk buf lba n mem (buf / 4 + i) = disk (lba + i / 128) (i % 128) := by
  induction n with
  | zero => omega
  | succ n ih =>
    unfold readSectors
    by_cases hin : n * 128 ≤ i
    · have hsector : i / 128 = n := by omega
      have hword : buf / 4 + i - (buf / 4 + n * 128) = i % 128 := by omega
      rw [if_pos (by omega), hsector, hword]
    · rw [if_neg (by omega), ih (by omega)]

/-- The words are in the slot. -/
def SlotHolds (disk : Disk) (s : Swap) (slot : Nat) (ws : Nat → BitVec 32) : Prop :=
  ∀ i < 1024, disk (lba28 (s.slotLba slot) + i / 128) (i % 128) = ws i

/-- Slots share no sector. -/
theorem slotLba_apart (hj : j < swapSlotsMax) (hk : k < swapSlotsMax) (hne : j ≠ k) :
    lba28 (s.slotLba j) + sektorenProSlot ≤ lba28 (s.slotLba k) ∨
      lba28 (s.slotLba k) + sektorenProSlot ≤ lba28 (s.slotLba j) := by
  simp only [swapSlotsMax, sektorenProSlot, Swap.slotLba, lba28, u32] at *
  omega

/-- Another slot is written. -/
theorem SlotHolds.written (h : SlotHolds disk s j ws) (hj : j < swapSlotsMax)
    (hk : k < swapSlotsMax) (hne : j ≠ k) (hn : n ≤ sektorenProSlot) :
    SlotHolds (writeSectors mem buf (lba28 (s.slotLba k)) n disk) s j ws := by
  intro i hi
  have hapart := slotLba_apart (s := s) hj hk hne
  rw [writeSectors_out]
  · exact h i hi
  · simp only [sektorenProSlot] at hapart hn
    omega

theorem slotHolds_written : SlotHolds (writeSectors mem buf (lba28 (s.slotLba k)) sektorenProSlot disk)
    s k fun i => mem (buf / 4 + i) := by
  intro i hi
  have hsector : i / 128 < sektorenProSlot := by
    simp only [sektorenProSlot]
    omega
  rw [writeSectors_in hsector]
  congr 1
  omega

theorem SlotHolds.read (h : SlotHolds disk s k ws) (hi : i < 1024) :
    readSectors disk buf (lba28 (s.slotLba k)) sektorenProSlot mem (buf / 4 + i) = ws i := by
  rw [readSectors_in (by simp only [sektorenProSlot]; omega)]
  exact h i hi

theorem SlotHolds.congr {s' : Swap} (h : SlotHolds disk s k ws) (hlba : s'.lbaStart = s.lbaStart) :
    SlotHolds disk s' k ws := by
  unfold SlotHolds Swap.slotLba
  rw [hlba]
  exact h

/-! The state between events. -/

/-- Every mapped page has its own frame, and a page in a slot is not mapped. -/
structure Swapping (kernStart kernEnd totalPages : Nat) (st : SwapState) : Prop where
  tables : TablesOk kernStart kernEnd totalPages st.vm
  owned : Owned kernStart kernEnd totalPages st.vm
  swap : SwapInv st.swap
  away : ∀ i, st.swap.Live i → ∃ n < 2 ^ 20, (st.swap.lookup i).virt = n * 4096 ∧
    st.vm.HasTable (n / 1024) ∧ ∀ f, ¬ st.vm.MapsTo n f

/-- The words of the page are in its slot, or in its frame. -/
def Kept (st : SwapState) (n : Nat) (ws : Nat → BitVec 32) : Prop :=
  (∃ i, st.swap.Live i ∧ (st.swap.lookup i).virt = n * 4096 ∧
    SlotHolds st.disk st.swap (st.swap.slotOf i) ws) ∨
  ∃ f, st.vm.MapsTo n f ∧ ∀ i < 1024, st.vm.pmm.mem (f * 1024 + i) = ws i

theorem words_eq (h : st.frame virt = f * 4096) : st.words virt i = st.vm.pmm.mem (f * 1024 + i) := by
  have hbase : f * 4096 / 4 = f * 1024 := by omega
  unfold SwapState.words Vm.word
  rw [h, hbase]

theorem mapsTo_frame (ht : st.vm.HasTable (pdIndex (pageAddr virt))) (hframe : st.frame virt ≠ 0) :
    ∃ f, st.frame virt = f * 4096 ∧ st.vm.MapsTo (pageNo virt) f := by
  have haligned : st.frame virt % 4096 = 0 := frame_aligned
  rw [pageAddr_pageNo, page_pdIndex] at ht
  refine ⟨st.frame virt / 4096, by omega, ht, ?_, by omega⟩
  rw [← frame_pageNo]
  omega

theorem SamePage.reads (h : SamePage v u f)
    (hw : ∀ i < 1024, v.pmm.mem (f * 1024 + i) = ws i) :
    ∀ i < 1024, u.pmm.mem (f * 1024 + i) = ws i := by
  intro i hi
  rw [h _ (by omega)]
  exact hw i hi

/-- The mappings of the page stay, and so do its frame and its slot. -/
theorem Kept.vm (h : Kept st n ws)
    (hkeep : ∀ f, st.vm.MapsTo n f → u.MapsTo n f ∧ SamePage st.vm u f) :
    Kept { st with vm := u } n ws := by
  rcases h with hslot | ⟨f, hmap, hwords⟩
  · exact Or.inl hslot
  · obtain ⟨hmap', hsame⟩ := hkeep f hmap
    exact Or.inr ⟨f, hmap', hsame.reads hwords⟩

/-- The mappings stay as they are. -/
theorem Swapping.vm (h : Swapping kernStart kernEnd totalPages st)
    (hok : TablesOk kernStart kernEnd totalPages u) (hsame : SameTables st.vm u)
    (hkeep : ∀ x, FreshPage kernStart kernEnd totalPages st.vm x →
      Keeps kernStart kernEnd totalPages st.vm u x) :
    Swapping kernStart kernEnd totalPages { st with vm := u } ∧
      ∀ n < 2 ^ 20, ∀ ws, Kept st n ws → Kept { st with vm := u } n ws := by
  refine ⟨⟨hok, h.owned.sameTables hsame fun x hx => (hkeep x hx).fresh, h.swap, fun i hi => ?_⟩, ?_⟩
  · obtain ⟨n, hn, hvirt, ht, hnot⟩ := h.away i hi
    exact ⟨n, hn, hvirt, (hasTable_congr (congrFun hsame.1 _)).mpr ht,
      fun f hmap => hnot f (hsame.mapsTo.mp hmap)⟩
  · intro n hn ws hkept
    exact hkept.vm fun f hmap => ⟨hsame.mapsTo.mpr hmap, (hkeep f (h.owned.own n f hn hmap)).same⟩

/-- A live entry is not for a page that is mapped. -/
theorem Swapping.not_live (h : Swapping kernStart kernEnd totalPages st)
    (hmap : st.vm.MapsTo n f) : st.swap.Live i → (st.swap.lookup i).virt ≠ n * 4096 := by
  intro hi heq
  obtain ⟨m, -, hvirt, -, hnot⟩ := h.away i hi
  have hmn : m = n := by omega
  exact hnot f (hmn ▸ hmap)

theorem SwapInv.slot_marked (h : SwapInv s) (hi : s.Live i) :
    s.slotOf i < swapSlotsMax ∧ s.slotTest (s.slotOf i) = true := h.booked.mapsTo hi

/-- A free slot is nobody's. -/
theorem SwapInv.slot_ne (h : SwapInv s) (hi : s.Live i) (hfree : s.slotTest k = false) :
    s.slotOf i ≠ k := by
  rintro rfl
  rw [(h.slot_marked hi).2] at hfree
  cases hfree

theorem slotFreigeben_lbaStart : (slotFreigeben s k).lbaStart = s.lbaStart := by
  unfold slotFreigeben
  split_ifs
  · rfl
  · rfl

/-! `swap_out` -/

/-- A drive error: some sectors of a free slot have been written. -/
theorem Swapping.outFailed (h : Swapping kernStart kernEnd totalPages st)
    (hk : k < st.swap.slotCount) (hfree : st.swap.slotTest k = false) (hn : n ≤ sektorenProSlot) :
    Swapping kernStart kernEnd totalPages
        { st with swap := slotFreigeben (st.swap.take k) k, disk := st.written virt k n } ∧
      ∀ m ws, Kept st m ws →
        Kept { st with swap := slotFreigeben (st.swap.take k) k, disk := st.written virt k n } m ws := by
  have hlookup : (slotFreigeben (st.swap.take k) k).lookup = st.swap.lookup := slotFreigeben_lookup
  have hlba : (slotFreigeben (st.swap.take k) k).lbaStart = st.swap.lbaStart :=
    slotFreigeben_lbaStart
  have hlive : ∀ i, (slotFreigeben (st.swap.take k) k).Live i ↔ st.swap.Live i := by
    intro i
    unfold Swap.Live
    rw [hlookup]
  have hcount := h.swap.count
  refine ⟨⟨h.tables, h.owned, h.swap.giveBack hk hfree, fun i hi => ?_⟩, fun m ws hkept => ?_⟩
  · dsimp only
    rw [hlookup]
    exact h.away i ((hlive i).mp hi)
  · rcases hkept with ⟨i, hi, hvirt, hholds⟩ | hframe
    · refine Or.inl ⟨i, (hlive i).mpr hi, ?_, ?_⟩
      · dsimp only
        rw [hlookup]
        exact hvirt
      · have hne := h.swap.slot_ne hi hfree
        have hslot : (slotFreigeben (st.swap.take k) k).slotOf i = st.swap.slotOf i := by
          unfold Swap.slotOf
          rw [hlookup]
        dsimp only
        rw [hslot]
        exact (hholds.written (h.swap.slot_marked hi).1 (by omega) hne hn).congr hlba
    · exact Or.inr hframe

theorem Swapping.recordable (h : Swapping kernStart kernEnd totalPages st)
    (hmap : st.vm.MapsTo (pageNo virt) f) (hzero : pageAddr virt ≠ 0)
    (hroom : ∃ i < swapLookupSize,
      (st.swap.lookup i).virt = 0 ∨ (st.swap.lookup i).virt = pageAddr virt) :
    st.swap.Recordable (pageAddr virt) := by
  refine ⟨hzero, Int.not_le.mp fun hpos => ?_, hroom⟩
  obtain ⟨i, hi, hvirt, -⟩ := h.swap.recorded hzero hpos
  exact h.not_live hmap hi (hvirt.trans pageAddr_pageNo)

/-- The page goes to slot `k`, and the entry of no other page is touched. -/
theorem Swapping.outDone (h : Swapping kernStart kernEnd totalPages st)
    (hk : k < st.swap.slotCount) (hfree : st.swap.slotTest k = false)
    (hframe : st.frame virt = f * 4096) (hmap : st.vm.MapsTo (pageNo virt) f)
    (hrec : st.swap.Recordable (pageAddr virt)) (hst : u = (pagingUnmapPage st.vm
      (pageAddr virt)).freePage (st.frame virt)) :
    Swapping kernStart kernEnd totalPages
        ⟨u, lookupSet (st.swap.take k) (pageAddr virt) k, st.written virt k sektorenProSlot⟩ ∧
      Kept ⟨u, lookupSet (st.swap.take k) (pageAddr virt) k, st.written virt k sektorenProSlot⟩
        (pageNo virt) (st.words virt) ∧
      ∀ m < 2 ^ 20, ∀ ws, m ≠ pageNo virt → Kept st m ws →
        Kept ⟨u, lookupSet (st.swap.take k) (pageAddr virt) k, st.written virt k sektorenProSlot⟩
          m ws := by
  have hdrops : Drops kernStart kernEnd totalPages st.vm u (pageNo virt) f := by
    rw [hst, hframe, pageAddr_pageNo]
    exact h.owned.drops h.tables pageNo_lt hmap
  have hinv := (h.swap.out (pageAddr_aligned virt) hrec hk hfree).1
  obtain ⟨i, hi, hdead, henter⟩ := h.swap.out_enter (k := k) (x := k) hrec
  have hcount := h.swap.count
  rw [henter] at hinv ⊢
  have hself : ((st.swap.take k).enter i (pageAddr virt) k).slotOf i = k := by
    unfold Swap.slotOf
    rw [enter_lookup]
    exact Int.toNat_natCast k
  have hother : ∀ j, st.swap.Live j → j ≠ i ∧
      ((st.swap.take k).enter i (pageAddr virt) k).lookup j = st.swap.lookup j := by
    intro j hj
    have hne : j ≠ i := fun heq => hdead (heq ▸ hj)
    exact ⟨hne, enter_lookup_of_ne hne⟩
  refine ⟨⟨hdrops.tablesOk, hdrops.owned, hinv, fun j hj => ?_⟩, ?_, fun m hm ws hne hkept => ?_⟩
  · rcases enter_live.mp hj with ⟨rfl, -⟩ | ⟨-, hj⟩
    · refine ⟨pageNo virt, pageNo_lt, ?_, ?_, fun g hg => ?_⟩
      · dsimp only
        rw [enter_lookup]
        exact pageAddr_pageNo
      · exact (hasTable_congr (congrFun hdrops.pd _)).mpr hmap.1
      · exact ((hdrops.mapsTo _ g).mp hg).1 rfl
    · obtain ⟨n, hn, hvirt, ht, hnot⟩ := h.away j hj
      refine ⟨n, hn, ?_, (hasTable_congr (congrFun hdrops.pd _)).mpr ht,
        fun g hg => hnot g ((hdrops.mapsTo n g).mp hg).2⟩
      dsimp only
      rw [(hother j hj).2]
      exact hvirt
  · refine Or.inl ⟨i, enter_live.mpr (Or.inl ⟨rfl, hi, hrec.1, Int.natCast_nonneg k⟩), ?_, ?_⟩
    · dsimp only
      rw [enter_lookup]
      exact pageAddr_pageNo
    · dsimp only
      rw [hself]
      exact slotHolds_written (s := st.swap)
  · rcases hkept with ⟨j, hj, hvirt, hholds⟩ | ⟨g, hg, hwords⟩
    · obtain ⟨hji, hentry⟩ := hother j hj
      refine Or.inl ⟨j, enter_live.mpr (Or.inr ⟨hji, hj⟩), ?_, ?_⟩
      · dsimp only
        rw [hentry]
        exact hvirt
      · have hslot := h.swap.slot_ne hj hfree
        dsimp only
        rw [enter_slotOf_of_ne hji]
        exact hholds.written (h.swap.slot_marked hj).1 (by omega) hslot (Nat.le_refl _)
    · have hgf : g ≠ f := by
        rintro rfl
        exact hne (h.owned.apart m _ g hm pageNo_lt hg hmap)
      refine Or.inr ⟨g, (hdrops.mapsTo m g).mpr ⟨hne, hg⟩, ?_⟩
      exact (hdrops.keeps g (h.owned.own m g hm hg) hgf).same.reads hwords

/-! `swap_in` -/

/-- The page that `swap_in` gets, with what has been read into it. -/
theorem newFrame_loaded (h : TablesOk kernStart kernEnd totalPages st.vm)
    (hpage : st.vm.allocPage.1 ≠ 0) (hn : n ≤ sektorenProSlot) (slot : Nat) :
    ∃ f, st.vm.allocPage.1 = f * pageSize ∧
      NewFrame kernStart kernEnd totalPages st.vm (st.loaded slot n) f := by
  obtain ⟨f, haddr, hnew⟩ := h.newFrame hpage
  refine ⟨f, haddr, hnew.fill fun w hw => readSectors_out ?_⟩
  rw [haddr]
  simp only [pageSize, sektorenProSlot] at hn ⊢
  omega

/-- What has been read is what the slot holds. -/
theorem SlotHolds.loaded (h : SlotHolds st.disk st.swap slot ws)
    (haddr : st.vm.allocPage.1 = f * pageSize) (hi : i < 1024) :
    (st.loaded slot sektorenProSlot).pmm.mem (f * 1024 + i) = ws i := by
  have hbase : f * 1024 = st.vm.allocPage.1 / 4 := by
    rw [haddr]
    simp only [pageSize]
    omega
  rw [hbase]
  exact h.read hi

theorem Swapping.inNoPage (h : Swapping kernStart kernEnd totalPages st) :
    Swapping kernStart kernEnd totalPages { st with vm := st.vm.allocPage.2 } ∧
      ∀ n < 2 ^ 20, ∀ ws, Kept st n ws → Kept { st with vm := st.vm.allocPage.2 } n ws :=
  h.vm h.tables.allocPage.1 h.tables.allocPage.2.1 fun _ hx => (hx.allocPage h.tables).1

theorem Swapping.inFailed (h : Swapping kernStart kernEnd totalPages st)
    (hpage : st.vm.allocPage.1 ≠ 0) (hn : n ≤ sektorenProSlot) :
    Swapping kernStart kernEnd totalPages
        { st with vm := (st.loaded slot n).freePage st.vm.allocPage.1 } ∧
      ∀ m < 2 ^ 20, ∀ ws, Kept st m ws →
        Kept { st with vm := (st.loaded slot n).freePage st.vm.allocPage.1 } m ws := by
  obtain ⟨f, haddr, hnew⟩ := newFrame_loaded h.tables hpage hn slot
  obtain ⟨hok, hsame, hkeep⟩ := hnew.freed
  rw [haddr]
  exact h.vm hok hsame hkeep

/-- The page of the live entry `i` comes back. -/
theorem Swapping.inDone (h : Swapping kernStart kernEnd totalPages st) (hi : st.swap.Live i)
    (hentry : (st.swap.lookup i).virt = pageAddr virt) (hpage : st.vm.allocPage.1 ≠ 0)
    (hu : u = (pagingMapPage (st.loaded (st.swap.slotOf i) sektorenProSlot) (pageAddr virt)
      st.vm.allocPage.1 flags).2) :
    Swapping kernStart kernEnd totalPages { st with
        vm := u
        swap := lookupSet (slotFreigeben st.swap (st.swap.slotOf i)) (pageAddr virt) (-1) } ∧
      ∀ m < 2 ^ 20, ∀ ws, Kept st m ws → Kept { st with
        vm := u
        swap := lookupSet (slotFreigeben st.swap (st.swap.slotOf i)) (pageAddr virt) (-1) } m ws := by
  obtain ⟨f, haddr, hnew⟩ := newFrame_loaded h.tables hpage (Nat.le_refl _)
    (st.swap.slotOf i)
  have hinv := h.swap.returned hi
  have henter := h.swap.returned_enter hi
  have hpageNo := @pageAddr_pageNo virt
  obtain ⟨p, -, hvirt, ht, hnot⟩ := h.away i hi
  have hp : p = pageNo virt := by omega
  subst hp
  rw [hentry] at hinv henter
  rw [henter] at hinv ⊢
  have hmaps : Maps kernStart kernEnd totalPages st.vm u (pageNo virt) := by
    rw [hu, haddr, hpageNo]
    exact h.owned.maps hnew
  have hne : ∀ j, j ≠ i → st.swap.Live j → (st.swap.lookup j).virt ≠ (st.swap.lookup i).virt :=
    fun j hji hj heq => hji (h.swap.table.once j hj.1 i hi.1 heq hj.2.1)
  refine ⟨⟨hmaps.tablesOk, hmaps.owned, hinv, fun j hj => ?_⟩, fun m hm ws hkept => ?_⟩
  · obtain ⟨hji, hj⟩ := live_cleared.mp hj
    obtain ⟨n, hn, hjvirt, hjt, hjnot⟩ := h.away j hj
    have hnp : n ≠ pageNo virt := by
      have hdiff := hne j hji hj
      omega
    refine ⟨n, hn, ?_, hmaps.hasTable _ hjt, fun g hg => hjnot g ((hmaps.mapsTo n g hnp).mp hg)⟩
    dsimp only
    rw [lookup_cleared hji]
    exact hjvirt
  · rcases hkept with ⟨j, hj, hjvirt, hholds⟩ | ⟨g, hg, hwords⟩
    · by_cases hji : j = i
      · subst hji
        have hmp : m = pageNo virt := by omega
        have hrange := hnew.fresh.inRange
        have hlimit := hnew.tablesOk.sane.limit
        have htable : (st.loaded (st.swap.slotOf j) sektorenProSlot).HasTable
            (pdIndex (pageAddr virt)) := by
          rw [hpageNo, page_pdIndex]
          exact (hasTable_congr (congrFun hnew.same.1 _)).mpr ht
        have hdone : (pagingMapPage (st.loaded (st.swap.slotOf j) sektorenProSlot)
            (pageAddr virt) st.vm.allocPage.1 flags).1 = 0 := mapPage_present hnew.tablesOk htable
        refine Or.inr ⟨f, ?_, fun w hw => ?_⟩
        · rw [hpageNo, haddr] at hdone
          rcases @mapsTo_mapPage _ _ _ (pageNo virt) (st.loaded (st.swap.slotOf j) sektorenProSlot)
            flags f hnew.tablesOk hnew.fresh.pos (by omega) with ⟨hfail, -⟩ | ⟨-, hall⟩
          · rw [hdone] at hfail
            exact absurd hfail (by decide)
          · dsimp only
            rw [hu, haddr, hpageNo, hmp]
            exact (hall _ _).mpr (Or.inl ⟨rfl, rfl⟩)
        · dsimp only
          rw [hu, (hnew.fresh.mapPage hnew.tablesOk).same _ (by omega)]
          exact hholds.loaded haddr hw
      · refine Or.inl ⟨j, live_cleared.mpr ⟨hji, hj⟩, ?_, ?_⟩
        · dsimp only
          rw [lookup_cleared hji]
          exact hjvirt
        · unfold Swap.slotOf at hholds ⊢
          dsimp only
          rw [lookup_cleared hji]
          exact hholds.congr slotFreigeben_lbaStart
    · have hmp : m ≠ pageNo virt := fun heq => hnot g (heq ▸ hg)
      exact Or.inr ⟨g, (hmaps.mapsTo m g hmp).mpr hg,
        (hmaps.keeps g (h.owned.own m g hm hg)).same.reads hwords⟩

/-! Faults and accesses. -/

/-- A frame is mapped at a page that had none, nor a slot. -/
theorem Swapping.mapped (h : Swapping kernStart kernEnd totalPages st)
    (hmaps : Maps kernStart kernEnd totalPages st.vm t n)
    (hdead : ∀ i, st.swap.Live i → (st.swap.lookup i).virt ≠ n * 4096)
    (hfree : ∀ g, ¬ st.vm.MapsTo n g) :
    Swapping kernStart kernEnd totalPages { st with vm := t } ∧
      ∀ m < 2 ^ 20, ∀ ws, Kept st m ws → Kept { st with vm := t } m ws := by
  refine ⟨⟨hmaps.tablesOk, hmaps.owned, h.swap, fun i hi => ?_⟩, fun m hm ws hkept => ?_⟩
  · obtain ⟨m, hm, hvirt, ht, hnot⟩ := h.away i hi
    have hmn : m ≠ n := by
      rintro rfl
      exact hdead i hi hvirt
    exact ⟨m, hm, hvirt, hmaps.hasTable _ ht, fun g hg => hnot g ((hmaps.mapsTo m g hmn).mp hg)⟩
  · refine hkept.vm fun g hg => ?_
    have hmn : m ≠ n := by
      rintro rfl
      exact hfree g hg
    exact ⟨(hmaps.mapsTo m g hmn).mpr hg, (hmaps.keeps g (h.owned.own m g hm hg)).same⟩

theorem Swapping.fault (h : Swapping kernStart kernEnd totalPages st) (haddr : addr < 2 ^ 32)
    (herr : err &&& errPresent = 0) (hframe : st.frame addr = 0)
    (hnone : pageAddr addr = 0 ∨ lookupGet st.swap (pageAddr addr) < 0)
    (ht : pageFaultHandler st.vm current err addr = some t) :
    Swapping kernStart kernEnd totalPages { st with vm := t } ∧
      ∀ m < 2 ^ 20, ∀ ws, Kept st m ws → Kept { st with vm := t } m ws := by
  obtain ⟨hsome, flags, rfl⟩ := fault_notPresent herr ht
  obtain ⟨f, hphys, hnew⟩ := h.tables.newFrame hsome
  have hpage : alignDown addr pageSize = pageNo addr * 4096 := by
    rw [alignDown_page haddr, pageNo_of_lt haddr]
  rw [hphys, hpage]
  refine h.mapped (h.owned.maps hnew) (fun i hi hvirt => ?_) fun g hg => ?_
  · rw [← pageAddr_pageNo] at hvirt
    have hpos := (h.swap.live_iff hi.1 hvirt (hvirt ▸ hi.2.1)).mp hi
    rcases hnone with hzero | hneg
    · exact hi.2.1 (hvirt.trans hzero)
    · omega
  · have hmapped := hg.2.1
    have hpos := hg.2.2
    rw [← frame_pageNo, hframe] at hmapped
    omega

/-- A word of the page is written. -/
theorem Swapping.store (h : Swapping kernStart kernEnd totalPages st)
    (hmap : st.vm.MapsTo (pageNo addr) f) (hframe : st.frame addr = f * 4096)
    (store : Option (BitVec 32)) :
    Swapping kernStart kernEnd totalPages (st.store addr store) ∧
      ∀ m < 2 ^ 20, ∀ ws, m ≠ pageNo addr → Kept st m ws → Kept (st.store addr store) m ws := by
  cases store with
  | none => exact ⟨h, fun _ _ _ _ hkept => hkept⟩
  | some y =>
    have hfresh := h.owned.own _ _ pageNo_lt hmap
    have hout : ∀ w, w / 1024 ≠ f →
        (st.vm.setWord (st.frame addr) (addr % 4096 / 4) y).pmm.mem w = st.vm.pmm.mem w := by
      intro w hw
      rw [setWord_mem, hframe]
      exact if_neg (by omega)
    obtain ⟨hok, hsame, hkeep⟩ := h.tables.fill hfresh hout
    refine ⟨⟨hok, h.owned.sameTables hsame hkeep, h.swap, fun i hi => ?_⟩, fun m hm ws hne hkept => ?_⟩
    · obtain ⟨n, hn, hvirt, ht, hnot⟩ := h.away i hi
      exact ⟨n, hn, hvirt, ht, fun g hg => hnot g (hsame.mapsTo.mp hg)⟩
    · refine hkept.vm fun g hg => ⟨hsame.mapsTo.mpr hg, fun w hw => hout w ?_⟩
      rintro rfl
      rw [hw] at hmap
      exact hne (h.owned.apart m _ g hm pageNo_lt hg hmap)

/-! Runs -/

structure Holding (kernStart kernEnd totalPages : Nat) (r : SwapRun) : Prop where
  swapping : Swapping kernStart kernEnd totalPages r.st
  kept : ∀ n < 2 ^ 20, ∀ ws, r.held n = some ws → Kept r.st n ws

/-- Nothing is held that was not held before. -/
theorem Holding.next (h : Holding kernStart kernEnd totalPages r) {st' : SwapState}
    (hst : Swapping kernStart kernEnd totalPages st' ∧
      ∀ m < 2 ^ 20, ∀ ws, Kept r.st m ws → Kept st' m ws) :
    Holding kernStart kernEnd totalPages { r with st := st' } :=
  ⟨hst.1, fun m hm ws hheld => hst.2 m hm ws (h.kept m hm ws hheld)⟩

theorem Holding.out (h : Holding kernStart kernEnd totalPages r)
    (hkeeps : KeepsPages r (.out virt good)) {r' : SwapRun} (hstep : r.step (.out virt good) = some r') :
    Holding kernStart kernEnd totalPages r' := by
  have hfail : ¬ (-1 : Int) = 0 := by decide
  have hsame : ∀ st', Swapping kernStart kernEnd totalPages st' ∧
      (∀ m < 2 ^ 20, ∀ ws, Kept r.st m ws → Kept st' m ws) →
      Holding kernStart kernEnd totalPages
        ⟨st', if (-1 : Int) = 0 then Function.update r.held (pageNo virt) (some (r.st.words virt))
          else r.held⟩ := by
    intro st' hst
    rw [if_neg hfail]
    exact h.next hst
  have houts := swapOut_outs r.st virt good
  unfold SwapRun.step at hstep
  dsimp only at hstep
  generalize swapOut r.st virt good = res at houts hstep
  cases hstep
  cases houts with
  | unready => exact hsame _ ⟨h.swapping, fun _ _ _ hkept => hkept⟩
  | unmapped => exact hsame _ ⟨h.swapping, fun _ _ _ hkept => hkept⟩
  | noSlot => exact hsame _ ⟨h.swapping, fun _ _ _ hkept => hkept⟩
  | failed _ _ k hk hfree hgood =>
    obtain ⟨hswapping, hkept⟩ := h.swapping.outFailed hk hfree (Nat.le_of_lt hgood)
    exact hsame _ ⟨hswapping, fun m _ => hkept m⟩
  | done hready hframe k hk hfree hgood hslot =>
    obtain ⟨hhuge, hzero, hroom⟩ := hkeeps hready hframe ⟨k, hk, hfree⟩ hgood
    have htable : r.st.vm.HasTable (pdIndex (pageAddr virt)) := by
      rcases r.st.vm.entry_cases (pdIndex (pageAddr virt)) with habsent | hhuge' | ht
      · exact absurd (pagingGetPhys_absent habsent) hframe
      · exact absurd hhuge' hhuge
      · exact ht
    obtain ⟨f, hf, hmap⟩ := mapsTo_frame htable hframe
    obtain ⟨hswapping, hnew, hold⟩ := h.swapping.outDone hk hfree hf hmap
      (h.swapping.recordable hmap hzero hroom) rfl
    dsimp only
    rw [if_pos rfl]
    refine ⟨hswapping, fun m hm ws hheld => ?_⟩
    by_cases hmp : m = pageNo virt
    · dsimp only at hheld
      rw [hmp, Function.update_self] at hheld
      cases hheld
      rw [hmp]
      exact hnew
    · dsimp only at hheld
      rw [Function.update_of_ne hmp] at hheld
      exact hold m hm ws hmp (h.kept m hm ws hheld)

theorem Holding.in_ (h : Holding kernStart kernEnd totalPages r)
    (hkeeps : KeepsPages r (.in_ virt good)) {r' : SwapRun} (hstep : r.step (.in_ virt good) = some r') :
    Holding kernStart kernEnd totalPages r' := by
  unfold SwapRun.step at hstep
  dsimp only at hstep
  split_ifs at hstep with hneg
  obtain ⟨i, hi, hentry, hslot⟩ := h.swapping.swap.recorded hkeeps (Int.not_lt.mp hneg)
  rw [hslot] at hstep
  have hins := swapIn_ins r.st virt (r.st.swap.slotOf i) good
  generalize swapIn r.st virt (r.st.swap.slotOf i) good = res at hins hstep
  cases hstep
  cases hins with
  | unready => exact h
  | noPage => exact h.next h.swapping.inNoPage
  | failed _ hpage hgood => exact h.next (h.swapping.inFailed hpage (Nat.le_of_lt hgood))
  | done _ hpage _ => exact h.next (h.swapping.inDone hi hentry hpage rfl)

theorem Holding.fault (h : Holding kernStart kernEnd totalPages r)
    (hkeeps : KeepsPages r (.fault current err addr)) {r' : SwapRun}
    (hstep : r.step (.fault current err addr) = some r') :
    Holding kernStart kernEnd totalPages r' := by
  unfold SwapRun.step at hstep
  dsimp only at hstep
  split_ifs at hstep with hcond
  obtain ⟨haddr, herr, hframe⟩ := hcond
  obtain ⟨t, ht, rfl⟩ := Option.map_eq_some_iff.mp hstep
  exact h.next (h.swapping.fault haddr herr hframe hkeeps ht)

/-- The page is accessed, and found as it was. -/
theorem Holding.access {store : Option (BitVec 32)} (h : Holding kernStart kernEnd totalPages r)
    {r' : SwapRun} (hstep : r.step (.access addr store) = some r') :
    Holding kernStart kernEnd totalPages r' ∧ SeesHeld r (.access addr store) r' := by
  unfold SwapRun.step at hstep
  dsimp only at hstep
  split_ifs at hstep with hcond
  cases hstep
  obtain ⟨haddr, ht, hframe⟩ := hcond
  rw [← pageAddr_index haddr] at ht
  obtain ⟨f, hf, hmap⟩ := mapsTo_frame ht hframe
  obtain ⟨hswapping, hold⟩ := h.swapping.store hmap hf store
  refine ⟨⟨hswapping, fun m hm ws hheld => ?_⟩, ?_⟩
  · by_cases hmp : m = pageNo addr
    · dsimp only at hheld
      rw [hmp, Function.update_self] at hheld
      cases hheld
    · dsimp only at hheld
      rw [Function.update_of_ne hmp] at hheld
      exact hold m hm ws hmp (h.kept m hm ws hheld)
  · rintro _ _ ws ⟨⟩ hheld i hi
    rw [words_eq hf]
    rcases h.kept _ pageNo_lt ws hheld with ⟨j, hj, hvirt, -⟩ | ⟨g, hg, hwords⟩
    · exact absurd hvirt (h.swapping.not_live hmap hj)
    · have hgf : g = f := by
        have hleft := hg.2.1
        have hright := hmap.2.1
        omega
      rw [← hgf]
      exact hwords i hi

theorem Holding.step {e : PageEvent} (h : Holding kernStart kernEnd totalPages r)
    (hkeeps : KeepsPages r e) {r' : SwapRun} (hstep : r.step e = some r') :
    Holding kernStart kernEnd totalPages r' ∧ SeesHeld r e r' := by
  cases e with
  | out virt good => exact ⟨h.out hkeeps hstep, fun _ _ _ he => by cases he⟩
  | in_ virt good => exact ⟨h.in_ hkeeps hstep, fun _ _ _ he => by cases he⟩
  | fault current err addr => exact ⟨h.fault hkeeps hstep, fun _ _ _ he => by cases he⟩
  | access addr store => exact h.access hstep

/-- Right after `swap_init` no page is held. -/
def swapStart (vm : Vm) (disk : Disk) (lba sizeSectors good : Nat) : SwapRun where
  st := swapInit ⟨vm, Swap.start, disk⟩ lba sizeSectors good
  held := fun _ => none

theorem holding_swapStart {sizeSectors : Nat} (h : TablesOk kernStart kernEnd totalPages v)
    (hnone : ∀ d, ¬ v.HasTable d) :
    Holding kernStart kernEnd totalPages (swapStart v disk lba sizeSectors good) := by
  have hvm : (swapStart v disk lba sizeSectors good).st.vm = v := swapInit_vm
  have hlookup : ∀ i, ((swapStart v disk lba sizeSectors good).st.swap.lookup i).virt = 0 := by
    intro i
    unfold swapStart swapInit
    by_cases hsize : sizeSectors < sektorenProSlot
    · rw [if_pos hsize]
      rfl
    · rw [if_neg hsize]
  refine ⟨⟨hvm.symm ▸ h, ⟨fun n f _ hmap => ?_, fun m n f _ _ hmap => ?_⟩, swapInv_swapInit,
    fun i hi => absurd (hlookup i) hi.2.1⟩, fun n _ ws hheld => by cases hheld⟩
  · rw [hvm] at hmap
    exact absurd hmap.1 (hnone _)
  · rw [hvm] at hmap
    exact absurd hmap.1 (hnone _)

def smallSwapStart : SwapRun := swapStart (smallVm fun _ => false) (fun _ _ => 0) 0x800 0x8000 1

/-- A page is touched, written, swapped out and touched again. -/
def writtenOut : List PageEvent :=
  [.fault (some oneArea) 6 0x40000123, .access 0x40000123 (some 7), .out 0x40000000 8,
    .fault (some oneArea) 4 0x40000123]

/-- What the page is found with at the end, in its word at 0x123. -/
theorem smallSwap_lost : (Run.run SwapRun.step smallSwapStart writtenOut).map (fun r =>
    (r.st.words 0x40000123 72, (r.held 0x40000).map (· 72),
      (r.step (.access 0x40000123 none)).isSome)) = some (0, some 7, true) := by
  unfold smallSwapStart
  rw [smallVm_eq]
  decide +kernel

end PinguinOS.Mm
