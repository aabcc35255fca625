import PinguinOS.Lib.BitTable
import PinguinOS.Mm.Paging

/-! The swap partition: pages in slots of eight sectors, and the table of which page is where. -/
namespace PinguinOS.Mm

def swapSlotsMax : Nat := 4096
def sektorenProSlot : Nat := 8
def swapLookupSize : Nat := 1024

/-- An entry of the lookup table; `virt = 0` marks it as empty. -/
structure SwapEntry where
  virt : Nat
  slot : Int

structure Swap where
  bereit : Bool
  lbaStart : Nat
  slotCount : Nat
  slotBitmap : Nat → BitVec 8
  lookup : Nat → SwapEntry

/-- The sectors of the drive, as 32-bit words. -/
abbrev Disk := Nat → Nat → BitVec 32

structure SwapState where
  vm : Vm
  swap : Swap
  disk : Disk

/-! The drive. An error shows up when the next sector is due: `good` sectors have been transferred
before it, and there is none if `good` reaches the count. -/

/-- `ide_select_lba` passes 28 bits on. -/
def lba28 (lba : Nat) : Nat := lba % 2 ^ 28

def writeSectors (mem : Mem) (buf lba : Nat) : (n : Nat) → Disk → Disk
  | 0, disk => disk
  | n + 1, disk =>
    Function.update (writeSectors mem buf lba n disk) (lba + n)
      fun j => mem (buf / 4 + n * 128 + j)

def readSectors (disk : Disk) (buf lba : Nat) : (n : Nat) → Mem → Mem
  | 0, mem => mem
  | n + 1, mem => fun w =>
    if buf / 4 + n * 128 ≤ w ∧ w < buf / 4 + (n + 1) * 128 then
      disk (lba + n) (w - (buf / 4 + n * 128))
    else readSectors disk buf lba n mem w

def ideWrite (disk : Disk) (lba count : Nat) (mem : Mem) (buf good : Nat) : Int × Disk :=
  (if good < count then -1 else 0, writeSectors mem buf (lba28 lba) (min good count) disk)

def ideRead (disk : Disk) (lba count : Nat) (mem : Mem) (buf good : Nat) : Int × Mem :=
  (if good < count then -1 else 0, readSectors disk buf (lba28 lba) (min good count) mem)

/-! The slots and the table. -/

def Swap.slotTest (s : Swap) (slot : Nat) : Bool :=
  BitTable.test s.slotBitmap (slot >>> 3) (slot &&& 7)

def slotAllozieren (s : Swap) : Int × Swap :=
  match (List.range s.slotCount).find? fun i => !s.slotTest i with
  | some i => (i, { s with slotBitmap := BitTable.set s.slotBitmap (i >>> 3) (i &&& 7) })
  | none => (-1, s)

def slotFreigeben (s : Swap) (slot : Nat) : Swap :=
  if slot < s.slotCount then
    { s with slotBitmap := BitTable.clear s.slotBitmap (slot >>> 3) (slot &&& 7) }
  else s

/-- Nothing happens when the table is full. -/
def lookupSet (s : Swap) (virt : Nat) (slot : Int) : Swap :=
  match (List.range swapLookupSize).find? fun i =>
    (s.lookup i).virt = 0 || (s.lookup i).virt = virt with
  | some i => { s with lookup := Function.update s.lookup i ⟨virt, slot⟩ }
  | none => s

def lookupGet (s : Swap) (virt : Nat) : Int :=
  match (List.range swapLookupSize).find? fun i => (s.lookup i).virt = virt with
  | some i => (s.lookup i).slot
  | none => -1

/-- `virt & PAGE_MASK` -/
def pageAddr (virt : Nat) : Nat := virt &&& pageMask.toNat

/-- The first four bytes say `SWAP`. -/
def swapHeader (sizeSectors : Nat) : Nat → BitVec 32
  | 0 => 0x50415753
  | 1 => BitVec.ofNat 32 (sizeSectors &&& 0xFF)
  | _ => 0

/-- The variables of the module before `swap_init`. -/
def Swap.start : Swap where
  bereit := false
  lbaStart := 0
  slotCount := 0
  slotBitmap := fun _ => 0
  lookup := fun _ => ⟨0, 0⟩

/-- `swap_init`; the result of writing the header is ignored. -/
def swapInit (st : SwapState) (lba sizeSectors good : Nat) : SwapState :=
  if sizeSectors < sektorenProSlot then st
  else
    { st with
      disk := if good = 0 then st.disk
        else Function.update st.disk (lba28 lba) (swapHeader sizeSectors)
      swap :=
        { bereit := true
          lbaStart := u32 (lba + 1)
          slotCount := min ((sizeSectors - 1) / sektorenProSlot) swapSlotsMax
          slotBitmap := fun _ => 0
          lookup := fun _ => ⟨0, 0⟩ } }

/-- The first sector of a slot. -/
def Swap.slotLba (s : Swap) (slot : Nat) : Nat := u32 (s.lbaStart + u32 (slot * sektorenProSlot))

/-- Returns 0, or -1 when the page stays where it is. -/
def swapOut (st : SwapState) (virt good : Nat) : Int × SwapState :=
  if !st.swap.bereit then (-1, st)
  else
    let phys := pagingGetPhys st.vm (pageAddr virt)
    if phys = 0 then (-1, st)
    else
      let (slot, swap) := slotAllozieren st.swap
      if slot < 0 then (-1, { st with swap := swap })
      else
        let (err, disk) :=
          ideWrite st.disk (swap.slotLba slot.toNat) sektorenProSlot st.vm.pmm.mem phys good
        if err ≠ 0 then (-1, { st with swap := slotFreigeben swap slot.toNat, disk := disk })
        else
          (0,
            { vm := (pagingUnmapPage st.vm (pageAddr virt)).freePage phys
              swap := lookupSet swap (pageAddr virt) slot
              disk := disk })

/-- Returns 0, or -1 when there is no page for the contents or they cannot be read. -/
def swapIn (st : SwapState) (virt swapSlot good : Nat) : Int × SwapState :=
  if !st.swap.bereit then (-1, st)
  else
    let (phys, vm) := st.vm.allocPage
    if phys = 0 then (-1, { st with vm := vm })
    else
      let (err, mem) :=
        ideRead st.disk (st.swap.slotLba swapSlot) sektorenProSlot vm.pmm.mem phys good
      if err ≠ 0 then (-1, { st with vm := (vm.withMem mem).freePage phys })
      else
        (0,
          { st with
            vm := (pagingMapPage (vm.withMem mem) (pageAddr virt) phys
              (pdePresent ||| pdeWritable ||| pdeUser)).2
            swap := lookupSet (slotFreigeben st.swap swapSlot) (pageAddr virt) (-1) })

/-- An `int32_t` passed as `uint32_t`. -/
def u32OfInt (x : Int) : Nat := (x % 2 ^ 32).toNat

variable {s : Swap} {st : SwapState} {i j k virt good slot : Nat}

theorem pageAddr_eq (virt : Nat) : pageAddr virt = u32 virt / 4096 * 4096 := by
  have hmask : pageMask.toNat = not32 (2 ^ 12 - 1) := rfl
  have hlt : virt &&& not32 (2 ^ 12 - 1) < 2 ^ 32 := by
    refine Nat.lt_of_le_of_lt Nat.and_le_right ?_
    decide
  unfold pageAddr
  rw [hmask, ← Nat.mod_eq_of_lt hlt, Nat.and_mod_two_pow]
  exact and_not32 (k := 12) (by decide) u32_lt

theorem pageAddr_aligned (virt : Nat) : pageAddr virt % 4096 = 0 := by
  rw [pageAddr_eq]
  exact Nat.mul_mod_left _ _

/-! The bitmap of the slots. -/

theorem sameSlot_iff : i >>> 3 = j >>> 3 ∧ i &&& 7 = j &&& 7 ↔ i = j := by
  have hi : i &&& 7 = i % 8 := Nat.and_two_pow_sub_one_eq_mod i 3
  have hj : j &&& 7 = j % 8 := Nat.and_two_pow_sub_one_eq_mod j 3
  rw [hi, hj, Nat.shiftRight_eq_div_pow, Nat.shiftRight_eq_div_pow]
  omega

theorem slot_and_lt : i &&& 7 < 8 := by
  have hi : i &&& 7 = i % 8 := Nat.and_two_pow_sub_one_eq_mod i 3
  omega

/-- The slot is taken. -/
def Swap.take (s : Swap) (slot : Nat) : Swap :=
  { s with slotBitmap := BitTable.set s.slotBitmap (slot >>> 3) (slot &&& 7) }

theorem take_slotTest : (s.take k).slotTest j = (decide (k = j) || s.slotTest j) := by
  refine (BitTable.test_set slot_and_lt).trans ?_
  simp only [sameSlot_iff]
  rfl

theorem slotFreigeben_slotTest : (slotFreigeben s k).slotTest j =
    (!decide (k < s.slotCount ∧ k = j) && s.slotTest j) := by
  unfold slotFreigeben
  by_cases hk : k < s.slotCount
  · rw [if_pos hk]
    refine (BitTable.test_clear slot_and_lt).trans ?_
    simp only [sameSlot_iff, hk, true_and]
    rfl
  · rw [if_neg hk]
    simp [hk]

theorem slotFreigeben_lookup : (slotFreigeben s k).lookup = s.lookup := by
  unfold slotFreigeben
  split_ifs
  · rfl
  · rfl

theorem slotFreigeben_slotCount : (slotFreigeben s k).slotCount = s.slotCount := by
  unfold slotFreigeben
  split_ifs
  · rfl
  · rfl

/-- `slot_allozieren` takes the first free slot, or finds none. -/
theorem slotAllozieren_cases (s : Swap) :
    (∃ k < s.slotCount, s.slotTest k = false ∧ slotAllozieren s = (↑k, s.take k)) ∨
      slotAllozieren s = (-1, s) ∧ ∀ k < s.slotCount, s.slotTest k = true := by
  unfold slotAllozieren
  cases hfind : (List.range s.slotCount).find? fun i => !s.slotTest i with
  | some k =>
    rw [List.find?_range_eq_some] at hfind
    obtain ⟨hfree, hk, -⟩ := hfind
    exact Or.inl ⟨k, List.mem_range.mp hk, by simpa using hfree, rfl⟩
  | none =>
    rw [List.find?_range_eq_none] at hfind
    exact Or.inr ⟨rfl, fun k hk => by simpa using hfind k hk⟩

/-! The calls, by where they end. -/

/-- The frame of the page, 0 for none. -/
def SwapState.frame (st : SwapState) (virt : Nat) : Nat := pagingGetPhys st.vm (pageAddr virt)

/-- The disk after `n` sectors of the page have been written to the slot. -/
def SwapState.written (st : SwapState) (virt slot n : Nat) : Disk :=
  writeSectors st.vm.pmm.mem (st.frame virt) (lba28 (st.swap.slotLba slot)) n st.disk

inductive Outs (st : SwapState) (virt good : Nat) : Int × SwapState → Prop
  | unready (h : st.swap.bereit = false) : Outs st virt good (-1, st)
  | unmapped (hready : st.swap.bereit = true) (h : st.frame virt = 0) : Outs st virt good (-1, st)
  | noSlot (hready : st.swap.bereit = true) (hframe : st.frame virt ≠ 0)
    (h : ∀ k < st.swap.slotCount, st.swap.slotTest k = true) : Outs st virt good (-1, st)
  | failed (hready : st.swap.bereit = true) (hframe : st.frame virt ≠ 0) (k : Nat)
    (hk : k < st.swap.slotCount) (hfree : st.swap.slotTest k = false)
    (h : good < sektorenProSlot) : Outs st virt good (-1,
      { st with swap := slotFreigeben (st.swap.take k) k, disk := st.written virt k good })
  | done (hready : st.swap.bereit = true) (hframe : st.frame virt ≠ 0) (k : Nat)
    (hk : k < st.swap.slotCount) (hfree : st.swap.slotTest k = false)
    (h : sektorenProSlot ≤ good) (hslot : slotAllozieren st.swap = (↑k, st.swap.take k)) :
    Outs st virt good (0,
      { vm := (pagingUnmapPage st.vm (pageAddr virt)).freePage (st.frame virt)
        swap := lookupSet (st.swap.take k) (pageAddr virt) k
        disk := st.written virt k sektorenProSlot })

theorem swapOut_outs (st : SwapState) (virt good : Nat) : Outs st virt good (swapOut st virt good) := by
  have hnat : ∀ k : Nat, ¬ (k : Int) < 0 := fun k => Int.not_lt.mpr (Int.natCast_nonneg k)
  unfold swapOut
  by_cases hready : st.swap.bereit = true
  · rw [hready, if_neg (by decide)]
    dsimp only
    by_cases hframe : pagingGetPhys st.vm (pageAddr virt) = 0
    · rw [if_pos hframe]
      exact .unmapped hready hframe
    rw [if_neg hframe]
    rcases slotAllozieren_cases st.swap with ⟨k, hk, hfree, hslot⟩ | ⟨hnone, hall⟩
    · rw [hslot]
      unfold ideWrite
      dsimp only
      rw [if_neg (hnat k)]
      by_cases hgood : good < sektorenProSlot
      · rw [if_pos hgood, if_pos (by decide), Nat.min_eq_left (Nat.le_of_lt hgood)]
        exact .failed hready hframe k hk hfree hgood
      · rw [if_neg hgood, if_neg (by decide), Nat.min_eq_right (Nat.le_of_not_lt hgood)]
        exact .done hready hframe k hk hfree (Nat.le_of_not_lt hgood) hslot
    · rw [hnone]
      exact .noSlot hready hframe hall
  · have hunready := eq_false_of_ne_true hready
    rw [hunready]
    exact .unready hunready

/-- The page that `swap_in` gets, with the first `n` sectors of the slot in it. -/
def SwapState.loaded (st : SwapState) (slot n : Nat) : Vm :=
  st.vm.allocPage.2.withMem (readSectors st.disk st.vm.allocPage.1 (lba28 (st.swap.slotLba slot)) n
    st.vm.allocPage.2.pmm.mem)

inductive Ins (st : SwapState) (virt slot good : Nat) : Int × SwapState → Prop
  | unready (h : st.swap.bereit = false) : Ins st virt slot good (-1, st)
  | noPage (hready : st.swap.bereit = true) (h : st.vm.allocPage.1 = 0) :
    Ins st virt slot good (-1, { st with vm := st.vm.allocPage.2 })
  | failed (hready : st.swap.bereit = true) (hpage : st.vm.allocPage.1 ≠ 0)
    (h : good < sektorenProSlot) : Ins st virt slot good
      (-1, { st with vm := (st.loaded slot good).freePage st.vm.allocPage.1 })
  | done (hready : st.swap.bereit = true) (hpage : st.vm.allocPage.1 ≠ 0)
    (h : sektorenProSlot ≤ good) : Ins st virt slot good (0,
      { st with
        vm := (pagingMapPage (st.loaded slot sektorenProSlot) (pageAddr virt) st.vm.allocPage.1
          (pdePresent ||| pdeWritable ||| pdeUser)).2
        swap := lookupSet (slotFreigeben st.swap slot) (pageAddr virt) (-1) })

theorem swapIn_ins (st : SwapState) (virt slot good : Nat) :
    Ins st virt slot good (swapIn st virt slot good) := by
  unfold swapIn
  by_cases hready : st.swap.bereit = true
  · rw [hready, if_neg (by decide)]
    dsimp only
    by_cases hpage : st.vm.allocPage.1 = 0
    · rw [if_pos hpage]
      exact .noPage hready hpage
    rw [if_neg hpage]
    unfold ideRead
    dsimp only
    by_cases hgood : good < sektorenProSlot
    · rw [if_pos hgood, if_pos (by decide), Nat.min_eq_left (Nat.le_of_lt hgood)]
      exact .failed hready hpage hgood
    · rw [if_neg hgood, if_neg (by decide), Nat.min_eq_right (Nat.le_of_not_lt hgood)]
      exact .done hready hpage (Nat.le_of_not_lt hgood)
  · have hunready := eq_false_of_ne_true hready
    rw [hunready]
    exact .unready hunready

end PinguinOS.Mm
