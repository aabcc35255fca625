import PinguinOS.Mm.PhysAlloc

/-! `pmm_init`: the bitmap built from the multiboot memory map, and which pages it frees. -/
namespace PinguinOS.Mm

def physMemMax : Nat := 1024 * 1024 * 1024
def multibootMmapAvailable : Nat := 1

structure MmapEntry where
  size : Nat
  addr : Nat
  len : Nat
  type : Nat

/-- What `pmm_init` reads of the `multiboot_info_t`. -/
structure MultibootInfo where
  /-- `flags & MULTIBOOT_INFO_MMAP` -/
  hasMmap : Bool
  memLower : Nat
  memUpper : Nat
  mmapLength : Nat
  /-- The entry at `mmap_addr + offset`. -/
  entryAt : Nat → MmapEntry
  /-- The size field of every entry moves the walk on. -/
  advances : ∀ offset < mmapLength, offset + ((entryAt offset).size + 4) < 2 ^ 32

/-- `while (offset < mbi->mmap_length)`, from `offset` on. -/
def MultibootInfo.entriesFrom (mbi : MultibootInfo) (offset : Nat) : List MmapEntry :=
  if offset < mbi.mmapLength then
    mbi.entryAt offset :: mbi.entriesFrom (u32 (offset + ((mbi.entryAt offset).size + 4)))
  else []
termination_by mbi.mmapLength - offset
decreasing_by
  rw [u32_of_lt (mbi.advances offset ‹_›)]
  omega

/-- The entries that both walks visit, in order. -/
def MultibootInfo.entries (mbi : MultibootInfo) : List MmapEntry := mbi.entriesFrom 0

/-- `entry->addr + entry->len`, in 64 bits. -/
def MmapEntry.end64 (e : MmapEntry) : Nat := (e.addr + e.len) % 2 ^ 64

/-- The body of the first walk. -/
def highestEnd (memBytes : Nat) (e : MmapEntry) : Nat :=
  if e.end64 > memBytes ∧ e.type = multibootMmapAvailable then
    if e.end64 > 0xFFFFFFFF then 0xFFFFFFFF else u32 e.end64
  else memBytes

/-- Step 1 of `pmm_init`. -/
def MultibootInfo.memBytes (mbi : MultibootInfo) : Nat :=
  let memBytes := if mbi.hasMmap then mbi.entries.foldl highestEnd 0 else 0
  let memBytes := if memBytes = 0 then u32 (u32 (1024 + mbi.memUpper) * 1024) else memBytes
  if memBytes > physMemMax then physMemMax else memBytes

def MultibootInfo.totalPages (mbi : MultibootInfo) : Nat :=
  addrToPfn (alignUp mbi.memBytes pageSize)

def MmapEntry.start (e : MmapEntry) : Nat :=
  alignUp (if e.addr > 0xFFFFFFFF then 0xFFFFFFFF else u32 e.addr) pageSize

def MmapEntry.stop (e : MmapEntry) : Nat :=
  alignDown (if e.end64 > 0xFFFFFFFF then 0xFFFFFFFF else u32 e.end64) pageSize

/-- The body of the second walk. -/
def freeEntry (p : Pmm) (e : MmapEntry) : Pmm :=
  if e.type = multibootMmapAvailable then
    if e.stop > e.start then pmmMarkFree p e.start e.stop else p
  else p

/-- Step 2: the bitmap right after the kernel, with every page marked used. -/
def MultibootInfo.place (mbi : MultibootInfo) (kernEnd : Nat) (mem : Mem) : Pmm where
  mem := memset mem kernEnd (BitVec.allOnes 32) (bitmapBytes mbi.totalPages)
  bitmap := kernEnd
  totalPages := mbi.totalPages
  freePages := 0

/-- Step 3. -/
def MultibootInfo.freeRegions (mbi : MultibootInfo) (p : Pmm) : Pmm :=
  if mbi.hasMmap then mbi.entries.foldl freeEntry p
  else
    let p := pmmMarkFree p 0x1000 (u32 (mbi.memLower * 1024))
    pmmMarkFree p 0x100000 mbi.memBytes

/-- Step 4. -/
def reserve (p : Pmm) (kernStart kernEnd : Nat) : Pmm :=
  let bmapEnd := u32 (kernEnd + bitmapBytes p.totalPages)
  let p := pmmMarkUsed p 0 pageSize
  let p := pmmMarkUsed p (alignDown kernStart pageSize) (alignUp kernEnd pageSize)
  pmmMarkUsed p (alignDown kernEnd pageSize) (alignUp bmapEnd pageSize)

/-- `pmm_init`; `kernStart` and `kernEnd` are the addresses of `_kernel_start` and
`_kernel_end`. -/
def pmmInit (mbi : MultibootInfo) (kernStart kernEnd : Nat) (mem : Mem) : Pmm :=
  reserve (mbi.freeRegions (mbi.place kernEnd mem)) kernStart kernEnd

/-- The page shares a byte with `[lo, hi)`. -/
def Overlaps (pfn lo hi : Nat) : Prop := lo < (pfn + 1) * pageSize ∧ pfn * pageSize < hi

/-- The page lies inside an AVAILABLE entry. -/
def MultibootInfo.Available (mbi : MultibootInfo) (pfn : Nat) : Prop :=
  ∃ e ∈ mbi.entries, e.type = multibootMmapAvailable ∧ e.addr ≤ pfn * pageSize ∧
    (pfn + 1) * pageSize ≤ e.addr + e.len

/-- Page 0, the kernel image or the bitmap. -/
def Reserved (kernStart kernEnd totalPages pfn : Nat) : Prop :=
  pfn = 0 ∨ Overlaps pfn kernStart kernEnd ∨
    Overlaps pfn kernEnd (kernEnd + bitmapBytes totalPages)

/-- The second walk frees the page for this entry. -/
def MmapEntry.Frees (e : MmapEntry) (pfn : Nat) : Prop :=
  e.type = multibootMmapAvailable ∧ e.start / 4096 ≤ pfn ∧ pfn < e.stop / 4096

/-- Step 3 frees the page. -/
def MultibootInfo.Frees (mbi : MultibootInfo) (pfn : Nat) : Prop :=
  if mbi.hasMmap then ∃ e ∈ mbi.entries, e.Frees pfn
  else (1 ≤ pfn ∧ pfn < u32 (mbi.memLower * 1024) / 4096) ∨
    (256 ≤ pfn ∧ pfn < mbi.memBytes / 4096)

/-- The bit of the page lies in the bitmap. -/
def HasBit (p : Pmm) (pfn : Nat) : Prop := pfn / 32 * 4 < bitmapBytes p.totalPages

variable {mbi : MultibootInfo} {p : Pmm} {e : MmapEntry} {j kernStart kernEnd : Nat} {mem : Mem}

theorem memBytes_le : mbi.memBytes ≤ physMemMax := by
  unfold MultibootInfo.memBytes
  dsimp only
  split_ifs <;> omega

theorem totalPages_eq : mbi.totalPages = (mbi.memBytes + 4095) / 4096 := by
  have h := @memBytes_le mbi
  simp only [physMemMax] at h
  rw [MultibootInfo.totalPages, addrToPfn_eq, alignUp_page, u32_of_lt (by omega)]
  omega

theorem totalPages_le : mbi.totalPages ≤ 2 ^ 18 := by
  have h := @memBytes_le mbi
  simp only [physMemMax] at h
  rw [totalPages_eq]
  omega

theorem u32_clamp {n m : Nat} (hm : m = if n > 0xFFFFFFFF then 0xFFFFFFFF else u32 n) :
    m = min n 0xFFFFFFFF := by
  subst hm
  split_ifs with h
  · omega
  · rw [u32_of_lt (by omega)]
    omega

theorem start_eq : e.start = u32 (min e.addr 0xFFFFFFFF + 4095) / 4096 * 4096 := by
  rw [MmapEntry.start, alignUp_page, u32_clamp rfl]

theorem stop_eq : e.stop = min e.end64 0xFFFFFFFF / 4096 * 4096 := by
  rw [MmapEntry.stop, u32_clamp rfl, alignDown_page (by omega)]

theorem freeEntry_samePlace : SamePlace p (freeEntry p e) := by
  unfold freeEntry
  split_ifs
  · exact pmmMarkFree_samePlace
  · exact ⟨rfl, rfl⟩
  · exact ⟨rfl, rfl⟩

theorem freeEntry_test :
    bitmapTest (freeEntry p e) j = true ↔
      ¬ (e.Frees j ∧ j < p.totalPages) ∧ bitmapTest p j = true := by
  have hstart : e.start < 2 ^ 32 ∧ e.start % 4096 = 0 := by
    have h := u32_lt (n := min e.addr 0xFFFFFFFF + 4095)
    rw [start_eq]
    omega
  have hstop : e.stop < 2 ^ 32 ∧ e.stop % 4096 = 0 := by
    rw [stop_eq]
    omega
  unfold freeEntry MmapEntry.Frees
  split_ifs with ht hlt
  · rw [pmmMarkFree_test, alignUp_page, alignDown_page hstop.1, u32_of_lt (by omega)]
    refine and_congr_left fun _ => not_congr ?_
    constructor
    · rintro ⟨h1, h2, h3⟩
      exact ⟨⟨ht, by omega, by omega⟩, h3⟩
    · rintro ⟨⟨-, h1, h2⟩, h3⟩
      exact ⟨by omega, by omega, h3⟩
  · constructor
    · intro h
      exact ⟨by omega, h⟩
    · exact fun h => h.2
  · simp [ht]

theorem foldl_freeEntry {es : List MmapEntry} :
    SamePlace p (es.foldl freeEntry p) ∧
      (bitmapTest (es.foldl freeEntry p) j = true ↔
        ¬ ((∃ e ∈ es, e.Frees j) ∧ j < p.totalPages) ∧ bitmapTest p j = true) := by
  induction es generalizing p with
  | nil => exact ⟨⟨rfl, rfl⟩, by simp⟩
  | cons e es ih =>
    obtain ⟨hplace, htest⟩ := ih (p := freeEntry p e)
    have he := freeEntry_samePlace (p := p) (e := e)
    rw [List.foldl_cons]
    refine ⟨⟨hplace.1.trans he.1, hplace.2.trans he.2⟩, ?_⟩
    rw [htest, freeEntry_test, he.1]
    simp only [List.mem_cons, exists_eq_or_imp]
    rw [or_and_right, not_or, and_assoc, and_left_comm]

theorem SamePlace.trans {q r : Pmm} (h : SamePlace p q) (h' : SamePlace q r) : SamePlace p r :=
  ⟨h'.1.trans h.1, h'.2.trans h.2⟩

theorem freeRegions_samePlace : SamePlace p (mbi.freeRegions p) := by
  unfold MultibootInfo.freeRegions
  split_ifs
  · exact (foldl_freeEntry (j := 0)).1
  · exact pmmMarkFree_samePlace.trans pmmMarkFree_samePlace

theorem freeRegions_test :
    bitmapTest (mbi.freeRegions p) j = true ↔
      ¬ (mbi.Frees j ∧ j < p.totalPages) ∧ bitmapTest p j = true := by
  unfold MultibootInfo.freeRegions MultibootInfo.Frees
  split_ifs with h
  · exact foldl_freeEntry.2
  · have hmem := @memBytes_le mbi
    simp only [physMemMax] at hmem
    have hlow : u32 (mbi.memLower * 1024) < 2 ^ 32 := u32_lt
    dsimp only
    rw [pmmMarkFree_test, pmmMarkFree_test, pmmMarkFree_samePlace.1, alignUp_page, alignUp_page,
      alignDown_page hlow, alignDown_page (by omega), u32_of_lt (by decide), u32_of_lt (by decide),
      ← and_assoc]
    refine and_congr_left fun _ => ?_
    omega

theorem reserve_samePlace : SamePlace p (reserve p kernStart kernEnd) :=
  (pmmMarkUsed_samePlace.trans pmmMarkUsed_samePlace).trans pmmMarkUsed_samePlace

theorem bitmapBytes_mod {n : Nat} : bitmapBytes n % 4096 = 0 := by
  rw [bitmapBytes, alignUp_page]
  omega

theorem bitmapBytes_le {n : Nat} (h : n ≤ 2 ^ 18) : bitmapBytes n ≤ 2 ^ 15 := by
  rw [bitmapBytes, alignUp_page, u32_of_lt (by omega)]
  omega

/-- Reserving marks the used pages below `total_pages`, whatever was freed before. -/
theorem reserve_test (hp : p.totalPages ≤ 2 ^ 18) (hs : kernStart < 2 ^ 32) (he : kernEnd < 2 ^ 32)
    (halign : kernEnd % pageSize = 0) (hj : j < p.totalPages) :
    bitmapTest (reserve p kernStart kernEnd) j = true ↔
      Reserved kernStart kernEnd p.totalPages j ∨ bitmapTest p j = true := by
  have hbytes := bitmapBytes_mod (n := p.totalPages)
  have hle := bitmapBytes_le hp
  simp only [pageSize] at halign
  have h1 : alignUp kernEnd pageSize = kernEnd := by
    rw [alignUp_page, u32_of_lt (by omega)]
    omega
  have hbmap : u32 (kernEnd + bitmapBytes p.totalPages) % 4096 = 0 := by
    unfold u32
    omega
  have h2 : alignUp (u32 (kernEnd + bitmapBytes p.totalPages)) pageSize =
      u32 (kernEnd + bitmapBytes p.totalPages) := by
    have hlt : u32 (kernEnd + bitmapBytes p.totalPages) < 2 ^ 32 := u32_lt
    rw [alignUp_page, u32_of_lt (by omega)]
    omega
  unfold reserve
  dsimp only
  rw [pmmMarkUsed_test, pmmMarkUsed_test, pmmMarkUsed_test, alignDown_page hs, alignDown_page he,
    h1, h2, pmmMarkUsed_samePlace.1, pmmMarkUsed_samePlace.1, ← or_assoc, ← or_assoc]
  refine or_congr_left ?_
  simp only [Reserved, Overlaps, u32, pageSize]
  omega

theorem reserve_keeps (h : bitmapTest p j = true) :
    bitmapTest (reserve p kernStart kernEnd) j = true := by
  unfold reserve
  dsimp only
  rw [pmmMarkUsed_test, pmmMarkUsed_test, pmmMarkUsed_test]
  exact Or.inr (Or.inr (Or.inr h))

theorem place_test (halign : kernEnd % pageSize = 0) (hj : HasBit (mbi.place kernEnd mem) j) :
    bitmapTest (mbi.place kernEnd mem) j = true := by
  have hbytes := bitmapBytes_mod (n := mbi.totalPages)
  have hbit : j / 32 * 4 < bitmapBytes mbi.totalPages := hj
  simp only [pageSize] at halign
  have hin : kernEnd / 4 ≤ kernEnd / 4 + j / 32 ∧
      kernEnd / 4 + j / 32 < (kernEnd + bitmapBytes mbi.totalPages) / 4 := by omega
  have hword : (mbi.place kernEnd mem).mem (kernEnd / 4 + j / 32) = BitVec.allOnes 32 := if_pos hin
  have hlt : j % 32 < 32 := Nat.mod_lt _ (by decide)
  unfold bitmapTest BitTable.test bitmapWord
  calc ((mbi.place kernEnd mem).mem (kernEnd / 4 + j / 32)).getLsbD (j % 32)
      = (BitVec.allOnes 32).getLsbD (j % 32) := by rw [hword]
    _ = true := by rw [BitVec.getLsbD_allOnes, decide_eq_true hlt]

theorem pmmInit_samePlace : SamePlace (mbi.place kernEnd mem) (pmmInit mbi kernStart kernEnd mem) :=
  freeRegions_samePlace.trans reserve_samePlace

theorem pmmInit_totalPages : (pmmInit mbi kernStart kernEnd mem).totalPages = mbi.totalPages :=
  pmmInit_samePlace.1

theorem hasBit_of_lt (hp : p.totalPages ≤ 2 ^ 18) (hj : j < p.totalPages) : HasBit p j :=
  le_bitmapBytes hp hj

/-- The pages that are free after `pmm_init`. -/
theorem pmmInit_clear (hs : kernStart < 2 ^ 32) (he : kernEnd < 2 ^ 32)
    (halign : kernEnd % pageSize = 0) (hj : HasBit (pmmInit mbi kernStart kernEnd mem) j) :
    bitmapTest (pmmInit mbi kernStart kernEnd mem) j = false ↔
      j < mbi.totalPages ∧ mbi.Frees j ∧ ¬ Reserved kernStart kernEnd mbi.totalPages j := by
  have htotal : (mbi.freeRegions (mbi.place kernEnd mem)).totalPages = mbi.totalPages :=
    freeRegions_samePlace.1
  have hplace : bitmapTest (mbi.place kernEnd mem) j = true := by
    apply place_test halign
    unfold HasBit at hj ⊢
    rwa [pmmInit_samePlace.1] at hj
  have hfree : bitmapTest (mbi.freeRegions (mbi.place kernEnd mem)) j = true ↔
      ¬ (mbi.Frees j ∧ j < mbi.totalPages) := by
    rw [freeRegions_test, hplace]
    exact and_iff_left rfl
  rw [pmmInit, ← Bool.not_eq_true]
  by_cases hlt : j < mbi.totalPages
  · rw [reserve_test (htotal ▸ totalPages_le) hs he halign (htotal ▸ hlt), hfree, htotal]
    tauto
  · have hset : bitmapTest (reserve (mbi.freeRegions (mbi.place kernEnd mem)) kernStart kernEnd) j =
        true := reserve_keeps (hfree.mpr fun h => hlt h.2)
    simp [hset, hlt]

/-- What is promised of the pages that are free after `pmm_init`. -/
def FreesOnlyRam (mbi : MultibootInfo) (kernStart kernEnd : Nat) (p : Pmm) : Prop :=
  ∀ pfn, HasBit p pfn → bitmapTest p pfn = false →
    mbi.Available pfn ∧ pfn < p.totalPages ∧ ¬ Reserved kernStart kernEnd p.totalPages pfn

/-- The walks see an AVAILABLE entry whose start `ALIGN_UP` wraps to 0. -/
def MultibootInfo.Wraps (mbi : MultibootInfo) : Prop :=
  ∃ e ∈ mbi.entries, e.type = multibootMmapAvailable ∧ e.addr > 0xFFFFF000

theorem highestEnd_eq {m : Nat} (hm : m ≤ 0xFFFFFFFF) :
    highestEnd m e =
      if e.type = multibootMmapAvailable then max m (min e.end64 0xFFFFFFFF) else m := by
  unfold highestEnd
  rw [u32_clamp rfl]
  split_ifs with h ht ht
  · omega
  · exact absurd h.2 ht
  · have : ¬ e.end64 > m := fun hgt => h ⟨hgt, ht⟩
    omega
  · rfl

theorem le_foldl_highestEnd {es : List MmapEntry} {m : Nat} (hm : m ≤ 0xFFFFFFFF) :
    m ≤ es.foldl highestEnd m ∧ ∀ e ∈ es, e.type = multibootMmapAvailable →
      min e.end64 0xFFFFFFFF ≤ es.foldl highestEnd m := by
  induction es generalizing m with
  | nil => simp
  | cons e es ih =>
    have hstep := highestEnd_eq (e := e) hm
    have hbound : highestEnd m e ≤ 0xFFFFFFFF := by
      rw [hstep]
      split_ifs
      · omega
      · exact hm
    obtain ⟨h1, h2⟩ := ih hbound
    have hge : m ≤ highestEnd m e := by
      rw [hstep]
      split_ifs
      · omega
      · omega
    refine ⟨Nat.le_trans hge h1, ?_⟩
    intro e' he' ht
    rcases List.mem_cons.mp he' with rfl | he'
    · rw [if_pos ht] at hstep
      rw [List.foldl_cons]
      omega
    · exact h2 e' he' ht

theorem end64_of_fits (h : e.addr + e.len < 2 ^ 64) : e.end64 = e.addr + e.len :=
  Nat.mod_eq_of_lt h

/-- A wrapping entry also raises the page count to its limit. -/
theorem totalPages_of_wraps (hmmap : mbi.hasMmap = true)
    (hlen : ∀ e ∈ mbi.entries, e.addr + e.len < 2 ^ 64) (hw : mbi.Wraps) :
    mbi.totalPages = 2 ^ 18 := by
  obtain ⟨e, he, ht, haddr⟩ := hw
  have hend := end64_of_fits (hlen e he)
  have hfold := (@le_foldl_highestEnd mbi.entries 0 (by decide)).2 e he ht
  have hmem : mbi.memBytes = physMemMax := by
    have hpos : mbi.entries.foldl highestEnd 0 ≠ 0 := by omega
    unfold MultibootInfo.memBytes
    simp only [hmmap, if_true, hpos, if_false]
    apply if_pos
    rw [physMemMax]
    omega
  rw [totalPages_eq, hmem]
  rfl

/-- Such an entry frees every page there is. -/
theorem frees_of_wraps (hlen : e.addr + e.len < 2 ^ 64) (ht : e.type = multibootMmapAvailable)
    (haddr : e.addr > 0xFFFFF000) (hj : j < 2 ^ 18) : e.Frees j := by
  have hend := end64_of_fits hlen
  have hstart : e.start = 0 := by
    rw [start_eq, u32]
    omega
  have hstop : e.stop = 0xFFFFF000 := by
    rw [stop_eq]
    omega
  refine ⟨ht, ?_, ?_⟩
  · rw [hstart]
    omega
  · rw [hstop]
    omega

/-- Any other entry frees only pages that lie inside it. -/
theorem inside_of_frees (hlen : e.addr + e.len < 2 ^ 64) (haddr : e.addr ≤ 0xFFFFF000)
    (hf : e.Frees j) : e.addr ≤ j * pageSize ∧ (j + 1) * pageSize ≤ e.addr + e.len := by
  obtain ⟨-, hlo, hhi⟩ := hf
  have hend := end64_of_fits hlen
  rw [start_eq, u32_of_lt (by omega)] at hlo
  rw [stop_eq] at hhi
  simp only [pageSize]
  omega

/-- `pmm_init` frees only real RAM exactly when no AVAILABLE entry wraps, or everything a
wrapping entry could wrongly free happens to be real RAM. -/
theorem pmmInit_freesOnlyRam_iff (hmmap : mbi.hasMmap = true)
    (hlen : ∀ e ∈ mbi.entries, e.addr + e.len < 2 ^ 64) (hs : kernStart < 2 ^ 32)
    (he : kernEnd < 2 ^ 32) (halign : kernEnd % pageSize = 0) :
    FreesOnlyRam mbi kernStart kernEnd (pmmInit mbi kernStart kernEnd mem) ↔
      ¬ mbi.Wraps ∨
        ∀ pfn < 2 ^ 18, ¬ Reserved kernStart kernEnd (2 ^ 18) pfn → mbi.Available pfn := by
  have hfrees : ∀ j, mbi.Frees j ↔ ∃ e ∈ mbi.entries, e.Frees j := by
    intro j
    rw [MultibootInfo.Frees, if_pos hmmap]
  constructor
  · intro h
    rw [or_iff_not_imp_left, not_not]
    intro hw pfn hpfn hres
    have htotal := totalPages_of_wraps hmmap hlen hw
    obtain ⟨e, he', ht, haddr⟩ := hw
    have hbit : HasBit (pmmInit mbi kernStart kernEnd mem) pfn := by
      apply hasBit_of_lt
      · rw [pmmInit_totalPages]
        exact totalPages_le
      · rw [pmmInit_totalPages, htotal]
        exact hpfn
    refine (h pfn hbit ((pmmInit_clear hs he halign hbit).mpr ⟨htotal ▸ hpfn, ?_, ?_⟩)).1
    · exact (hfrees pfn).mpr ⟨e, he', frees_of_wraps (hlen e he') ht haddr hpfn⟩
    · rw [htotal]
      exact hres
  · intro h pfn hbit hclear
    obtain ⟨hlt, hf, hres⟩ := (pmmInit_clear hs he halign hbit).mp hclear
    rw [pmmInit_totalPages]
    refine ⟨?_, hlt, hres⟩
    by_cases hw : mbi.Wraps
    · rw [totalPages_of_wraps hmmap hlen hw] at hres
      exact h.resolve_left (not_not.mpr hw) pfn (Nat.lt_of_lt_of_le hlt totalPages_le) hres
    · obtain ⟨e, he', hef⟩ := (hfrees pfn).mp hf
      have haddr : e.addr ≤ 0xFFFFF000 := by
        by_contra hgt
        exact hw ⟨e, he', hef.1, by omega⟩
      exact ⟨e, he', hef.1, inside_of_frees (hlen e he') haddr hef⟩

/-- A memory map with a single AVAILABLE entry. -/
def oneRegion (addr len : Nat) : MultibootInfo where
  hasMmap := true
  memLower := 0
  memUpper := 0
  mmapLength := 24
  entryAt := fun _ => { size := 20, addr := addr, len := len, type := multibootMmapAvailable }
  advances := by
    intro offset h
    simp only
    omega

theorem oneRegion_entries (addr len : Nat) :
    (oneRegion addr len).entries =
      [{ size := 20, addr := addr, len := len, type := multibootMmapAvailable }] := by
  have hstep : u32 (0 + (20 + 4)) = 24 := rfl
  have hfirst : 0 < (oneRegion addr len).mmapLength := by simp [oneRegion]
  have hlast : ¬ 24 < (oneRegion addr len).mmapLength := by simp [oneRegion]
  have hat : (oneRegion addr len).entryAt 0 =
      { size := 20, addr := addr, len := len, type := multibootMmapAvailable } := rfl
  rw [MultibootInfo.entries, MultibootInfo.entriesFrom, if_pos hfirst, hat, hstep,
    MultibootInfo.entriesFrom, if_neg hlast]

/-- One MiB of RAM from 1 MiB on, with a one-page kernel at its start. -/
theorem freesOnlyRam_oneRegion :
    FreesOnlyRam (oneRegion 0x100000 0x100000) 0x100000 0x101000
      (pmmInit (oneRegion 0x100000 0x100000) 0x100000 0x101000 fun _ => 0) := by
  refine (pmmInit_freesOnlyRam_iff rfl ?_ (by decide) (by decide) (by decide)).mpr (Or.inl ?_)
  · intro e he
    rw [oneRegion_entries, List.mem_singleton] at he
    subst he
    decide
  · rintro ⟨e, he, -, haddr⟩
    rw [oneRegion_entries, List.mem_singleton] at he
    subst he
    exact absurd haddr (by decide)

/-- One GiB of RAM above 4 GiB, and the pages below 1 GiB are handed out as RAM. -/
theorem not_freesOnlyRam_highRegion :
    ¬ ∀ (mbi : MultibootInfo) (kernStart kernEnd : Nat) (mem : Mem), mbi.hasMmap = true →
      (∀ e ∈ mbi.entries, e.addr + e.len < 2 ^ 64) → kernStart < 2 ^ 32 → kernEnd < 2 ^ 32 →
      kernEnd % pageSize = 0 →
      FreesOnlyRam mbi kernStart kernEnd (pmmInit mbi kernStart kernEnd mem) := by
  intro h
  have hlen : ∀ e ∈ (oneRegion 0x100000000 0x40000000).entries, e.addr + e.len < 2 ^ 64 := by
    intro e he
    rw [oneRegion_entries, List.mem_singleton] at he
    subst he
    decide
  have hwraps : (oneRegion 0x100000000 0x40000000).Wraps := by
    unfold MultibootInfo.Wraps
    rw [oneRegion_entries]
    exact ⟨_, List.mem_singleton_self _, rfl, by decide⟩
  have htotal := totalPages_of_wraps rfl hlen hwraps
  have hfree := h (oneRegion 0x100000000 0x40000000) 0x100000 0x101000 (fun _ => 0) rfl hlen
    (by decide) (by decide) (by decide)
  have hbit : HasBit (pmmInit (oneRegion 0x100000000 0x40000000) 0x100000 0x101000 fun _ => 0)
      0x200 := by
    apply hasBit_of_lt
    · rw [pmmInit_totalPages, htotal]
    · rw [pmmInit_totalPages, htotal]
      decide
  have hclear := (pmmInit_clear (by decide) (by decide) (by decide) hbit).mpr
    ⟨by rw [htotal]; decide, ?_, ?_⟩
  · obtain ⟨⟨e, he, -, haddr, -⟩, -⟩ := hfree 0x200 hbit hclear
    rw [oneRegion_entries, List.mem_singleton] at he
    subst he
    exact absurd haddr (by decide)
  · obtain ⟨e, he, ht, haddr⟩ := hwraps
    exact ⟨e, he, frees_of_wraps (hlen e he) ht haddr (by decide)⟩
  · rw [htotal]
    have hbytes : bitmapBytes (2 ^ 18) = 0x8000 := by decide
    simp only [Reserved, Overlaps, hbytes, pageSize]
    omega

end PinguinOS.Mm
