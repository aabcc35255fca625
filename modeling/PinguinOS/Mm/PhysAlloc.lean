import PinguinOS.Lib.BitTable
import PinguinOS.Mm.Types
import Mathlib.Data.List.Range

/-! The physical page allocator: a bitmap that lies in the memory it manages. -/
namespace PinguinOS.Mm

/-- Physical memory, one 32-bit word for each multiple of four. -/
abbrev Mem := Nat → BitVec 32

/-- `memset` of whole words; `word` is the byte value repeated. -/
def memset (mem : Mem) (addr : Nat) (word : BitVec 32) (len : Nat) : Mem := fun w =>
  if addr / 4 ≤ w ∧ w < (addr + len) / 4 then word else mem w

structure Pmm where
  mem : Mem
  /-- The address of the bitmap. -/
  bitmap : Nat
  totalPages : Nat
  freePages : Nat

/-- `bitmap[pfn / 32]` -/
def bitmapWord (p : Pmm) (pfn : Nat) : Nat := p.bitmap / 4 + pfn / 32

def bitmapSet (p : Pmm) (pfn : Nat) : Pmm :=
  { p with mem := BitTable.set p.mem (bitmapWord p pfn) (pfn % 32) }

def bitmapClear (p : Pmm) (pfn : Nat) : Pmm :=
  { p with mem := BitTable.clear p.mem (bitmapWord p pfn) (pfn % 32) }

def bitmapTest (p : Pmm) (pfn : Nat) : Bool := BitTable.test p.mem (bitmapWord p pfn) (pfn % 32)

/-- `free_pages++` -/
def Pmm.incFree (p : Pmm) : Pmm := { p with freePages := u32 (p.freePages + 1) }

/-- `free_pages--` -/
def Pmm.decFree (p : Pmm) : Pmm :=
  { p with freePages := if p.freePages = 0 then 2 ^ 32 - 1 else p.freePages - 1 }

/-- `for (pfn = pfn_start; pfn < pfn_end && pfn < total_pages; pfn++)` -/
def pfnsBetween (p : Pmm) (pfnStart pfnEnd : Nat) : List Nat :=
  List.range' pfnStart (min pfnEnd p.totalPages - pfnStart)

/-- The body of the loop of `pmm_mark_used`. -/
def markUsed (p : Pmm) (pfn : Nat) : Pmm :=
  if !bitmapTest p pfn then
    let p := bitmapSet p pfn
    if p.freePages > 0 then p.decFree else p
  else p

def pmmMarkUsed (p : Pmm) (start stop : Nat) : Pmm :=
  (pfnsBetween p (addrToPfn start) (addrToPfn stop)).foldl markUsed p

/-- The body of the loop of `pmm_mark_free`, and of `pmm_free_page` after its range check. -/
def markFree (p : Pmm) (pfn : Nat) : Pmm :=
  if bitmapTest p pfn then (bitmapClear p pfn).incFree else p

def pmmMarkFree (p : Pmm) (start stop : Nat) : Pmm :=
  (pfnsBetween p (addrToPfn (alignUp start pageSize)) (addrToPfn (alignDown stop pageSize))).foldl
    markFree p

/-- Both loops that search for a free page start at page 1. -/
def pfnsFromOne (p : Pmm) : List Nat := List.range' 1 (p.totalPages - 1)

def pmmAllocPage (p : Pmm) : Nat × Pmm :=
  match (pfnsFromOne p).find? fun pfn => !bitmapTest p pfn with
  | none => (0, p)
  | some pfn =>
    let p := (bitmapSet p pfn).decFree
    let addr := pfnToAddr pfn
    (addr, { p with mem := memset p.mem addr 0 pageSize })

def pmmFreePage (p : Pmm) (addr : Nat) : Pmm :=
  let pfn := addrToPfn addr
  if pfn = 0 ∨ pfn ≥ p.totalPages then p else markFree p pfn

/-- The search of `pmm_alloc_pages`, with the pages still to be looked at. -/
def findRun (p : Pmm) (count : Nat) : List Nat → (runStart runLen : Nat) → Option Nat
  | [], _, _ => none
  | pfn :: rest, runStart, runLen =>
    if !bitmapTest p pfn then
      let runStart := if runLen = 0 then pfn else runStart
      let runLen := runLen + 1
      if runLen = count then some runStart else findRun p count rest runStart runLen
    else findRun p count rest runStart 0

def pmmAllocPages (p : Pmm) (count : Nat) : Nat × Pmm :=
  if count = 0 then (0, p)
  else if count = 1 then pmmAllocPage p
  else
    match findRun p count (pfnsFromOne p) 0 0 with
    | none => (0, p)
    | some runStart =>
      let p := (List.range' runStart count).foldl (fun p i => (bitmapSet p i).decFree) p
      let addr := pfnToAddr runStart
      (addr, { p with mem := memset p.mem addr 0 (u32 (count * pageSize)) })

def pmmFreePages (p : Pmm) (addr count : Nat) : Pmm :=
  (List.range count).foldl (fun p i => pmmFreePage p (u32 (addr + u32 (i * pageSize)))) p

/-! What each operation does to the bits and to the counter. -/

/-- The bitmap's own size in bytes, as `pmm_init` computes it. -/
def bitmapBytes (totalPages : Nat) : Nat := alignUp ((totalPages + 7) / 8) pageSize

/-- Page `pfn` and the bitmap share a byte. -/
def InBitmap (p : Pmm) (pfn : Nat) : Prop :=
  p.bitmap < (pfn + 1) * pageSize ∧ pfn * pageSize < p.bitmap + bitmapBytes p.totalPages

/-- The placement `pmm_init` chooses. -/
structure Placed (p : Pmm) : Prop where
  aligned : p.bitmap % pageSize = 0
  total : p.totalPages ≤ 2 ^ 18

/-- The number of clear bits in `[0, total_pages)`. -/
def clearCount (p : Pmm) : Nat := (List.range p.totalPages).countP fun pfn => !bitmapTest p pfn

variable {p q : Pmm} {pfn i j k n start stop addr : Nat}

@[simp] theorem bitmapSet_bitmap : (bitmapSet p i).bitmap = p.bitmap := rfl
@[simp] theorem bitmapSet_totalPages : (bitmapSet p i).totalPages = p.totalPages := rfl
@[simp] theorem bitmapSet_freePages : (bitmapSet p i).freePages = p.freePages := rfl
@[simp] theorem bitmapClear_bitmap : (bitmapClear p i).bitmap = p.bitmap := rfl
@[simp] theorem bitmapClear_totalPages : (bitmapClear p i).totalPages = p.totalPages := rfl
@[simp] theorem bitmapClear_freePages : (bitmapClear p i).freePages = p.freePages := rfl
@[simp] theorem incFree_totalPages : p.incFree.totalPages = p.totalPages := rfl
@[simp] theorem decFree_totalPages : p.decFree.totalPages = p.totalPages := rfl
@[simp] theorem incFree_bitmap : p.incFree.bitmap = p.bitmap := rfl
@[simp] theorem decFree_bitmap : p.decFree.bitmap = p.bitmap := rfl
@[simp] theorem incFree_test : bitmapTest p.incFree i = bitmapTest p i := rfl
@[simp] theorem decFree_test : bitmapTest p.decFree i = bitmapTest p i := rfl

theorem sameBit_iff :
    bitmapWord p i = bitmapWord p j ∧ i % 32 = j % 32 ↔ i = j := by
  unfold bitmapWord
  constructor
  · rintro ⟨hw, hb⟩
    omega
  · rintro rfl
    exact ⟨rfl, rfl⟩

@[simp] theorem bitmapSet_test :
    bitmapTest (bitmapSet p i) j = (decide (i = j) || bitmapTest p j) := by
  have h := BitTable.test_set (b := p.mem) (i := bitmapWord p i) (j := bitmapWord p j) (k := i % 32)
    (Nat.mod_lt j (by decide : 0 < 32))
  simp only [sameBit_iff] at h
  exact h

@[simp] theorem bitmapClear_test :
    bitmapTest (bitmapClear p i) j = (!decide (i = j) && bitmapTest p j) := by
  have h := BitTable.test_clear (b := p.mem) (i := bitmapWord p i) (j := bitmapWord p j)
    (k := i % 32) (Nat.mod_lt j (by decide : 0 < 32))
  simp only [sameBit_iff] at h
  exact h

/-- The counter agrees with the bitmap. -/
def Accounted (p : Pmm) : Prop := p.freePages = clearCount p

theorem clearCount_le : clearCount p ≤ p.totalPages := by
  have h := List.countP_le_length (p := fun pfn => !bitmapTest p pfn) (l := List.range p.totalPages)
  rwa [List.length_range] at h

/-- `q` has one clear bit less than `p`. -/
theorem clearCount_of_set (hi : i < p.totalPages) (hfree : bitmapTest p i = false)
    (htotal : q.totalPages = p.totalPages)
    (htest : ∀ j, bitmapTest q j = (decide (i = j) || bitmapTest p j)) :
    clearCount p = clearCount q + 1 := by
  unfold clearCount
  rw [htotal]
  apply BitTable.countP_range_insert hi
  · simp [hfree]
  · simp [htest]
  · intro j hj
    simp [htest, Ne.symm hj]

theorem accounted_set (h : Accounted p) (hi : i < p.totalPages) (hfree : bitmapTest p i = false) :
    Accounted (bitmapSet p i).decFree := by
  have hcount : clearCount p = clearCount (bitmapSet p i).decFree + 1 :=
    clearCount_of_set hi hfree rfl fun j => by simp
  have hfreePages : p.freePages = clearCount p := h
  have hpos : p.freePages ≠ 0 := by omega
  have hdec : (bitmapSet p i).decFree.freePages = p.freePages - 1 := if_neg hpos
  unfold Accounted
  omega

theorem accounted_clear (h : Accounted p) (hp : p.totalPages < 2 ^ 32) (hi : i < p.totalPages)
    (hused : bitmapTest p i = true) : Accounted (bitmapClear p i).incFree := by
  have hcount : clearCount (bitmapClear p i).incFree = clearCount p + 1 := by
    refine clearCount_of_set (p := (bitmapClear p i).incFree) (i := i) hi ?_ rfl ?_
    · simp
    · intro j
      by_cases hij : i = j
      · subst hij
        simp [hused]
      · simp [hij]
  have hle := clearCount_le (p := (bitmapClear p i).incFree)
  have hfreePages : p.freePages = clearCount p := h
  have hinc : (bitmapClear p i).incFree.freePages = u32 (p.freePages + 1) := rfl
  have htotal : (bitmapClear p i).incFree.totalPages = p.totalPages := rfl
  unfold Accounted
  rw [hinc, u32_of_lt (by omega)]
  omega

@[simp] theorem markUsed_totalPages : (markUsed p i).totalPages = p.totalPages := by
  unfold markUsed
  dsimp only
  split_ifs
  · rfl
  · rfl
  · rfl

@[simp] theorem markUsed_bitmap : (markUsed p i).bitmap = p.bitmap := by
  unfold markUsed
  dsimp only
  split_ifs
  · rfl
  · rfl
  · rfl

theorem markUsed_test : bitmapTest (markUsed p i) j = (decide (i = j) || bitmapTest p j) := by
  unfold markUsed
  cases h : bitmapTest p i with
  | false =>
    simp only [Bool.not_false, if_true]
    split_ifs
    · simp
    · simp
  | true =>
    by_cases hij : i = j
    · subst hij
      simp [h]
    · simp [hij]

theorem accounted_markUsed (h : Accounted p) (hi : i < p.totalPages) : Accounted (markUsed p i) := by
  unfold markUsed
  cases hused : bitmapTest p i with
  | true => exact h
  | false =>
    have hcount := clearCount_of_set (q := bitmapSet p i) hi hused rfl fun j => by simp
    have hfreePages : p.freePages = clearCount p := h
    have hpos : (bitmapSet p i).freePages > 0 := by
      rw [bitmapSet_freePages]
      omega
    simp only [Bool.not_false, if_true, hpos]
    exact accounted_set h hi hused

@[simp] theorem markFree_totalPages : (markFree p i).totalPages = p.totalPages := by
  unfold markFree
  split_ifs
  · rfl
  · rfl

@[simp] theorem markFree_bitmap : (markFree p i).bitmap = p.bitmap := by
  unfold markFree
  split_ifs
  · rfl
  · rfl

theorem markFree_test : bitmapTest (markFree p i) j = (!decide (i = j) && bitmapTest p j) := by
  unfold markFree
  split_ifs with h
  · simp
  · by_cases hij : i = j
    · subst hij
      simp [h]
    · simp [hij]

theorem accounted_markFree (h : Accounted p) (hp : p.totalPages < 2 ^ 32) (hi : i < p.totalPages) :
    Accounted (markFree p i) := by
  unfold markFree
  split_ifs with hused
  · exact accounted_clear h hp hi hused
  · exact h

/-! Marking a list of pages. -/

/-- A property that each mark keeps survives the loop. -/
theorem foldl_keeps {mark : Pmm → Nat → Pmm} {I : Pmm → Prop} {l : List Nat}
    (h : ∀ p, I p → ∀ i ∈ l, I (mark p i)) (hp : I p) : I (l.foldl mark p) := by
  induction l generalizing p with
  | nil => exact hp
  | cons i l ih =>
    rw [List.foldl_cons]
    apply ih
    · intro p hp j hj
      exact h p hp j (List.mem_cons_of_mem i hj)
    · exact h p hp i (by simp)

theorem foldl_markUsed_test {l : List Nat} :
    bitmapTest (l.foldl markUsed p) j = (decide (j ∈ l) || bitmapTest p j) := by
  induction l generalizing p with
  | nil => simp
  | cons i l ih =>
    rw [List.foldl_cons, ih, markUsed_test]
    by_cases hij : i = j
    · simp [hij]
    · simp [hij, Ne.symm hij]

theorem foldl_markFree_test {l : List Nat} :
    bitmapTest (l.foldl markFree p) j = (!decide (j ∈ l) && bitmapTest p j) := by
  induction l generalizing p with
  | nil => simp
  | cons i l ih =>
    rw [List.foldl_cons, ih, markFree_test]
    by_cases hij : i = j
    · simp [hij]
    · simp [hij, Ne.symm hij]

theorem mem_pfnsBetween {from' to' : Nat} :
    i ∈ pfnsBetween p from' to' ↔ from' ≤ i ∧ i < to' ∧ i < p.totalPages := by
  rw [pfnsBetween, List.mem_range'_1]
  omega

/-- What no operation on marks changes. -/
def SamePlace (p q : Pmm) : Prop := q.totalPages = p.totalPages ∧ q.bitmap = p.bitmap

theorem pmmMarkUsed_samePlace : SamePlace p (pmmMarkUsed p start stop) := by
  refine foldl_keeps (I := SamePlace p) ?_ ⟨rfl, rfl⟩
  rintro q ⟨ht, hb⟩ i -
  exact ⟨by simpa using ht, by simpa using hb⟩

theorem pmmMarkFree_samePlace : SamePlace p (pmmMarkFree p start stop) := by
  refine foldl_keeps (I := SamePlace p) ?_ ⟨rfl, rfl⟩
  rintro q ⟨ht, hb⟩ i -
  exact ⟨by simpa using ht, by simpa using hb⟩

theorem pmmMarkUsed_test :
    bitmapTest (pmmMarkUsed p start stop) j = true ↔
      (start / 4096 ≤ j ∧ j < stop / 4096 ∧ j < p.totalPages) ∨ bitmapTest p j = true := by
  rw [pmmMarkUsed, foldl_markUsed_test, Bool.or_eq_true, decide_eq_true_eq, mem_pfnsBetween,
    addrToPfn_eq, addrToPfn_eq]

theorem pmmMarkFree_test :
    bitmapTest (pmmMarkFree p start stop) j = true ↔
      ¬ (alignUp start pageSize / 4096 ≤ j ∧ j < alignDown stop pageSize / 4096 ∧
        j < p.totalPages) ∧ bitmapTest p j = true := by
  rw [pmmMarkFree, foldl_markFree_test, Bool.and_eq_true, Bool.not_eq_true',
    decide_eq_false_iff_not, mem_pfnsBetween, addrToPfn_eq, addrToPfn_eq]

theorem accounted_pmmMarkUsed (h : Accounted p) : Accounted (pmmMarkUsed p start stop) := by
  refine (foldl_keeps (I := fun q => SamePlace p q ∧ Accounted q) ?_ ⟨⟨rfl, rfl⟩, h⟩).2
  rintro q ⟨⟨ht, hb⟩, hq⟩ i hi
  refine ⟨⟨by simpa using ht, by simpa using hb⟩, accounted_markUsed hq ?_⟩
  rw [ht]
  exact (mem_pfnsBetween.mp hi).2.2

theorem accounted_pmmMarkFree (h : Accounted p) (hp : p.totalPages < 2 ^ 32) :
    Accounted (pmmMarkFree p start stop) := by
  refine (foldl_keeps (I := fun q => SamePlace p q ∧ Accounted q) ?_ ⟨⟨rfl, rfl⟩, h⟩).2
  rintro q ⟨⟨ht, hb⟩, hq⟩ i hi
  refine ⟨⟨by simpa using ht, by simpa using hb⟩, accounted_markFree hq (ht ▸ hp) ?_⟩
  rw [ht]
  exact (mem_pfnsBetween.mp hi).2.2

theorem pmmFreePage_samePlace : SamePlace p (pmmFreePage p addr) := by
  unfold pmmFreePage
  dsimp only
  split_ifs
  · exact ⟨rfl, rfl⟩
  · exact ⟨by simp, by simp⟩

theorem pmmFreePage_test :
    bitmapTest (pmmFreePage p addr) j = true ↔
      ¬ (0 < j ∧ j < p.totalPages ∧ addr / 4096 = j) ∧ bitmapTest p j = true := by
  unfold pmmFreePage
  dsimp only
  rw [addrToPfn_eq]
  split_ifs with h
  · constructor
    · intro ht
      exact ⟨by omega, ht⟩
    · exact fun ht => ht.2
  · rw [markFree_test, Bool.and_eq_true, Bool.not_eq_true', decide_eq_false_iff_not]
    refine and_congr_left fun _ => not_congr ?_
    omega

theorem accounted_pmmFreePage (h : Accounted p) (hp : p.totalPages < 2 ^ 32) :
    Accounted (pmmFreePage p addr) := by
  unfold pmmFreePage
  dsimp only
  split_ifs with hr
  · exact h
  · exact accounted_markFree h hp (by omega)

/-! Zeroing a page that is not one of the bitmap's leaves every bit alone. -/

theorem le_bitmapBytes (h : n ≤ 2 ^ 18) (hi : i < n) : i / 32 * 4 < bitmapBytes n := by
  rw [bitmapBytes, alignUp_page, u32_of_lt (by omega)]
  omega

/-- The `memset` of an allocation, at page `first` for `count` pages. -/
def zeroPages (p : Pmm) (first count : Nat) : Pmm :=
  { p with mem := memset p.mem (first * pageSize) 0 (count * pageSize) }

theorem zeroPages_test (hp : Placed p) (hj : j < p.totalPages)
    (hout : ∀ g, i ≤ g → g < i + k → ¬ InBitmap p g) :
    bitmapTest (zeroPages p i k) j = bitmapTest p j := by
  have haligned := hp.aligned
  have hword := le_bitmapBytes hp.total hj
  unfold bitmapTest BitTable.test
  congr 1
  refine if_neg ?_
  rintro ⟨hlo, hhi⟩
  have hw : bitmapWord (zeroPages p i k) j = p.bitmap / 4 + j / 32 := rfl
  rw [hw] at hlo hhi
  simp only [InBitmap, pageSize] at hout hlo hhi haligned
  refine hout ((p.bitmap + j / 32 * 4) / 4096) ?_ ?_ ⟨?_, ?_⟩
  · omega
  · omega
  · omega
  · omega

theorem clearCount_congr (ht : q.totalPages = p.totalPages)
    (h : ∀ j, j < p.totalPages → bitmapTest q j = bitmapTest p j) : clearCount q = clearCount p := by
  unfold clearCount
  rw [ht]
  apply List.countP_congr
  intro j hj
  rw [h j (List.mem_range.mp hj)]

theorem accounted_zeroPages (h : Accounted p) (hp : Placed p)
    (hout : ∀ g, i ≤ g → g < i + k → ¬ InBitmap p g) : Accounted (zeroPages p i k) := by
  have hsame : clearCount (zeroPages p i k) = clearCount p :=
    clearCount_congr rfl fun j hj => zeroPages_test hp hj hout
  exact Eq.trans h hsame.symm

/-! Allocation. -/

/-- `q` is `p` after the free pages `[first, first + count)` have been handed out. -/
structure Allocates (p : Pmm) (first count : Nat) (q : Pmm) : Prop where
  nonzero : 0 < first
  inRange : first + count ≤ p.totalPages
  free : ∀ i, first ≤ i → i < first + count → bitmapTest p i = false
  samePlace : SamePlace p q
  test : Placed p → (∀ i, first ≤ i → i < first + count → ¬ InBitmap p i) →
    ∀ j, j < p.totalPages → (bitmapTest q j = true ↔
      (first ≤ j ∧ j < first + count) ∨ bitmapTest p j = true)
  accounted : Placed p → (∀ i, first ≤ i → i < first + count → ¬ InBitmap p i) →
    Accounted p → Accounted q

/-- Taking the pages `[first, first + count)` one by one, and then zeroing them. -/
def takePages (p : Pmm) (first count : Nat) : Pmm :=
  zeroPages ((List.range' first count).foldl (fun p i => (bitmapSet p i).decFree) p) first count

theorem foldl_take_samePlace {l : List Nat} :
    SamePlace p (l.foldl (fun p i => (bitmapSet p i).decFree) p) := by
  refine foldl_keeps (I := SamePlace p) ?_ ⟨rfl, rfl⟩
  rintro q ⟨ht, hb⟩ i -
  exact ⟨ht, hb⟩

theorem foldl_take_test {l : List Nat} :
    bitmapTest (l.foldl (fun p i => (bitmapSet p i).decFree) p) j =
      (decide (j ∈ l) || bitmapTest p j) := by
  induction l generalizing p with
  | nil => simp
  | cons i l ih =>
    rw [List.foldl_cons, ih, decFree_test, bitmapSet_test]
    by_cases hij : i = j
    · simp [hij]
    · simp [hij, Ne.symm hij]

theorem accounted_foldl_take {l : List Nat} (h : Accounted p) (hl : l.Nodup)
    (hfree : ∀ i ∈ l, i < p.totalPages ∧ bitmapTest p i = false) :
    Accounted (l.foldl (fun p i => (bitmapSet p i).decFree) p) := by
  induction l generalizing p with
  | nil => exact h
  | cons i l ih =>
    obtain ⟨hil, hl⟩ := List.nodup_cons.mp hl
    obtain ⟨hi, hif⟩ := hfree i (by simp)
    rw [List.foldl_cons]
    apply ih (accounted_set h hi hif) hl
    intro j hj
    obtain ⟨hjt, hjf⟩ := hfree j (List.mem_cons_of_mem i hj)
    have hne : i ≠ j := fun he => hil (he ▸ hj)
    exact ⟨hjt, by simp [hne, hjf]⟩

theorem takePages_allocates (hk : 0 < i) (hrange : i + k ≤ p.totalPages)
    (hfree : ∀ j, i ≤ j → j < i + k → bitmapTest p j = false) :
    Allocates p i k (takePages p i k) := by
  have hplace := foldl_take_samePlace (p := p) (l := List.range' i k)
  have hin : ∀ g, InBitmap ((List.range' i k).foldl (fun p i => (bitmapSet p i).decFree) p) g ↔
      InBitmap p g := by
    intro g
    rw [InBitmap, InBitmap, hplace.1, hplace.2]
  have hplaced : Placed p →
      Placed ((List.range' i k).foldl (fun p i => (bitmapSet p i).decFree) p) := by
    intro hp
    exact ⟨by rw [hplace.2]; exact hp.aligned, by rw [hplace.1]; exact hp.total⟩
  refine ⟨hk, hrange, hfree, hplace, ?_, ?_⟩
  · intro hp hout j hj
    rw [takePages, zeroPages_test (hplaced hp) (hplace.1 ▸ hj), foldl_take_test, Bool.or_eq_true,
      decide_eq_true_eq, List.mem_range'_1]
    intro g hg hgk
    rw [hin]
    exact hout g hg hgk
  · intro hp hout hacc
    apply accounted_zeroPages
    · apply accounted_foldl_take hacc List.nodup_range'
      intro j hj
      obtain ⟨hij, hjk⟩ := List.mem_range'_1.mp hj
      exact ⟨by omega, hfree j hij hjk⟩
    · exact hplaced hp
    · intro g hg hgk
      rw [hin]
      exact hout g hg hgk

/-- `pmm_alloc_page` takes the lowest free page from page 1 on, if there is one. -/
theorem pmmAllocPage_result (hp : p.totalPages ≤ 2 ^ 18) :
    (pmmAllocPage p = (0, p) ∧ ∀ j, 0 < j → j < p.totalPages → bitmapTest p j = true) ∨
      ∃ i, pmmAllocPage p = (i * pageSize, takePages p i 1) ∧ 0 < i ∧ i < p.totalPages ∧
        bitmapTest p i = false ∧ ∀ j, 0 < j → j < i → bitmapTest p j = true := by
  unfold pmmAllocPage
  cases hfind : (pfnsFromOne p).find? fun pfn => !bitmapTest p pfn with
  | none =>
    left
    refine ⟨rfl, ?_⟩
    intro j hj hjt
    have hmem : j ∈ pfnsFromOne p := List.mem_range'_1.mpr ⟨by omega, by omega⟩
    simpa using List.find?_eq_none.mp hfind j hmem
  | some i =>
    right
    obtain ⟨hi, l, r, hlr, hbefore⟩ := List.find?_eq_some_iff_append.mp hfind
    have hmem : i ∈ pfnsFromOne p := List.mem_of_find?_eq_some hfind
    obtain ⟨h1, hlt⟩ := List.mem_range'_1.mp hmem
    refine ⟨i, ?_, by omega, by omega, by simpa using hi, ?_⟩
    · simp only [pfnToAddr_eq (n := i) (by omega)]
      rfl
    · intro j hj hji
      have hjm : j ∈ pfnsFromOne p := List.mem_range'_1.mpr ⟨by omega, by omega⟩
      have hsorted : (l ++ i :: r).Pairwise (· < ·) := hlr ▸ List.pairwise_lt_range'
      rw [hlr] at hjm
      rcases List.mem_append.mp hjm with hjl | hjr
      · simpa using hbefore j hjl
      · have hle := (List.pairwise_append.mp hsorted).2.1
        rcases List.mem_cons.mp hjr with rfl | hjr
        · omega
        · have := (List.pairwise_cons.mp hle).1 j hjr
          omega

/-- The run of free pages that ends just before page `i` is what the search has so far. -/
theorem findRun_some {count s r : Nat}
    (h : findRun p count (List.range' i n) s k = some r) (hi : 0 < i)
    (hrun : k = 0 ∨ (0 < s ∧ s + k = i ∧ ∀ j, s ≤ j → j < s + k → bitmapTest p j = false)) :
    0 < r ∧ r + count ≤ i + n ∧ ∀ j, r ≤ j → j < r + count → bitmapTest p j = false := by
  induction n generalizing i s k with
  | zero => simp [findRun] at h
  | succ n ih =>
    rw [List.range'_succ, findRun] at h
    cases hfree : bitmapTest p i with
    | true =>
      simp only [hfree, Bool.not_true, Bool.false_eq_true, if_false] at h
      obtain ⟨h1, h2, h3⟩ := ih h (by omega) (Or.inl rfl)
      exact ⟨h1, by omega, h3⟩
    | false =>
      simp only [hfree, Bool.not_false, if_true] at h
      have hrun' : 0 < (if k = 0 then i else s) ∧ (if k = 0 then i else s) + (k + 1) = i + 1 ∧
          ∀ j, (if k = 0 then i else s) ≤ j → j < (if k = 0 then i else s) + (k + 1) →
            bitmapTest p j = false := by
        split_ifs with hk
        · refine ⟨hi, by omega, ?_⟩
          intro j hj hjk
          have : j = i := by omega
          exact this ▸ hfree
        · obtain ⟨hs, hsk, hall⟩ := hrun.resolve_left hk
          refine ⟨hs, by omega, ?_⟩
          intro j hj hjk
          by_cases hji : j = i
          · exact hji ▸ hfree
          · exact hall j hj (by omega)
      generalize (if k = 0 then i else s) = s' at h hrun'
      split_ifs at h with hcount
      · cases h
        subst hcount
        obtain ⟨h1, h2, h3⟩ := hrun'
        exact ⟨h1, by omega, h3⟩
      · obtain ⟨h1, h2, h3⟩ := ih h (by omega) (Or.inr hrun')
        exact ⟨h1, by omega, h3⟩

theorem pmmAllocPages_result (hp : p.totalPages ≤ 2 ^ 18) :
    pmmAllocPages p n = (0, p) ∨
      ∃ i, pmmAllocPages p n = (i * pageSize, takePages p i n) ∧ 0 < n ∧ Allocates p i n
        (takePages p i n) := by
  unfold pmmAllocPages
  split_ifs with h0 h1
  · exact Or.inl rfl
  · subst h1
    rcases pmmAllocPage_result hp with ⟨hnone, -⟩ | ⟨i, hsome, hi, hit, hfree, -⟩
    · exact Or.inl hnone
    · refine Or.inr ⟨i, hsome, by decide, takePages_allocates hi (by omega) ?_⟩
      intro j hj hji
      have : j = i := by omega
      exact this ▸ hfree
  · cases hfind : findRun p n (pfnsFromOne p) 0 0 with
    | none => exact Or.inl rfl
    | some i =>
      obtain ⟨hi, hin, hfree⟩ := findRun_some hfind (by decide) (Or.inl rfl)
      have hrange : i + n ≤ p.totalPages := by
        by_cases ht : p.totalPages = 0
        · simp [pfnsFromOne, ht, findRun] at hfind
        · omega
      refine Or.inr ⟨i, ?_, by omega, takePages_allocates hi hrange hfree⟩
      have hlen : n * pageSize < 2 ^ 32 := by
        simp only [pageSize]
        omega
      simp only [pfnToAddr_eq (n := i) (by omega), u32_of_lt hlen]
      rfl

theorem pmmFreePages_samePlace : SamePlace p (pmmFreePages p addr n) := by
  refine foldl_keeps (I := SamePlace p) ?_ ⟨rfl, rfl⟩
  rintro q ⟨ht, hb⟩ i -
  have h : SamePlace q (pmmFreePage q (u32 (addr + u32 (i * pageSize)))) := pmmFreePage_samePlace
  exact ⟨h.1.trans ht, h.2.trans hb⟩

theorem accounted_pmmFreePages (h : Accounted p) (hp : p.totalPages < 2 ^ 32) :
    Accounted (pmmFreePages p addr n) := by
  refine (foldl_keeps (I := fun q => SamePlace p q ∧ Accounted q) ?_ ⟨⟨rfl, rfl⟩, h⟩).2
  rintro q ⟨⟨ht, hb⟩, hq⟩ i -
  have hplace : SamePlace q (pmmFreePage q (u32 (addr + u32 (i * pageSize)))) :=
    pmmFreePage_samePlace
  exact ⟨⟨hplace.1.trans ht, hplace.2.trans hb⟩, accounted_pmmFreePage hq (ht ▸ hp)⟩

/-- The pages `pmm_free_pages` is asked to free. -/
def FreedBy (addr count pfn : Nat) : Prop :=
  ∃ i < count, u32 (addr + u32 (i * pageSize)) / 4096 = pfn

theorem pmmFreePages_test :
    bitmapTest (pmmFreePages p addr n) j = true ↔
      ¬ (0 < j ∧ j < p.totalPages ∧ FreedBy addr n j) ∧ bitmapTest p j = true := by
  induction n with
  | zero => simp [pmmFreePages, FreedBy]
  | succ n ih =>
    have hstep : pmmFreePages p addr (n + 1) =
        pmmFreePage (pmmFreePages p addr n) (u32 (addr + u32 (n * pageSize))) := by
      simp [pmmFreePages, List.range_succ]
    rw [hstep, pmmFreePage_test, ih, pmmFreePages_samePlace.1]
    have hfreed : FreedBy addr (n + 1) j ↔
        FreedBy addr n j ∨ u32 (addr + u32 (n * pageSize)) / 4096 = j := by
      constructor
      · rintro ⟨i, hi, hij⟩
        by_cases hin : i = n
        · exact Or.inr (hin ▸ hij)
        · exact Or.inl ⟨i, by omega, hij⟩
      · rintro (⟨i, hi, hij⟩ | hij)
        · exact ⟨i, by omega, hij⟩
        · exact ⟨n, by omega, hij⟩
    rw [hfreed]
    constructor
    · rintro ⟨hlast, hbefore, htest⟩
      refine ⟨?_, htest⟩
      rintro ⟨hpos, hlt, hin | hin⟩
      · exact hbefore ⟨hpos, hlt, hin⟩
      · exact hlast ⟨hpos, hlt, hin⟩
    · rintro ⟨hno, htest⟩
      refine ⟨?_, ?_, htest⟩
      · rintro ⟨hpos, hlt, hin⟩
        exact hno ⟨hpos, hlt, Or.inr hin⟩
      · rintro ⟨hpos, hlt, hin⟩
        exact hno ⟨hpos, hlt, Or.inl hin⟩

/-- Freeing what an allocation returned frees exactly its pages. -/
theorem freedBy_pages (h : i + k ≤ 2 ^ 18) : FreedBy (i * pageSize) k j ↔ i ≤ j ∧ j < i + k := by
  have haddr : ∀ m < k, u32 (i * pageSize + u32 (m * pageSize)) / 4096 = i + m := by
    intro m hm
    simp only [pageSize]
    rw [u32_of_lt (n := m * 4096) (by omega), u32_of_lt (by omega)]
    omega
  constructor
  · rintro ⟨m, hm, hmj⟩
    rw [haddr m hm] at hmj
    omega
  · rintro ⟨hij, hjk⟩
    refine ⟨j - i, by omega, ?_⟩
    rw [haddr (j - i) (by omega)]
    omega

end PinguinOS.Mm
