import PinguinOS.Lib.Run
import PinguinOS.Mm.PmmInit

/-! Runs of the page allocator after `pmm_init`: its counter, and who owns which page. -/
namespace PinguinOS.Mm

inductive PmmCall
  | allocPage
  | allocPages (count : Nat)
  | freePage (addr : Nat)
  | freePages (addr count : Nat)
  | markUsed (start stop : Nat)
  | markFree (start stop : Nat)

/-- The allocator, and the ranges it has returned that have not been freed: first page and page
count. -/
structure Ledger where
  pmm : Pmm
  outstanding : List (Nat × Nat)

/-- The result of an allocation of `count` pages, entered into the ledger. -/
def Ledger.returned (l : Ledger) (count : Nat) (r : Nat × Pmm) : Ledger where
  pmm := r.2
  outstanding := if r.1 = 0 then l.outstanding else (addrToPfn r.1, count) :: l.outstanding

def Ledger.call (l : Ledger) : PmmCall → Ledger
  | .allocPage => l.returned 1 (pmmAllocPage l.pmm)
  | .allocPages count => l.returned count (pmmAllocPages l.pmm count)
  | .freePage addr => ⟨pmmFreePage l.pmm addr, l.outstanding.erase (addrToPfn addr, 1)⟩
  | .freePages addr count =>
    ⟨pmmFreePages l.pmm addr count, l.outstanding.erase (addrToPfn addr, count)⟩
  | .markUsed start stop => ⟨pmmMarkUsed l.pmm start stop, l.outstanding⟩
  | .markFree start stop => ⟨pmmMarkFree l.pmm start stop, l.outstanding⟩

def Ledger.step (l : Ledger) (c : PmmCall) : Option Ledger := some (l.call c)

/-- The pages whose bits a call may clear. -/
def PmmCall.Releases : PmmCall → Nat → Prop
  | .freePage addr, pfn => addr / 4096 = pfn
  | .freePages addr count, pfn => FreedBy addr count pfn
  | .markFree start stop, pfn =>
    alignUp start pageSize / 4096 ≤ pfn ∧ pfn < alignDown stop pageSize / 4096
  | _, _ => False

/-- The page belongs to the kernel image or to the bitmap. -/
def InKernel (kernStart kernEnd totalPages pfn : Nat) : Prop :=
  Overlaps pfn kernStart kernEnd ∨ Overlaps pfn kernEnd (kernEnd + bitmapBytes totalPages)

/-- The call releases no page of the kernel image or of the bitmap. -/
def PmmCall.Careful (kernStart kernEnd totalPages : Nat) (c : PmmCall) : Prop :=
  ∀ pfn, c.Releases pfn → ¬ InKernel kernStart kernEnd totalPages pfn

/-- An allocation returns neither page 0 nor a page from `total_pages` on. -/
def Ledger.ReturnsInRange (l : Ledger) : PmmCall → Prop
  | .allocPage => (pmmAllocPage l.pmm).1 ≠ 0 →
      0 < addrToPfn (pmmAllocPage l.pmm).1 ∧
        addrToPfn (pmmAllocPage l.pmm).1 + 1 ≤ l.pmm.totalPages
  | .allocPages count => (pmmAllocPages l.pmm count).1 ≠ 0 →
      0 < addrToPfn (pmmAllocPages l.pmm count).1 ∧
        addrToPfn (pmmAllocPages l.pmm count).1 + count ≤ l.pmm.totalPages
  | _ => True

/-- A range is freed only while it is outstanding, and `pmm_mark_free` covers no outstanding
page. -/
def Ledger.Disciplined (l : Ledger) : PmmCall → Prop
  | .freePage addr => ∃ first, addr = first * pageSize ∧ (first, 1) ∈ l.outstanding
  | .freePages addr count => ∃ first, addr = first * pageSize ∧ (first, count) ∈ l.outstanding
  | .markFree start stop => ∀ r ∈ l.outstanding, ∀ pfn, r.1 ≤ pfn → pfn < r.1 + r.2 →
      ¬ (PmmCall.markFree start stop).Releases pfn
  | _ => True

/-- Two ranges share no page. -/
def Apart (r r' : Nat × Nat) : Prop := r.1 + r.2 ≤ r'.1 ∨ r'.1 + r'.2 ≤ r.1

/-- The outstanding ranges share no page, and every bit of theirs is set. -/
structure Ledger.Exclusive (l : Ledger) : Prop where
  apart : l.outstanding.Pairwise Apart
  inRange : ∀ r ∈ l.outstanding, 0 < r.2 ∧ r.1 + r.2 ≤ l.pmm.totalPages
  used : ∀ r ∈ l.outstanding, ∀ pfn, r.1 ≤ pfn → pfn < r.1 + r.2 → bitmapTest l.pmm pfn = true

/-- What is promised of a run of calls: the counter is the number of clear bits, allocations stay
in range, and disciplined callers never share a page. -/
def Ledger.KeepsPromises (l : Ledger) (calls : List PmmCall) : Prop :=
  Run.EveryState Ledger.step (fun l => Accounted l.pmm) l calls ∧
    Run.EveryStep Ledger.step (fun l c _ => l.ReturnsInRange c) l calls ∧
    (Run.EveryStep Ledger.step (fun l c _ => l.Disciplined c) l calls →
      Run.EveryState Ledger.step Ledger.Exclusive l calls)

/-- What a careful call keeps. -/
structure Sane (kernStart kernEnd totalPages : Nat) (p : Pmm) : Prop where
  bitmap : p.bitmap = kernEnd
  aligned : kernEnd % pageSize = 0
  total : p.totalPages = totalPages
  limit : totalPages ≤ 2 ^ 18
  accounted : Accounted p
  kernel : ∀ pfn, pfn < totalPages → InKernel kernStart kernEnd totalPages pfn →
    bitmapTest p pfn = true

variable {kernStart kernEnd totalPages : Nat} {p q : Pmm} {l : Ledger} {c : PmmCall}
  {calls : List PmmCall} {i n : Nat}

theorem Sane.placed (h : Sane kernStart kernEnd totalPages p) : Placed p :=
  ⟨h.bitmap.symm ▸ h.aligned, h.total.symm ▸ h.limit⟩

/-- A free page is not one of the bitmap's. -/
theorem Sane.not_inBitmap (h : Sane kernStart kernEnd totalPages p) (hi : i < p.totalPages)
    (hfree : bitmapTest p i = false) : ¬ InBitmap p i := by
  intro hin
  have hused := h.kernel i (h.total ▸ hi) ?_
  · rw [hfree] at hused
    cases hused
  · rw [InBitmap, h.bitmap, h.total] at hin
    exact Or.inr hin

theorem Sane.samePlace (h : Sane kernStart kernEnd totalPages p) (hpq : SamePlace p q)
    (hacc : Accounted q) (hkernel : ∀ pfn, pfn < totalPages →
      InKernel kernStart kernEnd totalPages pfn → bitmapTest q pfn = true) :
    Sane kernStart kernEnd totalPages q where
  bitmap := hpq.2.trans h.bitmap
  aligned := h.aligned
  total := hpq.1.trans h.total
  limit := h.limit
  accounted := hacc
  kernel := hkernel

/-- What an allocation of a sane allocator does to the bits. -/
theorem Sane.allocates_test (h : Sane kernStart kernEnd totalPages p) (ha : Allocates p i n q)
    {j : Nat} (hj : j < p.totalPages) :
    bitmapTest q j = true ↔ (i ≤ j ∧ j < i + n) ∨ bitmapTest p j = true := by
  have hrange := ha.inRange
  refine ha.test h.placed ?_ j hj
  intro m hm hmn
  exact h.not_inBitmap (by omega) (ha.free m hm hmn)

theorem Sane.allocates (h : Sane kernStart kernEnd totalPages p) (ha : Allocates p i n q) :
    Sane kernStart kernEnd totalPages q := by
  have hrange := ha.inRange
  refine h.samePlace ha.samePlace ?_ ?_
  · refine ha.accounted h.placed ?_ h.accounted
    intro m hm hmn
    exact h.not_inBitmap (by omega) (ha.free m hm hmn)
  · intro pfn hpfn hin
    exact (h.allocates_test ha (h.total.symm ▸ hpfn)).mpr (Or.inr (h.kernel pfn hpfn hin))

/-- The words that hold the bits lie in the pages of the bitmap. -/
theorem Sane.bitmapWord_inKernel (h : Sane kernStart kernEnd totalPages p) (hi : i < totalPages) :
    InKernel kernStart kernEnd totalPages (bitmapWord p i / 1024) := by
  have hword := le_bitmapBytes h.limit hi
  have haligned := h.aligned
  have hbitmap := h.bitmap
  refine Or.inr ⟨?_, ?_⟩
  · simp only [bitmapWord, pageSize] at haligned ⊢
    omega
  · simp only [bitmapWord, pageSize] at haligned ⊢
    omega

/-- A word outside the bitmap may change. -/
theorem Sane.withMem {m : Mem} (h : Sane kernStart kernEnd totalPages p)
    (hm : ∀ w, InKernel kernStart kernEnd totalPages (w / 1024) → m w = p.mem w) :
    Sane kernStart kernEnd totalPages { p with mem := m } ∧
      ∀ j < totalPages, bitmapTest { p with mem := m } j = bitmapTest p j := by
  have htest : ∀ j < totalPages, bitmapTest { p with mem := m } j = bitmapTest p j := by
    intro j hj
    have hsame : m (bitmapWord p j) = p.mem (bitmapWord p j) := hm _ (h.bitmapWord_inKernel hj)
    unfold bitmapTest BitTable.test
    exact congrArg (fun x : BitVec 32 => x.getLsbD (j % 32)) hsame
  refine ⟨h.samePlace ⟨rfl, rfl⟩ ?_ ?_, htest⟩
  · have hcount : clearCount { p with mem := m } = clearCount p :=
      clearCount_congr rfl fun j hj => htest j (h.total ▸ hj)
    exact Eq.trans h.accounted hcount.symm
  · intro pfn hpfn hin
    exact (htest pfn hpfn).trans (h.kernel pfn hpfn hin)

theorem foldl_take_mem {l : List Nat} {w : Nat} (hw : ∀ j ∈ l, w ≠ bitmapWord p j) :
    (l.foldl (fun p i => (bitmapSet p i).decFree) p).mem w = p.mem w := by
  induction l generalizing p with
  | nil => rfl
  | cons j l ih =>
    have hrest : ∀ k ∈ l, w ≠ bitmapWord (bitmapSet p j).decFree k := fun k hk =>
      hw k (List.mem_cons_of_mem j hk)
    exact (ih hrest).trans (Function.update_of_ne (hw j List.mem_cons_self) _ _)

/-- Handing out pages changes words of these pages and of the bitmap. -/
theorem takePages_word {w : Nat} (hw : ¬ (i ≤ w / 1024 ∧ w / 1024 < i + n))
    (hout : ∀ j, i ≤ j → j < i + n → w ≠ bitmapWord p j) :
    (takePages p i n).mem w = p.mem w := by
  have hzero : ¬ (i * pageSize / 4 ≤ w ∧ w < (i * pageSize + n * pageSize) / 4) := by
    simp only [pageSize]
    omega
  refine (if_neg hzero : (takePages p i n).mem w = _).trans (foldl_take_mem fun j hj => ?_)
  obtain ⟨hij, hjn⟩ := List.mem_range'_1.mp hj
  exact hout j hij hjn

theorem takePages_mem {w : Nat} (h : Sane kernStart kernEnd totalPages p)
    (hrange : i + n ≤ totalPages) (hw : ¬ (i ≤ w / 1024 ∧ w / 1024 < i + n))
    (hout : ¬ InKernel kernStart kernEnd totalPages (w / 1024)) :
    (takePages p i n).mem w = p.mem w := by
  refine takePages_word hw fun j _ hjn => ?_
  rintro rfl
  exact hout (h.bitmapWord_inKernel (by omega))

theorem pmmAllocPage_cases (hp : p.totalPages ≤ 2 ^ 18) :
    pmmAllocPage p = (0, p) ∨
      ∃ i, pmmAllocPage p = (i * pageSize, takePages p i 1) ∧ Allocates p i 1 (takePages p i 1) := by
  rcases pmmAllocPage_result hp with ⟨hnone, -⟩ | ⟨i, hsome, hi, hit, hfree, -⟩
  · exact Or.inl hnone
  · refine Or.inr ⟨i, hsome, takePages_allocates hi (by omega) ?_⟩
    intro j hj hji
    have : j = i := by omega
    exact this ▸ hfree

/-- Both allocators either return NULL and change nothing, or hand out one range. -/
def AllocResult (p : Pmm) (count : Nat) (r : Nat × Pmm) : Prop :=
  r = (0, p) ∨ ∃ i, r = (i * pageSize, takePages p i count) ∧ 0 < count ∧
    Allocates p i count (takePages p i count)

theorem pmmAllocPage_allocResult (hp : p.totalPages ≤ 2 ^ 18) :
    AllocResult p 1 (pmmAllocPage p) := by
  rcases pmmAllocPage_cases hp with hnone | ⟨i, hsome, ha⟩
  · exact Or.inl hnone
  · exact Or.inr ⟨i, hsome, by decide, ha⟩

theorem AllocResult.inRange {r : Nat × Pmm} (h : AllocResult p n r) (hr : r.1 ≠ 0) :
    0 < addrToPfn r.1 ∧ addrToPfn r.1 + n ≤ p.totalPages := by
  rcases h with rfl | ⟨i, rfl, -, ha⟩
  · exact absurd rfl hr
  · have hi := ha.nonzero
    have hrange := ha.inRange
    have hpfn : addrToPfn (i * pageSize) = i := by
      rw [addrToPfn_eq]
      exact Nat.mul_div_cancel i (by decide)
    rw [hpfn]
    exact ⟨hi, hrange⟩

theorem returnsInRange (hp : l.pmm.totalPages ≤ 2 ^ 18) : l.ReturnsInRange c := by
  cases c with
  | allocPage => exact (pmmAllocPage_allocResult hp).inRange
  | allocPages count => exact AllocResult.inRange (pmmAllocPages_result hp)
  | _ => trivial

theorem Sane.allocResult {r : Nat × Pmm} (h : Sane kernStart kernEnd totalPages p)
    (hr : AllocResult p n r) : Sane kernStart kernEnd totalPages r.2 := by
  rcases hr with rfl | ⟨i, rfl, -, ha⟩
  · exact h
  · exact h.allocates ha

theorem AllocResult.samePlace {r : Nat × Pmm} (hr : AllocResult p n r) : SamePlace p r.2 := by
  rcases hr with rfl | ⟨i, rfl, -, ha⟩
  · exact ⟨rfl, rfl⟩
  · exact ha.samePlace

/-- An allocation clears no bit. -/
theorem AllocResult.keeps {r : Nat × Pmm} (h : Sane kernStart kernEnd totalPages p)
    (hr : AllocResult p n r) (hj : i < p.totalPages) (hset : bitmapTest p i = true) :
    bitmapTest r.2 i = true := by
  rcases hr with rfl | ⟨first, rfl, -, ha⟩
  · exact hset
  · exact (h.allocates_test ha hj).mpr (Or.inr hset)

theorem call_samePlace (hp : l.pmm.totalPages ≤ 2 ^ 18) : SamePlace l.pmm (l.call c).pmm := by
  cases c with
  | allocPage => exact (pmmAllocPage_allocResult hp).samePlace
  | allocPages count => exact AllocResult.samePlace (pmmAllocPages_result hp)
  | freePage addr => exact pmmFreePage_samePlace
  | freePages addr count => exact pmmFreePages_samePlace
  | markUsed start stop => exact pmmMarkUsed_samePlace
  | markFree start stop => exact pmmMarkFree_samePlace

/-- A call clears only the bits of pages it releases. -/
theorem call_keeps (h : Sane kernStart kernEnd totalPages l.pmm) (hi : i < l.pmm.totalPages)
    (hset : bitmapTest l.pmm i = true) (hrel : ¬ c.Releases i) :
    bitmapTest (l.call c).pmm i = true := by
  have hp := h.placed.total
  cases c with
  | allocPage => exact (pmmAllocPage_allocResult hp).keeps h hi hset
  | allocPages count => exact AllocResult.keeps h (pmmAllocPages_result hp) hi hset
  | freePage addr => exact pmmFreePage_test.mpr ⟨fun hf => hrel hf.2.2, hset⟩
  | freePages addr count => exact pmmFreePages_test.mpr ⟨fun hf => hrel hf.2.2, hset⟩
  | markUsed start stop => exact pmmMarkUsed_test.mpr (Or.inr hset)
  | markFree start stop => exact pmmMarkFree_test.mpr ⟨fun hf => hrel ⟨hf.1, hf.2.1⟩, hset⟩

theorem call_accounted (h : Sane kernStart kernEnd totalPages l.pmm) :
    Accounted (l.call c).pmm := by
  have hp := h.placed.total
  have hlt : l.pmm.totalPages < 2 ^ 32 := by omega
  cases c with
  | allocPage => exact (h.allocResult (pmmAllocPage_allocResult hp)).accounted
  | allocPages count => exact (h.allocResult (pmmAllocPages_result hp)).accounted
  | freePage addr => exact accounted_pmmFreePage h.accounted hlt
  | freePages addr count => exact accounted_pmmFreePages h.accounted hlt
  | markUsed start stop => exact accounted_pmmMarkUsed h.accounted
  | markFree start stop => exact accounted_pmmMarkFree h.accounted hlt

theorem Sane.call (h : Sane kernStart kernEnd totalPages l.pmm)
    (hc : c.Careful kernStart kernEnd totalPages) :
    Sane kernStart kernEnd totalPages (l.call c).pmm := by
  refine h.samePlace (call_samePlace h.placed.total) (call_accounted h) ?_
  intro pfn hpfn hin
  exact call_keeps h (h.total.symm ▸ hpfn) (h.kernel pfn hpfn hin) fun hrel => hc pfn hrel hin

/-! Ownership. -/

theorem addrToPfn_page : addrToPfn (i * pageSize) = i := by
  rw [addrToPfn_eq]
  exact Nat.mul_div_cancel i (by decide)

theorem Ledger.Exclusive.returned {r : Nat × Pmm} (h : Sane kernStart kernEnd totalPages l.pmm)
    (hx : l.Exclusive) (hr : AllocResult l.pmm n r) : (l.returned n r).Exclusive := by
  rcases hr with rfl | ⟨i, rfl, hn, ha⟩
  · exact hx
  have hrange := ha.inRange
  have hi := ha.nonzero
  have hout : (l.returned n (i * pageSize, takePages l.pmm i n)).outstanding =
      (i, n) :: l.outstanding := by
    have hne : i * pageSize ≠ 0 := Nat.mul_ne_zero (by omega) (by decide)
    rw [Ledger.returned, if_neg hne, addrToPfn_page]
  have htotal : (takePages l.pmm i n).totalPages = l.pmm.totalPages := ha.samePlace.1
  refine ⟨?_, ?_, ?_⟩
  · rw [hout, List.pairwise_cons]
    refine ⟨?_, hx.apart⟩
    intro r hr
    -- a page shared with an outstanding range would be both clear and set
    by_contra hshared
    have hin := hx.inRange r hr
    simp only [Apart] at hshared
    have hused := hx.used r hr (max i r.1) (by omega) (by omega)
    rw [ha.free (max i r.1) (by omega) (by omega)] at hused
    cases hused
  · rw [hout]
    intro r hr
    rcases List.mem_cons.mp hr with rfl | hr
    · exact ⟨hn, htotal.symm ▸ hrange⟩
    · exact ⟨(hx.inRange r hr).1, htotal.symm ▸ (hx.inRange r hr).2⟩
  · rw [hout]
    intro r hr pfn hlo hhi
    rcases List.mem_cons.mp hr with rfl | hr
    · exact (h.allocates_test ha (by omega)).mpr (Or.inl ⟨hlo, hhi⟩)
    · have hin := hx.inRange r hr
      exact (h.allocates_test ha (by omega)).mpr (Or.inr (hx.used r hr pfn hlo hhi))

/-- The ranges that stay outstanding stay exclusive while their bits stay set. -/
theorem Ledger.Exclusive.sublist {out : List (Nat × Nat)} (hx : l.Exclusive)
    (hsub : out.Sublist l.outstanding) (hplace : SamePlace l.pmm q)
    (hkeep : ∀ r ∈ out, ∀ pfn, r.1 ≤ pfn → pfn < r.1 + r.2 → bitmapTest l.pmm pfn = true →
      bitmapTest q pfn = true) : Ledger.Exclusive ⟨q, out⟩ where
  apart := hx.apart.sublist hsub
  inRange := by
    intro r hr
    rw [hplace.1]
    exact hx.inRange r (hsub.subset hr)
  used := by
    intro r hr pfn hlo hhi
    exact hkeep r hr pfn hlo hhi (hx.used r (hsub.subset hr) pfn hlo hhi)

/-- What is left after a free shares no page with what was freed. -/
theorem Ledger.Exclusive.apart_erase {r r' : Nat × Nat} (hx : l.Exclusive)
    (hr : r ∈ l.outstanding) (hr' : r' ∈ l.outstanding.erase r) : Apart r r' := by
  have hperm := List.perm_cons_erase hr
  have happart := (hperm.pairwise_iff fun hab => Or.symm hab).mp hx.apart
  exact (List.pairwise_cons.mp happart).1 r' hr'

theorem Ledger.Exclusive.freed {r : Nat × Nat} (h : Sane kernStart kernEnd totalPages l.pmm)
    (hx : l.Exclusive) (hr : r ∈ l.outstanding)
    (hrel : ∀ pfn, c.Releases pfn → r.1 ≤ pfn ∧ pfn < r.1 + r.2) :
    Ledger.Exclusive ⟨(l.call c).pmm, l.outstanding.erase r⟩ := by
  refine hx.sublist List.erase_sublist (call_samePlace h.placed.total) ?_
  intro r' hr' pfn hlo hhi hset
  have hin := hx.inRange r' (List.mem_of_mem_erase hr')
  have hap : Apart r r' := hx.apart_erase hr hr'
  refine call_keeps h (by omega) hset fun hpfn => ?_
  have := hrel pfn hpfn
  simp only [Apart] at hap
  omega

theorem Ledger.Exclusive.call (h : Sane kernStart kernEnd totalPages l.pmm) (hx : l.Exclusive)
    (hd : l.Disciplined c) : (l.call c).Exclusive := by
  have hp := h.placed.total
  cases c with
  | allocPage => exact hx.returned h (pmmAllocPage_allocResult hp)
  | allocPages count => exact hx.returned h (pmmAllocPages_result hp)
  | freePage addr =>
    obtain ⟨first, rfl, hmem⟩ := hd
    have hfreed := hx.freed (c := .freePage (first * pageSize)) h hmem fun pfn hrel => by
      simp only [PmmCall.Releases, pageSize] at hrel
      omega
    rw [Ledger.call, addrToPfn_page]
    exact hfreed
  | freePages addr count =>
    obtain ⟨first, rfl, hmem⟩ := hd
    have hin := hx.inRange _ hmem
    have hfreed := hx.freed (c := .freePages (first * pageSize) count) h hmem fun pfn hrel =>
      (freedBy_pages (by omega)).mp hrel
    rw [Ledger.call, addrToPfn_page]
    exact hfreed
  | markUsed start stop =>
    refine hx.sublist (List.Sublist.refl _) pmmMarkUsed_samePlace ?_
    intro r _ pfn _ _ hset
    exact pmmMarkUsed_test.mpr (Or.inr hset)
  | markFree start stop =>
    refine hx.sublist (List.Sublist.refl _) pmmMarkFree_samePlace ?_
    intro r hr pfn hlo hhi hset
    have hin := hx.inRange r hr
    exact call_keeps (c := .markFree start stop) h (by omega) hset (hd r hr pfn hlo hhi)

/-! The state `pmm_init` leaves. -/

variable {mbi : MultibootInfo} {mem : Mem} {es : List MmapEntry}

theorem accounted_place (halign : kernEnd % pageSize = 0) : Accounted (mbi.place kernEnd mem) := by
  have hzero : clearCount (mbi.place kernEnd mem) = 0 := by
    refine List.countP_eq_zero.mpr ?_
    intro j hj
    have hlt : j < mbi.totalPages := List.mem_range.mp hj
    rw [place_test halign (hasBit_of_lt totalPages_le hlt)]
    decide
  exact hzero.symm

theorem accounted_foldl_freeEntry (h : Accounted p) (hp : p.totalPages < 2 ^ 32) :
    Accounted (es.foldl freeEntry p) := by
  induction es generalizing p with
  | nil => exact h
  | cons e es ih =>
    rw [List.foldl_cons]
    refine ih ?_ (freeEntry_samePlace.1.symm ▸ hp)
    unfold freeEntry
    split_ifs
    · exact accounted_pmmMarkFree h hp
    · exact h
    · exact h

theorem accounted_freeRegions (h : Accounted p) (hp : p.totalPages < 2 ^ 32) :
    Accounted (mbi.freeRegions p) := by
  unfold MultibootInfo.freeRegions
  split_ifs
  · exact accounted_foldl_freeEntry h hp
  · exact accounted_pmmMarkFree (accounted_pmmMarkFree h hp) (pmmMarkFree_samePlace.1.symm ▸ hp)

theorem accounted_pmmInit (halign : kernEnd % pageSize = 0) :
    Accounted (pmmInit mbi kernStart kernEnd mem) := by
  have hplace : (mbi.place kernEnd mem).totalPages < 2 ^ 32 :=
    Nat.lt_of_le_of_lt totalPages_le (by decide)
  exact accounted_pmmMarkUsed <| accounted_pmmMarkUsed <| accounted_pmmMarkUsed <|
    accounted_freeRegions (accounted_place halign) hplace

theorem sane_pmmInit (hs : kernStart < 2 ^ 32) (he : kernEnd < 2 ^ 32)
    (halign : kernEnd % pageSize = 0) :
    Sane kernStart kernEnd mbi.totalPages (pmmInit mbi kernStart kernEnd mem) where
  bitmap := pmmInit_samePlace.2
  aligned := halign
  total := pmmInit_totalPages
  limit := totalPages_le
  accounted := accounted_pmmInit halign
  kernel := by
    intro pfn hpfn hin
    have hbit : HasBit (pmmInit mbi kernStart kernEnd mem) pfn := by
      apply hasBit_of_lt
      · rw [pmmInit_totalPages]
        exact totalPages_le
      · rwa [pmmInit_totalPages]
    by_contra hclear
    obtain ⟨-, -, hres⟩ := (pmmInit_clear hs he halign hbit).mp (eq_false_of_ne_true hclear)
    exact hres (Or.inr hin)

/-- After `pmm_init`, calls that never free the kernel or the bitmap keep every promise. -/
theorem pmm_keepsPromises (hs : kernStart < 2 ^ 32) (he : kernEnd < 2 ^ 32)
    (halign : kernEnd % pageSize = 0)
    (hcareful : ∀ c ∈ calls, c.Careful kernStart kernEnd mbi.totalPages) :
    Ledger.KeepsPromises ⟨pmmInit mbi kernStart kernEnd mem, []⟩ calls := by
  have hsane := @sane_pmmInit kernStart kernEnd mbi mem hs he halign
  have hsteps : Run.EveryStep Ledger.step
      (fun _ c _ => c.Careful kernStart kernEnd mbi.totalPages)
      ⟨pmmInit mbi kernStart kernEnd mem, []⟩ calls := Run.everyStep_of_forall hcareful
  refine ⟨?_, ?_, ?_⟩
  · refine hsteps.everyState (I := fun l => Sane kernStart kernEnd mbi.totalPages l.pmm) ?_ ?_ hsane
    · rintro l c _ h ⟨⟩ hc
      exact h.call hc
    · intro l h
      exact h.accounted
  · refine hsteps.mono (I := fun l => Sane kernStart kernEnd mbi.totalPages l.pmm) ?_ hsane
    rintro l c _ h ⟨⟩ hc
    exact ⟨h.call hc, returnsInRange h.placed.total⟩
  · intro hdisciplined
    refine (hsteps.and hdisciplined).everyState
      (I := fun l => Sane kernStart kernEnd mbi.totalPages l.pmm ∧ l.Exclusive) ?_ ?_ ⟨hsane, ?_⟩
    · rintro l c _ ⟨h, hx⟩ ⟨⟩ ⟨hc, hd⟩
      exact ⟨h.call hc, hx.call h hd⟩
    · intro l h
      exact h.2
    · exact ⟨List.Pairwise.nil, by simp, by simp⟩

theorem oneRegion_totalPages : (oneRegion 0x100000 0x100000).totalPages = 0x200 := by
  simp only [MultibootInfo.totalPages, MultibootInfo.memBytes, oneRegion_entries]
  decide

theorem oneRegion_frees (h : (oneRegion 0x100000 0x100000).Frees i) : 0x100 ≤ i := by
  have hmmap : (oneRegion 0x100000 0x100000).hasMmap = true := rfl
  rw [MultibootInfo.Frees, if_pos hmmap, oneRegion_entries] at h
  obtain ⟨e, he, -, hstart, -⟩ := h
  rw [List.mem_singleton] at he
  subst he
  exact hstart

/-- An allocation, a range of two pages and a free, after a boot with 1 MiB of RAM. -/
theorem keepsPromises_allocFree :
    (∀ c ∈ [PmmCall.allocPage, .allocPages 2, .freePage 0x102000],
        c.Careful 0x100000 0x101000 (oneRegion 0x100000 0x100000).totalPages) ∧
      Ledger.KeepsPromises
        ⟨pmmInit (oneRegion 0x100000 0x100000) 0x100000 0x101000 fun _ => 0, []⟩
        [.allocPage, .allocPages 2, .freePage 0x102000] := by
  have hcareful : ∀ c ∈ [PmmCall.allocPage, .allocPages 2, .freePage 0x102000],
      c.Careful 0x100000 0x101000 (oneRegion 0x100000 0x100000).totalPages := by
    rw [oneRegion_totalPages]
    have hbytes : bitmapBytes 0x200 = 0x1000 := by decide
    intro c hc pfn hrel hin
    simp only [List.mem_cons, List.not_mem_nil, or_false] at hc
    rcases hc with rfl | rfl | rfl
    · exact hrel
    · exact hrel
    · simp only [PmmCall.Releases] at hrel
      simp only [InKernel, Overlaps, hbytes, pageSize] at hin
      omega
  exact ⟨hcareful, pmm_keepsPromises (by decide) (by decide) (by decide) hcareful⟩

/-- Allocating the page that holds the whole bitmap clears every bit. -/
theorem not_accounted_of_takes_bitmap (h : Accounted p) (hi : i < p.totalPages)
    (hbitmap : p.bitmap = i * pageSize) (hsmall : p.totalPages ≤ 32768)
    (hfree : bitmapTest p i = false) : ¬ Accounted (takePages p i 1) := by
  have hclear : clearCount (takePages p i 1) = p.totalPages := by
    have hall : ∀ j ∈ List.range p.totalPages, (!bitmapTest (takePages p i 1) j) = true := by
      intro j hj
      have hj := List.mem_range.mp hj
      have hword : (takePages p i 1).mem (p.bitmap / 4 + j / 32) = 0 := by
        refine if_pos ⟨?_, ?_⟩
        · rw [hbitmap]
          omega
        · rw [hbitmap]
          simp only [pageSize]
          omega
      have htest : bitmapTest (takePages p i 1) j =
          ((takePages p i 1).mem (p.bitmap / 4 + j / 32)).getLsbD (j % 32) := rfl
      rw [htest, hword]
      simp
    have hcount := List.countP_eq_length.mpr hall
    rw [List.length_range] at hcount
    exact hcount
  have hset := accounted_set h hi hfree
  have hle := clearCount_of_set (q := (bitmapSet p i).decFree) hi hfree rfl fun j => by simp
  have hbound := clearCount_le (p := p)
  have hcounter : (takePages p i 1).freePages = (bitmapSet p i).decFree.freePages := rfl
  intro hacc
  have h1 : (takePages p i 1).freePages = clearCount (takePages p i 1) := hacc
  have h2 : (bitmapSet p i).decFree.freePages = clearCount (bitmapSet p i).decFree := hset
  omega

/-- `pmm_alloc_page` does so once the bitmap's page is the lowest free one. -/
theorem not_accounted_allocPage (h : Accounted p) (hi : 0 < i) (hlt : i < p.totalPages)
    (hbitmap : p.bitmap = i * pageSize) (hsmall : p.totalPages ≤ 32768)
    (hfree : bitmapTest p i = false) (hbelow : ∀ j, 0 < j → j < i → bitmapTest p j = true) :
    ¬ Accounted (pmmAllocPage p).2 := by
  have htotal : p.totalPages ≤ 2 ^ 18 := by omega
  rcases pmmAllocPage_result htotal with ⟨-, hnone⟩ | ⟨k, hsome, hk, -, hkfree, hmin⟩
  · rw [hnone i hi hlt] at hfree
    cases hfree
  · have hpage : k = i := by
      rcases Nat.lt_trichotomy k i with hki | heq | hgt
      · rw [hbelow k hk hki] at hkfree
        cases hkfree
      · exact heq
      · rw [hmin i hi hgt] at hfree
        cases hfree
    rw [hsome, hpage]
    exact not_accounted_of_takes_bitmap h hlt hbitmap hsmall hfree

/-- In that boot the bitmap's page is the lowest page that a free can clear. -/
theorem oneRegion_below_bitmap (hi : 0 < i) (hle : i ≤ 0x100) :
    bitmapTest (pmmInit (oneRegion 0x100000 0x100000) 0x100000 0x101000 fun _ => 0) i = true := by
  by_contra hclear
  have hbit : HasBit (pmmInit (oneRegion 0x100000 0x100000) 0x100000 0x101000 fun _ => 0) i := by
    apply hasBit_of_lt
    · rw [pmmInit_totalPages]
      exact totalPages_le
    · rw [pmmInit_totalPages, oneRegion_totalPages]
      omega
  obtain ⟨-, hfrees, hres⟩ := (pmmInit_clear (by decide) (by decide) (by decide) hbit).mp
    (eq_false_of_ne_true hclear)
  have hge := oneRegion_frees hfrees
  refine hres (Or.inr (Or.inl ?_))
  simp only [Overlaps, pageSize]
  omega

theorem Ledger.KeepsPromises.accounted {addr : Nat}
    (h : Ledger.KeepsPromises ⟨p, []⟩ [.freePage addr, .allocPage]) :
    Accounted (pmmFreePage p addr) ∧ Accounted (pmmAllocPage (pmmFreePage p addr)).2 := by
  obtain ⟨⟨-, hall⟩, -⟩ := h
  obtain ⟨hfreed, hall⟩ := hall _ rfl
  exact ⟨hfreed, hall _ rfl⟩

/-- Freeing the bitmap's own page and allocating it again loses the count. -/
theorem not_keepsPromises_freeBitmap :
    ¬ ∀ (mbi : MultibootInfo) (kernStart kernEnd : Nat) (mem : Mem) (calls : List PmmCall),
      kernStart < 2 ^ 32 → kernEnd < 2 ^ 32 → kernEnd % pageSize = 0 →
      Ledger.KeepsPromises ⟨pmmInit mbi kernStart kernEnd mem, []⟩ calls := by
  intro h
  obtain ⟨hfreed, hlost⟩ := (h (oneRegion 0x100000 0x100000) 0x100000 0x101000 (fun _ => 0)
    [.freePage 0x101000, .allocPage] (by decide) (by decide) (by decide)).accounted
  have hplace : SamePlace ((oneRegion 0x100000 0x100000).place 0x101000 fun _ => 0)
      (pmmFreePage (pmmInit (oneRegion 0x100000 0x100000) 0x100000 0x101000 fun _ => 0) 0x101000) :=
    pmmInit_samePlace.trans pmmFreePage_samePlace
  have htotal := hplace.1.trans oneRegion_totalPages
  have hbitmap : ((oneRegion 0x100000 0x100000).place 0x101000 fun _ => 0).bitmap =
      0x101 * pageSize := by
    simp only [MultibootInfo.place, pageSize]
  have hpos : 0 < 0x101 := by decide
  refine not_accounted_allocPage hfreed hpos ?_ (hplace.2.trans hbitmap) ?_ ?_ ?_ hlost
  · exact Nat.lt_of_lt_of_eq (by decide) htotal.symm
  · exact Nat.le_trans (Nat.le_of_eq htotal) (by decide)
  · refine eq_false_of_ne_true fun hset => ?_
    have hkept := (pmmFreePage_test.mp hset).1
    rw [pmmInit_totalPages, oneRegion_totalPages] at hkept
    omega
  · intro j hj hlt
    exact pmmFreePage_test.mpr ⟨by omega, oneRegion_below_bitmap hj (by omega)⟩

end PinguinOS.Mm
