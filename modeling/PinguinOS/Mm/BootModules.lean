import PinguinOS.Lib.Bytes
import PinguinOS.Mm.Frames
import PinguinOS.Mm.IdentityMap

/-! The memory of a boot module while the allocator runs and page owners store. -/
namespace PinguinOS.Mm

inductive BootStep
  | pmm (c : PmmCall)
  /-- The owner of a page stores a byte. -/
  | store (addr : Nat) (b : BitVec 8)

def Ledger.bootStep (l : Ledger) : BootStep → Option Ledger
  | .pmm c => some (l.call c)
  | .store addr b =>
    some { l with pmm := { l.pmm with mem := Bytes.setByte l.pmm.mem addr b } }

/-- What was returned is freed once, and stored to only until then. -/
def Ledger.Permitted (l : Ledger) : BootStep → Prop
  | .pmm c => c.Ordinary ∧ l.Disciplined c
  | .store addr _ => ∃ r ∈ l.outstanding, r.1 ≤ addr / 4096 ∧ addr / 4096 < r.1 + r.2

/-- No page that is handed out shares a byte with `[lo, hi)`. -/
def Ledger.Avoids (l : Ledger) (lo hi : Nat) : Prop :=
  ∀ r ∈ l.outstanding, ∀ pfn, r.1 ≤ pfn → pfn < r.1 + r.2 → ¬ Overlaps pfn lo hi

/-- The bytes of `[lo, hi)` are those of `mem`. -/
def Ledger.Holds (l : Ledger) (mem : Mem) (lo hi : Nat) : Prop :=
  ∀ a, lo ≤ a → a < hi → Bytes.byte l.pmm.mem a = Bytes.byte mem a

variable {a i j lo hi pfn w kernStart kernEnd totalPages : Nat} {p q first : Pmm} {l l' : Ledger}
  {c : PmmCall} {mbi : MultibootInfo} {mem : Mem} {e : MmapEntry}

/-! The operations on marks change words of the bitmap only. -/

/-- No bit lies in the word. -/
def Pmm.OffBitmap (p : Pmm) (w : Nat) : Prop := ∀ j < p.totalPages, w ≠ bitmapWord p j

theorem Pmm.OffBitmap.samePlace (h : p.OffBitmap w) (hpq : SamePlace p q) : q.OffBitmap w := by
  intro j hj hword
  refine h j (hpq.1 ▸ hj) (hword.trans ?_)
  unfold bitmapWord
  rw [hpq.2]

theorem markUsed_mem (hw : w ≠ bitmapWord p i) : (markUsed p i).mem w = p.mem w := by
  have hset : (bitmapSet p i).mem w = p.mem w := Function.update_of_ne hw _ _
  unfold markUsed
  dsimp only
  split_ifs
  · exact hset
  · exact hset
  · rfl

theorem pmmMarkUsed_mem {start stop : Nat} (h : p.OffBitmap w) :
    (pmmMarkUsed p start stop).mem w = p.mem w := by
  refine (foldl_keeps (I := fun q => SamePlace p q ∧ q.mem w = p.mem w) ?_ ⟨⟨rfl, rfl⟩, rfl⟩).2
  rintro q ⟨hplace, hq⟩ i hi
  refine ⟨⟨by simpa using hplace.1, by simpa using hplace.2⟩, (markUsed_mem ?_).trans hq⟩
  exact h.samePlace hplace i (hplace.1.symm ▸ (mem_pfnsBetween.mp hi).2.2)

theorem pmmMarkFree_mem {start stop : Nat} (h : p.OffBitmap w) :
    (pmmMarkFree p start stop).mem w = p.mem w := by
  refine (foldl_keeps (I := fun q => SamePlace p q ∧ q.mem w = p.mem w) ?_ ⟨⟨rfl, rfl⟩, rfl⟩).2
  rintro q ⟨hplace, hq⟩ i hi
  refine ⟨⟨by simpa using hplace.1, by simpa using hplace.2⟩, (markFree_mem ?_).trans hq⟩
  exact h.samePlace hplace i (hplace.1.symm ▸ (mem_pfnsBetween.mp hi).2.2)

theorem pmmFreePage_mem {addr : Nat} (h : p.OffBitmap w) :
    (pmmFreePage p addr).mem w = p.mem w := by
  unfold pmmFreePage
  dsimp only
  split_ifs with hrange
  · rfl
  · exact markFree_mem (h _ (by omega))

theorem pmmFreePages_mem {addr n : Nat} (h : p.OffBitmap w) :
    (pmmFreePages p addr n).mem w = p.mem w := by
  refine (foldl_keeps (I := fun q => SamePlace p q ∧ q.mem w = p.mem w) ?_ ⟨⟨rfl, rfl⟩, rfl⟩).2
  rintro q ⟨hplace, hq⟩ i -
  have hfree : SamePlace q (pmmFreePage q (u32 (addr + u32 (i * pageSize)))) :=
    pmmFreePage_samePlace
  exact ⟨hplace.trans hfree, (pmmFreePage_mem (h.samePlace hplace)).trans hq⟩

theorem AllocResult.word {n : Nat} {r : Nat × Pmm} (hr : AllocResult p n r) (h : p.OffBitmap w)
    (hused : w / 1024 < p.totalPages → bitmapTest p (w / 1024) = true) : r.2.mem w = p.mem w := by
  rcases hr with rfl | ⟨i, rfl, -, ha⟩
  · rfl
  · have hrange := ha.inRange
    refine takePages_word ?_ fun j _ hjn => h j (by omega)
    rintro ⟨hlo, hhi⟩
    have hset := hused (by omega)
    rw [ha.free _ hlo hhi] at hset
    cases hset

/-- A call changes words of the bitmap and of pages that were free. -/
theorem call_mem (hp : l.pmm.totalPages ≤ 2 ^ 18) (h : l.pmm.OffBitmap w)
    (hused : w / 1024 < l.pmm.totalPages → bitmapTest l.pmm (w / 1024) = true) :
    (l.call c).pmm.mem w = l.pmm.mem w := by
  cases c with
  | allocPage => exact (pmmAllocPage_allocResult hp).word h hused
  | allocPages count => exact AllocResult.word (pmmAllocPages_result hp) h hused
  | freePage addr => exact pmmFreePage_mem h
  | freePages addr count => exact pmmFreePages_mem h
  | markUsed start stop => exact pmmMarkUsed_mem h
  | markFree start stop => exact pmmMarkFree_mem h

theorem freeEntry_mem (h : p.OffBitmap w) : (freeEntry p e).mem w = p.mem w := by
  unfold freeEntry
  split_ifs
  · exact pmmMarkFree_mem h
  · rfl
  · rfl

theorem freeRegions_mem (h : p.OffBitmap w) : (mbi.freeRegions p).mem w = p.mem w := by
  unfold MultibootInfo.freeRegions
  split_ifs
  · generalize mbi.entries = es
    induction es generalizing p with
    | nil => rfl
    | cons e es ih => exact (ih (h.samePlace freeEntry_samePlace)).trans (freeEntry_mem h)
  · dsimp only
    rw [pmmMarkFree_mem (h.samePlace pmmMarkFree_samePlace), pmmMarkFree_mem h]

theorem reserve_mem (h : p.OffBitmap w) : (reserve p kernStart kernEnd).mem w = p.mem w := by
  unfold reserve
  dsimp only
  rw [pmmMarkUsed_mem ((h.samePlace pmmMarkUsed_samePlace).samePlace pmmMarkUsed_samePlace),
    pmmMarkUsed_mem (h.samePlace pmmMarkUsed_samePlace), pmmMarkUsed_mem h]

/-- `pmm_init` writes to the bitmap only. -/
theorem pmmInit_mem (halign : kernEnd % pageSize = 0)
    (hw : 4 * w + 4 ≤ kernEnd ∨ kernEnd + bitmapBytes mbi.totalPages ≤ 4 * w) :
    (pmmInit mbi kernStart kernEnd mem).mem w = mem w := by
  have hbytes := bitmapBytes_mod (n := mbi.totalPages)
  simp only [pageSize] at halign
  have hoff : (mbi.place kernEnd mem).OffBitmap w := by
    intro j hj hword
    have hbit := hasBit_of_lt (p := mbi.place kernEnd mem) totalPages_le hj
    simp only [HasBit, bitmapWord, MultibootInfo.place] at hbit hword
    omega
  have hplace : (mbi.place kernEnd mem).mem w = mem w := by
    refine if_neg ?_
    omega
  exact (reserve_mem (hoff.samePlace freeRegions_samePlace)).trans
    ((freeRegions_mem hoff).trans hplace)

/-! What a permitted step keeps. -/

/-- The module's bytes are its own, and no page of it can be handed out. -/
structure KeepsModule (kernStart kernEnd totalPages : Nat) (first : Pmm) (mem : Mem) (lo hi : Nat)
    (l : Ledger) : Prop where
  traced : Traced kernStart kernEnd totalPages first l
  holds : l.Holds mem lo hi

/-- A module that no free page shares a byte with and that is clear of the bitmap. -/
structure Sheltered (kernEnd totalPages : Nat) (first : Pmm) (lo hi : Nat) : Prop where
  used : ∀ pfn < totalPages, Overlaps pfn lo hi → bitmapTest first pfn = true
  offBitmap : hi ≤ kernEnd ∨ kernEnd + bitmapBytes totalPages ≤ lo

theorem overlaps_of_mem (hlo : lo ≤ a) (hhi : a < hi) : Overlaps (a / 4096) lo hi := by
  unfold Overlaps pageSize
  omega

theorem Sane.offBitmap (h : Sane kernStart kernEnd totalPages p)
    (hoff : hi ≤ kernEnd ∨ kernEnd + bitmapBytes totalPages ≤ lo) (hlo : lo ≤ a) (hhi : a < hi) :
    p.OffBitmap (a / 4) := by
  intro j hj hword
  have hbit := le_bitmapBytes h.limit (h.total ▸ hj)
  have haligned := h.aligned
  have hbytes := bitmapBytes_mod (n := totalPages)
  have hbitmap := h.bitmap
  simp only [bitmapWord, pageSize] at hword haligned
  omega

theorem Traced.avoids (h : Traced kernStart kernEnd totalPages first l)
    (hs : Sheltered kernEnd totalPages first lo hi) : l.Avoids lo hi := by
  intro r hr pfn hge hlt hover
  have hin := h.exclusive.inRange r hr
  have htotal := h.sane.total
  have hset := hs.used pfn (by omega) hover
  rw [h.owned r hr pfn hge hlt] at hset
  cases hset

/-- A page of the module that the allocator manages is in use. -/
theorem Traced.used (h : Traced kernStart kernEnd totalPages first l)
    (hs : Sheltered kernEnd totalPages first lo hi) (hpfn : pfn < totalPages)
    (hover : Overlaps pfn lo hi) : bitmapTest l.pmm pfn = true := by
  by_contra hclear
  have hset := hs.used pfn hpfn hover
  rw [h.clear pfn hpfn (eq_false_of_ne_true hclear)] at hset
  cases hset

theorem Ledger.Holds.call (h : Traced kernStart kernEnd totalPages first l)
    (hs : Sheltered kernEnd totalPages first lo hi) (hm : l.Holds mem lo hi) :
    (l.call c).Holds mem lo hi := by
  intro a hlo hhi
  have hword : (l.call c).pmm.mem (a / 4) = l.pmm.mem (a / 4) := by
    refine call_mem h.sane.placed.total (h.sane.offBitmap hs.offBitmap hlo hhi) fun hlt => ?_
    have hpage : a / 4 / 1024 = a / 4096 := Nat.div_div_eq_div_mul a 4 1024
    rw [hpage] at hlt ⊢
    exact h.used hs (h.sane.total ▸ hlt) (overlaps_of_mem hlo hhi)
  rw [← hm a hlo hhi]
  unfold Bytes.byte
  rw [hword]

/-- A byte of a page that was free at the start is none of the kernel's. -/
theorem Traced.store {addr : Nat} {b : BitVec 8}
    (hfirst : Sane kernStart kernEnd totalPages first)
    (h : Traced kernStart kernEnd totalPages first l)
    (hfree : bitmapTest first (addr / 4096) = false) (hlt : addr / 4096 < totalPages) :
    Traced kernStart kernEnd totalPages first
      { l with pmm := { l.pmm with mem := Bytes.setByte l.pmm.mem addr b } } := by
  obtain ⟨hsane, htest⟩ := h.sane.withMem (m := Bytes.setByte l.pmm.mem addr b) <| by
    intro w hin
    refine Bytes.setByte_word ?_
    rintro rfl
    have hpage : addr / 4 / 1024 = addr / 4096 := Nat.div_div_eq_div_mul addr 4 1024
    rw [hpage] at hin
    rw [hfirst.kernel _ hlt hin] at hfree
    cases hfree
  refine ⟨hsane, ⟨h.exclusive.apart, h.exclusive.inRange, ?_⟩, ?_, h.owned⟩
  · intro r hr pfn hge hltr
    have hin := h.exclusive.inRange r hr
    have htotal := h.sane.total
    exact (htest pfn (by omega)).trans (h.exclusive.used r hr pfn hge hltr)
  · intro pfn hpfn hclear
    exact h.clear pfn hpfn ((htest pfn hpfn).symm.trans hclear)

theorem KeepsModule.step {s : BootStep} (hfirst : Sane kernStart kernEnd totalPages first)
    (hs : Sheltered kernEnd totalPages first lo hi)
    (h : KeepsModule kernStart kernEnd totalPages first mem lo hi l) (hstep : l.bootStep s = some l')
    (hp : l.Permitted s) : KeepsModule kernStart kernEnd totalPages first mem lo hi l' := by
  cases s with
  | pmm c =>
    cases hstep
    exact ⟨h.traced.call hfirst hp.1 hp.2, h.holds.call h.traced hs⟩
  | store addr b =>
    cases hstep
    obtain ⟨r, hr, hge, hlt⟩ := hp
    have hin := h.traced.exclusive.inRange r hr
    have htotal := h.traced.sane.total
    refine ⟨h.traced.store hfirst (h.traced.owned r hr _ hge hlt) (by omega), ?_⟩
    intro a hlo hhi
    have hne : a ≠ addr := by
      rintro rfl
      exact h.traced.avoids hs r hr _ hge hlt (overlaps_of_mem hlo hhi)
    calc Bytes.byte (Bytes.setByte l.pmm.mem addr b) a
        = Bytes.byte l.pmm.mem a := by rw [Bytes.byte_setByte, if_neg hne]
      _ = Bytes.byte mem a := h.holds a hlo hhi

/-- A module stays as the boot loader left it, while nobody is handed a page of it. -/
theorem KeepsModule.run {steps : List BootStep} (hfirst : Sane kernStart kernEnd totalPages first)
    (hs : Sheltered kernEnd totalPages first lo hi)
    (h : KeepsModule kernStart kernEnd totalPages first mem lo hi l)
    (hsteps : Run.EveryStep Ledger.bootStep (fun l s _ => l.Permitted s) l steps)
    (hrun : Run.run Ledger.bootStep l steps = some l') :
    KeepsModule kernStart kernEnd totalPages first mem lo hi l' :=
  (hsteps.everyState (fun _ _ _ hl hstep hp => hl.step hfirst hs hstep hp)
    (fun _ hl => hl) h).last hrun

theorem keepsModule_pmmInit (hs : kernStart < 2 ^ 32) (he : kernEnd < 2 ^ 32)
    (halign : kernEnd % pageSize = 0)
    (hoff : hi ≤ kernEnd ∨ kernEnd + bitmapBytes mbi.totalPages ≤ lo) :
    KeepsModule kernStart kernEnd mbi.totalPages (pmmInit mbi kernStart kernEnd mem) mem lo hi
      ⟨pmmInit mbi kernStart kernEnd mem, []⟩ := by
  have hsane := @sane_pmmInit kernStart kernEnd mbi mem hs he halign
  refine ⟨⟨hsane, ⟨List.Pairwise.nil, by simp, by simp⟩, fun _ _ hclear => hclear, by simp⟩, ?_⟩
  intro a hlo hhi
  have hbytes := bitmapBytes_mod (n := mbi.totalPages)
  simp only [pageSize] at halign
  have hword : (pmmInit mbi kernStart kernEnd mem).mem (a / 4) = mem (a / 4) :=
    pmmInit_mem halign (by omega)
  unfold Bytes.byte
  rw [hword]

/-! What a run that only allocates does. -/

/-- The calls of a run of the allocator alone. -/
theorem run_pmm {calls : List PmmCall} :
    Run.run Ledger.bootStep l (calls.map .pmm) = Run.run Ledger.step l calls := by
  induction calls generalizing l with
  | nil => rfl
  | cons c calls ih => exact ih

theorem permitted_allocPage {n : Nat} : Run.EveryStep Ledger.bootStep (fun l s _ => l.Permitted s) l
    (List.replicate n (.pmm .allocPage)) := by
  induction n generalizing l with
  | zero => trivial
  | succ n ih =>
    rintro _ ⟨⟩
    exact ⟨⟨trivial, trivial⟩, ih⟩

/-- A free page is handed out after enough allocations. -/
theorem exists_run_outstanding (h : Sane kernStart kernEnd totalPages l.pmm) (hpos : 0 < pfn)
    (hpfn : pfn < l.pmm.totalPages) (hclear : bitmapTest l.pmm pfn = false) :
    ∃ n l', Run.run Ledger.bootStep l (List.replicate n (.pmm .allocPage)) = some l' ∧
      (pfn, 1) ∈ l'.outstanding := by
  obtain ⟨n, m, hrun, hlast⟩ := exists_run_allocPage h (by decide) hpfn hpos hclear (by omega)
  refine ⟨n + 1, m.call .allocPage, ?_, ?_⟩
  · have hcalls : List.replicate (n + 1) (BootStep.pmm .allocPage) =
        (List.replicate n PmmCall.allocPage ++ [PmmCall.allocPage]).map BootStep.pmm := by
      rw [← List.replicate_succ', List.map_replicate]
    rw [hcalls, run_pmm, Run.run_append, hrun]
    rfl
  · have hne : (pmmAllocPage m.pmm).1 ≠ 0 := by
      rw [hlast]
      exact Nat.mul_ne_zero (by omega) (by decide)
    rw [Ledger.call, Ledger.returned, if_neg hne, hlast, addrToPfn_page]
    exact List.mem_cons_self

end PinguinOS.Mm
