import PinguinOS.Mm.Paging
import PinguinOS.Mm.PmmRun

/-! The pages the allocator hands out against the identity map of `paging_init`. -/
namespace PinguinOS.Mm

/-- `kernel_pd` maps `[addr, addr + len)` at virtual = physical. -/
def Vm.Identity (v : Vm) (addr len : Nat) : Prop :=
  ∀ a, addr ≤ a → a < addr + len → pagingGetPhys v a = a

/-- A range that an allocation returns is identity mapped. -/
def Ledger.ReturnsMapped (v : Vm) (l : Ledger) : PmmCall → Prop
  | .allocPage => (pmmAllocPage l.pmm).1 ≠ 0 → v.Identity (pmmAllocPage l.pmm).1 pageSize
  | .allocPages count => (pmmAllocPages l.pmm count).1 ≠ 0 →
      v.Identity (pmmAllocPages l.pmm count).1 (count * pageSize)
  | _ => True

/-- Every call but `pmm_mark_free`, which would make pages allocatable that `pmm_init` did not. -/
def PmmCall.Ordinary : PmmCall → Prop
  | .markFree _ _ => False
  | _ => True

/-- The 4 MB pages between 256 MB and 896 MB, which `paging_init` leaves out. -/
def InHole (pfn : Nat) : Prop := 0x10000 ≤ pfn ∧ pfn < 0x38000

/-- Every range that is ever returned after `pmm_init` is identity mapped by `paging_init`. -/
def MapsAllocations (mbi : MultibootInfo) (kernStart kernEnd : Nat) (mem : Mem) (v : Vm) : Prop :=
  ∀ calls, (∀ c ∈ calls, c.Ordinary) →
    Run.EveryStep Ledger.step (fun l c _ => l.Disciplined c)
      ⟨pmmInit mbi kernStart kernEnd mem, []⟩ calls →
    Run.EveryStep Ledger.step (fun l c _ => l.ReturnsMapped (pagingInit v) c)
      ⟨pmmInit mbi kernStart kernEnd mem, []⟩ calls

variable {v : Vm} {a i n k pfn kernStart kernEnd totalPages : Nat} {p first : Pmm} {l : Ledger}
  {c : PmmCall} {mbi : MultibootInfo} {mem : Mem}

/-- Below 1 GiB the map is the identity exactly outside the hole. -/
theorem pagingInit_identity_iff (ha : a < 2 ^ 30) (hpos : 0 < a) :
    pagingGetPhys (pagingInit v) a = a ↔ ¬ InHole (a / 4096) := by
  have hpd := pagingInit_pd (v := v) (d := pdIndex a)
  have hidx := @pdIndex_eq a
  have hlow : ¬ (768 ≤ pdIndex a ∧ pdIndex a < 832) := by omega
  rw [if_neg hlow] at hpd
  unfold InHole
  by_cases h64 : pdIndex a < 64
  · rw [if_neg (by omega), if_pos h64] at hpd
    rw [pagingGetPhys_huge (Or.inl rfl) (by omega) (by omega) hpd]
    omega
  · by_cases h224 : 224 ≤ pdIndex a
    · rw [if_pos (by omega)] at hpd
      rw [pagingGetPhys_huge (Or.inr rfl) (by omega) (by omega) hpd]
      omega
    · rw [if_neg (by omega), if_neg h64] at hpd
      have habsent : pagingGetPhys (pagingInit v) a = 0 := by
        rw [pagingGetPhys]
        dsimp only
        rw [hpd]
        exact if_pos (by decide)
      rw [habsent]
      omega

theorem identity_pages (hi : 0 < i) (hin : i + n ≤ 2 ^ 18) :
    (pagingInit v).Identity (i * pageSize) (n * pageSize) ↔
      ∀ j, i ≤ j → j < i + n → ¬ InHole j := by
  unfold Vm.Identity
  simp only [pageSize]
  constructor
  · intro h j hij hjn
    have hj := (pagingInit_identity_iff (by omega) (by omega)).mp (h (j * 4096) (by omega) (by omega))
    rwa [Nat.mul_div_cancel j (by decide)] at hj
  · intro h a hlo hhi
    exact (pagingInit_identity_iff (by omega) (by omega)).mpr (h (a / 4096) (by omega) (by omega))

/-- What is free or handed out was free at the start. -/
structure Traced (kernStart kernEnd totalPages : Nat) (first : Pmm) (l : Ledger) : Prop where
  sane : Sane kernStart kernEnd totalPages l.pmm
  exclusive : l.Exclusive
  clear : ∀ pfn < totalPages, bitmapTest l.pmm pfn = false → bitmapTest first pfn = false
  owned : ∀ r ∈ l.outstanding, ∀ pfn, r.1 ≤ pfn → pfn < r.1 + r.2 → bitmapTest first pfn = false

/-- A disciplined call releases only outstanding pages. -/
theorem releases_outstanding (hx : l.Exclusive) (htotal : l.pmm.totalPages ≤ 2 ^ 18)
    (ho : c.Ordinary) (hd : l.Disciplined c) (hrel : c.Releases pfn) :
    ∃ r ∈ l.outstanding, r.1 ≤ pfn ∧ pfn < r.1 + r.2 := by
  cases c with
  | freePage addr =>
    obtain ⟨page, rfl, hmem⟩ := hd
    refine ⟨_, hmem, ?_⟩
    simp only [PmmCall.Releases, pageSize] at hrel
    omega
  | freePages addr count =>
    obtain ⟨page, rfl, hmem⟩ := hd
    have hin := hx.inRange _ hmem
    exact ⟨_, hmem, (freedBy_pages (by omega)).mp hrel⟩
  | markFree start stop => exact ho.elim
  | _ => exact hrel.elim

theorem Traced.returned {r : Nat × Pmm} (h : Traced kernStart kernEnd totalPages first l)
    (hr : AllocResult l.pmm n r) {s : Nat × Nat} (hs : s ∈ (l.returned n r).outstanding)
    (hlo : s.1 ≤ pfn) (hhi : pfn < s.1 + s.2) : bitmapTest first pfn = false := by
  unfold Ledger.returned at hs
  dsimp only at hs
  split_ifs at hs with hzero
  · exact h.owned s hs pfn hlo hhi
  · rcases List.mem_cons.mp hs with rfl | hs
    · rcases hr with rfl | ⟨i, rfl, -, ha⟩
      · exact absurd rfl hzero
      · rw [addrToPfn_page] at hlo hhi
        have hrange := ha.inRange
        have htotal := h.sane.total
        exact h.clear pfn (by omega) (ha.free pfn hlo hhi)
    · exact h.owned s hs pfn hlo hhi

theorem Traced.call (hfirst : Sane kernStart kernEnd totalPages first)
    (h : Traced kernStart kernEnd totalPages first l) (ho : c.Ordinary) (hd : l.Disciplined c) :
    Traced kernStart kernEnd totalPages first (l.call c) := by
  have hp := h.sane.placed.total
  have hrel : ∀ pfn, c.Releases pfn → bitmapTest first pfn = false ∧ pfn < totalPages := by
    intro pfn hrel
    obtain ⟨r, hr, hlo, hhi⟩ := releases_outstanding h.exclusive hp ho hd hrel
    have hin := h.exclusive.inRange r hr
    have htotal := h.sane.total
    exact ⟨h.owned r hr pfn hlo hhi, by omega⟩
  have hcareful : c.Careful kernStart kernEnd totalPages := by
    intro pfn hpfn hin
    have hset := hfirst.kernel pfn (hrel pfn hpfn).2 hin
    rw [(hrel pfn hpfn).1] at hset
    cases hset
  refine ⟨h.sane.call hcareful, h.exclusive.call h.sane hd, ?_, ?_⟩
  · intro pfn hpfn hclear
    by_cases hpfnrel : c.Releases pfn
    · exact (hrel pfn hpfnrel).1
    · apply h.clear pfn hpfn
      by_contra hset
      have hkept := call_keeps h.sane (h.sane.total.symm ▸ hpfn) (eq_true_of_ne_false hset) hpfnrel
      rw [hclear] at hkept
      cases hkept
  · intro r hr pfn hlo hhi
    cases c with
    | allocPage => exact h.returned (pmmAllocPage_allocResult hp) hr hlo hhi
    | allocPages count => exact h.returned (pmmAllocPages_result hp) hr hlo hhi
    | freePage addr => exact h.owned r (List.mem_of_mem_erase hr) pfn hlo hhi
    | freePages addr count => exact h.owned r (List.mem_of_mem_erase hr) pfn hlo hhi
    | markUsed start stop => exact h.owned r hr pfn hlo hhi
    | markFree start stop => exact ho.elim

theorem AllocResult.mapped {r : Nat × Pmm} (hr : AllocResult p n r) (hp : p.totalPages ≤ 2 ^ 18)
    (hfree : ∀ pfn < p.totalPages, bitmapTest p pfn = false → ¬ InHole pfn) (hne : r.1 ≠ 0) :
    (pagingInit v).Identity r.1 (n * pageSize) := by
  rcases hr with rfl | ⟨i, rfl, -, ha⟩
  · exact absurd rfl hne
  · have hrange := ha.inRange
    refine (identity_pages ha.nonzero (by omega)).mpr ?_
    intro j hij hjn
    exact hfree j (by omega) (ha.free j hij hjn)

theorem Traced.returnsMapped (h : Traced kernStart kernEnd totalPages first l)
    (hfirst : ∀ pfn < totalPages, bitmapTest first pfn = false → ¬ InHole pfn) :
    l.ReturnsMapped (pagingInit v) c := by
  have hp := h.sane.placed.total
  have hfree : ∀ pfn < l.pmm.totalPages, bitmapTest l.pmm pfn = false → ¬ InHole pfn := by
    intro pfn hpfn hclear
    have hlt := h.sane.total ▸ hpfn
    exact hfirst pfn hlt (h.clear pfn hlt hclear)
  cases c with
  | allocPage => exact (pmmAllocPage_allocResult hp).mapped hp hfree
  | allocPages count => exact AllocResult.mapped (pmmAllocPages_result hp) hp hfree
  | _ => trivial

/-- Allocating page after page reaches every free page. -/
theorem exists_run_allocPage (h : Sane kernStart kernEnd totalPages l.pmm) (hk : 0 < k)
    (hpfn : pfn < l.pmm.totalPages) (hle : k ≤ pfn) (hclear : bitmapTest l.pmm pfn = false)
    (hbelow : ∀ j, 0 < j → j < k → bitmapTest l.pmm j = true) :
    ∃ n l', Run.run Ledger.step l (List.replicate n .allocPage) = some l' ∧
      (pmmAllocPage l'.pmm).1 = pfn * pageSize := by
  obtain ⟨gap, hgap⟩ : ∃ gap, pfn - k = gap := ⟨_, rfl⟩
  -- on the distance from the lowest page that may be free to the page wanted
  induction gap using Nat.strong_induction_on generalizing l k with
  | h gap ih =>
    rcases pmmAllocPage_result h.placed.total with ⟨-, hnone⟩ | ⟨i, hsome, hi, hit, hfree, hmin⟩
    · rw [hnone pfn (by omega) hpfn] at hclear
      cases hclear
    · have hki : k ≤ i := by
        by_contra hlt
        rw [hbelow i hi (by omega)] at hfree
        cases hfree
      have hipfn : i ≤ pfn := by
        by_contra hlt
        rw [hmin pfn (by omega) (by omega)] at hclear
        cases hclear
      by_cases heq : i = pfn
      · exact ⟨0, l, rfl, by rw [hsome, heq]⟩
      · have ha : Allocates l.pmm i 1 (takePages l.pmm i 1) := by
          refine takePages_allocates hi (by omega) ?_
          intro j hj hji
          have : j = i := by omega
          exact this ▸ hfree
        have hpmm : (l.call .allocPage).pmm = takePages l.pmm i 1 := by
          rw [Ledger.call, hsome]
          rfl
        have hplace : (l.call .allocPage).pmm.totalPages = l.pmm.totalPages :=
          (call_samePlace h.placed.total).1
        have htest := fun j hj => h.allocates_test ha (j := j) hj
        rw [← hpmm] at htest
        have hclear' : bitmapTest (l.call .allocPage).pmm pfn = false := by
          rw [← Bool.not_eq_true, htest pfn hpfn, hclear]
          simp only [Bool.false_eq_true, or_false]
          omega
        have hbelow' : ∀ j, 0 < j → j < i + 1 → bitmapTest (l.call .allocPage).pmm j = true := by
          intro j hj hji
          refine (htest j (by omega)).mpr ?_
          by_cases hij : j = i
          · exact Or.inl ⟨by omega, by omega⟩
          · exact Or.inr (hmin j hj (by omega))
        obtain ⟨n, l', hrun, hlast⟩ := ih (pfn - (i + 1)) (by omega)
          (hpmm ▸ h.allocates ha) (Nat.succ_pos i) (hplace ▸ hpfn) (by omega) hclear' hbelow' rfl
        exact ⟨n + 1, l', hrun, hlast⟩

/-- The free pages after `pmm_init`, in terms of its input. -/
theorem pmmInit_clear_of_lt (hs : kernStart < 2 ^ 32) (he : kernEnd < 2 ^ 32)
    (halign : kernEnd % pageSize = 0) (hpfn : pfn < mbi.totalPages) :
    bitmapTest (pmmInit mbi kernStart kernEnd mem) pfn = false ↔
      mbi.Frees pfn ∧ ¬ Reserved kernStart kernEnd mbi.totalPages pfn := by
  rw [pmmInit_clear hs he halign]
  · exact and_iff_right hpfn
  · apply hasBit_of_lt
    · rw [pmmInit_totalPages]
      exact totalPages_le
    · rwa [pmmInit_totalPages]

/-- A page of the hole that `pmm_init` frees is handed out by some run. -/
theorem not_mapsAllocations (hs : kernStart < 2 ^ 32) (he : kernEnd < 2 ^ 32)
    (halign : kernEnd % pageSize = 0) (hole : InHole pfn) (hpfn : pfn < mbi.totalPages)
    (hfrees : mbi.Frees pfn) (hres : ¬ Reserved kernStart kernEnd mbi.totalPages pfn) :
    ¬ MapsAllocations mbi kernStart kernEnd mem v := by
  intro h
  have hclear : bitmapTest (pmmInit mbi kernStart kernEnd mem) pfn = false :=
    (pmmInit_clear_of_lt hs he halign hpfn).mpr ⟨hfrees, hres⟩
  have hlt : pfn < (pmmInit mbi kernStart kernEnd mem).totalPages := by
    rwa [pmmInit_totalPages]
  obtain ⟨n, l, hrun, hlast⟩ := exists_run_allocPage (l := ⟨pmmInit mbi kernStart kernEnd mem, []⟩)
    (k := 1) (sane_pmmInit hs he halign) (by decide) hlt (Nat.le_trans (by decide) hole.1) hclear
    (by omega)
  have hcalls : ∀ c ∈ List.replicate n PmmCall.allocPage ++ [.allocPage], c = .allocPage := by
    intro c hc
    rcases List.mem_append.mp hc with hc | hc
    · exact List.eq_of_mem_replicate hc
    · exact List.mem_singleton.mp hc
  have hordinary : ∀ c ∈ List.replicate n PmmCall.allocPage ++ [.allocPage], c.Ordinary := by
    intro c hc
    rw [hcalls c hc]
    trivial
  have hdisciplined : Run.EveryStep Ledger.step (fun l c _ => l.Disciplined c)
      ⟨pmmInit mbi kernStart kernEnd mem, []⟩ (List.replicate n .allocPage ++ [.allocPage]) := by
    refine (Run.everyStep_of_forall hcalls).mono (I := fun _ => True) ?_ trivial
    rintro l _ _ - - rfl
    exact ⟨trivial, trivial⟩
  have hmapped : l.ReturnsMapped (pagingInit v) .allocPage :=
    (h _ hordinary hdisciplined).last hrun rfl
  rw [Ledger.ReturnsMapped, hlast] at hmapped
  have hbound := @totalPages_le mbi
  have hpos : 0 < pfn := Nat.lt_of_lt_of_le (by decide) hole.1
  have hidentity : (pagingInit v).Identity (pfn * pageSize) (1 * pageSize) := by
    rw [Nat.one_mul]
    exact hmapped (Nat.mul_ne_zero (by omega) (by decide))
  exact (identity_pages hpos (by omega)).mp hidentity pfn (Nat.le_refl pfn) (by omega) hole

/-- Allocator and identity map agree exactly when `pmm_init` frees no page of the hole. -/
theorem mapsAllocations_iff (hs : kernStart < 2 ^ 32) (he : kernEnd < 2 ^ 32)
    (halign : kernEnd % pageSize = 0) :
    MapsAllocations mbi kernStart kernEnd mem v ↔
      ∀ pfn, InHole pfn → pfn < mbi.totalPages → mbi.Frees pfn →
        Reserved kernStart kernEnd mbi.totalPages pfn := by
  constructor
  · intro h pfn hole hpfn hfrees
    by_contra hres
    exact not_mapsAllocations hs he halign hole hpfn hfrees hres h
  · intro h calls hordinary hdisciplined
    have hsane := @sane_pmmInit kernStart kernEnd mbi mem hs he halign
    have hfirst : ∀ pfn < mbi.totalPages,
        bitmapTest (pmmInit mbi kernStart kernEnd mem) pfn = false → ¬ InHole pfn := by
      intro pfn hpfn hclear hole
      obtain ⟨hfrees, hres⟩ := (pmmInit_clear_of_lt hs he halign hpfn).mp hclear
      exact hres (h pfn hole hpfn hfrees)
    have htraced : Traced kernStart kernEnd mbi.totalPages (pmmInit mbi kernStart kernEnd mem)
        ⟨pmmInit mbi kernStart kernEnd mem, []⟩ :=
      ⟨hsane, ⟨List.Pairwise.nil, by simp, by simp⟩, fun _ _ hclear => hclear, by simp⟩
    refine ((Run.everyStep_of_forall hordinary).and hdisciplined).mono
      (I := Traced kernStart kernEnd mbi.totalPages (pmmInit mbi kernStart kernEnd mem)) ?_ htraced
    rintro l c _ ht ⟨⟩ ⟨ho, hd⟩
    exact ⟨ht.call hsane ho hd, ht.returnsMapped hfirst⟩

/-- One MiB of RAM lies below the hole. -/
theorem mapsAllocations_oneRegion : MapsAllocations (oneRegion 0x100000 0x100000) 0x100000 0x101000
    (fun _ => 0) ⟨⟨fun _ => 0, 0, 0, 0⟩, fun _ => 0, fun _ => false⟩ := by
  refine (mapsAllocations_iff (by decide) (by decide) (by decide)).mpr ?_
  intro pfn hole hpfn
  rw [oneRegion_totalPages] at hpfn
  unfold InHole at hole
  omega

/-- A machine with 512 MiB of RAM hands out page 0x10000, at 256 MiB. -/
theorem not_mapsAllocations_halfGiB :
    ¬ ∀ (mbi : MultibootInfo) (kernStart kernEnd : Nat) (mem : Mem) (v : Vm), kernStart < 2 ^ 32 →
      kernEnd < 2 ^ 32 → kernEnd % pageSize = 0 → MapsAllocations mbi kernStart kernEnd mem v := by
  intro h
  have htotal : (oneRegion 0x100000 0x1FF00000).totalPages = 0x20000 := by
    simp only [MultibootInfo.totalPages, MultibootInfo.memBytes, oneRegion_entries]
    decide
  have hmmap : (oneRegion 0x100000 0x1FF00000).hasMmap = true := rfl
  have hfrees : (oneRegion 0x100000 0x1FF00000).Frees 0x10000 := by
    rw [MultibootInfo.Frees, if_pos hmmap, oneRegion_entries]
    exact ⟨_, List.mem_singleton_self _, rfl, by decide, by decide⟩
  have hs : 0x100000 < 2 ^ 32 := by decide
  have he : 0x101000 < 2 ^ 32 := by decide
  have halign : 0x101000 % pageSize = 0 := by decide
  refine not_mapsAllocations hs he halign ⟨Nat.le_refl 0x10000, by decide⟩ (by rw [htotal]; decide)
    hfrees ?_ (h _ _ _ (fun _ => 0) ⟨⟨fun _ => 0, 0, 0, 0⟩, fun _ => 0, fun _ => false⟩ hs he halign)
  rw [htotal]
  have hbytes : bitmapBytes 0x20000 = 0x4000 := by decide
  simp only [Reserved, Overlaps, hbytes, pageSize]
  omega

end PinguinOS.Mm
