import PinguinOS.Mm.PmmRun

/-! The search of `pmm_alloc_pages`: it finds the lowest run of free pages. -/
namespace PinguinOS.Mm

/-- `[s, s + n)` is a run of clear bits inside `[1, total_pages)`. -/
def FreeRun (p : Pmm) (n s : Nat) : Prop :=
  0 < s ∧ s + n ≤ p.totalPages ∧ ∀ j, s ≤ j → j < s + n → bitmapTest p j = false

def LowestRun (p : Pmm) (n s : Nat) : Prop := FreeRun p n s ∧ ∀ s', FreeRun p n s' → s ≤ s'

/-- No page of the run holds a word of the bitmap itself. -/
def BitmapApart (p : Pmm) (n s : Nat) : Prop :=
  ∀ j < p.totalPages, bitmapWord p j / 1024 < s ∨ s + n ≤ bitmapWord p j / 1024

/-- The result and the state after `pmm_alloc_pages`; its bits, where `A` holds of the run. -/
structure FindsRun (A : Nat → Prop) (p : Pmm) (n : Nat) : Prop where
  found : (pmmAllocPages p n).1 ≠ 0 ↔ ∃ s, FreeRun p n s
  lowest : ∀ s, LowestRun p n s → (pmmAllocPages p n).1 = s * pageSize
  bits : ∀ s, LowestRun p n s → A s → ∀ j < p.totalPages,
    (bitmapTest (pmmAllocPages p n).2 j = true ↔ (s ≤ j ∧ j < s + n) ∨ bitmapTest p j = true)
  counter : (pmmAllocPages p n).1 ≠ 0 → (pmmAllocPages p n).2.freePages = sub32 p.freePages n
  failed : (pmmAllocPages p n).1 = 0 → (pmmAllocPages p n).2 = p

variable {p : Pmm} {n i k s r s' m : Nat}

theorem LowestRun.unique (h : LowestRun p n s) (h' : LowestRun p n s') : s = s' :=
  Nat.le_antisymm (h.2 s' h'.1) (h'.2 s h.1)

/-- A run starts where the search stands, or behind a page that is not free. -/
theorem findRun_lowest (hn : 0 < n) (hk : k < n)
    (hrun : k = 0 ∨ s + k = i ∧ ∀ j, s ≤ j → j < i → bitmapTest p j = false)
    (hstart : i ≤ s' ∨ 0 < k ∧ s ≤ s') (hin : s' + n ≤ i + m)
    (hfree : ∀ j, s' ≤ j → j < s' + n → bitmapTest p j = false) :
    ∃ r, findRun p n (List.range' i m) s k = some r ∧ r ≤ s' := by
  induction m generalizing i s k with
  | zero => omega
  | succ m ih =>
    rw [List.range'_succ, findRun]
    cases hbit : bitmapTest p i with
    | true =>
      have hbehind : i + 1 ≤ s' := by
        by_contra hle
        have hcovered : bitmapTest p i = false := hfree i (by omega) (by omega)
        rw [hbit] at hcovered
        cases hcovered
      exact ih hn (Or.inl rfl) (Or.inl hbehind) (by omega)
    | false =>
      simp only [Bool.not_false, if_true]
      -- the run that the search has after this page, which may be the one it starts with
      have hrun' : (if k = 0 then i else s) + (k + 1) = i + 1 ∧
          (∀ j, (if k = 0 then i else s) ≤ j → j < i + 1 → bitmapTest p j = false) ∧
          (i + 1 ≤ s' ∨ (if k = 0 then i else s) ≤ s') := by
        split_ifs with hfirst
        · refine ⟨by omega, fun j hlo hhi => ?_, by omega⟩
          rwa [show j = i by omega]
        · obtain ⟨hsum, hall⟩ := hrun.resolve_left hfirst
          refine ⟨by omega, fun j hlo hhi => ?_, by omega⟩
          by_cases hji : j = i
          · rwa [hji]
          · exact hall j hlo (by omega)
      generalize (if k = 0 then i else s) = s₁ at hrun' ⊢
      obtain ⟨hsum, hall, hside⟩ := hrun'
      by_cases hcount : k + 1 = n
      · rw [if_pos hcount]
        exact ⟨s₁, rfl, by omega⟩
      · rw [if_neg hcount]
        refine ih (by omega) (Or.inr ⟨hsum, hall⟩) ?_ (by omega)
        exact hside.imp_right fun hle => ⟨Nat.succ_pos k, hle⟩

/-- The search of `pmm_alloc_page` is the one for a single page. -/
theorem findRun_one {l : List Nat} : findRun p 1 l s 0 = l.find? fun pfn => !bitmapTest p pfn := by
  induction l with
  | nil => rfl
  | cons i l ih =>
    unfold findRun
    cases hbit : bitmapTest p i with
    | true =>
      rw [List.find?_cons_of_neg (by simp [hbit])]
      exact ih
    | false =>
      rw [List.find?_cons_of_pos (by simp [hbit])]
      rfl

theorem pmmAllocPages_findRun (hn : 0 < n) : pmmAllocPages p n =
    match findRun p n (pfnsFromOne p) 0 0 with
    | none => (0, p)
    | some runStart =>
      let q := (List.range' runStart n).foldl (fun p i => (bitmapSet p i).decFree) p
      let addr := pfnToAddr runStart
      (addr, { q with mem := memset q.mem addr 0 (u32 (n * pageSize)) }) := by
  unfold pmmAllocPages
  rw [if_neg (Nat.ne_of_gt hn)]
  split_ifs with hone
  · subst hone
    rw [findRun_one]
    rfl
  · rfl

/-- What the search gives `pmm_alloc_pages`. -/
theorem pmmAllocPages_cases (hp : p.totalPages ≤ 2 ^ 20) (hn : 0 < n) :
    (pmmAllocPages p n = (0, p) ∧ ∀ s, ¬ FreeRun p n s) ∨
      ∃ s, LowestRun p n s ∧ pmmAllocPages p n = (s * pageSize, takePages p s n) := by
  have hcomplete : ∀ s', FreeRun p n s' →
      ∃ r, findRun p n (pfnsFromOne p) 0 0 = some r ∧ r ≤ s' := by
    rintro s' ⟨hpos, hin, hfree⟩
    exact findRun_lowest hn hn (Or.inl rfl) (Or.inl hpos) (by omega) hfree
  rw [pmmAllocPages_findRun hn]
  cases hfind : findRun p n (pfnsFromOne p) 0 0 with
  | none =>
    refine Or.inl ⟨rfl, fun s' hrun => ?_⟩
    obtain ⟨r, hr, -⟩ := hcomplete s' hrun
    rw [hfind] at hr
    cases hr
  | some s =>
    obtain ⟨hpos, hin, hfree⟩ := findRun_some hfind (by decide) (Or.inl rfl)
    have hrange : s + n ≤ p.totalPages := by omega
    refine Or.inr ⟨s, ⟨⟨hpos, hrange, hfree⟩, fun s' hrun => ?_⟩, ?_⟩
    · obtain ⟨r, hr, hle⟩ := hcomplete s' hrun
      rw [hfind] at hr
      exact Option.some.inj hr ▸ hle
    · have hlen : n * pageSize < 2 ^ 32 := by
        simp only [pageSize]
        omega
      dsimp only
      rw [pfnToAddr_eq (by omega), u32_of_lt hlen]
      rfl

/-! The pages taken. -/

theorem zeroPages_apart {q : Pmm} {j : Nat}
    (hout : bitmapWord q j / 1024 < s ∨ s + n ≤ bitmapWord q j / 1024) :
    bitmapTest (zeroPages q s n) j = bitmapTest q j := by
  have hmem : (zeroPages q s n).mem (bitmapWord q j) = q.mem (bitmapWord q j) := by
    refine if_neg ?_
    simp only [pageSize]
    omega
  unfold bitmapTest BitTable.test
  exact congrArg (fun w => BitVec.getLsbD w (j % 32)) hmem

theorem foldl_take_freePages {l : List Nat} (hfree : p.freePages < 2 ^ 32)
    (hlen : l.length < 2 ^ 32) :
    (l.foldl (fun p i => (bitmapSet p i).decFree) p).freePages = sub32 p.freePages l.length := by
  induction l generalizing p with
  | nil =>
    rw [List.foldl_nil, List.length_nil, sub32_of_le (Nat.zero_le _) hfree]
    rfl
  | cons i l ih =>
    rw [List.length_cons] at hlen
    have hdec : (bitmapSet p i).decFree.freePages =
        if p.freePages = 0 then 2 ^ 32 - 1 else p.freePages - 1 := rfl
    rw [List.foldl_cons, ih (by rw [hdec]; split_ifs <;> omega) (by omega), hdec,
      List.length_cons]
    unfold sub32 u32
    split_ifs
    · omega
    · omega

theorem takePages_bits {j : Nat}
    (hout : bitmapWord p j / 1024 < s ∨ s + n ≤ bitmapWord p j / 1024) :
    bitmapTest (takePages p s n) j = true ↔ (s ≤ j ∧ j < s + n) ∨ bitmapTest p j = true := by
  have hplace := foldl_take_samePlace (p := p) (l := List.range' s n)
  have hword : bitmapWord ((List.range' s n).foldl (fun p i => (bitmapSet p i).decFree) p) j =
      bitmapWord p j := by
    unfold bitmapWord
    rw [hplace.2]
  rw [takePages, zeroPages_apart (by rwa [hword]), foldl_take_test, Bool.or_eq_true,
    decide_eq_true_eq, List.mem_range'_1]

/-- For each count, the lowest run of free pages is found and taken. -/
theorem pmmAllocPages_findsRun (hp : p.totalPages ≤ 2 ^ 20) (hfree : p.freePages < 2 ^ 32)
    (hn : 0 < n) : FindsRun (BitmapApart p n) p n := by
  rcases pmmAllocPages_cases hp hn with ⟨hnone, hno⟩ | ⟨s, hs, hsome⟩
  · have hzero : (pmmAllocPages p n).1 = 0 := congrArg Prod.fst hnone
    exact {
      found := iff_of_false (not_not.mpr hzero) fun ⟨s, hrun⟩ => hno s hrun
      lowest := fun s hrun => absurd hrun.1 (hno s)
      bits := fun s hrun => absurd hrun.1 (hno s)
      counter := fun hne => absurd hzero hne
      failed := fun _ => congrArg Prod.snd hnone }
  · obtain ⟨hpos, hrange, hclear⟩ := hs.1
    have hne : s * pageSize ≠ 0 := Nat.mul_ne_zero (Nat.ne_of_gt hpos) (by decide)
    refine ⟨?_, ?_, ?_, ?_, ?_⟩
    · rw [hsome]
      exact iff_of_true hne ⟨s, hs.1⟩
    · intro s' hs'
      rw [hsome, hs.unique hs']
    · intro s' hs' hapart j hj
      obtain rfl := hs.unique hs'
      rw [hsome]
      exact takePages_bits (hapart j hj)
    · intro _
      have hcount := foldl_take_freePages (l := List.range' s n) hfree
        (by rw [List.length_range']; omega)
      rw [List.length_range'] at hcount
      rw [hsome]
      exact hcount
    · intro hzero
      rw [hsome] at hzero
      exact absurd hzero hne

theorem pmmAllocPages_findsRun_two :
    FindsRun (BitmapApart ⟨fun _ => 0, 0x101000, 3, 3⟩ 2) ⟨fun _ => 0, 0x101000, 3, 3⟩ 2 :=
  pmmAllocPages_findsRun (by decide) (by decide) (by decide)

/-- A bitmap with its own page among those it marks free: that page is taken and zeroed. -/
def ownPageFree : Pmm := ⟨fun _ => 0, 0x1000, 3, 3⟩

theorem not_forall_findsRun : ¬ ∀ (p : Pmm) (n : Nat), p.totalPages ≤ 2 ^ 20 →
    p.freePages < 2 ^ 32 → 0 < n → FindsRun (fun _ => True) p n := by
  intro hall
  have hlowest : LowestRun ownPageFree 2 1 := by
    refine ⟨⟨by decide, by decide, fun j hlo hhi => ?_⟩, fun s' hrun => hrun.1⟩
    have hj : j = 1 ∨ j = 2 := by omega
    rcases hj with rfl | rfl
    · decide
    · decide
  have hbit := (hall ownPageFree 2 (by decide) (by decide) (by decide)).bits 1 hlowest trivial 1
    (by decide)
  exact absurd (hbit.mpr (Or.inl (by decide))) (by decide)

/-! From `pmm_init` on the pages of the bitmap are used. -/

variable {kernStart kernEnd totalPages : Nat}

theorem Sane.bitmapApart (h : Sane kernStart kernEnd totalPages p) (hrun : FreeRun p n s) :
    BitmapApart p n s := by
  intro j hj
  by_contra hin
  obtain ⟨hlo, hhi⟩ := not_or.mp hin
  obtain ⟨-, hrange, hfree⟩ := hrun
  have hout := h.not_inBitmap (by omega) (hfree (bitmapWord p j / 1024) (by omega) (by omega))
  have haligned := h.placed.aligned
  have hword := le_bitmapBytes h.placed.total hj
  unfold InBitmap bitmapWord at hout
  simp only [pageSize] at hout haligned
  omega

theorem Sane.findsRun (h : Sane kernStart kernEnd totalPages p) (hn : 0 < n) :
    FindsRun (fun _ => True) p n := by
  have htotal := h.placed.total
  have hcount : p.freePages ≤ p.totalPages := h.accounted ▸ clearCount_le
  have hfinds : FindsRun (BitmapApart p n) p n :=
    pmmAllocPages_findsRun (by omega) (by omega) hn
  exact ⟨hfinds.found, hfinds.lowest, fun s hs _ => hfinds.bits s hs (h.bitmapApart hs.1),
    hfinds.counter, hfinds.failed⟩

end PinguinOS.Mm
