import PinguinOS.Ipc.Elf

/-! What the segments of an ELF file hold after a load that returns 0. -/
namespace PinguinOS.Ipc

open Mm (Vm Process Region TablesOk u32 u32_lt sub32 alignDown alignDown_page pageSize pdePresent)
open Fs (bytesAt word32)

/-- The address of byte `j` of the segment. -/
def ElfPhdr.addr (ph : ElfPhdr) (j : Nat) : Nat := u32 (ph.vaddr + j)

/-- The loader maps the page for the segment. -/
def ElfPhdr.Maps (ph : ElfPhdr) (n : Nat) : Prop :=
  ∃ p, p < ph.pages ∧ ph.pageAddr p / pageSize = n

instance {ph : ElfPhdr} {n : Nat} : Decidable (ph.Maps n) :=
  inferInstanceAs (Decidable (∃ p, p < ph.pages ∧ ph.pageAddr p / pageSize = n))

/-- One of the headers `lo` to `hi` maps the page. -/
def ElfFile.Remaps (f : ElfFile) (lo hi n : Nat) : Prop :=
  ∃ k, k < hi ∧ lo ≤ k ∧ (f.ph k).type = ptLoad ∧ (f.ph k).Maps n

instance {f : ElfFile} {lo hi n : Nat} : Decidable (f.Remaps lo hi n) :=
  inferInstanceAs (Decidable (∃ k, k < hi ∧ lo ≤ k ∧ (f.ph k).type = ptLoad ∧ (f.ph k).Maps n))

/-- Byte `j` of the segment `i`: of the file, and then zeros. -/
def ElfFile.segByte (f : ElfFile) (i j : Nat) : BitVec 8 :=
  if j < (f.ph i).filesz then f.at32 ((f.ph i).offset + j) else 0

/-- What the loader leaves in byte `j`: the data is copied if its wrapped end lies in the file. -/
def ElfFile.leftByte (f : ElfFile) (i j : Nat) : BitVec 8 :=
  if u32 ((f.ph i).offset + (f.ph i).filesz) ≤ f.size then f.segByte i j else 0

/-- The data of the segment `i` lies in the file. -/
def ElfFile.Inside (f : ElfFile) (i : Nat) : Prop :=
  (f.ph i).filesz = 0 ∨ (f.ph i).offset + (f.ph i).filesz ≤ f.size

/-- The segments occupy ranges of their own, which are not mapped. -/
structure SegmentsApart (v : Vm) (f : ElfFile) : Prop where
  filesz : ∀ i < f.ePhnum, (f.ph i).type = ptLoad → (f.ph i).filesz ≤ (f.ph i).memsz
  apart : ∀ i < f.ePhnum, ∀ k < f.ePhnum, (f.ph i).type = ptLoad → (f.ph k).type = ptLoad → i ≠ k →
    ∀ j < (f.ph i).memsz, ∀ l < (f.ph k).memsz, (f.ph i).addr j ≠ (f.ph k).addr l
  unmapped : ∀ i < f.ePhnum, (f.ph i).type = ptLoad → ∀ j < (f.ph i).memsz,
    ¬ v.Grants ((f.ph i).addr j) pdePresent

/-- Every segment is in memory, and the entry point is handed over. -/
structure ElfLoaded (f : ElfFile) (entryOut : Bool) (o : ElfOutcome) : Prop where
  segments : ∀ i < f.ePhnum, (f.ph i).type = ptLoad → ∀ j < (f.ph i).memsz,
    o.run.vm.Shows ((f.ph i).addr j) (f.segByte i j)
  entry : entryOut = true → o.entry = some f.eEntry

/-- A load that returns 0 has loaded every segment, and a file without all of the data is
rejected. -/
def ElfContent (current : Option Process) (v : Vm) (f : ElfFile) (entryOut : Bool) : Prop :=
  (∀ faults, (elf32Load current faults v (some f) entryOut).code = some 0 →
    ElfLoaded f entryOut (elf32Load current faults v (some f) entryOut)) ∧
  ((∃ i < f.ePhnum, (f.ph i).type = ptLoad ∧ ¬ f.Inside i) →
    ∃ faults, ∃ code < 0, (elf32Load current faults v (some f) entryOut).code = some code)

/-- No header maps a page again that holds data of an earlier segment other than zeros. -/
def ElfFile.Unclobbered (f : ElfFile) : Prop :=
  ∀ i < f.ePhnum, (f.ph i).type = ptLoad → ∀ j < (f.ph i).filesz,
    f.at32 ((f.ph i).offset + j) ≠ 0 → ¬ f.Remaps (i + 1) f.ePhnum ((f.ph i).addr j / 4096)

variable {kernStart kernEnd totalPages a b i j k m n p faults dst : Nat} {v : Vm} {f : ElfFile}
  {ph : ElfPhdr} {r r' : ElfRun} {U : Nat → Prop} {byte : Nat → BitVec 8} {x : BitVec 8}
  {current : Option Process} {entryOut : Bool}

@[simp] theorem read_vm {off len : Nat} : (r.read off len).vm = r.vm := rfl

theorem word_lt {off : Nat} : f.word off < 2 ^ 32 := (Bytes.ofBytes _).isLt

theorem pageAddr_page (h : ph.vaddr < 2 ^ 32) :
    ph.pageAddr p / pageSize * 4096 = ph.pageAddr p := by
  unfold ElfPhdr.pageAddr u32
  rw [alignDown_page h]
  simp only [pageSize]
  omega

/-! The page loop. -/

theorem elfMapPages_holds (h : Region kernStart kernEnd totalPages U r.vm)
    (hph : ph.vaddr < 2 ^ 32) (hrun : elfMapPages ph n p r = (.next, r')) :
    Region kernStart kernEnd totalPages U r'.vm ∧ ∀ a x, U (a / 4096) → r.vm.Holds a x →
      ((∃ q, p ≤ q ∧ q < p + n ∧ ph.pageAddr q / pageSize = a / 4096) → r'.vm.Holds a 0) ∧
      ((∀ q, p ≤ q → q < p + n → ph.pageAddr q / pageSize ≠ a / 4096) → r'.vm.Holds a x) := by
  induction n generalizing p r with
  | zero =>
    cases hrun
    refine ⟨h, fun a x _ hholds => ⟨?_, fun _ => hholds⟩⟩
    rintro ⟨q, hlo, hhi, -⟩
    omega
  | succ n ih =>
    unfold elfMapPages at hrun
    dsimp only at hrun
    split at hrun
    case isTrue hnone => cases hrun
    case isFalse hsome =>
      have hpage := @pageAddr_page p ph hph
      have hstep := @Region.mapZero _ _ _ (ph.pageAddr p / pageSize) _ _ U elfFlags h hsome rfl
      rw [hpage] at hstep
      obtain ⟨hregion, hkeep⟩ := hstep
      obtain ⟨hlast, hrest⟩ := ih hregion hrun
      refine ⟨hlast, fun a x hU hholds => ?_⟩
      have hnow := hkeep a x hU hholds
      by_cases hhead : a / 4096 = ph.pageAddr p / pageSize
      · rw [if_pos hhead] at hnow
        obtain ⟨hagain, hnot⟩ := hrest a 0 hU hnow
        refine ⟨fun _ => ?_, fun hno => absurd hhead.symm (hno p (Nat.le_refl p) (by omega))⟩
        by_cases hlater : ∃ q, p + 1 ≤ q ∧ q < p + 1 + n ∧ ph.pageAddr q / pageSize = a / 4096
        · exact hagain hlater
        · exact hnot fun q hlo hhi heq => hlater ⟨q, hlo, hhi, heq⟩
      · rw [if_neg hhead] at hnow
        obtain ⟨hagain, hnot⟩ := hrest a x hU hnow
        refine ⟨?_, fun hno => hnot fun q hlo hhi => hno q (by omega) (by omega)⟩
        rintro ⟨q, hlo, hhi, heq⟩
        have hne : q ≠ p := by
          rintro rfl
          exact hhead heq.symm
        exact hagain ⟨q, by omega, by omega, heq⟩

/-! `memset` and `memcpy` -/

theorem elfWrite_holds (h : Region kernStart kernEnd totalPages U r.vm)
    (hU : ∀ j, i ≤ j → j < i + n → U (u32 (dst + j) / 4096)) (hn : i + n ≤ 2 ^ 32)
    (hrun : elfWrite current faults dst byte n i r = (.next, r')) :
    Region kernStart kernEnd totalPages U r'.vm ∧
      (∀ j, i ≤ j → j < i + n → r'.vm.Holds (u32 (dst + j)) (byte j)) ∧
      ∀ a x, U (a / 4096) → (∀ j, i ≤ j → j < i + n → a ≠ u32 (dst + j)) → r.vm.Holds a x →
        r'.vm.Holds a x := by
  induction n generalizing i r with
  | zero =>
    cases hrun
    exact ⟨h, fun j hlo hhi => absurd hlo (by omega), fun a x _ _ hholds => hholds⟩
  | succ n ih =>
    unfold elfWrite at hrun
    dsimp only at hrun
    split at hrun
    case h_1 => cases hrun
    case h_2 vm hwrite =>
      obtain ⟨hregion, hself, hothers⟩ :=
        h.writeByte u32_lt (hU i (Nat.le_refl i) (by omega)) hwrite
      obtain ⟨hlast, hwritten, hkeep⟩ :=
        ih hregion (fun j hlo hhi => hU j (by omega) (by omega)) (by omega) hrun
      refine ⟨hlast, fun j hlo hhi => ?_, fun a x hUa hne hholds => ?_⟩
      · by_cases hji : j = i
        · subst hji
          refine hkeep _ _ (hU j hlo hhi) (fun l hlo' hhi' heq => ?_) hself
          unfold u32 at heq
          omega
        · exact hwritten j (by omega) (by omega)
      · refine hkeep a x hUa (fun j hlo hhi => hne j (by omega) (by omega)) ?_
        exact hothers a x (hne i (Nat.le_refl i) (by omega)) hUa hholds

theorem addr_inj {l : Nat} (hj : j < 2 ^ 32) (hl : l < 2 ^ 32) (h : ph.addr j = ph.addr l) :
    j = l := by
  unfold ElfPhdr.addr u32 at h
  omega

/-- The data goes over the zeros. -/
theorem elfFill_holds (h : Region kernStart kernEnd totalPages U r.vm)
    (hU : ∀ j < (f.ph i).memsz, U ((f.ph i).addr j / 4096))
    (hsize : (f.ph i).filesz ≤ (f.ph i).memsz)
    (hzero : ∀ j < (f.ph i).memsz, r.vm.Holds ((f.ph i).addr j) 0)
    (hrun : elfFill current faults f i r = (.next, r')) :
    Region kernStart kernEnd totalPages U r'.vm ∧
      (∀ j < (f.ph i).memsz, r'.vm.Holds ((f.ph i).addr j) (f.leftByte i j)) ∧
      ∀ a x, U (a / 4096) → (∀ j < (f.ph i).memsz, a ≠ (f.ph i).addr j) → r.vm.Holds a x →
        r'.vm.Holds a x := by
  have hmemsz : (f.ph i).memsz < 2 ^ 32 := word_lt
  unfold elfFill at hrun
  dsimp only at hrun
  split at hrun
  case isTrue hempty =>
    cases hrun
    refine ⟨h, fun j hj => ?_, fun a x _ _ hholds => hholds⟩
    have hleft : f.leftByte i j = 0 := by
      unfold ElfFile.leftByte ElfFile.segByte
      rw [if_neg (show ¬ j < (f.ph i).filesz by omega), ite_self]
    rw [hleft]
    exact hzero j hj
  case isFalse hdata =>
    split at hrun
    case isFalse hout =>
      cases hrun
      refine ⟨h, fun j hj => ?_, fun a x _ _ hholds => hholds⟩
      have hleft : f.leftByte i j = 0 := if_neg hout
      rw [hleft]
      exact hzero j hj
    case isTrue hin =>
      unfold elfCopy at hrun
      obtain ⟨hlast, hwritten, hkeep⟩ := elfWrite_holds (r := (((r.read (f.phdr i + 16) 4).read
        (f.phdr i + 4) 4).read (f.ph i).offset (f.ph i).filesz)) h
        (fun j _ hj => hU j (by omega)) (by omega) hrun
      refine ⟨hlast, fun j hj => ?_, fun a x hUa hne hholds => ?_⟩
      · have hleft : f.leftByte i j = f.segByte i j := if_pos hin
        rw [hleft]
        unfold ElfFile.segByte
        split
        case isTrue hlt => exact hwritten j (Nat.zero_le j) (by omega)
        case isFalse hge =>
          refine hkeep _ _ (hU j hj) (fun l _ hl heq => ?_) (hzero j hj)
          have hjl := addr_inj (by omega) (by omega) heq
          omega
      · exact hkeep a x hUa (fun j _ hj => hne j (by omega)) hholds

/-- A segment is in memory, and other bytes stay unless their page is mapped for it. -/
theorem elfLoadSegment_holds (h : Region kernStart kernEnd totalPages U r.vm)
    (hU : ∀ j < (f.ph i).memsz, U ((f.ph i).addr j / 4096))
    (hsize : (f.ph i).filesz ≤ (f.ph i).memsz)
    (hrun : elfLoadSegment current faults f i r = (.next, r')) :
    Region kernStart kernEnd totalPages U r'.vm ∧
      (∀ j < (f.ph i).memsz, r'.vm.Holds ((f.ph i).addr j) (f.leftByte i j)) ∧
      ∀ a x, U (a / 4096) → (∀ j < (f.ph i).memsz, a ≠ (f.ph i).addr j) → r.vm.Holds a x →
        r'.vm.Holds a (if (f.ph i).Maps (a / 4096) then 0 else x) := by
  have hmemsz : (f.ph i).memsz < 2 ^ 32 := word_lt
  have hvaddr : (f.ph i).vaddr < 2 ^ 32 := word_lt
  unfold elfLoadSegment at hrun
  obtain ⟨r₁, hmap, hrun⟩ := andThen_next hrun
  obtain ⟨r₂, hclear, hfill⟩ := andThen_next hrun
  obtain ⟨hregion, hpages⟩ := elfMapPages_holds (r := (r.read (f.phdr i + 8) 4).read
    (f.phdr i + 20) 4) h hvaddr hmap
  unfold elfClear at hclear
  obtain ⟨hcleared, hzero, hkeep⟩ := elfWrite_holds hregion
    (fun j _ hj => hU j (by omega)) (by omega) hclear
  obtain ⟨hlast, hleft, hkeep'⟩ := elfFill_holds hcleared hU hsize
    (fun j hj => hzero j (Nat.zero_le j) (by omega)) hfill
  refine ⟨hlast, hleft, fun a x hUa hne hholds => hkeep' a _ hUa hne ?_⟩
  refine hkeep a _ hUa (fun j _ hj => hne j (by omega)) ?_
  obtain ⟨hagain, hnot⟩ := hpages a x hUa hholds
  split
  case isTrue hmaps =>
    obtain ⟨q, hq, heq⟩ := hmaps
    exact hagain ⟨q, Nat.zero_le q, by omega, heq⟩
  case isFalse hno => exact hnot fun q _ hq heq => hno ⟨q, by omega, heq⟩
/-! The loop over the headers. -/

theorem remaps_succ (h : i < m) : f.Remaps i m n ↔
    ((f.ph i).type = ptLoad ∧ (f.ph i).Maps n) ∨ f.Remaps (i + 1) m n := by
  constructor
  · rintro ⟨k, hk, hik, hload, hmaps⟩
    by_cases hki : k = i
    · subst hki
      exact Or.inl ⟨hload, hmaps⟩
    · exact Or.inr ⟨k, hk, by omega, hload, hmaps⟩
  · rintro (⟨hload, hmaps⟩ | ⟨k, hk, hik, hload, hmaps⟩)
    · exact ⟨i, h, Nat.le_refl i, hload, hmaps⟩
    · exact ⟨k, hk, by omega, hload, hmaps⟩

/-- After the headers `i` to `i + n`: their segments, and what they leave of other bytes. -/
structure HeadersHold (U : Nat → Prop) (f : ElfFile) (i n : Nat) (v v' : Vm) : Prop where
  others : ∀ a x, U (a / 4096) → (∀ k, i ≤ k → k < i + n → (f.ph k).type = ptLoad →
    ∀ j < (f.ph k).memsz, a ≠ (f.ph k).addr j) → v.Holds a x →
    v'.Holds a (if f.Remaps i (i + n) (a / 4096) then 0 else x)
  segments : ∀ k, i ≤ k → k < i + n → (f.ph k).type = ptLoad → ∀ j < (f.ph k).memsz,
    v'.Holds ((f.ph k).addr j)
      (if f.Remaps (k + 1) (i + n) ((f.ph k).addr j / 4096) then 0 else f.leftByte k j)

/-- A header of another type. -/
theorem HeadersHold.skip {v v' : Vm} (h : HeadersHold U f (i + 1) n v v')
    (htype : (f.ph i).type ≠ ptLoad) : HeadersHold U f i (n + 1) v v' := by
  have hend : i + 1 + n = i + (n + 1) := by omega
  obtain ⟨hothers, hsegments⟩ := h
  rw [hend] at hothers hsegments
  refine ⟨fun a x hU hne hholds => ?_, fun k hlo hhi hload j hj => ?_⟩
  · have hnow := hothers a x hU (fun k hlo hhi => hne k (by omega) hhi) hholds
    have hsame : f.Remaps i (i + (n + 1)) (a / 4096) ↔
        f.Remaps (i + 1) (i + (n + 1)) (a / 4096) := by
      rw [remaps_succ (by omega), or_iff_right fun hboth => htype hboth.1]
    simp only [hsame]
    exact hnow
  · have hki : k ≠ i := by
      rintro rfl
      exact htype hload
    exact hsegments k (by omega) hhi hload j hj

/-- A segment, and the headers after it. -/
theorem HeadersHold.load {v u v' : Vm} (h : HeadersHold U f (i + 1) n u v')
    (hload : (f.ph i).type = ptLoad) (hU : ∀ j < (f.ph i).memsz, U ((f.ph i).addr j / 4096))
    (hapart : ∀ k, i < k → k < i + (n + 1) → (f.ph k).type = ptLoad →
      ∀ j < (f.ph i).memsz, ∀ l < (f.ph k).memsz, (f.ph i).addr j ≠ (f.ph k).addr l)
    (hleft : ∀ j < (f.ph i).memsz, u.Holds ((f.ph i).addr j) (f.leftByte i j))
    (hkeep : ∀ a x, U (a / 4096) → (∀ j < (f.ph i).memsz, a ≠ (f.ph i).addr j) → v.Holds a x →
      u.Holds a (if (f.ph i).Maps (a / 4096) then 0 else x)) :
    HeadersHold U f i (n + 1) v v' := by
  have hend : i + 1 + n = i + (n + 1) := by omega
  obtain ⟨hothers, hsegments⟩ := h
  rw [hend] at hothers hsegments
  refine ⟨fun a x hUa hne hholds => ?_, fun k hlo hhi hk j hj => ?_⟩
  · have hfirst := hkeep a x hUa (hne i (Nat.le_refl i) (by omega) hload) hholds
    have hnow := hothers a _ hUa (fun k hlo hhi => hne k (by omega) hhi) hfirst
    have hsplit : f.Remaps i (i + (n + 1)) (a / 4096) ↔
        (f.ph i).Maps (a / 4096) ∨ f.Remaps (i + 1) (i + (n + 1)) (a / 4096) := by
      rw [remaps_succ (by omega), and_iff_right hload]
    by_cases hlater : f.Remaps (i + 1) (i + (n + 1)) (a / 4096)
    · rw [if_pos hlater] at hnow
      rw [if_pos (hsplit.mpr (Or.inr hlater))]
      exact hnow
    · rw [if_neg hlater] at hnow
      simp only [hsplit, or_iff_left hlater]
      exact hnow
  · by_cases hki : k = i
    · subst hki
      refine hothers _ _ (hU j hj) (fun l hlo' hhi' hl m hm => ?_) (hleft j hj)
      exact hapart l (by omega) hhi' hl j hj m hm
    · exact hsegments k (by omega) hhi hk j hj

theorem elfLoadHeaders_holds (h : Region kernStart kernEnd totalPages U r.vm)
    (hU : ∀ k, i ≤ k → k < i + n → (f.ph k).type = ptLoad → ∀ j < (f.ph k).memsz,
      U ((f.ph k).addr j / 4096))
    (hsize : ∀ k, i ≤ k → k < i + n → (f.ph k).type = ptLoad → (f.ph k).filesz ≤ (f.ph k).memsz)
    (hapart : ∀ k l, i ≤ k → k < l → l < i + n → (f.ph k).type = ptLoad → (f.ph l).type = ptLoad →
      ∀ j < (f.ph k).memsz, ∀ m < (f.ph l).memsz, (f.ph k).addr j ≠ (f.ph l).addr m)
    (hrun : elfLoadHeaders current faults f n i r = (.next, r')) :
    Region kernStart kernEnd totalPages U r'.vm ∧ HeadersHold U f i n r.vm r'.vm := by
  induction n generalizing i r with
  | zero =>
    cases hrun
    refine ⟨h, fun a x _ _ hholds => ?_, fun k hlo hhi => absurd hlo (by omega)⟩
    rw [if_neg]
    · exact hholds
    · rintro ⟨k, hk, hik, -⟩
      omega
  | succ n ih =>
    unfold elfLoadHeaders at hrun
    dsimp only at hrun
    have hrest := fun (r : ElfRun) (hr : Region kernStart kernEnd totalPages U r.vm)
        (hgo : elfLoadHeaders current faults f n (i + 1) r = (.next, r')) => ih hr
      (fun k hlo hhi => hU k (by omega) (by omega)) (fun k hlo hhi => hsize k (by omega) (by omega))
      (fun k l hlo hkl hhi => hapart k l (by omega) hkl (by omega)) hgo
    split at hrun
    case isTrue htype =>
      obtain ⟨hlast, hhold⟩ := hrest (r.read (f.phdr i) 4) h hrun
      exact ⟨hlast, hhold.skip htype⟩
    case isFalse htype =>
      have hload := not_not.mp htype
      have hUi := hU i (Nat.le_refl i) (by omega) hload
      obtain ⟨r₁, hsegment, hgo⟩ := andThen_next hrun
      obtain ⟨hregion, hleft, hkeep⟩ := elfLoadSegment_holds (r := r.read (f.phdr i) 4) h hUi
        (hsize i (Nat.le_refl i) (by omega) hload) hsegment
      obtain ⟨hlast, hhold⟩ := hrest r₁ hregion hgo
      refine ⟨hlast, hhold.load hload hUi (fun k hlo hhi hk => ?_) hleft hkeep⟩
      exact hapart i k (Nat.le_refl i) hlo hhi hload hk
/-! A load that returns 0. -/

/-- The checks of the header refuse the file. -/
def ElfFile.Rejected (f : ElfFile) : Prop :=
  f.size < elfHeaderSize ∨ bytesAt f.at32 0 4 ≠ elfMagic ∨ f.eType ≠ etExec ∨ f.eMachine ≠ em386

theorem checkHeader_rejected (h : ¬ f.size < elfHeaderSize) (hrej : f.Rejected) :
    ∃ code < 0, ∃ r', elfCheckHeader f r = (.returns code, r') := by
  unfold elfCheckHeader
  dsimp only
  by_cases hmagic : bytesAt f.at32 0 4 ≠ elfMagic
  · rw [if_pos hmagic]
    exact ⟨-2, by decide, _, rfl⟩
  rw [if_neg hmagic]
  by_cases htype : f.eType ≠ etExec
  · rw [if_pos htype]
    exact ⟨-3, by decide, _, rfl⟩
  rw [if_neg htype]
  by_cases hmachine : f.eMachine ≠ em386
  · rw [if_pos hmachine]
    exact ⟨-4, by decide, _, rfl⟩
  · rcases hrej with hsize | hbad | hbad | hbad
    · exact absurd hsize h
    · exact absurd hbad hmagic
    · exact absurd hbad htype
    · exact absurd hbad hmachine

theorem checkHeader_passed (hrej : ¬ f.Rejected) : elfCheckHeader f r =
    (.next, (((((r.read 0 4).read 16 2).read 18 2).read 28 4).read 44 2)) := by
  unfold ElfFile.Rejected at hrej
  simp only [not_or] at hrej
  unfold elfCheckHeader
  dsimp only
  rw [if_neg hrej.2.1, if_neg hrej.2.2.1, if_neg hrej.2.2.2]

/-- A file that the header checks refuse. -/
theorem elf32Load_rejected (hrej : f.Rejected) :
    ∃ code < 0, (elf32Load current faults v (some f) entryOut).code = some code := by
  unfold elf32Load
  dsimp only
  by_cases hsize : f.size < elfHeaderSize
  · rw [if_pos hsize]
    exact ⟨-1, by decide, rfl⟩
  · rw [if_neg hsize]
    obtain ⟨code, hneg, r', hcheck⟩ := @checkHeader_rejected f ⟨v, []⟩ hsize hrej
    rw [hcheck]
    exact ⟨code, hneg, rfl⟩

/-- The run that has passed the header checks. -/
def headerRun (v : Vm) : ElfRun :=
  ((((ElfRun.read ⟨v, []⟩ 0 4).read 16 2).read 18 2).read 28 4).read 44 2

theorem elf32Load_passed (hrej : ¬ f.Rejected) : elf32Load current faults v (some f) entryOut =
    .of f entryOut (elfLoadHeaders current faults f f.ePhnum 0 (headerRun v)) := by
  have hsize : ¬ f.size < elfHeaderSize := fun hlt => hrej (Or.inl hlt)
  unfold elf32Load
  dsimp only
  rw [if_neg hsize, checkHeader_passed hrej]
  rfl

theorem code_of_next {step : ElfEnd × ElfRun}
    (h : (ElfOutcome.of f entryOut step).code = some 0) (hstep : step.1 ≠ .returns 0) :
    ∃ r, step = (.next, r) := by
  obtain ⟨e, r⟩ := step
  cases e with
  | next => exact ⟨r, rfl⟩
  | returns code =>
    cases h
    exact absurd rfl hstep
  | stuck => cases h

/-- No error is 0. -/
theorem elfMapPages_end : (elfMapPages ph n p r).1 = .next ∨
    (elfMapPages ph n p r).1 = .returns (-5) := by
  induction n generalizing p r with
  | zero => exact Or.inl rfl
  | succ n ih =>
    unfold elfMapPages
    dsimp only
    split
    case isTrue => exact Or.inr rfl
    case isFalse => exact ih

theorem elfWrite_end : (elfWrite current faults dst byte n i r).1 = .next ∨
    (elfWrite current faults dst byte n i r).1 = .stuck := by
  induction n generalizing i r with
  | zero => exact Or.inl rfl
  | succ n ih =>
    unfold elfWrite
    dsimp only
    split
    case h_1 => exact Or.inr rfl
    case h_2 => exact ih
/-- A step goes on, is stuck, or returns -5. -/
def Ends (step : ElfEnd × ElfRun) : Prop :=
  step.1 = .next ∨ step.1 = .stuck ∨ step.1 = .returns (-5)

theorem Ends.andThen {step : ElfEnd × ElfRun} {k : ElfRun → ElfEnd × ElfRun} (h : Ends step)
    (hk : ∀ r, Ends (k r)) : Ends (PinguinOS.Ipc.andThen step k) := by
  obtain ⟨e, r⟩ := step
  cases e with
  | next => exact hk r
  | returns code => exact h
  | stuck => exact h

theorem ends_write : Ends (elfWrite current faults dst byte n i r) :=
  elfWrite_end.imp_right Or.inl

theorem ends_fill : Ends (elfFill current faults f i r) := by
  unfold elfFill
  dsimp only
  split
  case isTrue => exact Or.inl rfl
  case isFalse =>
    split
    case isTrue => exact ends_write
    case isFalse => exact Or.inl rfl

theorem ends_segment : Ends (elfLoadSegment current faults f i r) := by
  have hmap := @elfMapPages_end (f.ph i).pages 0 (f.ph i)
    ((r.read (f.phdr i + 8) 4).read (f.phdr i + 20) 4)
  exact Ends.andThen (hmap.imp_right Or.inr) fun _ => ends_write.andThen fun _ => ends_fill

theorem ends_headers : Ends (elfLoadHeaders current faults f n i r) := by
  induction n generalizing i r with
  | zero => exact Or.inl rfl
  | succ n ih =>
    unfold elfLoadHeaders
    dsimp only
    split
    case isTrue => exact ih
    case isFalse => exact ends_segment.andThen fun _ => ih

theorem elfLoadHeaders_of_code (hrej : ¬ f.Rejected)
    (hcode : (elf32Load current faults v (some f) entryOut).code = some 0) :
    ∃ r, elfLoadHeaders current faults f f.ePhnum 0 (headerRun v) = (.next, r) := by
  rw [elf32Load_passed hrej] at hcode
  refine code_of_next hcode fun hzero => ?_
  rcases @ends_headers 0 f.ePhnum faults f (headerRun v) current with hnext | hstuck | hfail
  · rw [hnext] at hzero
    cases hzero
  · rw [hstuck] at hzero
    cases hzero
  · rw [hfail] at hzero
    exact absurd (ElfEnd.returns.inj hzero) (by decide)

theorem ElfFile.Inside.leftByte (h : f.Inside i) : f.leftByte i j = f.segByte i j := by
  unfold ElfFile.leftByte ElfFile.segByte
  have hsize := f.size_lt
  rcases h with hempty | hin
  · rw [hempty, if_neg (Nat.not_lt_zero j), ite_self]
  · rw [if_pos]
    rw [Mm.u32_of_lt (by omega)]
    exact hin

/-- A load that returns 0 has loaded the segments exactly when none is mapped over. -/
theorem elfLoaded_iff (h : TablesOk kernStart kernEnd totalPages v) (hs : SegmentsApart v f)
    (hrej : ¬ f.Rejected) (hin : ∀ i < f.ePhnum, (f.ph i).type = ptLoad → f.Inside i)
    (hcode : (elf32Load current faults v (some f) entryOut).code = some 0) :
    ElfLoaded f entryOut (elf32Load current faults v (some f) entryOut) ↔ f.Unclobbered := by
  obtain ⟨r, hrun⟩ := elfLoadHeaders_of_code hrej hcode
  have hU : ∀ k < f.ePhnum, (f.ph k).type = ptLoad → ∀ j < (f.ph k).memsz,
      ¬ v.Grants ((f.ph k).addr j / 4096 * 4096) pdePresent := by
    intro k hk hload j hj
    rw [Mm.grants_samePage (Nat.mul_div_cancel _ (by decide))]
    exact hs.unmapped k hk hload j hj
  have hregion : Region kernStart kernEnd totalPages
      (fun n => ¬ v.Grants (n * 4096) pdePresent) (headerRun v).vm := h.region fun _ hn => hn
  obtain ⟨hlast, hhold⟩ := elfLoadHeaders_holds hregion
    (fun k _ hk => hU k (by omega)) (fun k _ hk => hs.filesz k (by omega))
    (fun k l _ hkl hl hk' hl' => hs.apart k (by omega) l (by omega) hk' hl' (by omega)) hrun
  have hsegments := hhold.segments
  rw [Nat.zero_add] at hsegments
  have hshows : ∀ k < f.ePhnum, (f.ph k).type = ptLoad → ∀ j < (f.ph k).memsz,
      (r.vm.Shows ((f.ph k).addr j) (f.segByte k j) ↔
        (f.Remaps (k + 1) f.ePhnum ((f.ph k).addr j / 4096) → f.segByte k j = 0)) := by
    intro k hk hload j hj
    have hnow := hsegments k (Nat.zero_le k) hk hload j hj
    rw [(hin k hk hload).leftByte] at hnow
    rw [hlast.shows_iff (hU k hk hload j hj)]
    constructor
    · intro hholds hmaps
      rw [if_pos hmaps] at hnow
      exact hholds.unique hnow
    · intro hzero
      split at hnow
      case isTrue hmaps =>
        rw [hzero hmaps]
        exact hnow
      case isFalse => exact hnow
  rw [elf32Load_passed hrej, hrun]
  constructor
  · intro hloaded i hi hload j hj hdata hmaps
    have hle := hs.filesz i hi hload
    have hzero := (hshows i hi hload j (by omega)).mp (hloaded.segments i hi hload j (by omega))
      hmaps
    unfold ElfFile.segByte at hzero
    rw [if_pos hj] at hzero
    exact hdata hzero
  · intro hclear
    refine ⟨fun i hi hload j hj => (hshows i hi hload j hj).mpr fun hmaps => ?_, fun hout => ?_⟩
    · unfold ElfFile.segByte
      split
      case isTrue hlt =>
        by_contra hdata
        exact hclear i hi hload j hlt hdata hmaps
      case isFalse => rfl
    · unfold ElfOutcome.of
      dsimp only
      rw [if_pos hout]
/-- A file that is refused, or one with all of its data and no data mapped over. -/
def ElfFile.Loads (f : ElfFile) : Prop :=
  f.Rejected ∨ (∀ i < f.ePhnum, (f.ph i).type = ptLoad → f.Inside i) ∧ f.Unclobbered

/-- A file with `n` headers of two, for one byte at 0x40000000 and one at 0x40000010. -/
def byteSegments (n : BitVec 8) : ElfFile where
  data off := (([(0, 0x7F), (1, 0x45), (2, 0x4C), (3, 0x46), (16, 2), (18, 3), (27, 0x40), (28, 52),
    (44, n), (52, 1), (63, 0x40), (68, 1), (72, 1), (84, 1), (88, 1), (92, 0x10), (95, 0x40),
    (100, 1), (104, 1)] : List (Nat × BitVec 8)).lookup off).getD 0
  size := 116
  size_lt := by decide

theorem segmentsApart_byteSegments (n : BitVec 8) (hn : n = 1 ∨ n = 2) :
    SegmentsApart (Mm.smallVm fun _ => false) (byteSegments n) := by
  have hph : (byteSegments n).ePhnum ≤ 2 ∧ (byteSegments n).ph 0 = ⟨1, 0, 0x40000000, 1, 1⟩ ∧
      (byteSegments n).ph 1 = ⟨1, 1, 0x40000010, 1, 1⟩ := by
    rcases hn with rfl | rfl
    · decide +kernel
    · decide +kernel
  obtain ⟨hcount, hph⟩ := hph
  have hcases : ∀ i < (byteSegments n).ePhnum, i = 0 ∨ i = 1 := fun i hi => by omega
  refine ⟨fun i hi _ => ?_, fun i hi k hk _ _ hne j hj l hl => ?_, fun i hi _ j hj => ?_⟩
  · rcases hcases i hi with rfl | rfl
    · rw [hph.1]
    · rw [hph.2]
  · rcases hcases i hi with rfl | rfl
    · rcases hcases k hk with rfl | rfl
      · exact absurd rfl hne
      · rw [hph.1] at hj
        rw [hph.2] at hl
        rw [hph.1, hph.2, Nat.lt_one_iff.mp hj, Nat.lt_one_iff.mp hl]
        decide
    · rcases hcases k hk with rfl | rfl
      · rw [hph.2] at hj
        rw [hph.1] at hl
        rw [hph.1, hph.2, Nat.lt_one_iff.mp hj, Nat.lt_one_iff.mp hl]
        decide
      · exact absurd rfl hne
  · rw [Mm.smallVm_eq]
    rcases hcases i hi with rfl | rfl
    · rw [hph.1] at hj ⊢
      rw [Nat.lt_one_iff.mp hj]
      decide +kernel
    · rw [hph.2] at hj ⊢
      rw [Nat.lt_one_iff.mp hj]
      decide +kernel

end PinguinOS.Ipc
