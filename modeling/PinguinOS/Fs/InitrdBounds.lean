import PinguinOS.Fs.Initrd

/-! What `initrd_init` reads of any module, and what its file table points to. -/
namespace PinguinOS.Fs

open Mm (Mem u32 u32_lt u32_of_lt)

/-- The bytes that `strncpy(dateien[i].name, p, INITRD_NAME_LEN - 1)` reads: up to the terminator. -/
def nameReads (m : Mem) (p : Nat) : Nat :=
  min (initrdNameLen - 1) ((initrdName m p).length + 1)

/-- `n` bytes from `p` on, by their 32-bit addresses. -/
def addrs (p n : Nat) : List Nat := (List.range n).map fun i => u32 (p + i)

/-- The loop of `initrd_init`: the entries it makes, and the addresses in the module it reads. -/
def initrdScan (m : Mem) (ende : Nat) : (anzahl p : Nat) → List InitrdDatei × List Nat
  | 0, _ => ([], [])
  | anzahl + 1, p =>
    if u32 (p + initrdNameLen + 4) ≤ ende then
      let name := initrdName m p
      let reads := addrs p (nameReads m p) ++ addrs (p + initrdNameLen) 4
      let p := u32 (p + initrdNameLen)
      let groesse := Bytes.readPtr m p
      let p := u32 (p + 4)
      if u32 (p + groesse) > ende then ([], reads)
      else
        let (dateien, more) := initrdScan m ende anzahl (u32 (p + groesse))
        (⟨name, p, groesse⟩ :: dateien, reads ++ more)
    else ([], [])

/-- `initrd_init` on the module `[modStart, modEnd)`. -/
def initrdModule (m : Mem) (modStart modEnd : Nat) : List InitrdDatei × List Nat :=
  if modEnd ≤ u32 (modStart + 8) then ([], [])
  else
    let magic := Bytes.readPtr m modStart
    let anzahl := Bytes.readPtr m (u32 (modStart + 4))
    let reads := addrs modStart 8
    if magic ≠ initrdMagic then ([], reads)
    else
      let (dateien, more) := initrdScan m modEnd (min anzahl initrdMaxFiles) (u32 (modStart + 8))
      (dateien, reads ++ more)

/-- The reads and the data of all entries are in the module; there are 64 entries at most, and each
name has a terminator. -/
structure InitrdBounded (m : Mem) (modStart modEnd : Nat) : Prop where
  reads : ∀ a ∈ (initrdModule m modStart modEnd).2, modStart ≤ a ∧ a < modEnd
  count : (initrdModule m modStart modEnd).1.length ≤ initrdMaxFiles
  names : ∀ d ∈ (initrdModule m modStart modEnd).1, 0 ∉ d.name ∧ d.name.length < initrdNameLen
  data : ∀ d ∈ (initrdModule m modStart modEnd).1,
    modStart ≤ d.daten ∧ d.daten + d.groesse ≤ modEnd

/-- The header at `p` does not wrap, or only in the part of its name that is not read. -/
def HeaderFits (m : Mem) (modStart ende p : Nat) : Prop :=
  p + 68 < 2 ^ 32 ∨ modStart + 2 ^ 32 ≤ p + 64 ∧ p + nameReads m p ≤ ende

/-- No size of the records from `p` on wraps, as far as they are read. -/
def RecordsFit (m : Mem) (modStart ende : Nat) : (anzahl p : Nat) → Prop
  | 0, _ => True
  | anzahl + 1, p => u32 (p + 68) ≤ ende → HeaderFits m modStart ende p ∧
    u32 (p + 68) + Bytes.readPtr m (u32 (p + 64)) < 2 ^ 32 ∧
      (u32 (p + 68) + Bytes.readPtr m (u32 (p + 64)) ≤ ende →
        RecordsFit m modStart ende anzahl (u32 (p + 68) + Bytes.readPtr m (u32 (p + 64))))

/-- The module is refused for its size, or its header does not wrap and neither do its records. -/
def ModuleFits (m : Mem) (modStart modEnd : Nat) : Prop :=
  modEnd ≤ u32 (modStart + 8) ∨ modStart + 8 < 2 ^ 32 ∧
    (Bytes.readPtr m modStart = initrdMagic → RecordsFit m modStart modEnd
      (min (Bytes.readPtr m (modStart + 4)) initrdMaxFiles) (modStart + 8))

variable {m : Mem} {modStart modEnd modsAddr ende anzahl n p a : Nat} {d : InitrdDatei}

theorem initrdScan_files : (initrdScan m ende anzahl p).1 = initrdFiles m ende anzahl p := by
  induction anzahl generalizing p with
  | zero => rfl
  | succ anzahl ih =>
    unfold initrdScan initrdFiles
    split
    · dsimp only
      split
      · rfl
      · exact congrArg _ ih
    · rfl

/-- The entries are those of `initrd_init` for a module descriptor. -/
theorem initrdInit_module (hmods : modsAddr ≠ 0) : initrdInit m modsAddr =
    (initrdModule m (Bytes.readPtr m modsAddr) (Bytes.readPtr m (u32 (modsAddr + 4)))).1 := by
  unfold initrdInit initrdModule
  rw [if_neg hmods]
  dsimp only
  split
  · rfl
  · split
    · rfl
    · exact initrdScan_files.symm

theorem mem_addrs : a ∈ addrs p n ↔ ∃ i < n, a = u32 (p + i) := by
  unfold addrs
  constructor
  · intro h
    obtain ⟨i, hi, rfl⟩ := List.mem_map.mp h
    exact ⟨i, List.mem_range.mp hi, rfl⟩
  · rintro ⟨i, hi, rfl⟩
    exact List.mem_map.mpr ⟨i, List.mem_range.mpr hi, rfl⟩

/-- Addresses that do not wrap. -/
theorem addrs_inside (hlo : modStart ≤ p) (hhi : p + n ≤ ende) (hende : ende < 2 ^ 32) :
    ∀ a ∈ addrs p n, modStart ≤ a ∧ a < ende := by
  intro a ha
  obtain ⟨i, hi, rfl⟩ := mem_addrs.mp ha
  rw [u32_of_lt (by omega)]
  omega

theorem initrdName_spec : 0 ∉ initrdName m p ∧ (initrdName m p).length < initrdNameLen := by
  constructor
  · intro hzero
    exact absurd (List.mem_takeWhile_imp hzero) (by decide)
  · refine Nat.lt_of_le_of_lt (List.takeWhile_prefix _).length_le ?_
    rw [List.length_map, List.length_range]
    decide

theorem nameReads_pos : 0 < nameReads m p ∧ nameReads m p ≤ 63 := by
  unfold nameReads initrdNameLen
  omega

/-- What a scan may do. -/
structure ScanOk (modStart ende : Nat) (r : List InitrdDatei × List Nat) : Prop where
  reads : ∀ a ∈ r.2, modStart ≤ a ∧ a < ende
  data : ∀ d ∈ r.1, modStart ≤ d.daten ∧ d.daten + d.groesse ≤ ende

theorem scan_names (h : d ∈ (initrdScan m ende anzahl p).1) :
    0 ∉ d.name ∧ d.name.length < initrdNameLen := by
  induction anzahl generalizing p with
  | zero => cases h
  | succ anzahl ih =>
    unfold initrdScan at h
    split at h
    · dsimp only at h
      split at h
      · cases h
      · rcases List.mem_cons.mp h with rfl | hrest
        · exact initrdName_spec
        · exact ih hrest
    · cases h

theorem scan_count : (initrdScan m ende anzahl p).1.length ≤ anzahl := by
  induction anzahl generalizing p with
  | zero => exact Nat.le_refl 0
  | succ anzahl ih =>
    unfold initrdScan
    split
    · dsimp only
      split
      · exact Nat.zero_le _
      · exact Nat.succ_le_succ ih
    · exact Nat.zero_le _

/-- The reads of a header are in the module exactly when it fits. -/
theorem header_reads_iff (hlo : modStart ≤ p) (hhi : p ≤ ende) (hende : ende < 2 ^ 32)
    (hroom : u32 (p + 68) ≤ ende) :
    (∀ a ∈ addrs p (nameReads m p) ++ addrs (p + initrdNameLen) 4, modStart ≤ a ∧ a < ende) ↔
      HeaderFits m modStart ende p := by
  obtain ⟨hpos, hshort⟩ := @nameReads_pos m p
  have hlen : initrdNameLen = 64 := rfl
  unfold HeaderFits
  constructor
  · intro h
    by_cases hfits : p + 68 < 2 ^ 32
    · exact Or.inl hfits
    refine Or.inr ⟨?_, ?_⟩
    · -- the first byte of the size, and the last address of all
      have hfirst := h (u32 (p + 64)) (List.mem_append_right _ (mem_addrs.mpr ⟨0, by decide, rfl⟩))
      by_contra hsmall
      by_cases hwraps : p + 64 < 2 ^ 32
      · have hlast := h (u32 (2 ^ 32 - 1)) (List.mem_append_right _
          (mem_addrs.mpr ⟨2 ^ 32 - 1 - (p + 64), by omega, congrArg u32 (by omega)⟩))
        rw [u32_of_lt (by decide)] at hlast
        omega
      · unfold u32 at hfirst
        omega
    · by_contra hlong
      have hlast := h (u32 ende) (List.mem_append_left _
        (mem_addrs.mpr ⟨ende - p, by omega, congrArg u32 (by omega)⟩))
      rw [u32_of_lt hende] at hlast
      omega
  · rintro (hfits | ⟨hwraps, hname⟩) a ha
    · rw [u32_of_lt hfits] at hroom
      rcases List.mem_append.mp ha with ha | ha
      · exact addrs_inside hlo (by omega) hende a ha
      · exact addrs_inside (by omega) (by omega) hende a ha
    · rcases List.mem_append.mp ha with ha | ha
      · exact addrs_inside hlo hname hende a ha
      · obtain ⟨i, hi, rfl⟩ := mem_addrs.mp ha
        unfold u32 at hroom ⊢
        omega

/-- One round of the loop, with its two sums. -/
theorem initrdScan_succ : initrdScan m ende (anzahl + 1) p =
    if u32 (p + 68) ≤ ende then
      if u32 (u32 (p + 68) + Bytes.readPtr m (u32 (p + 64))) > ende then
        ([], addrs p (nameReads m p) ++ addrs (p + initrdNameLen) 4)
      else
        let rest := initrdScan m ende anzahl
          (u32 (u32 (p + 68) + Bytes.readPtr m (u32 (p + 64))))
        (⟨initrdName m p, u32 (p + 68), Bytes.readPtr m (u32 (p + 64))⟩ :: rest.1,
          addrs p (nameReads m p) ++ addrs (p + initrdNameLen) 4 ++ rest.2)
    else ([], []) := by
  have hsum : u32 (u32 (p + initrdNameLen) + 4) = u32 (p + 68) := by
    unfold u32 initrdNameLen
    omega
  rw [initrdScan]
  dsimp only
  rw [hsum]
  rfl

/-- An entry in front of a scan. -/
theorem scanOk_cons {entries : List InitrdDatei} {header reads : List Nat} :
    ScanOk modStart ende (d :: entries, header ++ reads) ↔
      (∀ a ∈ header, modStart ≤ a ∧ a < ende) ∧
        (modStart ≤ d.daten ∧ d.daten + d.groesse ≤ ende) ∧
          ScanOk modStart ende (entries, reads) := by
  constructor
  · rintro ⟨hreads, hdata⟩
    refine ⟨fun a ha => hreads a (List.mem_append_left _ ha), hdata d List.mem_cons_self, ?_, ?_⟩
    · exact fun a ha => hreads a (List.mem_append_right _ ha)
    · exact fun d' hd => hdata d' (List.mem_cons_of_mem _ hd)
  · rintro ⟨hheader, hfirst, hreads, hdata⟩
    constructor
    case reads =>
      intro a ha
      rcases List.mem_append.mp ha with ha | ha
      · exact hheader a ha
      · exact hreads a ha
    case data =>
      intro d' hd
      rcases List.mem_cons.mp hd with rfl | hd
      · exact hfirst
      · exact hdata d' hd

/-- A scan stays in the module exactly when the records that it reads fit. -/
theorem scanOk_iff (hlo : modStart ≤ p) (hhi : p ≤ ende) (hende : ende < 2 ^ 32) :
    ScanOk modStart ende (initrdScan m ende anzahl p) ↔ RecordsFit m modStart ende anzahl p := by
  induction anzahl generalizing p with
  | zero => exact iff_of_true ⟨fun _ h => (nomatch h), fun _ h => (nomatch h)⟩ trivial
  | succ anzahl ih =>
    rw [initrdScan_succ]
    unfold RecordsFit
    by_cases hroom : u32 (p + 68) ≤ ende
    case neg =>
      rw [if_neg hroom]
      exact iff_of_true ⟨fun _ h => (nomatch h), fun _ h => (nomatch h)⟩ fun h => absurd h hroom
    have hheader := @header_reads_iff m modStart ende p hlo hhi hende hroom
    rw [if_pos hroom, forall_prop_of_true hroom]
    -- where the header fits, the data starts in the module
    have hdata : HeaderFits m modStart ende p → modStart ≤ u32 (p + 68) := by
      rintro (hfits | ⟨hwraps, -⟩)
      · rw [u32_of_lt hfits]
        omega
      · unfold u32 at hroom ⊢
        omega
    generalize u32 (p + 68) = q at hroom hdata
    generalize hg : Bytes.readPtr m (u32 (p + 64)) = groesse
    have hgroesse : groesse < 2 ^ 32 := hg ▸ BitVec.isLt _
    by_cases hwrap : q + groesse < 2 ^ 32
    · rw [u32_of_lt hwrap]
      by_cases hin : q + groesse ≤ ende
      · rw [if_neg (Nat.not_lt.mpr hin)]
        dsimp only
        rw [scanOk_cons, hheader]
        constructor
        · rintro ⟨hfits, -, hrest⟩
          have hlow := hdata hfits
          exact ⟨hfits, hwrap, fun _ => (ih (by omega) hin).mp hrest⟩
        · rintro ⟨hfits, -, hrest⟩
          have hlow := hdata hfits
          exact ⟨hfits, ⟨hlow, hin⟩, (ih (by omega) hin).mpr (hrest hin)⟩
      · rw [if_pos (Nat.not_le.mp hin)]
        constructor
        · rintro ⟨hreads, -⟩
          exact ⟨hheader.mp hreads, hwrap, fun h => absurd h hin⟩
        · rintro ⟨hfits, -⟩
          exact ⟨hheader.mpr hfits, fun _ h => (nomatch h)⟩
    · -- the sum comes out below the end, and the entry is made
      have hsmall : u32 (q + groesse) ≤ ende := by
        unfold u32
        omega
      rw [if_neg (Nat.not_lt.mpr hsmall)]
      dsimp only
      refine iff_of_false ?_ fun h => hwrap h.2.1
      rw [scanOk_cons]
      rintro ⟨-, ⟨-, hfirst⟩, -⟩
      dsimp only at hfirst
      omega

theorem scanOk_module_iff (hstart : modStart < 2 ^ 32) (hend : modEnd < 2 ^ 32) :
    ScanOk modStart modEnd (initrdModule m modStart modEnd) ↔ ModuleFits m modStart modEnd := by
  unfold initrdModule ModuleFits
  by_cases hsmall : modEnd ≤ u32 (modStart + 8)
  · rw [if_pos hsmall]
    exact iff_of_true ⟨fun _ h => (nomatch h), fun _ h => (nomatch h)⟩ (Or.inl hsmall)
  rw [if_neg hsmall, or_iff_right hsmall]
  dsimp only
  by_cases hwrap : modStart + 8 < 2 ^ 32
  · have hheader : ∀ a ∈ addrs modStart 8, modStart ≤ a ∧ a < modEnd := by
      rw [u32_of_lt hwrap] at hsmall
      exact addrs_inside (Nat.le_refl _) (by omega) hend
    rw [and_iff_right hwrap, u32_of_lt hwrap, u32_of_lt (by omega : modStart + 4 < 2 ^ 32)]
    rw [u32_of_lt hwrap] at hsmall
    by_cases hmagic : Bytes.readPtr m modStart = initrdMagic
    · rw [if_neg (fun h => h hmagic), forall_prop_of_true hmagic,
        ← scanOk_iff (by omega) (by omega) hend]
      constructor
      · rintro ⟨hreads, hdata⟩
        exact ⟨fun a ha => hreads a (List.mem_append_right _ ha), hdata⟩
      · rintro ⟨hreads, hdata⟩
        refine ⟨fun a ha => ?_, hdata⟩
        rcases List.mem_append.mp ha with ha | ha
        · exact hheader a ha
        · exact hreads a ha
    · rw [if_pos hmagic]
      exact iff_of_true ⟨hheader, fun _ h => (nomatch h)⟩ fun h => absurd h hmagic
  · -- the last address of all is read
    refine iff_of_false ?_ fun h => hwrap h.1
    rintro ⟨hreads, -⟩
    have hmem : u32 (2 ^ 32 - 1) ∈ addrs modStart 8 :=
      mem_addrs.mpr ⟨2 ^ 32 - 1 - modStart, by omega, congrArg u32 (by omega)⟩
    have hlast : u32 (2 ^ 32 - 1) < modEnd := by
      split at hreads
      · exact (hreads _ hmem).2
      · exact (hreads _ (List.mem_append_left _ hmem)).2
    rw [u32_of_lt (by decide)] at hlast
    omega

/-- `initrd_init` stays in the module exactly when the module fits. -/
theorem initrdBounded_iff (hstart : modStart < 2 ^ 32) (hend : modEnd < 2 ^ 32) :
    InitrdBounded m modStart modEnd ↔ ModuleFits m modStart modEnd := by
  have hbounded : InitrdBounded m modStart modEnd ↔
      ScanOk modStart modEnd (initrdModule m modStart modEnd) := by
    refine ⟨fun h => ⟨h.reads, h.data⟩, fun h => ⟨h.reads, ?_, ?_, h.data⟩⟩
    · unfold initrdModule
      split
      · exact Nat.zero_le _
      · dsimp only
        split
        · exact Nat.zero_le _
        · exact scan_count.trans (Nat.min_le_right _ _)
    · intro d hd
      unfold initrdModule at hd
      split at hd
      · cases hd
      · dsimp only at hd
        split at hd
        · cases hd
        · exact scan_names hd
  rw [hbounded]
  exact scanOk_module_iff hstart hend

/-- A module of zeros has no magic number. -/
theorem initrdBounded_zeros :
    InitrdBounded (fun _ => 0) 0x1000 0x2000 ↔ ModuleFits (fun _ => 0) 0x1000 0x2000 :=
  initrdBounded_iff (by decide) (by decide)

/-- An archive at 0x1000 of one file, whose size is `2 ^ 32 - 1`. -/
def hugeFile : Mem := fun w =>
  if w = 0x400 then 0x50495244 else if w = 0x401 then 1 else if w = 0x412 then 0xFFFFFFFF else 0

theorem not_initrdBounded_hugeFile :
    ¬ ∀ (m : Mem) (modStart modEnd : Nat), modStart < 2 ^ 32 → modEnd < 2 ^ 32 →
      InitrdBounded m modStart modEnd := by
  intro hall
  have hbounded := hall hugeFile 0x1000 0x2000 (by decide) (by decide)
  have hfits := (scanOk_module_iff (by decide) (by decide)).mp ⟨hbounded.reads, hbounded.data⟩
  obtain ⟨-, hrecords⟩ := hfits.resolve_left (by decide)
  have hfirst := hrecords (by decide)
  have hone : min (Bytes.readPtr hugeFile (0x1000 + 4)) initrdMaxFiles = 1 := by decide
  rw [hone] at hfirst
  exact absurd (hfirst (by decide)).2.1 (by decide)

end PinguinOS.Fs
