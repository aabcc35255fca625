import PinguinOS.Fs.Partition

/-! When the entries of a partition table are read where they are. -/
namespace PinguinOS.Fs

open Mm (u32)
open Drivers (IdeTransfer ideTransfer loadAll inOrder)

/-- The bytes of entry `i` where the header says that they are. -/
def gptArrayEntry (m : PartMedium) (hdr : Buffer) (i : Nat) : Buffer := fun k =>
  m.disk (gptEntryLba hdr + (i * gptEntrySize hdr + k) / 512) ((i * gptEntrySize hdr + k) % 512)

/-- Byte `b` of `sector` is at `offset` of the buffer. -/
def FilledFrom (filled : List IdeTransfer) (offset sector b : Nat) : Prop :=
  ∃ t ∈ filled, t.sector = sector ∧ offset = t.pos + b ∧ b < 512

/-- Partition `j` is entry `i` of the array, and each of its bytes was read at its place there. -/
structure DecodedFrom (m : PartMedium) (hdr : Buffer) (r : PartResult) (j i : Nat) : Prop where
  within : i < word32 hdr 80
  made : .part j i ∈ r.accesses
  places : ∀ k offset, .entry i k offset ∈ r.accesses →
    FilledFrom r.filled offset (gptEntryLba hdr + (i * gptEntrySize hdr + k) / 512)
      ((i * gptEntrySize hdr + k) % 512)
  value : r.table.parts j = (gptPartition (gptArrayEntry m hdr i) .zero).1

/-- The entries are read inside the buffer, where it was filled, the table is written inside its
bounds, and what is reported was decoded from entries. -/
structure PartitionBounded (m : PartMedium) : Prop where
  reads : ∀ i k offset, .entry i k offset ∈ (partitionRead m).accesses →
    offset < (partitionRead m).bufSize ∧
      ∃ sector b, FilledFrom (partitionRead m).filled offset sector b
  slots : ∀ slot i, .part slot i ∈ (partitionRead m).accesses → slot < partMax
  labels : ∀ pos, .label pos ∈ (partitionRead m).accesses → pos < labelSize
  gpt : (partitionRead m).table.isGpt = true → ∀ j < (partitionRead m).table.count,
    ∃ hdr i, m.readSector 1 1 = some hdr ∧ DecodedFrom m hdr (partitionRead m) j i
  mbr : (partitionRead m).table.isGpt = false → ∀ j < (partitionRead m).table.count,
    ∃ mbr, m.readSector 0 0 = some mbr ∧ ∃ i < 4,
      (partitionRead m).table.parts j = mbrPartition mbr i .zero

/-- The byte that is read to `offset` of the entry buffer. -/
def gptByte (m : PartMedium) (hdr : Buffer) (offset : Nat) : BitVec 8 :=
  m.disk (gptEntryLba hdr % 2 ^ 28 + offset / 512) (offset % 512)

/-- The drive has a GPT, and its entries are read into the buffer. -/
def ReadsEntries (m : PartMedium) (hdr : Buffer) : Prop :=
  (∃ mbr, m.readSector 0 0 = some mbr ∧ word16 mbr 510 = 0xAA55 ∧ gptPresent mbr = true) ∧
    m.readSector 1 1 = some hdr ∧ word64 hdr 0 = gptSignature ∧ (m.entrySectors hdr).isSome = true

/-- The GUID of each entry is in the buffer, and so are all 128 bytes where it is not zero; then
the array starts at a sector that the drive can address. -/
def GptFits (m : PartMedium) (hdr : Buffer) : Prop :=
  ∀ i < gptMaxEntries hdr,
    u32 (i * gptEntrySize hdr) + 16 ≤ gptSectors hdr * 512 ∧
      ((∀ k < 16, gptByte m hdr (u32 (i * gptEntrySize hdr) + k) = 0) ∨
        u32 (i * gptEntrySize hdr) + 128 ≤ gptSectors hdr * 512 ∧ gptEntryLba hdr < 2 ^ 28)

variable {m : PartMedium} {hdr memory : Buffer} {n i j k start offset sector b : Nat}
  {ts : List IdeTransfer}

theorem filledFrom_inOrder : FilledFrom (inOrder start 0 n) offset sector b ↔
    offset < n * 512 ∧ sector = start + offset / 512 ∧ b = offset % 512 := by
  unfold FilledFrom inOrder Drivers.ideSectorSize
  constructor
  · rintro ⟨t, ht, hsector, hoffset, hb⟩
    obtain ⟨s, hs, rfl⟩ := List.mem_map.mp ht
    have hlt := List.mem_range.mp hs
    dsimp only at hsector hoffset
    have hdiv : offset / 512 = s := by omega
    rw [hdiv]
    omega
  · rintro ⟨hlt, rfl, rfl⟩
    refine ⟨_, List.mem_map.mpr ⟨offset / 512, List.mem_range.mpr (by omega), rfl⟩, rfl, ?_, ?_⟩
    · dsimp only
      omega
    · omega

theorem gptSectors_le : gptSectors hdr ≤ 32 := by
  unfold gptSectors
  dsimp only
  split
  · exact Nat.le_refl _
  · omega

theorem gptMaxEntries_le : gptMaxEntries hdr ≤ partMax ∧ gptMaxEntries hdr ≤ word32 hdr 80 := by
  unfold gptMaxEntries
  dsimp only
  split
  · exact ⟨Nat.le_refl _, by omega⟩
  · exact ⟨by omega, Nat.le_refl _⟩

/-- The sectors of the buffer, from the low 28 bits of the LBA on. -/
theorem entrySectors_some (h : m.entrySectors hdr = some ts) :
    ts = inOrder (gptEntryLba hdr % 2 ^ 28) 0 (gptSectors hdr) := by
  have hle := @gptSectors_le hdr
  unfold PartMedium.entrySectors at h
  split_ifs at h with hnull
  have hcount : (BitVec.ofNat 8 (gptSectors hdr)).toNat = gptSectors hdr := by
    rw [BitVec.toNat_ofNat]
    omega
  have hlba : (BitVec.ofNat 32 (gptEntryLba hdr)).toNat % 2 ^ 28 = gptEntryLba hdr % 2 ^ 28 := by
    rw [BitVec.toNat_ofNat]
    omega
  have hres : ∀ r, ideTransfer m.fails m.drive (BitVec.ofNat 32 (gptEntryLba hdr))
      (BitVec.ofNat 8 (gptSectors hdr)) 0 2 = r → r.1 = true → r.2 = ts →
        ts = inOrder (gptEntryLba hdr % 2 ^ 28) 0 (gptSectors hdr) := by
    rintro r rfl hok hts
    rw [← hts, Drivers.ideTransfer_true hok, hcount, hlba]
  generalize ideTransfer m.fails m.drive (BitVec.ofNat 32 (gptEntryLba hdr))
    (BitVec.ofNat 8 (gptSectors hdr)) 0 2 = r at h hres
  obtain ⟨ok, filled⟩ := r
  cases ok with
  | false => cases h
  | true => exact hres _ rfl rfl (Option.some.inj h)

/-- The entry buffer after the sectors are read. -/
theorem loadAll_entries (h : m.entrySectors hdr = some ts) (ho : offset < gptSectors hdr * 512) :
    loadAll m.disk ts m.memory offset = gptByte m hdr offset := by
  rw [entrySectors_some h, Drivers.loadAll_inOrder, if_pos]
  · rfl
  · unfold Drivers.ideSectorSize
    omega

/-- The call of a drive whose entries are read. -/
theorem partitionRead_entries (h : ReadsEntries m hdr) :
    ∃ ts r, m.entrySectors hdr = some ts ∧
      r = gptLoop (loadAll m.disk ts m.memory) (gptEntrySize hdr) (gptMaxEntries hdr) 0
        { PartitionTable.zero with isGpt := true } ∧
      partitionRead m = ⟨0, r.1, gptSectors hdr * 512, ts, r.2⟩ := by
  obtain ⟨⟨mbr, hmbr, hsignature, hpresent⟩, hhdr, hgpt, hread⟩ := h
  obtain ⟨ts, hts⟩ := Option.isSome_iff_exists.mp hread
  refine ⟨ts, _, hts, rfl, ?_⟩
  unfold partitionRead gptRead
  rw [hmbr]
  dsimp only
  rw [if_neg (fun hne => hne hsignature), if_pos hpresent, hhdr]
  dsimp only
  rw [if_neg (fun hne => hne hgpt), hts]

/-- Nothing is read from entries, and nothing reported, or the MBR is. -/
theorem partitionRead_other (h : ∀ hdr, ¬ ReadsEntries m hdr) :
    (∃ table, table.count = 0 ∧ partitionRead m = .failed table) ∨
      ∃ mbr, m.readSector 0 0 = some mbr ∧ partitionRead m =
        ⟨0, (mbrLoop mbr 4 0 .zero).1, 0, [], (mbrLoop mbr 4 0 .zero).2⟩ := by
  unfold partitionRead
  cases hmbr : m.readSector 0 0 with
  | none => exact Or.inl ⟨_, rfl, rfl⟩
  | some mbr =>
    dsimp only
    split_ifs with hsignature hpresent
    · exact Or.inl ⟨_, rfl, rfl⟩
    · left
      unfold gptRead
      cases hhdr : m.readSector 1 1 with
      | none => exact ⟨_, rfl, rfl⟩
      | some hdr =>
        dsimp only
        split_ifs with hgpt
        · exact ⟨_, rfl, rfl⟩
        cases hts : m.entrySectors hdr with
        | none => exact ⟨_, rfl, rfl⟩
        | some ts =>
          exact absurd ⟨⟨mbr, hmbr, not_not.mp hsignature, hpresent⟩, hhdr, not_not.mp hgpt,
            Option.isSome_iff_exists.mpr ⟨ts, hts⟩⟩ (h hdr)
    · exact Or.inr ⟨mbr, rfl, rfl⟩

theorem partitionBounded_failed {table : PartitionTable} (hcount : table.count = 0)
    (h : partitionRead m = .failed table) : PartitionBounded m := by
  constructor <;> rw [h]
  case reads => exact fun _ _ _ ha => (List.not_mem_nil ha).elim
  case slots => exact fun _ _ ha => (List.not_mem_nil ha).elim
  case labels => exact fun _ ha => (List.not_mem_nil ha).elim
  case gpt =>
    intro _ j hj
    rw [show (PartResult.failed table).table.count = 0 from hcount] at hj
    omega
  case mbr =>
    intro _ j hj
    rw [show (PartResult.failed table).table.count = 0 from hcount] at hj
    omega

theorem partitionBounded_mbr {mbr : Buffer} (hmbr : m.readSector 0 0 = some mbr)
    (h : partitionRead m =
      ⟨0, (mbrLoop mbr 4 0 .zero).1, 0, [], (mbrLoop mbr 4 0 .zero).2⟩) :
    PartitionBounded m := by
  have hroom : PartitionTable.zero.count + 4 ≤ partMax := by decide
  have hlisted := @mbrLoop_listed mbr _ 4 0 hroom
  have hmem := fun a ha => @mem_mbrLoop mbr _ 4 0 a hroom ha
  constructor <;> rw [h]
  case reads =>
    intro i k offset ha
    rcases hmem _ ha with ⟨_, _, _, heq⟩ | ⟨_, _, heq⟩
    · cases heq
    · cases heq
  case slots =>
    intro slot i ha
    rcases hmem _ ha with ⟨slot', hslot, i', heq⟩ | ⟨_, _, heq⟩
    · cases heq
      exact hslot
    · cases heq
  case labels =>
    intro pos ha
    rcases hmem _ ha with ⟨_, _, _, heq⟩ | ⟨pos', hpos, heq⟩
    · cases heq
    · cases heq
      exact hpos
  case gpt =>
    intro hgpt
    rw [show (mbrLoop mbr 4 0 .zero).1.isGpt = false from hlisted.isGpt] at hgpt
    cases hgpt
  case mbr =>
    intro _ j hj
    obtain ⟨i, -, hi, hvalue⟩ := hlisted.decoded j (Nat.zero_le _) hj
    exact ⟨mbr, hmbr, i, by omega, hvalue⟩

/-! The condition is enough. -/

theorem entriesFit_le (hfit : GptFits m hdr) (hi : i < gptMaxEntries hdr) :
    u32 (i * gptEntrySize hdr) = i * gptEntrySize hdr := by
  have hmax := (@gptMaxEntries_le hdr).1
  have hsectors := @gptSectors_le hdr
  unfold partMax at hmax
  refine Mm.u32_of_lt ?_
  rcases Nat.eq_zero_or_pos i with rfl | hpos
  · omega
  · -- the second entry bounds the size of all of them
    have hsecond := (hfit 1 (by omega)).1
    have hsize : gptEntrySize hdr < 2 ^ 32 := word32_lt
    rw [Nat.one_mul, Mm.u32_of_lt hsize] at hsecond
    have hprod : i * gptEntrySize hdr ≤ 127 * 16384 := Nat.mul_le_mul (by omega) (by omega)
    omega

/-- What is seen of an entry that fits. -/
theorem gptEntryAt_eq (h : m.entrySectors hdr = some ts)
    (hin : u32 (i * gptEntrySize hdr) + k < gptSectors hdr * 512) :
    u32 (u32 (i * gptEntrySize hdr) + k) = u32 (i * gptEntrySize hdr) + k ∧
      gptEntryAt (loadAll m.disk ts m.memory) (gptEntrySize hdr) i k =
        gptByte m hdr (u32 (i * gptEntrySize hdr) + k) := by
  have hle := @gptSectors_le hdr
  have hoffset : u32 (u32 (i * gptEntrySize hdr) + k) = u32 (i * gptEntrySize hdr) + k :=
    Mm.u32_of_lt (by omega)
  refine ⟨hoffset, ?_⟩
  unfold gptEntryAt
  rw [hoffset, loadAll_entries h hin]

theorem unused_iff (h : m.entrySectors hdr = some ts)
    (hin : u32 (i * gptEntrySize hdr) + 16 ≤ gptSectors hdr * 512) :
    EntryUnused (loadAll m.disk ts m.memory) (gptEntrySize hdr) i ↔
      ∀ k < 16, gptByte m hdr (u32 (i * gptEntrySize hdr) + k) = 0 := by
  refine forall_congr' fun k => forall_congr' fun hk => ?_
  rw [(gptEntryAt_eq h (show _ + k < _ by omega)).2]

/-- The bytes that are read of an entry are in the buffer. -/
theorem entriesFit_read (h : m.entrySectors hdr = some ts) (hfit : GptFits m hdr)
    (hi : i < gptMaxEntries hdr)
    (hread : .entry i k offset ∈ entryReads (loadAll m.disk ts m.memory) (gptEntrySize hdr) i) :
    offset = i * gptEntrySize hdr + k ∧ offset < gptSectors hdr * 512 := by
  obtain ⟨hguid, hrest⟩ := hfit i hi
  obtain ⟨k', hk', heq, hused⟩ := mem_entryReads hread
  cases heq
  have hin : u32 (i * gptEntrySize hdr) + k < gptSectors hdr * 512 := by
    by_cases hlow : k < 16
    · omega
    · rcases hrest with hzero | ⟨hall, -⟩
      · exact absurd ((unused_iff h hguid).mpr hzero) (hused (by omega))
      · omega
  rw [(gptEntryAt_eq h hin).1, entriesFit_le hfit hi]
  rw [entriesFit_le hfit hi] at hin
  exact ⟨rfl, hin⟩

/-! The accesses of the loop over the entries, by their kinds. -/

section
variable {memory : Buffer} {t : PartitionTable} {entrySize slot s pos : Nat}

theorem entry_mem_gptLoop (hroom : t.count + n ≤ partMax)
    (ha : .entry i k offset ∈ (gptLoop memory entrySize n s t).2) :
    s ≤ i ∧ i < s + n ∧ .entry i k offset ∈ entryReads memory entrySize i := by
  rcases mem_gptLoop hroom ha with ⟨i', hlow, hhigh, hread⟩ | ⟨_, _, _, _, heq⟩ | ⟨_, _, heq⟩
  · obtain ⟨_, -, heq, -⟩ := mem_entryReads hread
    cases heq
    exact ⟨hlow, hhigh, hread⟩
  · cases heq
  · cases heq

theorem part_mem_gptLoop (hroom : t.count + n ≤ partMax)
    (ha : .part slot i ∈ (gptLoop memory entrySize n s t).2) : slot < partMax ∧ i < s + n := by
  rcases mem_gptLoop hroom ha with ⟨_, -, -, hread⟩ | ⟨_, hslot, _, hlt, heq⟩ | ⟨_, _, heq⟩
  · obtain ⟨_, -, heq, -⟩ := mem_entryReads hread
    cases heq
  · cases heq
    exact ⟨hslot, hlt⟩
  · cases heq

theorem label_mem_gptLoop (hroom : t.count + n ≤ partMax)
    (ha : .label pos ∈ (gptLoop memory entrySize n s t).2) : pos < labelSize := by
  rcases mem_gptLoop hroom ha with ⟨_, -, -, hread⟩ | ⟨_, _, _, _, heq⟩ | ⟨_, hpos, heq⟩
  · obtain ⟨_, -, heq, -⟩ := mem_entryReads hread
    cases heq
  · cases heq
  · cases heq
    exact hpos

end

theorem gptMaxEntries_room : (0 : Nat) + gptMaxEntries hdr ≤ partMax := by
  rw [Nat.zero_add]
  exact gptMaxEntries_le.1

/-- What the loop makes of an entry in use. -/
theorem partition_of_fit (hts : m.entrySectors hdr = some ts) (hfit : GptFits m hdr)
    (hi : i < gptMaxEntries hdr)
    (hused : ¬ EntryUnused (loadAll m.disk ts m.memory) (gptEntrySize hdr) i) :
    gptEntryLba hdr % 2 ^ 28 = gptEntryLba hdr ∧
      gptPartition (gptEntryAt (loadAll m.disk ts m.memory) (gptEntrySize hdr) i) .zero =
        gptPartition (gptArrayEntry m hdr i) .zero := by
  obtain ⟨hguid, hrest⟩ := hfit i hi
  rcases hrest with hzero | ⟨hall, hlba⟩
  · exact absurd ((unused_iff hts hguid).mpr hzero) hused
  have hstart : gptEntryLba hdr % 2 ^ 28 = gptEntryLba hdr := Nat.mod_eq_of_lt hlba
  refine ⟨hstart, gptPartition_congr fun k hk => ?_⟩
  rw [(gptEntryAt_eq hts (by omega)).2, entriesFit_le hfit hi]
  unfold gptByte gptArrayEntry
  rw [hstart]

theorem partitionBounded_of_fit (h : ReadsEntries m hdr) (hfit : GptFits m hdr) :
    PartitionBounded m := by
  obtain ⟨ts, r, hts, hr, hcall⟩ := partitionRead_entries h
  have hfilled := entrySectors_some hts
  have hlisted := @gptLoop_listed (loadAll m.disk ts m.memory)
    { PartitionTable.zero with isGpt := true } (gptMaxEntries hdr) 0 (gptEntrySize hdr)
    gptMaxEntries_room
  have hreads : ∀ i k offset, .entry i k offset ∈ r.2 → offset = i * gptEntrySize hdr + k ∧
      offset < gptSectors hdr * 512 := by
    intro i k offset ha
    rw [hr] at ha
    obtain ⟨-, hi, hread⟩ := entry_mem_gptLoop gptMaxEntries_room ha
    exact entriesFit_read hts hfit (by omega) hread
  constructor <;> rw [hcall]
  case reads =>
    intro i k offset ha
    have hin := (hreads i k offset ha).2
    exact ⟨hin, _, _, hfilled ▸ filledFrom_inOrder.mpr ⟨hin, rfl, rfl⟩⟩
  case slots =>
    intro slot i ha
    dsimp only at ha
    rw [hr] at ha
    exact (part_mem_gptLoop gptMaxEntries_room ha).1
  case labels =>
    intro pos ha
    dsimp only at ha
    rw [hr] at ha
    exact label_mem_gptLoop gptMaxEntries_room ha
  case gpt =>
    intro _ j hj
    rw [← hr] at hlisted
    obtain ⟨i, -, hi, hused, hmade, hvalue⟩ := hlisted.decoded j (Nat.zero_le _) hj
    rw [Nat.zero_add] at hi
    obtain ⟨hstart, hpartition⟩ := partition_of_fit hts hfit hi hused
    refine ⟨hdr, i, h.2.1, ?_⟩
    constructor
    case within => exact Nat.lt_of_lt_of_le hi gptMaxEntries_le.2
    case made => exact hmade
    case places =>
      intro k offset ha
      obtain ⟨hoffset, hin⟩ := hreads i k offset ha
      rw [← hoffset]
      dsimp only
      rw [hfilled, filledFrom_inOrder, hstart]
      exact ⟨hin, rfl, rfl⟩
    case value => exact hvalue.trans (congrArg Prod.fst hpartition)
  case mbr =>
    intro hmbr
    rw [← hr] at hlisted
    rw [show r.1.isGpt = true from hlisted.isGpt] at hmbr
    cases hmbr

/-! The condition is needed. -/

/-- A byte that is read for certain is in the buffer. -/
theorem read_of_partitionBounded (h : ReadsEntries m hdr) (hbounded : PartitionBounded m)
    (hts : m.entrySectors hdr = some ts) (hi : i < gptMaxEntries hdr)
    (hk : k = 0 ∨
      (k < 16 ∧ EntryUnused (loadAll m.disk ts m.memory) (gptEntrySize hdr) i) ∨
      (32 ≤ k ∧ k < 128 ∧ ¬ EntryUnused (loadAll m.disk ts m.memory) (gptEntrySize hdr) i)) :
    u32 (u32 (i * gptEntrySize hdr) + k) < gptSectors hdr * 512 := by
  obtain ⟨ts', r, hts', hr, hcall⟩ := partitionRead_entries h
  obtain rfl := Option.some.inj (hts.symm.trans hts')
  have hreads := hbounded.reads
  rw [hcall] at hreads
  refine (hreads i k _ ?_).1
  rw [hr]
  exact gptLoop_visits (Nat.zero_le _) (by omega) (entryReads_mem hk)

/-- The first partition that is reported tells where the array was read. -/
theorem lba_of_partitionBounded (h : ReadsEntries m hdr) (hbounded : PartitionBounded m)
    (hts : m.entrySectors hdr = some ts) (hi : i < gptMaxEntries hdr)
    (hused : ¬ EntryUnused (loadAll m.disk ts m.memory) (gptEntrySize hdr) i) :
    gptEntryLba hdr < 2 ^ 28 := by
  obtain ⟨ts', r, hts', hr, hcall⟩ := partitionRead_entries h
  obtain rfl := Option.some.inj (hts.symm.trans hts')
  have hgpt := hbounded.gpt
  rw [hcall] at hgpt
  have hlisted := @gptLoop_listed (loadAll m.disk ts m.memory)
    { PartitionTable.zero with isGpt := true } (gptMaxEntries hdr) 0 (gptEntrySize hdr)
    gptMaxEntries_room
  rw [← hr] at hlisted
  have hcount : 0 < r.1.count := hlisted.reports i (Nat.zero_le _) (by omega) hused
  obtain ⟨hdr', i', hhdr', hdecoded⟩ := hgpt hlisted.isGpt 0 hcount
  cases (Option.some.inj (hhdr'.symm.trans h.2.1))
  have hi' : i' < 0 + gptMaxEntries hdr := by
    have hmade : PartAccess.part 0 i' ∈ r.2 := hdecoded.made
    rw [hr] at hmade
    exact (part_mem_gptLoop gptMaxEntries_room hmade).2
  have hplace := hdecoded.places 0 (u32 (u32 (i' * gptEntrySize hdr) + 0)) (by
    dsimp only
    rw [hr]
    exact gptLoop_visits (Nat.zero_le _) hi' (entryReads_mem (Or.inl rfl)))
  dsimp only at hplace
  rw [entrySectors_some hts, filledFrom_inOrder, Nat.add_zero, Nat.add_zero,
    Mm.u32_of_lt Mm.u32_lt] at hplace
  obtain ⟨-, hsector, -⟩ := hplace
  have hle := @gptSectors_le hdr
  unfold u32 at hsector
  omega

theorem fit_of_partitionBounded (h : ReadsEntries m hdr) (hbounded : PartitionBounded m) :
    GptFits m hdr := by
  obtain ⟨ts, -, hts, -, -⟩ := partitionRead_entries h
  have hle := @gptSectors_le hdr
  intro i hi
  have hread := fun k hk => @read_of_partitionBounded m hdr i k ts h hbounded hts hi hk
  have hpos : u32 (i * gptEntrySize hdr) < gptSectors hdr * 512 := by
    have hzero := hread 0 (Or.inl rfl)
    rwa [Nat.add_zero, Mm.u32_of_lt Mm.u32_lt] at hzero
  have hwhole : ∀ k < 128, u32 (u32 (i * gptEntrySize hdr) + k) =
      u32 (i * gptEntrySize hdr) + k := fun k hk => Mm.u32_of_lt (by omega)
  by_cases hunused : EntryUnused (loadAll m.disk ts m.memory) (gptEntrySize hdr) i
  · have hlast := hread 15 (Or.inr (Or.inl ⟨by decide, hunused⟩))
    rw [hwhole 15 (by decide)] at hlast
    have hguid : u32 (i * gptEntrySize hdr) + 16 ≤ gptSectors hdr * 512 := hlast
    exact ⟨hguid, Or.inl ((unused_iff hts hguid).mp hunused)⟩
  · have hlast := hread 127 (Or.inr (Or.inr ⟨by decide, by decide, hunused⟩))
    rw [hwhole 127 (by decide)] at hlast
    exact ⟨by omega, Or.inr ⟨hlast, lba_of_partitionBounded h hbounded hts hi hunused⟩⟩

/-- The table is parsed within its bounds exactly when, on a drive whose entries are read, the
entries fit. -/
theorem partitionBounded_iff :
    PartitionBounded m ↔ ∀ hdr, ReadsEntries m hdr → GptFits m hdr := by
  constructor
  · intro hbounded hdr h
    exact fit_of_partitionBounded h hbounded
  · intro hfit
    by_cases h : ∃ hdr, ReadsEntries m hdr
    · obtain ⟨hdr, h⟩ := h
      exact partitionBounded_of_fit h (hfit hdr h)
    · rcases partitionRead_other fun hdr hreads => h ⟨hdr, hreads⟩ with
        ⟨table, hcount, hfailed⟩ | ⟨mbr, hmbr, hread⟩
      · exact partitionBounded_failed hcount hfailed
      · exact partitionBounded_mbr hmbr hread

/-- A protective MBR, and a header with 128 entries of 256 bytes. -/
def wideEntries : PartMedium where
  drive := ⟨true, 0⟩
  disk := fun sector b =>
    if sector = 0 then if b = 450 then 0xEE else if b = 510 then 0x55 else if b = 511 then 0xAA else 0
    else if sector = 1 then
      if b = 72 then 2 else if b = 80 then 128 else if b = 85 then 1
      else [0x45, 0x46, 0x49, 0x20, 0x50, 0x41, 0x52, 0x54].getD b 0
    else 0
  fails := fun _ => false
  served := true
  memory := fun _ => 0

/-- Only half of the entries are in the buffer, and the others are read behind it. -/
theorem not_forall_partitionBounded : ¬ ∀ m, PartitionBounded m := by
  intro hall
  have hhdr : ∃ hdr, wideEntries.readSector 1 1 = some hdr := ⟨_, rfl⟩
  obtain ⟨hdr, hhdr⟩ := hhdr
  have hvalues : (wideEntries.readSector 1 1).map (fun hdr => (word64 hdr 0, gptMaxEntries hdr,
      gptEntrySize hdr, gptSectors hdr, (wideEntries.entrySectors hdr).isSome)) =
        some (gptSignature, 128, 256, 32, true) := by
    decide +kernel
  rw [hhdr] at hvalues
  simp only [Option.map_some, Option.some.injEq, Prod.mk.injEq] at hvalues
  obtain ⟨hsignature, hmax, hsize, hsectors, hread⟩ := hvalues
  have hpresent : ∃ mbr, wideEntries.readSector 0 0 = some mbr ∧ word16 mbr 510 = 0xAA55 ∧
      gptPresent mbr = true := ⟨_, rfl, by decide +kernel, by decide +kernel⟩
  have hfit := fit_of_partitionBounded ⟨hpresent, hhdr, hsignature, hread⟩ (hall wideEntries) 64
  rw [hmax, hsize, hsectors] at hfit
  exact absurd (hfit (by decide)).1 (by decide)

end PinguinOS.Fs
