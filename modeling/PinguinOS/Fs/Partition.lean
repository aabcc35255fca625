import PinguinOS.Drivers.Ide
import PinguinOS.Fs.Medium

/-! The partition table of a drive, with every access to the entries and to the table. -/
namespace PinguinOS.Fs

open Mm (u32)
open Drivers (IdeDrive IdeDisk IdeTransfer ideTransfer loadAll inOrder)

def partMax : Nat := 128
def partTypeEmpty : BitVec 8 := 0x00
def partTypeGpt : BitVec 8 := 0xEE
def gptSignature : Nat := 0x5452415020494645

/-- The bytes of `label`. -/
def labelSize : Nat := 36

structure Partition where
  type : BitVec 8
  lbaStart : Nat
  lbaSize : Nat
  bootable : Bool
  label : Buffer

structure PartitionTable where
  count : Nat
  isGpt : Bool
  parts : Nat → Partition

/-- What `memset` leaves. -/
def Partition.zero : Partition := ⟨0, 0, 0, false, fun _ => 0⟩

def PartitionTable.zero : PartitionTable := ⟨0, false, fun _ => .zero⟩

/-- `partition_t *p = &table->parts[table->count++]`, and `p` gets its values. -/
def PartitionTable.add (t : PartitionTable) (p : Partition) : PartitionTable :=
  { t with count := u32 (t.count + 1), parts := Function.update t.parts t.count p }

/-- What `partition_read` finds: the drive, which calls of `ide_wait` fail, whether `kmalloc` has
memory for the entries, and what is at its pointer and behind. -/
structure PartMedium where
  drive : IdeDrive
  disk : IdeDisk
  fails : Nat → Bool
  served : Bool
  memory : Buffer

/-- An access to the entries or to the table. -/
inductive PartAccess
  /-- Byte `k` of entry `i` is read at `offset` of the entry buffer. -/
  | entry (i k offset : Nat)
  /-- `parts[slot]` is made from entry `i`. -/
  | part (slot i : Nat)
  /-- `label[pos]` is written. -/
  | label (pos : Nat)
  deriving DecidableEq

/-- What a call returns and leaves in the table, its entry buffer with the sectors it reads into
it, and what it accesses. -/
structure PartResult where
  result : Int
  table : PartitionTable
  bufSize : Nat
  filled : List IdeTransfer
  accesses : List PartAccess

/-- Nothing is reported. -/
def PartResult.failed (table : PartitionTable) : PartResult := ⟨-1, table, 0, [], []⟩

/-- The 64-bit word at `pos`. -/
def word64 (buf : Buffer) (pos : Nat) : Nat := word32 buf pos + 2 ^ 32 * word32 buf (pos + 4)

/-- The `while` loop of `utf16_to_ascii`, for `n` more characters at most, and the end of the
string. -/
def utf16Loop (src : Nat → Nat) : (n i : Nat) → Buffer → Buffer × List PartAccess
  | 0, i, dst => (Function.update dst i 0, [.label i])
  | n + 1, i, dst =>
    if src i = 0 then (Function.update dst i 0, [.label i])
    else
      -- 0x3F is '?'
      let c := if src i < 0x80 then BitVec.ofNat 8 (src i) else 0x3F
      let (dst, rest) := utf16Loop src n (i + 1) (Function.update dst i c)
      (dst, .label i :: rest)

def utf16ToAscii (src : Nat → Nat) (dst : Buffer) (max : Nat) : Buffer × List PartAccess :=
  utf16Loop src (max - 1) 0 dst

/-- The loop of `guid_is_zero` over `n` bytes from `i` on, and the bytes that it reads. -/
def guidLoop (g : Buffer) : (n i : Nat) → Bool × List Nat
  | 0, _ => (true, [])
  | n + 1, i =>
    if g i ≠ 0 then (false, [i])
    else
      let (zero, rest) := guidLoop g n (i + 1)
      (zero, i :: rest)

def guidIsZero (g : Buffer) : Bool × List Nat := guidLoop g 16 0

/-- A `gpt_entry_t` that is reported. -/
def gptPartition (e : Buffer) (old : Partition) : Partition × List PartAccess :=
  let (label, writes) := utf16ToAscii (fun j => word16 e (56 + 2 * j)) old.label labelSize
  ({ type := 0
     lbaStart := word64 e 32
     lbaSize := (word64 e 40 + 2 ^ 64 - word64 e 32 + 1) % 2 ^ 64
     bootable := decide (word64 e 48 &&& 4 ≠ 0)
     label := label }, writes)

/-- What is at `e`, for the entry at `entry_buf + i * entry_size`; sum and product wrap. -/
def gptEntryAt (memory : Buffer) (entrySize i : Nat) : Buffer :=
  fun k => memory (u32 (u32 (i * entrySize) + k))

/-- The bytes of entry `i` that are read: its GUID up to the first byte that is not zero, and
all behind the GUIDs if there is one. -/
def entryReads (memory : Buffer) (entrySize i : Nat) : List PartAccess :=
  let guid := guidIsZero (gptEntryAt memory entrySize i)
  (guid.2 ++ if guid.1 then [] else List.range' 32 96).map fun k =>
    .entry i k (u32 (u32 (i * entrySize) + k))

/-- The body of the loop over the entries. -/
def gptStep (memory : Buffer) (entrySize i : Nat) (t : PartitionTable) :
    PartitionTable × List PartAccess :=
  let e := gptEntryAt memory entrySize i
  if (guidIsZero e).1 then (t, entryReads memory entrySize i)
  else
    let (p, writes) := gptPartition e (t.parts t.count)
    (t.add p, entryReads memory entrySize i ++ .part t.count i :: writes)

/-- The loop over `n` entries from `i` on. -/
def gptLoop (memory : Buffer) (entrySize : Nat) :
    (n i : Nat) → PartitionTable → PartitionTable × List PartAccess
  | 0, _, t => (t, [])
  | n + 1, i, t =>
    let s := gptStep memory entrySize i t
    let r := gptLoop memory entrySize n (i + 1) s.1
    (r.1, s.2 ++ r.2)

/-- `snprintf(p->label, sizeof(p->label), "part%d", i + 1)` -/
def partLabel (old : Buffer) (i : Nat) : Buffer :=
  fun j => [0x70, 0x61, 0x72, 0x74, BitVec.ofNat 8 (0x30 + (i + 1)), 0].getD j (old j)

/-- Entry `i` of the MBR, as it is reported. -/
def mbrPartition (mbr : Buffer) (i : Nat) (old : Partition) : Partition where
  type := mbr (446 + 16 * i + 4)
  lbaStart := word32 mbr (446 + 16 * i + 8)
  lbaSize := word32 mbr (446 + 16 * i + 12)
  bootable := decide (mbr (446 + 16 * i) = 0x80)
  label := partLabel old.label i

def mbrStep (mbr : Buffer) (i : Nat) (t : PartitionTable) : PartitionTable × List PartAccess :=
  if mbr (446 + 16 * i + 4) = partTypeEmpty then (t, [])
  else
    (t.add (mbrPartition mbr i (t.parts t.count)),
      .part t.count i :: (List.range 6).map .label)

/-- The loop over `n` entries of the MBR from `i` on. -/
def mbrLoop (mbr : Buffer) : (n i : Nat) → PartitionTable → PartitionTable × List PartAccess
  | 0, _, t => (t, [])
  | n + 1, i, t =>
    let s := mbrStep mbr i t
    let r := mbrLoop mbr n (i + 1) s.1
    (r.1, s.2 ++ r.2)

/-- One sector on the stack, read after `k` calls of `ide_wait`. -/
def PartMedium.readSector (m : PartMedium) (lba : BitVec 32) (k : Nat) : Option Buffer :=
  let (ok, ts) := ideTransfer m.fails m.drive lba 1 0 k
  if ok then some (loadAll m.disk ts fun _ => 0) else none

def gptEntryLba (hdr : Buffer) : Nat := word64 hdr 72
def gptEntrySize (hdr : Buffer) : Nat := word32 hdr 84

def gptMaxEntries (hdr : Buffer) : Nat :=
  let maxEntries := word32 hdr 80
  if maxEntries > partMax then partMax else maxEntries

def gptSectors (hdr : Buffer) : Nat :=
  let needed := u32 (u32 (gptMaxEntries hdr * gptEntrySize hdr) + 511) / 512
  if needed > 32 then 32 else needed

/-- The sectors that are read into the entry buffer; `kmalloc` of 0 bytes returns NULL. -/
def PartMedium.entrySectors (m : PartMedium) (hdr : Buffer) : Option (List IdeTransfer) :=
  if gptSectors hdr * 512 = 0 ∨ m.served = false then none
  else
    let (ok, ts) := ideTransfer m.fails m.drive (BitVec.ofNat 32 (gptEntryLba hdr))
      (BitVec.ofNat 8 (gptSectors hdr)) 0 2
    if ok then some ts else none

/-- The GPT branch of `partition_read`. -/
def gptRead (m : PartMedium) : PartResult :=
  let table := { PartitionTable.zero with isGpt := true }
  match m.readSector 1 1 with
  | none => .failed table
  | some hdr =>
    if word64 hdr 0 ≠ gptSignature then .failed table
    else match m.entrySectors hdr with
      | none => .failed table
      | some ts =>
        let r := gptLoop (loadAll m.disk ts m.memory) (gptEntrySize hdr) (gptMaxEntries hdr) 0 table
        ⟨0, r.1, gptSectors hdr * 512, ts, r.2⟩

/-- One of the four entries protects a GPT. -/
def gptPresent (mbr : Buffer) : Bool :=
  (List.range 4).any fun i => mbr (446 + 16 * i + 4) = partTypeGpt

def partitionRead (m : PartMedium) : PartResult :=
  match m.readSector 0 0 with
  | none => .failed .zero
  | some mbr =>
    if word16 mbr 510 ≠ 0xAA55 then .failed .zero
    else if gptPresent mbr then gptRead m
    else
      let r := mbrLoop mbr 4 0 .zero
      ⟨0, r.1, 0, [], r.2⟩

variable {m : PartMedium} {hdr mbr memory g e e' dst : Buffer} {old : Partition}
  {t : PartitionTable} {src src' : Nat → Nat} {n s i j k entrySize offset slot pos : Nat}
  {ts : List IdeTransfer}

/-! What one entry is made of. -/

theorem utf16Loop_congr (h : ∀ j < i + n, src j = src' j) :
    utf16Loop src n i dst = utf16Loop src' n i dst := by
  induction n generalizing i dst with
  | zero => rfl
  | succ n ih =>
    have hrest : ∀ dst, utf16Loop src n (i + 1) dst = utf16Loop src' n (i + 1) dst :=
      fun dst => ih fun j hj => h j (by omega)
    unfold utf16Loop
    simp only [h i (by omega), hrest]

/-- The string ends inside the field. -/
theorem utf16Loop_writes : ∀ a ∈ (utf16Loop src n i dst).2, ∃ pos ≤ i + n, a = .label pos := by
  induction n generalizing i dst with
  | zero =>
    intro a ha
    exact ⟨i, Nat.le_refl _, List.mem_singleton.mp ha⟩
  | succ n ih =>
    unfold utf16Loop
    split
    · intro a ha
      exact ⟨i, Nat.le_add_right _ _, List.mem_singleton.mp ha⟩
    · intro a ha
      rcases List.mem_cons.mp ha with rfl | hrest
      · exact ⟨i, Nat.le_add_right _ _, rfl⟩
      · obtain ⟨pos, hpos, heq⟩ := ih a hrest
        exact ⟨pos, by omega, heq⟩

theorem word64_congr {buf buf' : Buffer} {pos : Nat}
    (h : ∀ j < 8, buf (pos + j) = buf' (pos + j)) : word64 buf pos = word64 buf' pos := by
  have hlow : word32 buf pos = word32 buf' pos := word32_congr fun j hj => h j (by omega)
  have hhigh : word32 buf (pos + 4) = word32 buf' (pos + 4) := by
    refine word32_congr fun j hj => ?_
    rw [Nat.add_assoc]
    exact h (4 + j) (by omega)
  unfold word64
  rw [hlow, hhigh]

/-- A partition is made of the 128 bytes of its entry. -/
theorem gptPartition_congr (h : ∀ k < 128, e k = e' k) :
    gptPartition e old = gptPartition e' old := by
  have hstart : word64 e 32 = word64 e' 32 := word64_congr fun j hj => h _ (by omega)
  have hend : word64 e 40 = word64 e' 40 := word64_congr fun j hj => h _ (by omega)
  have hattr : word64 e 48 = word64 e' 48 := word64_congr fun j hj => h _ (by omega)
  have hname : utf16ToAscii (fun j => word16 e (56 + 2 * j)) old.label labelSize =
      utf16ToAscii (fun j => word16 e' (56 + 2 * j)) old.label labelSize := by
    refine utf16Loop_congr ?_
    intro j hj
    unfold labelSize at hj
    unfold word16
    rw [h _ (by omega), h _ (by omega)]
  unfold gptPartition
  rw [hstart, hend, hattr, hname]

theorem gptPartition_writes : ∀ a ∈ (gptPartition e old).2, ∃ pos < labelSize, a = .label pos := by
  intro a ha
  have hloop : a ∈ (utf16Loop (fun j => word16 e (56 + 2 * j)) 35 0 old.label).2 := ha
  obtain ⟨pos, hpos, heq⟩ := utf16Loop_writes a hloop
  exact ⟨pos, Nat.lt_of_le_of_lt hpos (by decide), heq⟩

theorem guidLoop_true : (guidLoop g n i).1 = true ↔ ∀ k, i ≤ k → k < i + n → g k = 0 := by
  induction n generalizing i with
  | zero => exact iff_of_true rfl fun k hlo hhi => by omega
  | succ n ih =>
    unfold guidLoop
    by_cases hi : g i = 0
    · rw [if_neg (fun hne => hne hi)]
      refine ih.trans ⟨fun hall k hlo hhi => ?_, fun hall k hlo hhi => hall k (by omega) (by omega)⟩
      rcases Nat.eq_or_lt_of_le hlo with rfl | hlt
      · exact hi
      · exact hall k hlt (by omega)
    · rw [if_pos hi]
      exact iff_of_false Bool.false_ne_true fun hall => hi (hall i (Nat.le_refl _) (by omega))

/-- The first byte is read always, and all of them are where no byte stops the loop. -/
theorem guidLoop_reads : (0 < n → i ∈ (guidLoop g n i).2) ∧
    (∀ k ∈ (guidLoop g n i).2, i ≤ k ∧ k < i + n) ∧
      ((guidLoop g n i).1 = true → ∀ k, i ≤ k → k < i + n → k ∈ (guidLoop g n i).2) := by
  induction n generalizing i with
  | zero => exact ⟨fun h => absurd h (by omega), fun k hk => (List.not_mem_nil hk).elim,
      fun _ k hlo hhi => by omega⟩
  | succ n ih =>
    obtain ⟨-, hbounds, hall⟩ := @ih (i + 1)
    unfold guidLoop
    by_cases hi : g i = 0
    · rw [if_neg (fun hne => hne hi)]
      refine ⟨fun _ => List.mem_cons_self, ?_, ?_⟩
      · intro k hk
        rcases List.mem_cons.mp hk with rfl | hrest
        · omega
        · have := hbounds k hrest
          omega
      · intro htrue k hlo hhi
        rcases Nat.eq_or_lt_of_le hlo with rfl | hlt
        · exact List.mem_cons_self
        · exact List.mem_cons_of_mem _ (hall htrue k hlt (by omega))
    · rw [if_pos hi]
      refine ⟨fun _ => List.mem_singleton.mpr rfl, ?_, fun hno => Bool.noConfusion hno⟩
      intro k hk
      rw [List.mem_singleton.mp hk]
      omega

/-- The GUID of the entry is zero. -/
def EntryUnused (memory : Buffer) (entrySize i : Nat) : Prop :=
  ∀ k < 16, gptEntryAt memory entrySize i k = 0

theorem guidIsZero_iff : (guidIsZero (gptEntryAt memory entrySize i)).1 = true ↔
    EntryUnused memory entrySize i := by
  unfold guidIsZero
  rw [guidLoop_true]
  exact ⟨fun h k hk => h k (Nat.zero_le _) (by omega), fun h k _ hk => h k (by omega)⟩

/-- All that `entryReads` contains. -/
theorem mem_entryReads {a : PartAccess} (ha : a ∈ entryReads memory entrySize i) :
    ∃ k < 128, a = .entry i k (u32 (u32 (i * entrySize) + k)) ∧
      (16 ≤ k → ¬ EntryUnused memory entrySize i) := by
  unfold entryReads at ha
  obtain ⟨k, hk, rfl⟩ := List.mem_map.mp ha
  rcases List.mem_append.mp hk with hguid | hrest
  · have hbound := (@guidLoop_reads (gptEntryAt memory entrySize i) 16 0).2.1 k hguid
    exact ⟨k, by omega, rfl, fun h16 => by omega⟩
  · rw [← guidIsZero_iff]
    by_cases hzero : (guidIsZero (gptEntryAt memory entrySize i)).1 = true
    · rw [if_pos hzero] at hrest
      exact (List.not_mem_nil hrest).elim
    · rw [if_neg hzero] at hrest
      have hrange := List.mem_range'_1.mp hrest
      exact ⟨k, by omega, rfl, fun _ => hzero⟩

/-- What `entryReads` contains for certain. -/
theorem entryReads_mem (hk : k = 0 ∨ (k < 16 ∧ EntryUnused memory entrySize i) ∨
      (32 ≤ k ∧ k < 128 ∧ ¬ EntryUnused memory entrySize i)) :
    .entry i k (u32 (u32 (i * entrySize) + k)) ∈ entryReads memory entrySize i := by
  obtain ⟨hfirst, -, hall⟩ := @guidLoop_reads (gptEntryAt memory entrySize i) 16 0
  unfold entryReads
  refine List.mem_map.mpr ⟨k, List.mem_append.mpr ?_, rfl⟩
  rcases hk with rfl | ⟨hlt, hzero⟩ | ⟨hlo, hhi, hused⟩
  · exact Or.inl (hfirst (by decide))
  · exact Or.inl (hall (guidIsZero_iff.mpr hzero) k (Nat.zero_le _) (by omega))
  · rw [← guidIsZero_iff] at hused
    rw [if_neg hused]
    exact Or.inr (List.mem_range'_1.mpr ⟨hlo, by omega⟩)

/-! The loops. -/

theorem add_count (hroom : t.count < partMax) (p : Partition) :
    (t.add p).count = t.count + 1 := by
  unfold partMax at hroom
  exact Mm.u32_of_lt (by omega)

theorem gptStep_unused (h : EntryUnused memory entrySize i) :
    gptStep memory entrySize i t = (t, entryReads memory entrySize i) := by
  unfold gptStep
  exact if_pos (guidIsZero_iff.mpr h)

theorem gptStep_used (h : ¬ EntryUnused memory entrySize i) :
    gptStep memory entrySize i t =
      (t.add (gptPartition (gptEntryAt memory entrySize i) (t.parts t.count)).1,
        entryReads memory entrySize i ++ .part t.count i ::
          (gptPartition (gptEntryAt memory entrySize i) (t.parts t.count)).2) := by
  unfold gptStep
  exact if_neg fun hzero => h (guidIsZero_iff.mp hzero)

theorem gptLoop_succ : gptLoop memory entrySize (n + 1) s t =
    ((gptLoop memory entrySize n (s + 1) (gptStep memory entrySize s t).1).1,
      (gptStep memory entrySize s t).2 ++
        (gptLoop memory entrySize n (s + 1) (gptStep memory entrySize s t).1).2) := rfl

/-- Every entry is visited. -/
theorem gptLoop_visits {a : PartAccess} (hlo : s ≤ i) (hhi : i < s + n)
    (ha : a ∈ entryReads memory entrySize i) : a ∈ (gptLoop memory entrySize n s t).2 := by
  induction n generalizing s t with
  | zero => omega
  | succ n ih =>
    rw [gptLoop_succ]
    rcases Nat.eq_or_lt_of_le hlo with rfl | hlt
    · refine List.mem_append_left _ ?_
      by_cases hused : EntryUnused memory entrySize s
      · rw [gptStep_unused hused]
        exact ha
      · rw [gptStep_used hused]
        exact List.mem_append_left _ ha
    · exact List.mem_append_right _ (ih hlt (by omega))

/-- Nothing else is accessed than entries, slots of the table and labels. -/
theorem mem_gptLoop {a : PartAccess} (hroom : t.count + n ≤ partMax)
    (ha : a ∈ (gptLoop memory entrySize n s t).2) :
    (∃ i, s ≤ i ∧ i < s + n ∧ a ∈ entryReads memory entrySize i) ∨
      (∃ slot < partMax, ∃ i, i < s + n ∧ a = .part slot i) ∨
        ∃ pos < labelSize, a = .label pos := by
  induction n generalizing s t with
  | zero => exact (List.not_mem_nil ha).elim
  | succ n ih =>
    rw [gptLoop_succ] at ha
    have hlater : ∀ t' : PartitionTable, t'.count + n ≤ partMax →
        a ∈ (gptLoop memory entrySize n (s + 1) t').2 →
          (∃ i, s ≤ i ∧ i < s + (n + 1) ∧ a ∈ entryReads memory entrySize i) ∨
            (∃ slot < partMax, ∃ i, i < s + (n + 1) ∧ a = .part slot i) ∨
              ∃ pos < labelSize, a = .label pos := by
      intro t' hroom' ha'
      rcases ih hroom' ha' with ⟨i, hlo, hhi, hread⟩ | ⟨slot, hslot, i, hi, heq⟩ | hrest
      · exact Or.inl ⟨i, by omega, by omega, hread⟩
      · exact Or.inr (Or.inl ⟨slot, hslot, i, by omega, heq⟩)
      · exact Or.inr (Or.inr hrest)
    by_cases hunused : EntryUnused memory entrySize s
    · rw [gptStep_unused hunused] at ha
      rcases List.mem_append.mp ha with hread | hrest
      · exact Or.inl ⟨s, Nat.le_refl _, by omega, hread⟩
      · exact hlater t (by omega) hrest
    · rw [gptStep_used hunused] at ha
      rcases List.mem_append.mp ha with hnow | hrest
      · rcases List.mem_append.mp hnow with hread | hwrite
        · exact Or.inl ⟨s, Nat.le_refl _, by omega, hread⟩
        rcases List.mem_cons.mp hwrite with rfl | hlabel
        · exact Or.inr (Or.inl ⟨t.count, by omega, s, by omega, rfl⟩)
        · exact Or.inr (Or.inr (gptPartition_writes a hlabel))
      · refine hlater _ ?_ hrest
        rw [add_count (by omega)]
        omega

/-- What the loop does to the table: it reports the used entries behind what is there. -/
structure GptListed (memory : Buffer) (entrySize s n : Nat) (t t' : PartitionTable)
    (accesses : List PartAccess) : Prop where
  grows : t.count ≤ t'.count
  isGpt : t'.isGpt = t.isGpt
  kept : ∀ j < t.count, t'.parts j = t.parts j
  decoded : ∀ j, t.count ≤ j → j < t'.count → ∃ i, s ≤ i ∧ i < s + n ∧
    ¬ EntryUnused memory entrySize i ∧ .part j i ∈ accesses ∧
      t'.parts j = (gptPartition (gptEntryAt memory entrySize i) (t.parts j)).1
  reports : ∀ i, s ≤ i → i < s + n → ¬ EntryUnused memory entrySize i → t.count < t'.count

theorem gptLoop_listed (hroom : t.count + n ≤ partMax) :
    GptListed memory entrySize s n t (gptLoop memory entrySize n s t).1
      (gptLoop memory entrySize n s t).2 := by
  induction n generalizing s t with
  | zero =>
    exact ⟨Nat.le_refl _, rfl, fun _ _ => rfl,
      fun j hlo hhi => absurd hhi (Nat.not_lt.mpr hlo), fun i hlo hhi => by omega⟩
  | succ n ih =>
    rw [gptLoop_succ]
    by_cases hunused : EntryUnused memory entrySize s
    · rw [gptStep_unused hunused]
      have hrest := @ih t (s + 1) (by omega)
      refine ⟨hrest.grows, hrest.isGpt, hrest.kept, ?_, ?_⟩
      · intro j hlo hhi
        obtain ⟨i, hi, hi', hused, hmade, hvalue⟩ := hrest.decoded j hlo hhi
        exact ⟨i, by omega, by omega, hused, List.mem_append_right _ hmade, hvalue⟩
      · intro i hlo hhi hused
        rcases Nat.eq_or_lt_of_le hlo with rfl | hlt
        · exact absurd hunused hused
        · exact hrest.reports i hlt (by omega) hused
    · rw [gptStep_used hunused]
      generalize hnew : gptPartition (gptEntryAt memory entrySize s) (t.parts t.count) = new
      dsimp only
      have hcount := add_count (t := t) (by omega) new.1
      have hrest := @ih (t.add new.1) (s + 1) (by omega)
      have hgrows := hrest.grows
      have hother : ∀ j, j ≠ t.count → (t.add new.1).parts j = t.parts j :=
        fun j hne => Function.update_of_ne hne _ _
      refine ⟨by omega, hrest.isGpt, ?_, ?_, fun i _ _ _ => by omega⟩
      · intro j hj
        exact (hrest.kept j (by omega)).trans (hother j (by omega))
      · intro j hlo hhi
        rcases Nat.eq_or_lt_of_le hlo with rfl | hlt
        · refine ⟨s, Nat.le_refl _, by omega, hunused, ?_, ?_⟩
          · exact List.mem_append_left _ (List.mem_append_right _ List.mem_cons_self)
          · rw [hrest.kept _ (by omega), hnew]
            exact Function.update_self _ _ _
        · obtain ⟨i, hi, hi', hused, hmade, hvalue⟩ := hrest.decoded j (by omega) hhi
          rw [hother j (by omega)] at hvalue
          exact ⟨i, by omega, by omega, hused, List.mem_append_right _ hmade, hvalue⟩

/-- What the loop over the MBR does to the table. -/
structure MbrListed (mbr : Buffer) (s n : Nat) (t t' : PartitionTable) : Prop where
  grows : t.count ≤ t'.count
  isGpt : t'.isGpt = t.isGpt
  kept : ∀ j < t.count, t'.parts j = t.parts j
  decoded : ∀ j, t.count ≤ j → j < t'.count → ∃ i, s ≤ i ∧ i < s + n ∧
    t'.parts j = mbrPartition mbr i (t.parts j)

theorem mbrLoop_succ : mbrLoop mbr (n + 1) s t =
    ((mbrLoop mbr n (s + 1) (mbrStep mbr s t).1).1,
      (mbrStep mbr s t).2 ++ (mbrLoop mbr n (s + 1) (mbrStep mbr s t).1).2) := rfl

theorem mbrLoop_listed (hroom : t.count + n ≤ partMax) :
    MbrListed mbr s n t (mbrLoop mbr n s t).1 := by
  induction n generalizing s t with
  | zero =>
    exact ⟨Nat.le_refl _, rfl, fun _ _ => rfl, fun j hlo hhi => absurd hhi (Nat.not_lt.mpr hlo)⟩
  | succ n ih =>
    rw [mbrLoop_succ]
    unfold mbrStep
    split_ifs with hempty
    · have hrest := @ih t (s + 1) (by omega)
      refine ⟨hrest.grows, hrest.isGpt, hrest.kept, ?_⟩
      intro j hlo hhi
      obtain ⟨i, hi, hi', hvalue⟩ := hrest.decoded j hlo hhi
      exact ⟨i, by omega, by omega, hvalue⟩
    · generalize hnew : mbrPartition mbr s (t.parts t.count) = new
      dsimp only
      have hcount := add_count (t := t) (by omega) new
      have hrest := @ih (t.add new) (s + 1) (by omega)
      have hgrows := hrest.grows
      have hother : ∀ j, j ≠ t.count → (t.add new).parts j = t.parts j :=
        fun j hne => Function.update_of_ne hne _ _
      refine ⟨by omega, hrest.isGpt, ?_, ?_⟩
      · intro j hj
        exact (hrest.kept j (by omega)).trans (hother j (by omega))
      · intro j hlo hhi
        rcases Nat.eq_or_lt_of_le hlo with rfl | hlt
        · refine ⟨s, Nat.le_refl _, by omega, ?_⟩
          rw [hrest.kept _ (by omega), hnew]
          exact Function.update_self _ _ _
        · obtain ⟨i, hi, hi', hvalue⟩ := hrest.decoded j (by omega) hhi
          rw [hother j (by omega)] at hvalue
          exact ⟨i, by omega, by omega, hvalue⟩

theorem mem_mbrLoop {a : PartAccess} (hroom : t.count + n ≤ partMax)
    (ha : a ∈ (mbrLoop mbr n s t).2) :
    (∃ slot < partMax, ∃ i, a = .part slot i) ∨ ∃ pos < labelSize, a = .label pos := by
  induction n generalizing s t with
  | zero => exact (List.not_mem_nil ha).elim
  | succ n ih =>
    rw [mbrLoop_succ] at ha
    unfold mbrStep at ha
    split_ifs at ha with hempty
    · exact @ih t (s + 1) (by omega) ha
    · rcases List.mem_append.mp ha with hnow | hrest
      · rcases List.mem_cons.mp hnow with rfl | hlabel
        · exact Or.inl ⟨t.count, by omega, s, rfl⟩
        · obtain ⟨pos, hpos, rfl⟩ := List.mem_map.mp hlabel
          have hlt := List.mem_range.mp hpos
          refine Or.inr ⟨pos, ?_, rfl⟩
          unfold labelSize
          omega
      · refine ih ?_ hrest
        rw [add_count (by omega)]
        omega

end PinguinOS.Fs
