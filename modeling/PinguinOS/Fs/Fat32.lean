import PinguinOS.Fs.Medium

/-! Reads of a FAT32 file. -/
namespace PinguinOS.Fs

open Mm (u32 sub32)

def fat32Eoc : Nat := 0x0FFFFFF8

/-- `fat32_vol_t`, with the sizes that `fat32_mount` lets through -/
structure Fat32Vol where
  fatStart : Nat
  dataStart : Nat
  sectorsPerCluster : Nat
  bytesPerSector : Nat
  sectors_lt : sectorsPerCluster < 256
  bytes_mem : bytesPerSector ∈ [512, 1024, 2048, 4096]

theorem oneSector_lt : 1 < 256 := by decide

theorem bytes512_mem : 512 ∈ [512, 1024, 2048, 4096] := List.mem_cons_self

def Fat32Vol.bytesPerCluster (v : Fat32Vol) : Nat := v.bytesPerSector * v.sectorsPerCluster

/-- `fat32_inode_t`; the root has size 0, and any other node was found in a cluster that `kmalloc`
gave a buffer for. -/
structure Fat32Inode where
  vol : Fat32Vol
  firstCluster : Nat
  fileSize : Nat
  size_lt : fileSize < 2 ^ 32
  sectors_pos : 0 < fileSize → 0 < vol.sectorsPerCluster

def clusterToLba (v : Fat32Vol) (cluster : Nat) : Nat :=
  u32 (v.dataStart + u32 (sub32 cluster 2 * v.sectorsPerCluster))

/-- The next cluster, and the number of calls so far. -/
def fat32NextCluster (m : Medium) (v : Fat32Vol) (cluster k : Nat) : Nat × Nat :=
  let fatOffset := u32 (cluster * 4)
  let fatSector := u32 (v.fatStart + fatOffset / v.bytesPerSector)
  let entryOffset := fatOffset % v.bytesPerSector
  match ideRead m fatSector 1 0 m.fresh k with
  | (none, k) => (fat32Eoc, k)
  | (some sector, k) => (word32 sector entryOffset &&& 0x0FFFFFFF, k)

/-- The loop of `fat32_read_sectors`; each of its `n` rounds reads a sector at least. -/
def fat32ReadSectors (m : Medium) (v : Fat32Vol) :
    (n lba nSectors pos : Nat) → Buffer → (k : Nat) → Option Buffer × Nat
  | 0, _, _, _, buf, k => (some buf, k)
  | n + 1, lba, nSectors, pos, buf, k =>
    if nSectors = 0 then (some buf, k)
    else
      let batch := min nSectors 255
      match ideRead m lba batch pos buf k with
      | (none, k) => (none, k)
      | (some buf, k) =>
        fat32ReadSectors m v n (u32 (lba + batch)) (nSectors - batch)
          (pos + batch * v.bytesPerSector) buf k

/-- The loop of `fat32_read` over the clusters before the offset; `none` at the end of the chain. -/
def fat32Skip (m : Medium) (v : Fat32Vol) : (n cluster k : Nat) → Option Nat × Nat
  | 0, cluster, k => (some cluster, k)
  | n + 1, cluster, k =>
    let next := fat32NextCluster m v cluster k
    if fat32Eoc ≤ next.1 then (none, next.2) else fat32Skip m v n next.1 next.2

/-- The copy loop of `fat32_read`: the bytes it adds. Each of its `n` rounds copies a byte at
least. -/
def fat32ReadLoop (m : Medium) (v : Fat32Vol) :
    (n size cluster intraCluster k : Nat) → List (BitVec 8)
  | 0, _, _, _, _ => []
  | n + 1, size, cluster, intraCluster, k =>
    if 0 < size ∧ cluster < fat32Eoc then
      match fat32ReadSectors m v v.sectorsPerCluster (clusterToLba v cluster) v.sectorsPerCluster 0
          m.fresh k with
      | (none, _) => []
      | (some clusterBuf, k) =>
        let chunk := min size (v.bytesPerCluster - intraCluster)
        let next := fat32NextCluster m v cluster k
        bytesAt clusterBuf intraCluster chunk ++
          fat32ReadLoop m v n (size - chunk) next.1 0 next.2
    else []

def fat32Read (m : Medium) (ino : Option Fat32Inode) (offset size : Nat) : ReadResult :=
  match ino with
  | none => readTotal []
  | some ino =>
    if ino.fileSize ≤ offset then readTotal []
    else
      let size := clampSize ino.fileSize offset size
      match fat32Skip m ino.vol (offset / ino.vol.bytesPerCluster) ino.firstCluster 0 with
      | (none, _) => readTotal []
      | (some cluster, k) =>
        if m.fails k then readFailed
        else
          readTotal (fat32ReadLoop m ino.vol size size cluster
            (offset % ino.vol.bytesPerCluster) (k + 1))

variable {m : Medium} {v : Fat32Vol} {n size cluster intra k offset : Nat}

theorem fat32ReadLoop_le : (fat32ReadLoop m v n size cluster intra k).length ≤ size := by
  induction n generalizing size cluster intra k with
  | zero => exact Nat.zero_le _
  | succ n ih =>
    unfold fat32ReadLoop
    split
    case isFalse => exact Nat.zero_le _
    case isTrue hmore =>
      split
      · exact Nat.zero_le _
      · rw [List.length_append, length_bytesAt]
        refine (Nat.add_le_add_left ih _).trans ?_
        omega

theorem fat32Read_cases {ino : Fat32Inode} (hinside : offset < ino.fileSize) :
    fat32Read m (some ino) offset size = readFailed ∨
      ∃ out, fat32Read m (some ino) offset size = readTotal out ∧
        out.length ≤ clampSize ino.fileSize offset size := by
  unfold fat32Read
  dsimp only
  rw [if_neg (by omega)]
  split
  · exact Or.inr ⟨[], rfl, Nat.zero_le _⟩
  · split
    · exact Or.inl rfl
    · exact Or.inr ⟨_, rfl, fat32ReadLoop_le⟩

/-! A disk of zeros: every cluster of its volume goes on with cluster 0. -/

def zeroMedium : Medium := ⟨fun _ _ => 0, fun _ => 0, fun _ => false⟩

def zeroVol : Fat32Vol := ⟨0, 0, 1, 512, oneSector_lt, bytes512_mem⟩

theorem ideRead_zero {lba count pos : Nat} :
    ideRead zeroMedium lba count pos (fun _ => 0) k = (some fun _ => 0, k + 1) := by
  simp [ideRead, zeroMedium]

theorem nextCluster_zero : fat32NextCluster zeroMedium zeroVol cluster k = (0, k + 1) := by
  unfold fat32NextCluster
  dsimp only
  rw [show zeroMedium.fresh = fun _ => 0 from rfl, ideRead_zero]
  simp [word32, Bytes.ofBytes]

theorem readSectors_zero {lba : Nat} :
    fat32ReadSectors zeroMedium zeroVol 1 lba 1 0 (fun _ => 0) k = (some fun _ => 0, k + 1) := by
  unfold fat32ReadSectors
  rw [if_neg (by decide)]
  dsimp only
  rw [ideRead_zero]
  rfl

theorem skip_zero : ∃ k', fat32Skip zeroMedium zeroVol n 0 k = (some 0, k') := by
  induction n generalizing k with
  | zero => exact ⟨k, rfl⟩
  | succ n ih =>
    unfold fat32Skip
    rw [nextCluster_zero]
    exact ih

theorem readLoop_zero (hn : size ≤ n) (hintra : intra < 512) :
    (fat32ReadLoop zeroMedium zeroVol n size 0 intra k).length = size := by
  induction n generalizing size intra k with
  | zero =>
    unfold fat32ReadLoop
    simp
    omega
  | succ n ih =>
    unfold fat32ReadLoop
    by_cases hsize : 0 < size
    · rw [if_pos ⟨hsize, by decide⟩]
      have hsectors : fat32ReadSectors zeroMedium zeroVol zeroVol.sectorsPerCluster
          (clusterToLba zeroVol 0) zeroVol.sectorsPerCluster 0 zeroMedium.fresh k =
            (some fun _ => 0, k + 1) := readSectors_zero
      have hcluster : zeroVol.bytesPerCluster = 512 := rfl
      rw [hsectors]
      dsimp only
      rw [nextCluster_zero, List.length_append, length_bytesAt, hcluster,
        ih (by omega) (by decide)]
      omega
    · rw [if_neg (fun h => hsize h.1)]
      simp
      omega

theorem fat32Read_zero {f : Nat} (hlt : f < 2 ^ 32) (hinside : offset < f) :
    ∃ out, fat32Read zeroMedium (some ⟨zeroVol, 0, f, hlt, fun _ => by decide⟩) offset size =
      readTotal out ∧ out.length = clampSize f offset size := by
  unfold fat32Read
  dsimp only
  rw [if_neg (by omega)]
  obtain ⟨k, hskip⟩ := @skip_zero (offset / zeroVol.bytesPerCluster) 0
  rw [hskip]
  refine ⟨_, rfl, readLoop_zero (Nat.le_refl _) (Nat.mod_lt _ (by decide))⟩

/-- The reads of every FAT32 file of this size keep to the file and the request. -/
def Fat32Bounded (fileSize offset size : Nat) : Prop :=
  ∀ (m : Medium) (ino : Option Fat32Inode), (∀ i ∈ ino, i.fileSize = fileSize) →
    ReadOk fileSize offset size (fat32Read m ino offset size)

end PinguinOS.Fs
