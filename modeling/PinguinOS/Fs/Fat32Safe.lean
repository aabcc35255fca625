import PinguinOS.Fs.Fat32Walk

/-! What `fat32_mount` checks of a boot sector, and the accesses of the volume's nodes after it. -/
namespace PinguinOS.Fs

open Mm (u32)

/-- The accesses of a round of `fat32_readdir` or `fat32_finddir` stay inside the buffers; the next
cluster is looked up also after the entry has been found. -/
def dirRoundInside {σ : Type*} (m : Medium) (v : Fat32Vol)
    (pick : σ → Fat32Dirent → Nat → Picked σ × Nat) (s : DirState σ) : Prop :=
  s.cluster < fat32Eoc → sectorsInside v v.sectorsPerCluster v.sectorsPerCluster 0 ∧
    match fat32ReadSectors m v v.sectorsPerCluster (clusterToLba v s.cluster) v.sectorsPerCluster 0
        s.clusterBuf s.k with
    | (none, _) => True
    | (some clusterBuf, k) =>
      match scanEntries pick (dirents v clusterBuf) s.entry k with
      | (.done, _) => True
      | (.found _, _) => entryInside v s.cluster
      | (.more _, _) => entryInside v s.cluster

/-- Every round of the search. -/
def dirInside {σ : Type*} (m : Medium) (ino : Fat32Inode)
    (pick : σ → Fat32Dirent → Nat → Picked σ × Nat) (entry : σ) : Prop :=
  m.fails 0 = false → ino.vol.bytesPerCluster ≠ 0 →
    Orbit.Always (dirNext m ino.vol pick) (dirRoundInside m ino.vol pick)
      ⟨ino.firstCluster, entry, m.fresh, 1⟩

/-- No call on the node divides by zero or leaves a buffer of sectors. -/
structure NodeSafe (m : Medium) (ino : Fat32Inode) : Prop where
  sector_size : ino.vol.bytesPerSector ≠ 0
  cluster_size : ∀ offset < ino.fileSize, ino.vol.bytesPerCluster ≠ 0
  read : ∀ offset < 2 ^ 32, ∀ size < 2 ^ 32, fat32ReadInside m ino offset size
  readdir : ∀ index < 2 ^ 32, dirInside m ino (readdirPick index) 0
  finddir : ∀ name, dirInside m ino (finddirPick m name) ()

/-- When a volume with this boot sector has been mounted, all later calls on its nodes are safe,
whatever fresh memory holds and whichever calls fail. -/
def MountSafe (boot : Buffer) : Prop :=
  ∀ (m : Medium) (root ino : Fat32Inode) (fresh : Buffer) (fails : Nat → Bool), m.sector 0 = boot →
    fat32Mount m = some root → ino.vol = root.vol → NodeSafe ⟨m.sector, fresh, fails⟩ ino

variable {σ : Type*} {pick : σ → Fat32Dirent → Nat → Picked σ × Nat} {m : Medium}
  {boot : Buffer} {ino root : Fat32Inode} {entry : σ} {pos i : Nat}

/-- What `ide_read` delivers of the boot sector. -/
def bootBuffer (m : Medium) : Buffer := fun i => if i < 512 then m.sector 0 i else m.fresh i

theorem ideRead_boot (hfails : m.fails 0 = false) :
    ideRead m 0 1 0 m.fresh 0 = (some (bootBuffer m), 1) := by
  rw [ideRead_ok hfails]
  refine congrArg (fun b => (some b, 1)) (funext fun i => ?_)
  unfold bootBuffer
  by_cases hin : i < 512
  · rw [if_pos (by omega), if_pos hin, Nat.sub_zero, Nat.div_eq_of_lt hin, Nat.mod_eq_of_lt hin]
    rfl
  · rw [if_neg (by omega), if_neg hin]

theorem word16_boot (hin : pos + 1 < 512) : word16 (bootBuffer m) pos = word16 (m.sector 0) pos := by
  unfold word16 bootBuffer
  rw [if_pos hin, if_pos (by omega)]

theorem word32_boot (hin : pos + 3 < 512) : word32 (bootBuffer m) pos = word32 (m.sector 0) pos := by
  refine congrArg BitVec.toNat (Bytes.ofBytes_congr fun i hi => ?_)
  exact if_pos (by omega)

/-- The fields that `fat32_mount` checks, and what it makes of them. -/
theorem mount_fields (hmount : fat32Mount m = some root) :
    word16 (m.sector 0) 11 ∈ [512, 1024, 2048, 4096] ∧ word32 (m.sector 0) 36 ≠ 0 ∧
      root.vol.bytesPerSector = word16 (m.sector 0) 11 ∧
      root.vol.sectorsPerCluster = (m.sector 0 13).toNat := by
  unfold fat32Mount at hmount
  cases hfails : m.fails 0 with
  | true =>
    unfold ideRead at hmount
    rw [hfails] at hmount
    cases hmount
  | false =>
    rw [ideRead_boot hfails] at hmount
    dsimp only at hmount
    split at hmount
    case isFalse => cases hmount
    case isTrue hbytes =>
      split at hmount
      case isTrue => cases hmount
      case isFalse hfat =>
        split at hmount
        case isTrue => cases hmount
        case isFalse =>
          cases hmount
          rw [word16_boot (by decide)] at hbytes
          rw [word32_boot (by decide)] at hfat
          exact ⟨hbytes, hfat, word16_boot (by decide), rfl⟩

theorem mount_ok (hm : ∀ k, m.fails k = false)
    (hbytes : word16 (m.sector 0) 11 ∈ [512, 1024, 2048, 4096])
    (hfat : word32 (m.sector 0) 36 ≠ 0) : ∃ root, fat32Mount m = some root := by
  rw [← word16_boot (by decide)] at hbytes
  rw [← word32_boot (by decide)] at hfat
  have hserved : ¬ (m.fails 1 = true ∨ m.fails (1 + 1) = true ∨ m.fails (1 + 2) = true) := by
    rw [hm, hm, hm]
    decide
  unfold fat32Mount
  rw [ideRead_boot (hm 0)]
  dsimp only
  rw [dif_pos hbytes, if_neg hfat, if_neg hserved]
  exact ⟨_, rfl⟩

/-- With sectors of 512 bytes every access is inside. -/
theorem nodeSafe_512 (hbytes : ino.vol.bytesPerSector = 512) : NodeSafe m ino := by
  have hround : ∀ {σ : Type} (pick : σ → Fat32Dirent → Nat → Picked σ × Nat) (s : DirState σ),
      dirRoundInside m ino.vol pick s := by
    intro σ pick s _
    refine ⟨sectorsInside_512 hbytes ?_, ?_⟩
    · unfold Fat32Vol.bytesPerCluster
      rw [hbytes, Nat.zero_add]
    · split
      · trivial
      · split
        · trivial
        · exact entryInside_512 hbytes
        · exact entryInside_512 hbytes
  constructor
  case sector_size =>
    rw [hbytes]
    decide
  case cluster_size =>
    intro offset hlt
    have hpos := ino.sectors_pos (Nat.zero_lt_of_lt hlt)
    exact Nat.ne_of_gt (bytesPerCluster_pos hpos)
  case read =>
    intro offset _ size _ hlt
    exact fat32ReadInside_512 hbytes (ino.sectors_pos (Nat.zero_lt_of_lt hlt)) hlt
  case readdir => exact fun index _ _ _ k s _ => hround _ s
  case finddir => exact fun name _ _ k s _ => hround _ s

/-- Without sectors in a cluster no buffer is allocated. -/
theorem nodeSafe_empty (hzero : ino.vol.sectorsPerCluster = 0) : NodeSafe m ino := by
  have hempty : ¬ 0 < ino.fileSize := by
    intro hfile
    have hpos := ino.sectors_pos hfile
    omega
  have hcluster : ino.vol.bytesPerCluster = 0 := by
    unfold Fat32Vol.bytesPerCluster
    rw [hzero, Nat.mul_zero]
  constructor
  case sector_size =>
    have hbase := (sizes_bounds ino.vol.bytes_mem).1
    omega
  case cluster_size => exact fun offset hlt => absurd (Nat.zero_lt_of_lt hlt) hempty
  case read => exact fun offset _ size _ hlt => absurd (Nat.zero_lt_of_lt hlt) hempty
  case readdir => exact fun index _ _ hpos => absurd hcluster hpos
  case finddir => exact fun name _ hpos => absurd hcluster hpos

/-- A volume with sectors of 1024 bytes, whose root holds a file `a` of one byte in cluster 128. -/
def wideDisk : Nat → Buffer
  | 0 => fun i => if i = 12 then 4 else if i = 44 then 2 else if i ∈ [13, 14, 16, 36] then 1 else 0
  | _ => fun i => if i = 0 then 0x41 else if i = 26 then 128 else if i = 28 then 1 else 0

def wideRoot : Fat32Inode :=
  ⟨⟨1, 2, 1, 1024, oneSector_lt, by decide⟩, 2, 0, emptySize_lt, fun h => absurd h (Nat.lt_irrefl 0)⟩

def wideFile : Fat32Inode := ⟨wideRoot.vol, 128, 1, by decide, fun _ => by decide⟩

end PinguinOS.Fs
