import PinguinOS.Fs.Fat32

/-! The content of a FAT32 file, and what a read of it returns. -/
namespace PinguinOS.Fs

open Mm (u32 sub32)

/-- `fat32_mount`: the inode of the root. -/
def fat32Mount (m : Medium) : Option Fat32Inode :=
  match ideRead m 0 1 0 m.fresh 0 with
  | (none, _) => none
  | (some sector, k) =>
    if hbytes : word16 sector 11 ∈ [512, 1024, 2048, 4096] then
      if word32 sector 36 = 0 then none
      else if m.fails k ∨ m.fails (k + 1) ∨ m.fails (k + 2) then none
      else some
        { vol :=
            { fatStart := word16 sector 14
              dataStart := u32 (word16 sector 14 + u32 ((sector 16).toNat * word32 sector 36))
              sectorsPerCluster := (sector 13).toNat
              bytesPerSector := word16 sector 11
              sectors_lt := BitVec.isLt _
              bytes_mem := hbytes }
          firstCluster := word32 sector 44
          fileSize := 0
          size_lt := emptySize_lt
          sectors_pos := fun h => absurd h (Nat.lt_irrefl 0) }
    else none

/-! What the disk holds. -/

/-- The disk as one range of bytes. -/
def diskBytes (m : Medium) : Buffer := fun a => m.sector (a / 512) (a % 512)

/-- The entry of a cluster in the file allocation table. -/
def fatEntry (m : Medium) (v : Fat32Vol) (c : Nat) : Nat :=
  word32 (diskBytes m) (v.fatStart * v.bytesPerSector + 4 * c) &&& 0x0FFFFFFF

def clusterBytes (m : Medium) (v : Fat32Vol) (c : Nat) : List (BitVec 8) :=
  bytesAt (diskBytes m) ((v.dataStart + (c - 2) * v.sectorsPerCluster) * v.bytesPerSector)
    v.bytesPerCluster

/-- The cluster has an entry in the table and its sectors are on the disk, which has at most 2^28
sectors. -/
structure Fat32Vol.HasCluster (v : Fat32Vol) (c : Nat) : Prop where
  first : 2 ≤ c
  last : c < fat32Eoc
  entry : v.fatStart * v.bytesPerSector + 4 * c + 4 ≤ v.dataStart * v.bytesPerSector
  disk : (v.dataStart + (c - 1) * v.sectorsPerCluster) * v.bytesPerSector ≤ 2 ^ 28 * 512

/-- From the cluster `c` on, the table links these clusters, and then ends. -/
def FatChain (m : Medium) (v : Fat32Vol) : Nat → List Nat → Prop
  | c, [] => fat32Eoc ≤ c
  | c, d :: chain => c = d ∧ v.HasCluster d ∧ FatChain m v (fatEntry m v d) chain

/-! The buffers of `fat32_read`. -/

/-- `memcpy(&val, sector + entry_offset, 4)` reads `uint8_t sector[512]`. -/
def entryInside (v : Fat32Vol) (cluster : Nat) : Prop :=
  u32 (cluster * 4) % v.bytesPerSector + 4 ≤ 512

/-- The batches of `fat32_read_sectors` end inside the cluster buffer. -/
def sectorsInside (v : Fat32Vol) : (n nSectors pos : Nat) → Prop
  | 0, _, _ => True
  | n + 1, nSectors, pos => nSectors ≠ 0 →
    pos + 512 * min nSectors 255 ≤ v.bytesPerCluster ∧
      sectorsInside v n (nSectors - min nSectors 255) (pos + min nSectors 255 * v.bytesPerSector)

def skipInside (m : Medium) (v : Fat32Vol) : (n cluster k : Nat) → Prop
  | 0, _, _ => True
  | n + 1, cluster, k => entryInside v cluster ∧
    ((fat32NextCluster m v cluster k).1 < fat32Eoc →
      skipInside m v n (fat32NextCluster m v cluster k).1 (fat32NextCluster m v cluster k).2)

def loopInside (m : Medium) (v : Fat32Vol) : (n size cluster intraCluster k : Nat) → Prop
  | 0, _, _, _, _ => True
  | n + 1, size, cluster, intraCluster, k =>
    0 < size ∧ cluster < fat32Eoc → sectorsInside v v.sectorsPerCluster v.sectorsPerCluster 0 ∧
      match fat32ReadSectors m v v.sectorsPerCluster (clusterToLba v cluster) v.sectorsPerCluster 0
          m.fresh k with
      | (none, _) => True
      | (some _, k) =>
        let chunk := min size (v.bytesPerCluster - intraCluster)
        let next := fat32NextCluster m v cluster k
        intraCluster + chunk ≤ v.bytesPerCluster ∧ entryInside v cluster ∧
          loopInside m v n (size - chunk) next.1 0 next.2

/-- Every access of the read to a buffer of sectors stays inside the buffer. -/
def fat32ReadInside (m : Medium) (ino : Fat32Inode) (offset size : Nat) : Prop :=
  offset < ino.fileSize →
    let size := clampSize ino.fileSize offset size
    skipInside m ino.vol (offset / ino.vol.bytesPerCluster) ino.firstCluster 0 ∧
      match fat32Skip m ino.vol (offset / ino.vol.bytesPerCluster) ino.firstCluster 0 with
      | (none, _) => True
      | (some cluster, k) =>
        m.fails k = false →
          loopInside m ino.vol size size cluster (offset % ino.vol.bytesPerCluster) (k + 1)

/-- The read returns the bytes of the file from `offset` on, up to `size` of them. -/
def ReadsChain (m : Medium) (ino : Fat32Inode) (chain : List Nat) (offset size : Nat) : Prop :=
  let n := min size (ino.fileSize - offset)
  fat32Read m (some ino) offset size =
    ((n : Int), ((chain.flatMap (clusterBytes m ino.vol)).drop offset).take n)

/-- On every volume with this sector size, each read of a file of this size returns its content
and stays inside its buffers; no call fails. -/
def Fat32Content (bytesPerSector fileSize offset size : Nat) : Prop :=
  ∀ (m : Medium) (root ino : Fat32Inode) (chain : List Nat), (∀ k, m.fails k = false) →
    fat32Mount m = some root → ino.vol = root.vol → ino.vol.bytesPerSector = bytesPerSector →
      0 < ino.vol.sectorsPerCluster → ino.fileSize = fileSize →
        FatChain m ino.vol ino.firstCluster chain →
          fileSize ≤ chain.length * ino.vol.bytesPerCluster →
            ReadsChain m ino chain offset size ∧ fat32ReadInside m ino offset size

variable {m : Medium} {v : Fat32Vol} {ino : Fat32Inode} {chain : List Nat} {buf : Buffer}
  {c d n q r k i pos size cluster intra offset fileSize : Nat}

theorem drop_bytesAt : (bytesAt buf pos n).drop i = bytesAt buf (pos + i) (n - i) := by
  refine List.ext_getElem ?_ ?_
  · rw [List.length_drop, length_bytesAt, length_bytesAt]
  · intro j hj hj'
    simp [bytesAt, Nat.add_assoc]

theorem take_bytesAt : (bytesAt buf pos n).take i = bytesAt buf pos (min i n) := by
  refine List.ext_getElem ?_ ?_
  · rw [List.length_take, length_bytesAt, length_bytesAt]
  · intro j hj hj'
    simp [bytesAt]

theorem length_clusterBytes : (clusterBytes m v c).length = v.bytesPerCluster := length_bytesAt

theorem length_clusters :
    (chain.flatMap (clusterBytes m v)).length = chain.length * v.bytesPerCluster := by
  induction chain with
  | nil => exact (Nat.zero_mul _).symm
  | cons d chain ih =>
    rw [List.flatMap_cons, List.length_append, length_clusterBytes, ih, List.length_cons,
      Nat.succ_mul, Nat.add_comm]

/-- Whole clusters are dropped with their bytes. -/
theorem drop_clusters : (chain.flatMap (clusterBytes m v)).drop (q * v.bytesPerCluster + r) =
    ((chain.drop q).flatMap (clusterBytes m v)).drop r := by
  induction q generalizing chain with
  | zero => rw [Nat.zero_mul, Nat.zero_add, List.drop_zero]
  | succ q ih =>
    cases chain with
    | nil => simp
    | cons d chain =>
      have hmore : (q + 1) * v.bytesPerCluster + r =
          (clusterBytes m v d).length + (q * v.bytesPerCluster + r) := by
        rw [length_clusterBytes, Nat.succ_mul]
        omega
      rw [List.flatMap_cons, hmore, List.drop_length_add_append, List.drop_succ_cons]
      exact ih

/-! Sectors of 512 bytes. -/

theorem nextCluster_eq (hbytes : v.bytesPerSector = 512) (hm : ∀ k, m.fails k = false)
    (hc : v.HasCluster c) : fat32NextCluster m v c k = (fatEntry m v c, k + 1) := by
  have hentry := hc.entry
  have hdisk := hc.disk
  have hlast := hc.last
  have hmul : v.dataStart * 512 ≤ (v.dataStart + (c - 1) * v.sectorsPerCluster) * 512 := by omega
  rw [hbytes] at hentry hdisk
  unfold fat32Eoc at hlast
  have hoffset : u32 (c * 4) = c * 4 := Mm.u32_of_lt (by omega)
  have hsector : u32 (v.fatStart + c * 4 / 512) = v.fatStart + c * 4 / 512 :=
    Mm.u32_of_lt (by omega)
  unfold fat32NextCluster fatEntry
  dsimp only
  rw [hoffset, hbytes, hsector, ideRead_ok (hm k)]
  dsimp only
  refine congrArg (fun w : BitVec 32 => (w.toNat &&& 0x0FFFFFFF, k + 1)) (Bytes.ofBytes_congr ?_)
  intro j hj
  unfold diskBytes
  dsimp only
  rw [if_pos (by omega), Mm.u32_of_lt (by omega)]
  congr 1
  · omega
  · omega

theorem readSectors_zero_left : fat32ReadSectors m v n c 0 pos buf k = (some buf, k) := by
  cases n with
  | zero => rfl
  | succ n => exact if_pos rfl

/-- One batch reads as many sectors of 512 bytes as a cluster has. -/
theorem readSectors_once {lba : Nat} (hpos : 0 < v.sectorsPerCluster) :
    fat32ReadSectors m v v.sectorsPerCluster lba v.sectorsPerCluster 0 buf k =
      (if m.fails k then none
        else some fun i =>
          if i < 512 * v.sectorsPerCluster then m.sector (u32 (lba + i / 512)) (i % 512)
          else buf i, k + 1) := by
  have hsectors := v.sectors_lt
  have hbatch : min v.sectorsPerCluster 255 = v.sectorsPerCluster := by omega
  have hplace : ∀ i, (0 ≤ i ∧ i < 0 + 512 * v.sectorsPerCluster) ↔
      i < 512 * v.sectorsPerCluster := by
    intro i
    omega
  obtain ⟨n, hn⟩ := Nat.exists_eq_succ_of_ne_zero (Nat.ne_of_gt hpos)
  rw [hn]
  unfold fat32ReadSectors
  rw [← Nat.succ_eq_add_one, ← hn, if_neg (Nat.ne_of_gt hpos)]
  dsimp only
  rw [hbatch, ideRead, Nat.sub_self]
  simp only [hplace, Nat.sub_zero]
  cases m.fails k with
  | true => rfl
  | false => exact readSectors_zero_left

theorem readSectors_batch {lba : Nat} (hm : ∀ k, m.fails k = false)
    (hpos : 0 < v.sectorsPerCluster) :
    fat32ReadSectors m v v.sectorsPerCluster lba v.sectorsPerCluster 0 buf k = (some fun i =>
      if i < 512 * v.sectorsPerCluster then m.sector (u32 (lba + i / 512)) (i % 512)
      else buf i, k + 1) := by
  rw [readSectors_once hpos, hm k]
  rfl

/-- One batch reads a whole cluster. -/
theorem readSectors_eq (hbytes : v.bytesPerSector = 512) (hm : ∀ k, m.fails k = false)
    (hpos : 0 < v.sectorsPerCluster) (hc : v.HasCluster c) :
    ∃ b, fat32ReadSectors m v v.sectorsPerCluster (clusterToLba v c) v.sectorsPerCluster 0 buf k =
        (some b, k + 1) ∧
      ∀ i < v.bytesPerCluster, b i = diskBytes m
        ((v.dataStart + (c - 2) * v.sectorsPerCluster) * v.bytesPerSector + i) := by
  have hfirst := hc.first
  have hdisk := hc.disk
  have hsectors := v.sectors_lt
  have hstep : (c - 1) * v.sectorsPerCluster =
      (c - 2) * v.sectorsPerCluster + v.sectorsPerCluster := by
    have hsucc : c - 1 = c - 2 + 1 := by omega
    rw [hsucc, Nat.succ_mul]
  have hlast := hc.last
  unfold fat32Eoc at hlast
  rw [hbytes, hstep] at hdisk
  have hlba : clusterToLba v c = v.dataStart + (c - 2) * v.sectorsPerCluster := by
    have hinner : u32 ((c - 2) * v.sectorsPerCluster) = (c - 2) * v.sectorsPerCluster :=
      Mm.u32_of_lt (by omega)
    unfold clusterToLba
    rw [Mm.sub32_of_le hfirst (by omega), hinner, Mm.u32_of_lt (by omega)]
  have hsize : v.bytesPerCluster = 512 * v.sectorsPerCluster := by
    unfold Fat32Vol.bytesPerCluster
    rw [hbytes]
  refine ⟨_, readSectors_batch hm hpos, ?_⟩
  intro i hi
  rw [hsize] at hi
  unfold diskBytes
  rw [if_pos (by omega), hlba, hbytes, Mm.u32_of_lt (by omega)]
  congr 1
  · omega
  · omega

/-- The walk over the first clusters. -/
theorem fat32Skip_eq (hbytes : v.bytesPerSector = 512) (hm : ∀ k, m.fails k = false)
    (hchain : FatChain m v c chain) (hn : n < chain.length) :
    ∃ d, fat32Skip m v n c k = (some d, k + n) ∧ FatChain m v d (chain.drop n) := by
  induction n generalizing c chain k with
  | zero => exact ⟨c, rfl, hchain⟩
  | succ n ih =>
    cases chain with
    | nil => exact absurd hn (Nat.not_lt_zero _)
    | cons d chain =>
      obtain ⟨rfl, hc, hrest⟩ := hchain
      have hmore : n < chain.length := Nat.lt_of_succ_lt_succ hn
      have hnext : fatEntry m v c < fat32Eoc := by
        cases chain with
        | nil => exact absurd hmore (Nat.not_lt_zero _)
        | cons e chain =>
          rw [hrest.1]
          exact hrest.2.1.last
      unfold fat32Skip
      dsimp only
      rw [nextCluster_eq hbytes hm hc]
      dsimp only
      rw [if_neg (Nat.not_le.mpr hnext), List.drop_succ_cons]
      obtain ⟨d, hd, hlast⟩ := @ih _ _ (k + 1) hrest hmore
      exact ⟨d, by rw [hd, Nat.add_assoc, Nat.add_comm 1 n], hlast⟩

/-- The copy loop returns the bytes of the clusters. -/
theorem fat32ReadLoop_eq (hbytes : v.bytesPerSector = 512) (hm : ∀ k, m.fails k = false)
    (hpos : 0 < v.sectorsPerCluster) (hchain : FatChain m v c chain)
    (hintra : intra < v.bytesPerCluster) (hn : size ≤ n)
    (hsize : intra + size ≤ chain.length * v.bytesPerCluster) :
    fat32ReadLoop m v n size c intra k =
      ((chain.flatMap (clusterBytes m v)).drop intra).take size := by
  induction n generalizing size c chain intra k with
  | zero =>
    obtain rfl : size = 0 := Nat.le_zero.mp hn
    rfl
  | succ n ih =>
    unfold fat32ReadLoop
    by_cases hzero : size = 0
    · subst hzero
      rw [if_neg (fun h => Nat.lt_irrefl 0 h.1), List.take_zero]
    cases chain with
    | nil =>
      rw [List.length_nil, Nat.zero_mul] at hsize
      omega
    | cons d chain =>
      obtain ⟨rfl, hc, hrest⟩ := hchain
      obtain ⟨b, hread, hb⟩ := @readSectors_eq m v m.fresh c k hbytes hm hpos hc
      rw [if_pos ⟨Nat.pos_of_ne_zero hzero, hc.last⟩, hread]
      dsimp only
      rw [nextCluster_eq hbytes hm hc]
      dsimp only
      rw [List.length_cons, Nat.succ_mul] at hsize
      have hspace : 0 < v.bytesPerCluster := Nat.zero_lt_of_lt hintra
      have hagain : fat32ReadLoop m v n (size - min size (v.bytesPerCluster - intra))
          (fatEntry m v c) 0 (k + 1 + 1) = ((chain.flatMap (clusterBytes m v)).drop 0).take
            (size - min size (v.bytesPerCluster - intra)) :=
        ih hrest hspace (by omega) (by omega)
      rw [hagain]
      have hfirst : (clusterBytes m v c).drop intra =
          bytesAt (diskBytes m) ((v.dataStart + (c - 2) * v.sectorsPerCluster) * v.bytesPerSector +
            intra) (v.bytesPerCluster - intra) := drop_bytesAt
      have hcopy : bytesAt b intra (min size (v.bytesPerCluster - intra)) =
          ((clusterBytes m v c).drop intra).take size := by
        rw [hfirst, take_bytesAt]
        refine bytesAt_congr ?_
        intro i hi
        rw [hb (intra + i) (by omega), Nat.add_assoc]
      have hlength : ((clusterBytes m v c).drop intra).length = v.bytesPerCluster - intra := by
        rw [List.length_drop, length_clusterBytes]
      have hrestsize : size - min size (v.bytesPerCluster - intra) =
          size - (v.bytesPerCluster - intra) := by omega
      rw [hcopy, hrestsize, List.drop_zero, List.flatMap_cons,
        List.drop_append_of_le_length (by rw [length_clusterBytes]; omega), List.take_append,
        hlength]

theorem entryInside_512 (hbytes : v.bytesPerSector = 512) : entryInside v c := by
  unfold entryInside u32
  rw [hbytes]
  omega

theorem sectorsInside_512 (hbytes : v.bytesPerSector = 512)
    (hle : pos + 512 * r ≤ v.bytesPerCluster) : sectorsInside v n r pos := by
  induction n generalizing r pos with
  | zero => trivial
  | succ n ih =>
    intro hr
    refine ⟨by omega, ih ?_⟩
    rw [hbytes]
    omega

theorem skipInside_512 (hbytes : v.bytesPerSector = 512) : skipInside m v n c k := by
  induction n generalizing c k with
  | zero => trivial
  | succ n ih => exact ⟨entryInside_512 hbytes, fun _ => ih⟩

theorem loopInside_512 (hbytes : v.bytesPerSector = 512) (hintra : intra ≤ v.bytesPerCluster) :
    loopInside m v n size c intra k := by
  induction n generalizing size c intra k with
  | zero => trivial
  | succ n ih =>
    intro _
    refine ⟨sectorsInside_512 hbytes ?_, ?_⟩
    · unfold Fat32Vol.bytesPerCluster
      rw [hbytes, Nat.zero_add]
    · split
      · trivial
      · exact ⟨by omega, entryInside_512 hbytes, ih (Nat.zero_le _)⟩

theorem fat32ReadInside_512 (hbytes : ino.vol.bytesPerSector = 512)
    (hpos : 0 < ino.vol.sectorsPerCluster) : fat32ReadInside m ino offset size := by
  intro _
  refine ⟨skipInside_512 hbytes, ?_⟩
  split
  · trivial
  · intro _
    refine loopInside_512 hbytes (Nat.le_of_lt (Nat.mod_lt _ ?_))
    unfold Fat32Vol.bytesPerCluster
    rw [hbytes]
    omega

theorem clampSize_eq (hwrap : offset + size < 2 ^ 32) :
    clampSize fileSize offset size = min size (fileSize - offset) := by
  unfold clampSize
  rw [Mm.u32_of_lt hwrap]
  split
  · omega
  · omega

/-- With sectors of 512 bytes the read returns the bytes of the chain. -/
theorem fat32Read_eq (hbytes : ino.vol.bytesPerSector = 512) (hm : ∀ k, m.fails k = false)
    (hpos : 0 < ino.vol.sectorsPerCluster) (hwrap : offset + size < 2 ^ 32)
    (hinside : offset < ino.fileSize) (hchain : FatChain m ino.vol ino.firstCluster chain)
    (hsize : ino.fileSize ≤ chain.length * ino.vol.bytesPerCluster) :
    fat32Read m (some ino) offset size =
      readTotal (((chain.flatMap (clusterBytes m ino.vol)).drop offset).take
        (min size (ino.fileSize - offset))) := by
  have hspace : 0 < ino.vol.bytesPerCluster := by
    unfold Fat32Vol.bytesPerCluster
    rw [hbytes]
    omega
  have hskipped : offset / ino.vol.bytesPerCluster < chain.length := by
    refine Nat.div_lt_of_lt_mul ?_
    rw [Nat.mul_comm]
    omega
  obtain ⟨d, hskip, hrest⟩ := @fat32Skip_eq _ _ _ _ _ 0 hbytes hm hchain hskipped
  have hparts : offset / ino.vol.bytesPerCluster * ino.vol.bytesPerCluster +
      offset % ino.vol.bytesPerCluster = offset := Nat.div_add_mod' _ _
  have hloop : ∀ k n s, s ≤ n → s ≤ ino.fileSize - offset →
      fat32ReadLoop m ino.vol n s d (offset % ino.vol.bytesPerCluster) k =
        ((chain.flatMap (clusterBytes m ino.vol)).drop offset).take s := by
    intro k n s hn hs
    have hlength : offset % ino.vol.bytesPerCluster + s ≤
        (chain.drop (offset / ino.vol.bytesPerCluster)).length * ino.vol.bytesPerCluster := by
      rw [List.length_drop, Nat.sub_mul]
      omega
    rw [fat32ReadLoop_eq hbytes hm hpos hrest (Nat.mod_lt _ hspace) hn hlength]
    rw [← drop_clusters, hparts]
  unfold fat32Read
  dsimp only
  rw [if_neg (Nat.not_le.mpr hinside), clampSize_eq hwrap, hskip]
  dsimp only
  rw [hm, if_neg Bool.false_ne_true, hloop _ _ _ (Nat.le_refl _) (Nat.min_le_right _ _)]

theorem readsChain_end (hend : ino.fileSize ≤ offset) :
    ReadsChain m ino chain offset size ∧ fat32ReadInside m ino offset size := by
  refine ⟨?_, fun hlt => absurd hend (Nat.not_le.mpr hlt)⟩
  unfold ReadsChain fat32Read
  dsimp only
  rw [if_pos hend, Nat.sub_eq_zero_of_le hend, Nat.min_zero]
  rfl

/-- A read of no bytes in the first cluster reads no sector. -/
theorem readsChain_nothing (hm : ∀ k, m.fails k = false) (hinside : offset < ino.fileSize)
    (hfirst : offset < ino.vol.bytesPerCluster) (hwrap : offset < 2 ^ 32) :
    ReadsChain m ino chain offset 0 ∧ fat32ReadInside m ino offset 0 := by
  have hcluster : offset / ino.vol.bytesPerCluster = 0 := Nat.div_eq_of_lt hfirst
  have hclamp : clampSize ino.fileSize offset 0 = 0 := by
    rw [clampSize_eq hwrap, Nat.zero_min]
  constructor
  · unfold ReadsChain fat32Read
    dsimp only
    rw [if_neg (Nat.not_le.mpr hinside), hcluster, hclamp, Nat.zero_min]
    unfold fat32Skip
    dsimp only
    rw [hm, if_neg Bool.false_ne_true]
    rfl
  · intro _
    dsimp only
    rw [hcluster, hclamp]
    exact ⟨trivial, fun _ => trivial⟩

/-! A volume with one chain of `n` clusters of one sector, from cluster 128 on. The entry of that
cluster is the first one outside the first 512 bytes of the table. -/

def bootSectorByte (bytesPerSector : Nat) : Nat → BitVec 8
  | 12 => BitVec.ofNat 8 (bytesPerSector / 256)
  | 13 => 1
  | 14 => 1
  | 16 => 1
  | 38 => 2
  | 44 => 2
  | _ => 0

/-- The entry of cluster `c`. -/
def lineEntry (n c : Nat) : Nat := if c + 1 < 128 + n then c + 1 else 0x0FFFFFFF

def lineByte (bytesPerSector n a : Nat) : BitVec 8 :=
  if a < 512 then bootSectorByte bytesPerSector a
  else Bytes.byteOf (BitVec.ofNat 32 (lineEntry n ((a - bytesPerSector) / 4)))
    ((a - bytesPerSector) % 4)

def lineMedium (bytesPerSector n : Nat) : Medium where
  sector lba i := lineByte bytesPerSector n (lba * 512 + i)
  fresh := fun _ => 0
  fails := fun _ => false

def lineVol (bytesPerSector : Nat) (h : bytesPerSector ∈ [512, 1024, 2048, 4096]) : Fat32Vol :=
  ⟨1, 0x20001, 1, bytesPerSector, oneSector_lt, h⟩

variable {B : Nat} {hB : B ∈ [512, 1024, 2048, 4096]}

theorem sizes_cases (hB : B ∈ [512, 1024, 2048, 4096]) :
    B = 512 ∨ B = 1024 ∨ B = 2048 ∨ B = 4096 := by
  simpa using hB

theorem sizes_bounds (hB : B ∈ [512, 1024, 2048, 4096]) : 512 ≤ B ∧ B ≤ 4096 := by
  rcases sizes_cases hB with rfl | rfl | rfl | rfl <;> omega

theorem lineMount : ∃ root, fat32Mount (lineMedium B n) = some root ∧ root.vol = lineVol B hB := by
  unfold fat32Mount
  rw [ideRead_ok rfl]
  generalize hsector : (fun i =>
    if 0 ≤ i ∧ i < 0 + 512 * 1 then
      (lineMedium B n).sector (u32 (0 + (i - 0) / 512)) ((i - 0) % 512)
    else (lineMedium B n).fresh i) = sector
  have hboot : ∀ i < 512, sector i = bootSectorByte B i := by
    intro i hi
    have hlba : u32 (0 + (i - 0) / 512) = 0 := by
      unfold u32
      omega
    have hrest : 0 * 512 + (i - 0) % 512 = i := by omega
    rw [← hsector]
    show (if 0 ≤ i ∧ i < 0 + 512 * 1 then
      lineByte B n (u32 (0 + (i - 0) / 512) * 512 + (i - 0) % 512) else 0) = bootSectorByte B i
    rw [if_pos (by omega), hlba, hrest]
    exact if_pos hi
  have hbytes : word16 sector 11 = B := by
    unfold word16
    rw [hboot _ (by decide), hboot _ (by decide)]
    rcases sizes_cases hB with rfl | rfl | rfl | rfl <;> decide
  have hreserved : word16 sector 14 = 1 := by
    have hlow : sector 14 = 1 := hboot 14 (by decide)
    have hhigh : sector 15 = 0 := hboot 15 (by decide)
    show (sector 15 ++ sector 14).toNat = 1
    rw [hlow, hhigh]
    decide
  have htable : word32 sector 36 = 0x20000 := by
    have hbyte : sector 36 = 0 ∧ sector 37 = 0 ∧ sector 38 = 2 ∧ sector 39 = 0 :=
      ⟨hboot 36 (by decide), hboot 37 (by decide), hboot 38 (by decide), hboot 39 (by decide)⟩
    show (sector 39 ++ sector 38 ++ sector 37 ++ sector 36).toNat = 0x20000
    rw [hbyte.1, hbyte.2.1, hbyte.2.2.1, hbyte.2.2.2]
    decide
  have hcluster : (sector 13).toNat = 1 := by
    rw [hboot _ (by decide)]
    rfl
  have hcount : (sector 16).toNat = 1 := by
    rw [hboot _ (by decide)]
    rfl
  have hfails : ¬ ((lineMedium B n).fails 1 ∨ (lineMedium B n).fails (1 + 1) ∨
      (lineMedium B n).fails (1 + 2)) := by
    rintro (h | h | h) <;> cases h
  dsimp only
  rw [dif_pos (hbytes.symm ▸ hB), if_neg (by rw [htable]; decide), if_neg hfails]
  refine ⟨_, rfl, ?_⟩
  simp only [lineVol, Fat32Vol.mk.injEq, hbytes, hreserved, htable, hcluster, hcount, true_and,
    and_true]
  rfl

theorem diskBytes_line {a : Nat} : diskBytes (lineMedium B n) a = lineByte B n a := by
  show lineByte B n (a / 512 * 512 + a % 512) = lineByte B n a
  rw [Nat.div_add_mod']

theorem fatEntry_line (hc : 128 ≤ c) (hlt : c < 2 ^ 27) :
    fatEntry (lineMedium B n) (lineVol B hB) c = lineEntry n c := by
  have hbase := (sizes_bounds hB).1
  have hentry : lineEntry n c < 2 ^ 28 := by
    unfold lineEntry
    split
    · omega
    · omega
  have hword : (fun j => diskBytes (lineMedium B n) (1 * B + 4 * c + j)) =
      fun j => lineByte B n (1 * B + 4 * c + j) := funext fun _ => diskBytes_line
  have hbytes : word32 (diskBytes (lineMedium B n)) (1 * B + 4 * c) = lineEntry n c := by
    unfold word32
    rw [hword]
    have hsame : Bytes.ofBytes (fun j => lineByte B n (1 * B + 4 * c + j)) =
        Bytes.ofBytes fun j => Bytes.byteOf (BitVec.ofNat 32 (lineEntry n c)) j := by
      refine Bytes.ofBytes_congr ?_
      intro j hj
      have hquot : (1 * B + 4 * c + j - B) / 4 = c := by omega
      have hrem : (1 * B + 4 * c + j - B) % 4 = j := by omega
      unfold lineByte
      rw [if_neg (by omega), hquot, hrem]
    rw [hsame, Bytes.ofBytes_byteOf, BitVec.toNat_ofNat]
    exact Nat.mod_eq_of_lt (by omega)
  show word32 (diskBytes (lineMedium B n)) (1 * B + 4 * c) &&& (2 ^ 28 - 1) = lineEntry n c
  rw [hbytes, Nat.and_two_pow_sub_one_eq_mod, Nat.mod_eq_of_lt hentry]

/-- The clusters from `c` on. -/
theorem fatChain_line (hc : 128 ≤ c) (hcr : c + r = 128 + n) (hn : n * B ≤ 2 ^ 32 + B) :
    FatChain (lineMedium B n) (lineVol B hB) (if r = 0 then 0x0FFFFFFF else c)
      (List.range' c r) := by
  have hbound : n ≤ 2 ^ 23 + 1 := by
    rcases sizes_cases hB with rfl | rfl | rfl | rfl <;> omega
  have hsize := sizes_bounds hB
  induction r generalizing c with
  | zero =>
    show fat32Eoc ≤ 0x0FFFFFFF
    decide
  | succ r ih =>
    rw [if_neg (Nat.succ_ne_zero r), List.range'_succ]
    refine ⟨rfl, ?_, ?_⟩
    · constructor
      case first => omega
      case last =>
        unfold fat32Eoc
        omega
      case entry =>
        show 1 * B + 4 * c + 4 ≤ 0x20001 * B
        omega
      case disk =>
        show (0x20001 + (c - 1) * 1) * B ≤ 2 ^ 28 * 512
        have hsectors : (0x20001 + (c - 1) * 1) * B ≤ (0x20080 + n) * B :=
          Nat.mul_le_mul_right B (by omega)
        rw [Nat.add_mul 0x20080 n B] at hsectors
        omega
    · rw [fatEntry_line hc (by omega)]
      have hnext : lineEntry n c = if r = 0 then 0x0FFFFFFF else c + 1 := by
        unfold lineEntry
        by_cases hr : r = 0
        · rw [if_pos hr, if_neg (by omega)]
        · rw [if_neg hr, if_pos (by omega)]
      rw [hnext]
      exact ih (by omega) (by omega)

/-- A file of the size on that volume, with the whole chain. -/
theorem line_file (hB : B ∈ [512, 1024, 2048, 4096]) (hfile : fileSize < 2 ^ 32)
    (hcontent : Fat32Content B fileSize offset size) :
    ∃ (m : Medium) (ino : Fat32Inode) (chain : List Nat), (∀ k, m.fails k = false) ∧
      ino.vol = lineVol B hB ∧ ino.firstCluster = 128 ∧ ino.fileSize = fileSize ∧
        FatChain m ino.vol ino.firstCluster chain ∧
          fileSize ≤ chain.length * ino.vol.bytesPerCluster ∧
            ReadsChain m ino chain offset size ∧ fat32ReadInside m ino offset size := by
  have hpos : 0 < B := Nat.lt_of_lt_of_le (by decide) (sizes_bounds hB).1
  have hdown : fileSize / B * B ≤ fileSize := Nat.div_mul_le_self _ _
  have hparts : fileSize / B * B + fileSize % B = fileSize := Nat.div_add_mod' _ _
  have hrest := Nat.mod_lt fileSize hpos
  obtain ⟨root, hmount, hvol⟩ := @lineMount (fileSize / B + 1) B hB
  let ino : Fat32Inode := ⟨lineVol B hB, 128, fileSize, hfile, fun _ => Nat.one_pos⟩
  have hchain : FatChain (lineMedium B (fileSize / B + 1)) ino.vol ino.firstCluster
      (List.range' 128 (fileSize / B + 1)) := by
    have hline := @fatChain_line 128 (fileSize / B + 1) (fileSize / B + 1) B hB (Nat.le_refl _) rfl
      (by rw [Nat.succ_mul]; omega)
    rwa [if_neg (Nat.succ_ne_zero _)] at hline
  have hlength : fileSize ≤
      (List.range' 128 (fileSize / B + 1)).length * ino.vol.bytesPerCluster := by
    rw [List.length_range']
    show fileSize ≤ (fileSize / B + 1) * (B * 1)
    rw [Nat.mul_one, Nat.succ_mul]
    omega
  exact ⟨lineMedium B (fileSize / B + 1), ino, _, fun _ => rfl, rfl, rfl, rfl, hchain, hlength,
    hcontent _ root ino _ (fun _ => rfl) hmount hvol.symm rfl Nat.one_pos rfl hchain hlength⟩

/-- The entry of cluster 128 is not in the buffer of a larger sector. -/
theorem not_entryInside (hne : v.bytesPerSector ≠ 512) : ¬ entryInside v 128 := by
  have h : (128 * 4 : Nat) % v.bytesPerSector = 512 := by
    rcases sizes_cases v.bytes_mem with hB | hB | hB | hB
    · exact absurd hB hne
    · rw [hB]
    · rw [hB]
    · rw [hB]
  unfold entryInside
  rw [Mm.u32_of_lt (by decide), h]
  decide

theorem readSectors_some {lba : Nat} (hm : ∀ k, m.fails k = false) :
    ∃ b j, fat32ReadSectors m v n lba r pos buf k = (some b, j) := by
  induction n generalizing lba r pos buf k with
  | zero => exact ⟨buf, k, rfl⟩
  | succ n ih =>
    unfold fat32ReadSectors
    split
    case isTrue => exact ⟨buf, k, rfl⟩
    case isFalse =>
      dsimp only
      rw [ideRead_ok (hm k)]
      exact ih

/-- With larger sectors the lookup of the entry of cluster 128 leaves the buffer. -/
theorem not_inside_first (hne : ino.vol.bytesPerSector ≠ 512)
    (hsectors : 0 < ino.vol.sectorsPerCluster) (hm : ∀ k, m.fails k = false)
    (hfirst : ino.firstCluster = 128) (hinside : offset < ino.fileSize)
    (hlookup : ino.vol.bytesPerCluster ≤ offset ∨ 0 < size) (hwrap : offset + size < 2 ^ 32) :
    ¬ fat32ReadInside m ino offset size := by
  intro h
  obtain ⟨hskip, hloop⟩ := h hinside
  have hbase := (sizes_bounds ino.vol.bytes_mem).1
  have hpos : 0 < ino.vol.bytesPerCluster := Nat.mul_pos (by omega) hsectors
  rw [hfirst] at hskip hloop
  rw [clampSize_eq hwrap] at hloop
  cases hindex : offset / ino.vol.bytesPerCluster with
  | succ q =>
    rw [hindex] at hskip
    exact not_entryInside hne hskip.1
  | zero =>
    have hlt : offset < ino.vol.bytesPerCluster := (Nat.div_eq_zero_iff_lt hpos).mp hindex
    have hsize : 0 < min size (ino.fileSize - offset) := by omega
    obtain ⟨n, hn⟩ := Nat.exists_eq_succ_of_ne_zero (Nat.ne_of_gt hsize)
    rw [hindex, hn] at hloop
    obtain ⟨-, hrest⟩ := hloop (hm 0) ⟨Nat.succ_pos n, by decide⟩
    obtain ⟨b, j, hread⟩ := @readSectors_some m ino.vol m.fresh ino.vol.sectorsPerCluster
      ino.vol.sectorsPerCluster 1 0 (clusterToLba ino.vol 128) hm
    rw [hread] at hrest
    exact not_entryInside hne hrest.2.1

theorem not_inside_line (hne : B ≠ 512) (hm : ∀ k, m.fails k = false)
    (hvol : ino.vol = lineVol B hB) (hfirst : ino.firstCluster = 128)
    (hinside : offset < ino.fileSize) (hlookup : B ≤ offset ∨ 0 < size)
    (hwrap : offset + size < 2 ^ 32) : ¬ fat32ReadInside m ino offset size := by
  have hcluster : ino.vol.bytesPerCluster = B := by
    rw [hvol]
    exact Nat.mul_one B
  refine not_inside_first ?_ ?_ hm hfirst hinside ?_ hwrap
  · rw [hvol]
    exact hne
  · rw [hvol]
    exact Nat.one_pos
  · rw [hcluster]
    exact hlookup

/-- Reads return the content on every volume exactly when there is nothing to read, or the sectors
have 512 bytes and the count fits an `int32_t`, or no entry has to be looked up. -/
theorem fat32Content_iff (hB : B ∈ [512, 1024, 2048, 4096]) (hfile : fileSize < 2 ^ 32)
    (hwrap : offset + size < 2 ^ 32) : Fat32Content B fileSize offset size ↔
      fileSize ≤ offset ∨ (B = 512 ∧ min size (fileSize - offset) < 2 ^ 31) ∨
        (size = 0 ∧ offset < B) := by
  constructor
  · intro hcontent
    by_contra hnot
    obtain ⟨hinside, hnot⟩ := not_or.mp hnot
    obtain ⟨hsectors, hlookup⟩ := not_or.mp hnot
    obtain ⟨m, ino, chain, hm, hvol, hfirst, hsize, hchain, hlength, hreads, hin⟩ :=
      line_file hB hfile hcontent
    have hlt : offset < ino.fileSize := by omega
    by_cases hbytes : B = 512
    · subst hbytes
      have hlarge : 2 ^ 31 ≤ min size (fileSize - offset) := by
        by_contra hsmall
        exact hsectors ⟨rfl, Nat.not_le.mp hsmall⟩
      have hv : ino.vol.bytesPerSector = 512 := by
        rw [hvol]
        rfl
      have hpos : 0 < ino.vol.sectorsPerCluster := by
        rw [hvol]
        exact Nat.one_pos
      unfold ReadsChain at hreads
      dsimp only at hreads
      rw [fat32Read_eq hv hm hpos hwrap hlt hchain (hsize ▸ hlength), hsize] at hreads
      have hcount := (Prod.mk.inj hreads).1
      have hmost := @int32_lt ((((chain.flatMap (clusterBytes m ino.vol)).drop offset).take
        (min size (fileSize - offset))).length)
      rw [hcount] at hmost
      omega
    · refine not_inside_line hbytes hm hvol hfirst hlt ?_ hwrap hin
      by_contra hnone
      exact hlookup ⟨by omega, by omega⟩
  · intro hcond m root ino chain hm _ _ hv hpos hsize hchain hlength
    subst hsize
    by_cases hend : ino.fileSize ≤ offset
    · exact readsChain_end hend
    have hlt := Nat.not_le.mp hend
    rcases hcond.resolve_left hend with ⟨rfl, hcount⟩ | ⟨rfl, hoffset⟩
    · refine ⟨?_, fat32ReadInside_512 hv hpos⟩
      unfold ReadsChain
      dsimp only
      rw [fat32Read_eq hv hm hpos hwrap hlt hchain hlength]
      have hall : (((chain.flatMap (clusterBytes m ino.vol)).drop offset).take
          (min size (ino.fileSize - offset))).length = min size (ino.fileSize - offset) := by
        rw [List.length_take, List.length_drop, length_clusters]
        omega
      unfold readTotal
      rw [hall, Mm.int32_of_lt hcount]
    · refine readsChain_nothing hm hlt ?_ (by omega)
      unfold Fat32Vol.bytesPerCluster
      rw [hv]
      exact Nat.lt_of_lt_of_le hoffset (Nat.le_mul_of_pos_right B hpos)

theorem fat32Content_512 : Fat32Content 512 600 100 50 ↔
    600 ≤ 100 ∨ (512 = 512 ∧ min 50 (600 - 100) < 2 ^ 31) ∨ (50 = 0 ∧ 100 < 512) :=
  fat32Content_iff (by decide) (by decide) (by decide)

/-- A file of one byte on a volume with sectors of 1024 bytes. -/
theorem not_forall_fat32Content : ¬ ∀ (bytesPerSector fileSize offset size : Nat),
    bytesPerSector ∈ [512, 1024, 2048, 4096] → fileSize < 2 ^ 32 → offset + size < 2 ^ 32 →
      Fat32Content bytesPerSector fileSize offset size := by
  intro hall
  have hB : 1024 ∈ [512, 1024, 2048, 4096] := by decide
  have hcontent := hall 1024 1 0 1 hB (by decide) (by decide)
  obtain ⟨m, ino, chain, hm, hvol, hfirst, hsize, -, -, -, hin⟩ :=
    line_file hB (by decide) hcontent
  have hinside : 0 < ino.fileSize := by omega
  exact not_inside_line (by decide) hm hvol hfirst hinside (Or.inr Nat.one_pos) (by decide) hin

end PinguinOS.Fs
