import PinguinOS.Fs.Ext2Volume

/-! Which superblocks `ext2_vfs_mount` lets through, and the calls on the volume after it. -/
namespace PinguinOS.Fs

open Mm (u32)

/-- The conditions under which no call on the volume divides by zero or leaves a buffer: `ino` goes
up to `2 ^ 32 - 1`, and an inode has 128 bytes. -/
structure Ext2Geometry.Sound (g : Ext2Geometry) : Prop where
  blockSize_eq : ∃ j ≤ 21, g.blockSize = 1024 * 2 ^ j
  inodesPerGroup_pos : 0 < g.inodesPerGroup
  inodeSize_pos : 0 < g.inodeSize
  inodeSize_le : g.inodeSize ≤ g.blockSize
  descriptors : min g.numGroups ((2 ^ 32 - 2) / g.inodesPerGroup + 1) * 32 ≤ g.bgdtBytes
  copies : (min g.inodesPerGroup (g.blockSize / g.inodeSize) - 1) * g.inodeSize + 128 ≤ g.blockSize

/-- No call on the volume divides by zero or leaves a buffer, and the block size is the one that
the superblock means. -/
structure VolumeSafe (sb : Ext2Superblock) (v : Ext2Volume) (m : Medium) : Prop where
  block_size : v.blockSize = 1024 * 2 ^ sb.logBlockSize
  readInode : ∀ ino < 2 ^ 32, (v.readInode m ino 0).isSome
  read : ∀ ino < 2 ^ 32, ∀ offset < 2 ^ 32, ∀ size < 2 ^ 32, (v.vfsRead m ino offset size).isSome
  readdir : ∀ ino < 2 ^ 32, ∀ idx < 2 ^ 32, (v.vfsReaddir m ino idx).isSome
  finddir : ∀ ino < 2 ^ 32, ∀ name, (v.vfsFinddir m ino name).isSome

/-- The mount of a disk with this superblock does not divide by zero or leave a buffer, and when it
succeeds the later calls are safe, whatever fresh memory holds and whichever calls fail. -/
def Ext2MountSafe (sb : Buffer) : Prop :=
  ∀ m : Medium, (∀ i < 1024, m.sector (2 + i / 512) (i % 512) = sb i) →
    ∃ r, ext2VfsMount m = some r ∧ ∀ root ∈ r, ∀ fresh fails,
      VolumeSafe (superblockAt sb) root.vol ⟨m.sector, fresh, fails⟩

/-- The mount rejects the superblock before its geometry can do harm, or the geometry is sound. -/
def Ext2Superblock.Acceptable (sb : Ext2Superblock) : Prop :=
  sb.magic ≠ ext2Magic ∨
    0 < sb.blocksPerGroup ∧ 0 < sb.blockSize ∧
      (sb.bgdtBytes = 0 ∨ 0 < sb.inodesPerGroup ∧
        (sb.numGroups ≤ 1 / sb.inodesPerGroup ∨ sb.logBlockSize ≤ 21 ∧ sb.geometry.Sound))

variable {m : Medium} {v : Ext2Volume} {g : Ext2Geometry} {sb : Ext2Superblock} {buf buf' : Buffer}
  {ino k n pos lba nr blockIdx offset size bytesRead : Nat} {node : Ext2Inode}

/-! The calls on a sound volume. -/

theorem Ext2Geometry.Sound.descriptor (h : g.Sound) (hino : ino < 2 ^ 32)
    (hgroup : (ino - 1) / g.inodesPerGroup < g.numGroups) :
    ((ino - 1) / g.inodesPerGroup + 1) * 32 ≤ g.bgdtBytes := by
  have hle : (ino - 1) / g.inodesPerGroup ≤ (2 ^ 32 - 2) / g.inodesPerGroup :=
    Nat.div_le_div_right (by omega)
  have hmin : (ino - 1) / g.inodesPerGroup + 1 ≤
      min g.numGroups ((2 ^ 32 - 2) / g.inodesPerGroup + 1) :=
    Nat.le_min.mpr ⟨hgroup, Nat.succ_le_succ hle⟩
  exact (Nat.mul_le_mul_right 32 hmin).trans h.descriptors

theorem Ext2Geometry.Sound.perBlock_pos (h : g.Sound) : 0 < g.blockSize / g.inodeSize :=
  Nat.div_pos h.inodeSize_le h.inodeSize_pos

theorem Ext2Geometry.Sound.copy (h : g.Sound) :
    (ino - 1) % g.inodesPerGroup % (g.blockSize / g.inodeSize) * g.inodeSize + 128 ≤
      g.blockSize := by
  have hindex := Nat.mod_lt (ino - 1) h.inodesPerGroup_pos
  have hle := Nat.mod_le ((ino - 1) % g.inodesPerGroup) (g.blockSize / g.inodeSize)
  have hlt := Nat.mod_lt ((ino - 1) % g.inodesPerGroup) h.perBlock_pos
  have hmul := Nat.mul_le_mul_right g.inodeSize (Nat.le_sub_one_of_lt
    (Nat.lt_min.mpr ⟨hle.trans_lt hindex, hlt⟩))
  exact (Nat.add_le_add_right hmul 128).trans h.copies

/-- A sound volume as a mount whose reads have been described. -/
def Ext2Volume.toMount (v : Ext2Volume) (h : v.Sound) : Ext2Mount where
  blockSize := v.blockSize
  inodesPerGroup := v.inodesPerGroup
  inodeSize := v.inodeSize
  numGroups := v.numGroups
  bgInodeTable group := word32 v.bgdt (group * 32 + 8)
  blockSize_eq := h.blockSize_eq
  inodesPerGroup_pos := h.inodesPerGroup_pos
  inodeSize_pos := h.inodeSize_pos
  inodeSize_le := h.inodeSize_le

section
variable {h : v.Sound}

@[simp] theorem toMount_blockSize : (v.toMount h).blockSize = v.blockSize := rfl
@[simp] theorem toMount_inodesPerGroup : (v.toMount h).inodesPerGroup = v.inodesPerGroup := rfl
@[simp] theorem toMount_inodeSize : (v.toMount h).inodeSize = v.inodeSize := rfl
@[simp] theorem toMount_numGroups : (v.toMount h).numGroups = v.numGroups := rfl
@[simp] theorem toMount_bgInodeTable {group : Nat} :
    (v.toMount h).bgInodeTable group = word32 v.bgdt (group * 32 + 8) := rfl

end

theorem Ext2Geometry.Sound.blockSize_pos (h : g.Sound) : g.blockSize ≠ 0 := by
  have hle := h.inodeSize_le
  have hpos := h.inodeSize_pos
  omega

theorem Ext2Geometry.Sound.ptrs_pos (h : g.Sound) : g.blockSize / 4 ≠ 0 := by
  obtain ⟨j, -, hj⟩ := h.blockSize_eq
  have hpow := Nat.two_pow_pos j
  omega

theorem sectorsAt_zero : ext2SectorsAt m lba 0 n buf k = ext2ReadSectors m lba n buf k := by
  induction n with
  | zero => rfl
  | succ n ih =>
    unfold ext2SectorsAt ext2ReadSectors
    rw [ih]
    rcases ext2ReadSectors m lba n buf k with ⟨_ | b, k'⟩
    · rfl
    · dsimp only
      rw [Nat.zero_add]

theorem blockAt_eq (h : v.Sound) :
    ext2BlockAt m v.blockSize nr 0 buf k = ext2ReadBlock m (v.toMount h) nr buf k := sectorsAt_zero

theorem readInode_eq (h : v.Sound) (hino : ino < 2 ^ 32) : ∃ r, v.readInode m ino k = some r ∧
    ext2ReadInode m (v.toMount h) ino k = (r.1.map (·.toExt2Inode), r.2) := by
  unfold Ext2Volume.readInode ext2ReadInode
  by_cases hzero : ino = 0
  · rw [if_pos hzero, if_pos hzero]
    exact ⟨_, rfl, rfl⟩
  rw [if_neg hzero, if_neg hzero, if_neg (Nat.ne_of_gt h.inodesPerGroup_pos)]
  dsimp only
  by_cases hgroup : v.numGroups ≤ (ino - 1) / v.inodesPerGroup
  · have hgroup' : (v.toMount h).numGroups ≤ (ino - 1) / (v.toMount h).inodesPerGroup := hgroup
    rw [if_pos hgroup, if_pos hgroup']
    exact ⟨_, rfl, rfl⟩
  have hgroup' : ¬ (v.toMount h).numGroups ≤ (ino - 1) / (v.toMount h).inodesPerGroup := hgroup
  have hdescriptor := h.descriptor hino (Nat.not_le.mp hgroup)
  rw [if_neg hgroup, if_neg hgroup', if_neg (Nat.not_lt.mpr hdescriptor),
    if_neg (Nat.ne_of_gt h.inodeSize_pos), if_neg (Nat.ne_of_gt h.perBlock_pos)]
  simp only [toMount_blockSize, toMount_inodesPerGroup, toMount_inodeSize, toMount_bgInodeTable,
    or_iff_right h.blockSize_pos]
  cases m.fails k with
  | true => exact ⟨_, rfl, rfl⟩
  | false =>
    rw [if_neg Bool.false_ne_true, if_neg Bool.false_ne_true, blockAt_eq h]
    rcases ext2ReadBlock m (v.toMount h) (u32 (word32 v.bgdt ((ino - 1) / v.inodesPerGroup * 32 + 8)
      + (ino - 1) % v.inodesPerGroup / (v.blockSize / v.inodeSize))) m.fresh (k + 1)
      with ⟨_ | block, k'⟩
    · exact ⟨_, rfl, rfl⟩
    · dsimp only
      rw [if_neg (Nat.not_lt.mpr h.copy)]
      exact ⟨_, rfl, rfl⟩

theorem readInodeBlock_eq (h : v.Sound) : v.readInodeBlock m node blockIdx buf k =
    some (ext2ReadInodeBlock m (v.toMount h) node blockIdx buf k) := by
  unfold Ext2Volume.readInodeBlock ext2ReadInodeBlock
  simp only [blockAt_eq h, or_iff_right h.blockSize_pos, if_neg h.ptrs_pos]
  by_cases hdirect : blockIdx < 12
  · rw [if_pos hdirect, if_pos hdirect]
  rw [if_neg hdirect, if_neg hdirect]
  by_cases hsingle : blockIdx < u32 (12 + v.blockSize / 4)
  · have hsingle' : blockIdx < u32 (12 + (v.toMount h).blockSize / 4) := hsingle
    rw [if_pos hsingle, if_pos hsingle']
    cases m.fails k with
    | true => rfl
    | false =>
      rw [if_neg Bool.false_ne_true, if_neg Bool.false_ne_true]
      rcases ext2ReadBlock m (v.toMount h) (node.iBlock 12) m.fresh (k + 1) with ⟨_ | ind, k'⟩
      · rfl
      · rfl
  have hsingle' : ¬ blockIdx < u32 (12 + (v.toMount h).blockSize / 4) := hsingle
  rw [if_neg hsingle, if_neg hsingle']
  by_cases hdouble : blockIdx < u32 (u32 (12 + v.blockSize / 4) +
      u32 (v.blockSize / 4 * (v.blockSize / 4)))
  · have hdouble' : blockIdx < u32 (u32 (12 + (v.toMount h).blockSize / 4) +
        u32 ((v.toMount h).blockSize / 4 * ((v.toMount h).blockSize / 4))) := hdouble
    rw [if_pos hdouble, if_pos hdouble']
    by_cases hfails : m.fails k = true ∨ m.fails (k + 1) = true
    · rw [if_pos hfails, if_pos hfails]
    rw [if_neg hfails, if_neg hfails]
    rcases ext2ReadBlock m (v.toMount h) (node.iBlock 13) m.fresh (k + 2) with ⟨_ | l1, k'⟩
    · rfl
    dsimp only [toMount_blockSize]
    rcases ext2ReadBlock m (v.toMount h) (word32 l1 (4 * ((blockIdx - u32 (12 + v.blockSize / 4)) /
      (v.blockSize / 4)))) m.fresh k' with ⟨_ | l2, k''⟩
    · rfl
    · rfl
  · have hdouble' : ¬ blockIdx < u32 (u32 (12 + (v.toMount h).blockSize / 4) +
        u32 ((v.toMount h).blockSize / 4 * ((v.toMount h).blockSize / 4))) := hdouble
    rw [if_neg hdouble, if_neg hdouble']

theorem volumeReadLoop_eq (h : v.Sound) : v.readLoop m node offset size n bytesRead buf k =
    some (ext2ReadLoop m (v.toMount h) node offset size n bytesRead buf k) := by
  induction n generalizing bytesRead buf k with
  | zero => rfl
  | succ n ih =>
    unfold Ext2Volume.readLoop ext2ReadLoop
    split
    case isFalse => rfl
    case isTrue =>
      rw [if_neg h.blockSize_pos]
      dsimp only [toMount_blockSize]
      rw [readInodeBlock_eq h]
      rcases ext2ReadInodeBlock m (v.toMount h) node (u32 (offset + bytesRead) / v.blockSize) buf k
        with ⟨_ | block, k'⟩
      · rfl
      · dsimp only
        rw [ih]
        rfl

/-- The reads of a sound volume are those of a mount. -/
theorem vfsRead_eq (h : v.Sound) (hino : ino < 2 ^ 32) :
    v.vfsRead m ino offset size = some (ext2VfsRead m (some (v.toMount h)) ino offset size) := by
  obtain ⟨⟨_ | inode, k⟩, hread, hsame⟩ := @readInode_eq m v ino 0 h hino
  · unfold Ext2Volume.vfsRead ext2VfsRead
    rw [hread]
    dsimp only
    rw [hsame]
    rfl
  · unfold Ext2Volume.vfsRead ext2VfsRead
    rw [hread]
    dsimp only
    rw [hsame]
    simp only [or_iff_right h.blockSize_pos, volumeReadLoop_eq h, Option.map_some]
    split
    · rfl
    · split
      · rfl
      · rfl

/-! The searches of a directory. -/

theorem scanBlock_isSome {σ ρ : Type} {visit : σ → Ext2Dirent → Nat → Option (Ext2Visit σ ρ × Nat)}
    {fuel : Nat} {s : σ} (hvisit : ∀ s buf pos k, (visit s (ext2DirentAt buf pos) k).isSome) :
    (v.scanBlock visit buf fuel pos s k).isSome := by
  induction fuel generalizing pos s k with
  | zero => rfl
  | succ fuel ih =>
    unfold Ext2Volume.scanBlock
    split
    case isFalse => rfl
    case isTrue =>
      dsimp only
      split
      · rfl
      · split
        · obtain ⟨r, hr⟩ := Option.isSome_iff_exists.mp (hvisit s buf pos k)
          rw [hr]
          rcases r with ⟨_ | _ | _, k'⟩
          · rfl
          · rfl
          · exact ih
        · exact ih

theorem scanBlocks_isSome {σ ρ : Type}
    {visit : σ → Ext2Dirent → Nat → Option (Ext2Visit σ ρ × Nat)} {blocks : List Nat} {s : σ}
    (h : v.Sound) (hvisit : ∀ s buf pos k, (visit s (ext2DirentAt buf pos) k).isSome) :
    (v.scanBlocks m node visit blocks s buf k).isSome := by
  induction blocks generalizing s buf k with
  | nil => rfl
  | cons bi blocks ih =>
    unfold Ext2Volume.scanBlocks
    split
    case isTrue => rfl
    case isFalse =>
      rw [readInodeBlock_eq h]
      rcases ext2ReadInodeBlock m (v.toMount h) node bi buf k with ⟨_ | block, k'⟩
      · rfl
      · dsimp only
        obtain ⟨r, hr⟩ := Option.isSome_iff_exists.mp
          (@scanBlock_isSome v block k' 0 _ _ visit v.blockSize s hvisit)
        rw [hr]
        rcases r with ⟨_ | _, k''⟩
        · rfl
        · exact ih

theorem vfsReaddir_isSome {idx : Nat} (h : v.Sound) (hino : ino < 2 ^ 32) :
    (v.vfsReaddir m ino idx).isSome := by
  obtain ⟨⟨_ | inode, k⟩, hread, -⟩ := @readInode_eq m v ino 0 h hino
  · unfold Ext2Volume.vfsReaddir
    rw [hread]
    rfl
  · unfold Ext2Volume.vfsReaddir
    rw [hread]
    dsimp only
    split
    · rfl
    · split
      · rfl
      · refine scanBlocks_isSome h fun s buf pos k => ?_
        unfold Ext2Volume.readdirVisit
        split
        · rfl
        · rfl

theorem vfsFinddir_isSome {name : Buffer} (h : v.Sound) (hino : ino < 2 ^ 32) :
    (v.vfsFinddir m ino name).isSome := by
  obtain ⟨⟨_ | inode, k⟩, hread, -⟩ := @readInode_eq m v ino 0 h hino
  · unfold Ext2Volume.vfsFinddir
    rw [hread]
    rfl
  · unfold Ext2Volume.vfsFinddir
    rw [hread]
    dsimp only
    split
    · rfl
    · refine scanBlocks_isSome h fun s buf pos k => ?_
      unfold Ext2Volume.finddirVisit
      split
      · obtain ⟨⟨_ | child, k'⟩, hchild, -⟩ :=
          @readInode_eq m v (ext2DirentAt buf pos).inode k h word32_lt
        · rw [hchild]
          rfl
        · rw [hchild]
          dsimp only
          split
          · rfl
          · rfl
      · rfl

/-! The mount. -/

theorem superblockAt_congr (hsame : ∀ i < 1024, buf i = buf' i) :
    superblockAt buf = superblockAt buf' := by
  have hword16 : ∀ pos, pos < 1023 → word16 buf pos = word16 buf' pos := by
    intro pos hpos
    unfold word16
    rw [hsame pos (by omega), hsame (pos + 1) (by omega)]
  have hword32 : ∀ pos, pos < 1021 → word32 buf pos = word32 buf' pos := by
    intro pos hpos
    exact congrArg BitVec.toNat (Bytes.ofBytes_congr fun i hi => hsame (pos + i) (by omega))
  unfold superblockAt
  rw [hword32 4 (by decide), hword32 20 (by decide), hword32 24 (by decide),
    hword32 32 (by decide), hword32 40 (by decide), hword16 56 (by decide), hword32 76 (by decide),
    hword16 88 (by decide)]

/-- The mount takes the superblock from the two sectors. -/
theorem vfsMount_eq (hsb : ∀ i < 1024, m.sector (2 + i / 512) (i % 512) = buf i) :
    ext2VfsMount m =
      if m.fails 0 ∨ m.fails 1 then some none else ext2MountFrom m (superblockAt buf) 2 := by
  unfold ext2VfsMount
  cases hfirst : m.fails 0 with
  | true =>
    unfold ideRead
    rw [hfirst]
    rfl
  | false =>
    rw [ideRead_ok hfirst]
    dsimp only
    cases hsecond : m.fails 1 with
    | true =>
      unfold ideRead
      rw [hsecond]
      rfl
    | false =>
      have hneither : ¬ (false = true ∨ false = true) := by decide
      rw [ideRead_ok hsecond, if_neg hneither]
      dsimp only
      refine congrArg (ext2MountFrom m · 2) (superblockAt_congr fun i hi => ?_)
      rw [← hsb i hi]
      by_cases hin : 512 ≤ i
      · have hdiv : i / 512 = 1 := by omega
        have hmod : (i - 512) % 512 = i % 512 := by omega
        have hlba : u32 (3 + (i - 512) / 512) = 2 + i / 512 := by
          rw [hdiv, Nat.div_eq_of_lt (by omega)]
          rfl
        rw [if_pos (by omega), hlba, hmod]
      · have hlba : u32 (2 + (i - 0) / 512) = 2 + i / 512 := by
          rw [Nat.sub_zero, Nat.div_eq_of_lt (by omega)]
          rfl
        rw [if_neg (by omega), if_pos (by omega), hlba, Nat.sub_zero]

theorem sectorsAt_ok (hm : ∀ k, m.fails k = false) :
    ∃ b k', ext2SectorsAt m lba pos n buf k = (some b, k') := by
  induction n with
  | zero => exact ⟨buf, k, rfl⟩
  | succ n ih =>
    obtain ⟨b, k', hb⟩ := ih
    unfold ext2SectorsAt
    rw [hb]
    dsimp only
    rw [ideRead_ok (hm k')]
    exact ⟨_, _, rfl⟩

theorem readBgdt_ok (hm : ∀ k, m.fails k = false) :
    ∃ bgdt k', ext2ReadBgdt m sb n buf k = (some bgdt, k') := by
  induction n with
  | zero => exact ⟨buf, k, rfl⟩
  | succ n ih =>
    obtain ⟨b, k', hb⟩ := ih
    unfold ext2ReadBgdt
    rw [hb]
    exact sectorsAt_ok hm

theorem blockSize_of_log (hlog : sb.logBlockSize ≤ 21) :
    sb.blockSize = 1024 * 2 ^ sb.logBlockSize := by
  have hpow : 2 ^ sb.logBlockSize ≤ 2 ^ 21 := Nat.pow_le_pow_right (by decide) hlog
  unfold Ext2Superblock.blockSize
  rw [Nat.mod_eq_of_lt (by omega), Nat.shiftLeft_eq, Mm.u32_of_lt (by omega)]

theorem volumeSafe_of_sound {bgdt : Buffer} (hlog : sb.logBlockSize ≤ 21)
    (h : sb.geometry.Sound) : VolumeSafe sb ⟨sb.geometry, bgdt⟩ m := by
  have hv : (⟨sb.geometry, bgdt⟩ : Ext2Volume).Sound := h
  constructor
  case block_size => exact blockSize_of_log hlog
  case readInode =>
    intro ino hino
    obtain ⟨r, hr, -⟩ := @readInode_eq m _ ino 0 hv hino
    rw [hr]
    rfl
  case read =>
    intro ino hino offset _ size _
    rw [vfsRead_eq hv hino]
    rfl
  case readdir => exact fun ino hino idx _ => vfsReaddir_isSome hv hino
  case finddir => exact fun ino hino name => vfsFinddir_isSome hv hino

theorem readInode_none (hzero : ino ≠ 0) (hinodes : v.inodesPerGroup ≠ 0)
    (hgroup : v.numGroups ≤ (ino - 1) / v.inodesPerGroup) :
    v.readInode m ino k = some (none, k) := by
  unfold Ext2Volume.readInode
  rw [if_neg hzero, if_neg hinodes]
  exact if_pos hgroup

/-- An acceptable superblock is rejected or mounted, and what is mounted is safe. -/
theorem mountFrom_safe (hsb : sb.Acceptable) : ∃ r, ext2MountFrom m sb k = some r ∧
    ∀ root ∈ r, ∀ m', VolumeSafe sb root.vol m' := by
  have hrejected : ∃ r : Option Ext2Root, some none = some r ∧
      ∀ root ∈ r, ∀ m', VolumeSafe sb root.vol m' := ⟨none, rfl, fun _ hroot => nomatch hroot⟩
  unfold ext2MountFrom
  by_cases hmagic : sb.magic ≠ ext2Magic
  · rw [if_pos hmagic]
    exact hrejected
  obtain ⟨hgroups, hblock, hrest⟩ := hsb.resolve_left hmagic
  rw [if_neg hmagic, if_neg (Nat.ne_of_gt hgroups), if_neg (Nat.ne_of_gt hblock)]
  by_cases hbuf : sb.bgdtBytes = 0 ∨ m.fails k = true
  · rw [if_pos hbuf]
    exact hrejected
  obtain ⟨hinodes, hsound⟩ := hrest.resolve_left fun hzero => hbuf (.inl hzero)
  rw [if_neg hbuf]
  rcases ext2ReadBgdt m sb sb.bgdtBlocks m.fresh (k + 1) with ⟨_ | bgdt, k'⟩
  · exact hrejected
  dsimp only
  rcases hsound with hfew | ⟨hlog, hsound⟩
  · have hnone : (⟨sb.geometry, bgdt⟩ : Ext2Volume).readInode m 2 k' = some (none, k') :=
      readInode_none (by decide) (Nat.ne_of_gt hinodes) hfew
    rw [hnone]
    exact hrejected
  · have hv : (⟨sb.geometry, bgdt⟩ : Ext2Volume).Sound := hsound
    obtain ⟨⟨_ | inode, k''⟩, hr, -⟩ := @readInode_eq m _ 2 k' hv (by decide)
    · rw [hr]
      exact hrejected
    · rw [hr]
      dsimp only
      split
      · exact hrejected
      · refine ⟨_, rfl, fun root hroot m' => ?_⟩
        obtain rfl := Option.some.inj hroot
        exact volumeSafe_of_sound hlog hsound

/-! What the calls need. -/

/-- The descriptor and the inode are inside their buffers, and there is nothing to divide by
zero. -/
structure Ext2Geometry.Reaches (g : Ext2Geometry) (ino : Nat) : Prop where
  inodesPerGroup_pos : 0 < g.inodesPerGroup
  descriptor : ((ino - 1) / g.inodesPerGroup + 1) * 32 ≤ g.bgdtBytes
  perBlock_pos : 0 < g.blockSize / g.inodeSize
  copy : (ino - 1) % g.inodesPerGroup % (g.blockSize / g.inodeSize) * g.inodeSize + 128 ≤
    g.blockSize

/-- Where no call fails, an inode of one of the groups is read or the call has no result. -/
theorem readInode_reaches (hm : ∀ k, m.fails k = false) (hzero : ino ≠ 0)
    (hgroup : (ino - 1) / v.inodesPerGroup < v.numGroups)
    (hsome : (v.readInode m ino k).isSome) :
    v.Reaches ino ∧ ∃ inode k', v.readInode m ino k = some (some inode, k') := by
  obtain ⟨r, hr⟩ := Option.isSome_iff_exists.mp hsome
  rw [hr]
  unfold Ext2Volume.readInode at hr
  rw [if_neg hzero] at hr
  split at hr
  case isTrue => cases hr
  case isFalse hinodes =>
    dsimp only at hr
    rw [if_neg (Nat.not_le.mpr hgroup)] at hr
    split at hr
    case isTrue => cases hr
    case isFalse hdescriptor =>
      split at hr
      case isTrue => cases hr
      case isFalse hsize =>
        split at hr
        case isTrue => cases hr
        case isFalse hper =>
          have hblock : ¬ (v.blockSize = 0 ∨ m.fails k = true) := by
            rw [hm k]
            rintro (hempty | hfails)
            · rw [hempty, Nat.zero_div] at hper
              exact hper rfl
            · cases hfails
          rw [if_neg hblock] at hr
          obtain ⟨block, k', hread⟩ := sectorsAt_ok (m := m) hm
          unfold ext2BlockAt at hr
          rw [hread] at hr
          dsimp only at hr
          split at hr
          case isTrue => cases hr
          case isFalse hcopy =>
            cases hr
            exact ⟨⟨Nat.pos_of_ne_zero hinodes, Nat.not_lt.mp hdescriptor, Nat.pos_of_ne_zero hper,
              Nat.not_lt.mp hcopy⟩, _, _, rfl⟩

/-- A geometry that is safe for every inode number is sound. -/
theorem sound_of_reaches (hblock : ∃ j ≤ 21, g.blockSize = 1024 * 2 ^ j)
    (hinodes : 0 < g.inodesPerGroup) (hlt : g.inodesPerGroup < 2 ^ 32) (hgroups : 0 < g.numGroups)
    (hall : ∀ ino < 2 ^ 32, ino ≠ 0 → (ino - 1) / g.inodesPerGroup < g.numGroups →
      g.Reaches ino) : g.Sound := by
  have hfirst : g.Reaches 1 := hall 1 (by decide) (by decide) (by rw [Nat.zero_div]; exact hgroups)
  obtain ⟨-, -, hper, -⟩ := hfirst
  have hsize : 0 < g.inodeSize := by
    by_contra hzero
    rw [Nat.eq_zero_of_not_pos hzero, Nat.div_zero] at hper
    exact absurd hper (Nat.lt_irrefl 0)
  refine ⟨hblock, hinodes, hsize, (Nat.div_pos_iff.mp hper).2, ?_, ?_⟩
  case refine_1 =>
    -- The last group that an inode number leads to.
    obtain ⟨group, hgroup⟩ : ∃ group, min g.numGroups ((2 ^ 32 - 2) / g.inodesPerGroup + 1) =
        group + 1 :=
      ⟨_, (Nat.succ_pred_eq_of_pos (Nat.lt_min.mpr ⟨hgroups, Nat.succ_pos _⟩)).symm⟩
    have hle : group ≤ (2 ^ 32 - 2) / g.inodesPerGroup := by omega
    have hmul : group * g.inodesPerGroup ≤ 2 ^ 32 - 2 := (Nat.le_div_iff_mul_le hinodes).mp hle
    have hdiv : (group * g.inodesPerGroup + 1 - 1) / g.inodesPerGroup = group := by
      rw [Nat.add_sub_cancel, Nat.mul_div_cancel _ hinodes]
    have hlast := hall (group * g.inodesPerGroup + 1) (by omega) (by omega) (by rw [hdiv]; omega)
    have hdescriptor := hlast.descriptor
    rw [hdiv] at hdescriptor
    rw [hgroup]
    exact hdescriptor
  case refine_2 =>
    -- The last inode of a block, in group 0.
    obtain ⟨index, hindex⟩ : ∃ index, min g.inodesPerGroup (g.blockSize / g.inodeSize) =
        index + 1 := ⟨_, (Nat.succ_pred_eq_of_pos (Nat.lt_min.mpr ⟨hinodes, hper⟩)).symm⟩
    have hgroup : index % g.inodesPerGroup = index := Nat.mod_eq_of_lt (by omega)
    have hdiv : (index + 1 - 1) / g.inodesPerGroup = 0 := Nat.div_eq_of_lt (by omega)
    have hlast := hall (index + 1) (by omega) (by omega) (by rw [hdiv]; exact hgroups)
    have hcopy := hlast.copy
    rw [Nat.add_sub_cancel, hgroup, Nat.mod_eq_of_lt (by omega)] at hcopy
    rw [hindex]
    exact hcopy

/-- A disk with the superblock in its place, and nothing that fails. -/
def superblockDisk (sb : Buffer) : Medium :=
  ⟨fun lba i => sb ((lba - 2) * 512 + i), fun _ => 0, fun _ => false⟩

theorem superblockDisk_sector {i : Nat} :
    (superblockDisk buf).sector (2 + i / 512) (i % 512) = buf i := by
  refine congrArg buf ?_
  omega

theorem superblockAt_lt : (superblockAt buf).inodesPerGroup < 2 ^ 32 := word32_lt

/-- `ext2_vfs_mount` from the read of the root inode on. -/
theorem geometry_of_safe {bgdt : Buffer} {r : Option Ext2Root} (hm : ∀ k, m.fails k = false)
    (hlt : sb.inodesPerGroup < 2 ^ 32)
    (hmount : (match (⟨sb.geometry, bgdt⟩ : Ext2Volume).readInode m 2 k with
      | none => none
      | some (none, _) => some none
      | some (some root, k) =>
        if m.fails k then some none else some (some ⟨⟨sb.geometry, bgdt⟩, root.iSize⟩)) = some r)
    (hsafe : ∀ root ∈ r, VolumeSafe sb root.vol m) : 0 < sb.inodesPerGroup ∧
      (sb.numGroups ≤ 1 / sb.inodesPerGroup ∨ sb.logBlockSize ≤ 21 ∧ sb.geometry.Sound) := by
  obtain ⟨v, hv⟩ : ∃ v : Ext2Volume, v = ⟨sb.geometry, bgdt⟩ := ⟨_, rfl⟩
  have hgeometry : v.toExt2Geometry = sb.geometry := by rw [hv]
  have hper : v.inodesPerGroup = sb.inodesPerGroup := by rw [hv]; rfl
  have hnum : v.numGroups = sb.numGroups := by rw [hv]; rfl
  rw [← hv] at hmount
  have hroot : (v.readInode m 2 k).isSome := by
    cases hread : v.readInode m 2 k with
    | some _ => rfl
    | none =>
      rw [hread] at hmount
      cases hmount
  have hinodes : 0 < sb.inodesPerGroup := by
    by_contra hzero
    have hnone : v.inodesPerGroup = 0 := by omega
    unfold Ext2Volume.readInode at hroot
    rw [if_neg (by decide), if_pos hnone] at hroot
    cases hroot
  refine ⟨hinodes, ?_⟩
  by_cases hfew : sb.numGroups ≤ 1 / sb.inodesPerGroup
  · exact .inl hfew
  have hmore : (2 - 1) / v.inodesPerGroup < v.numGroups := by
    rw [hper, hnum]
    exact Nat.not_le.mp hfew
  obtain ⟨-, root, k', hread⟩ := readInode_reaches hm (by decide) hmore hroot
  rw [hread] at hmount
  dsimp only at hmount
  rw [hm k', if_neg Bool.false_ne_true] at hmount
  obtain rfl := Option.some.inj hmount
  have hvol : VolumeSafe sb v m := hsafe _ rfl
  have hlog : sb.logBlockSize < 22 := by
    have hfits : v.blockSize < 2 ^ 32 := by
      rw [hv]
      exact Mm.u32_lt
    rw [hvol.block_size] at hfits
    exact (Nat.pow_lt_pow_iff_right (by decide)).mp (by omega : 2 ^ sb.logBlockSize < 2 ^ 22)
  have hsound : sb.geometry.Sound := by
    refine sound_of_reaches ⟨_, Nat.le_of_lt_succ hlog, blockSize_of_log (by omega)⟩ hinodes hlt
      (Nat.zero_lt_of_lt (Nat.not_le.mp hfew)) fun ino hino hzero hgroup => ?_
    rw [← hgeometry] at hgroup ⊢
    exact (readInode_reaches hm hzero hgroup (hvol.readInode ino hino)).1
  exact .inr ⟨by omega, hsound⟩

/-- Where no call fails, a superblock is acceptable when the mount has a result and what it mounts
is safe. -/
theorem acceptable_of_safe (hm : ∀ k, m.fails k = false) (hlt : sb.inodesPerGroup < 2 ^ 32)
    {r : Option Ext2Root} (hmount : ext2MountFrom m sb k = some r)
    (hsafe : ∀ root ∈ r, VolumeSafe sb root.vol m) : sb.Acceptable := by
  unfold ext2MountFrom at hmount
  by_cases hmagic : sb.magic ≠ ext2Magic
  · exact .inl hmagic
  rw [if_neg hmagic] at hmount
  split at hmount
  case isTrue => cases hmount
  case isFalse hgroups =>
    split at hmount
    case isTrue => cases hmount
    case isFalse hblock =>
      refine .inr ⟨Nat.pos_of_ne_zero hgroups, Nat.pos_of_ne_zero hblock, ?_⟩
      by_cases hbytes : sb.bgdtBytes = 0
      · exact .inl hbytes
      have hbuf : ¬ (sb.bgdtBytes = 0 ∨ m.fails k = true) := by
        rw [hm k]
        exact not_or.mpr ⟨hbytes, Bool.false_ne_true⟩
      obtain ⟨bgdt, k', hbgdt⟩ := @readBgdt_ok m sb m.fresh (k + 1) sb.bgdtBlocks hm
      rw [if_neg hbuf, hbgdt] at hmount
      dsimp only at hmount
      exact .inr (geometry_of_safe hm hlt hmount hsafe)

/-- One group of 16 inodes, of 64 bytes each. -/
def smallInodes : Buffer := fun i =>
  if i ∈ [4, 20, 76] then 1 else if i = 33 then 0x20 else if i = 40 then 16
  else if i = 56 then 0x53 else if i = 57 then 0xEF else if i = 88 then 64 else 0

end PinguinOS.Fs
