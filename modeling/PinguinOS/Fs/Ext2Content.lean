import PinguinOS.Fs.Ext2

/-! The content of an ext2 file, and what a read of it returns. -/
namespace PinguinOS.Fs

open Mm (u32)

/-! What the disk holds. -/

/-- Byte `i` of block `nr` of the disk. -/
def diskByte (m : Medium) (mnt : Ext2Mount) (nr i : Nat) : BitVec 8 :=
  m.sector (nr * (mnt.blockSize / 512) + i / 512) (i % 512)

/-- Pointer `i` of block `nr`. -/
def diskPtr (m : Medium) (mnt : Ext2Mount) (nr i : Nat) : Nat :=
  word32 (diskByte m mnt nr) (4 * i)

/-- The block that the indices lead to from the pointer `nr`; a zero pointer leads nowhere. -/
def followPtrs (m : Medium) (mnt : Ext2Mount) : Nat → List Nat → Option Nat
  | nr, [] => if nr = 0 then none else some nr
  | nr, i :: path => if nr = 0 then none else followPtrs m mnt (diskPtr m mnt nr i) path

/-- Every pointer on the way is one of a volume of `blocks` blocks. -/
def OnVolume (m : Medium) (mnt : Ext2Mount) (blocks : Nat) : Nat → List Nat → Prop
  | nr, [] => nr < blocks
  | nr, i :: path => nr < blocks ∧ (nr ≠ 0 → OnVolume m mnt blocks (diskPtr m mnt nr i) path)

/-- The pointer of the inode that the way to block `k` of the file starts with, and the indices
after it. -/
def blockPath (mnt : Ext2Mount) (ino : Ext2Inode) (k : Nat) : Nat × List Nat :=
  let ptrs := mnt.blockSize / 4
  if k < 12 then (ino.iBlock k, [])
  else if k < 12 + ptrs then (ino.iBlock 12, [k - 12])
  else (ino.iBlock 13, [(k - (12 + ptrs)) / ptrs, (k - (12 + ptrs)) % ptrs])

/-- Block `k` of the file, if it is not in a hole. -/
def logicalBlock (m : Medium) (mnt : Ext2Mount) (ino : Ext2Inode) (k : Nat) : Option Nat :=
  followPtrs m mnt (blockPath mnt ino k).1 (blockPath mnt ino k).2

/-- Byte `p` of the file; a hole is a range of zeros. -/
def fileByte (m : Medium) (mnt : Ext2Mount) (ino : Ext2Inode) (p : Nat) : BitVec 8 :=
  match logicalBlock m mnt ino (p / mnt.blockSize) with
  | none => 0
  | some nr => diskByte m mnt nr (p % mnt.blockSize)

/-- The read returns the bytes of the file from `offset` on, up to `size` of them. -/
def ReadsContent (m : Medium) (mnt : Ext2Mount) (ino : Ext2Inode)
    (inodeNum offset size : Nat) : Prop :=
  let n := min size (ino.iSize - offset)
  ext2VfsRead m (some mnt) inodeNum offset size =
    ((n : Int), bytesAt (fileByte m mnt ino) offset n)

/-- The file's blocks are direct, single or double indirect ones. -/
def WithinDouble (mnt : Ext2Mount) (ino : Ext2Inode) : Prop :=
  ino.iSize ≤ (12 + mnt.blockSize / 4 + mnt.blockSize / 4 * (mnt.blockSize / 4)) * mnt.blockSize

/-- The pointers of the file's blocks are those of a volume of `blocks` blocks. -/
def FileOnVolume (m : Medium) (mnt : Ext2Mount) (blocks : Nat) (ino : Ext2Inode) : Prop :=
  ∀ p < ino.iSize, OnVolume m mnt blocks (blockPath mnt ino (p / mnt.blockSize)).1
    (blockPath mnt ino (p / mnt.blockSize)).2

/-- Where the bytes asked for lie in a hole, block 0 taken for the missing block or table leads to
zeros as well. -/
def HolesReadZero (m : Medium) (mnt : Ext2Mount) (ino : Ext2Inode) (offset n : Nat) : Prop :=
  ∀ i < n, logicalBlock m mnt ino ((offset + i) / mnt.blockSize) = none →
    codeByte m mnt ino (offset + i) = 0

variable {m : Medium} {mnt : Ext2Mount} {ino : Ext2Inode} {path : List Nat}
  {nr i k b blocks offset size inodeNum p : Nat}

/-! The code follows the same pointers. -/

theorem blockByte_eq (hnr : nr < blocks) (hvol : blocks * mnt.blockSize < 2 ^ 32)
    (hi : i < mnt.blockSize) : blockByte m mnt nr i = diskByte m mnt nr i := by
  obtain ⟨j, -, hj⟩ := mnt.blockSize_eq
  have hbytes : mnt.blockSize = 512 * (2 * 2 ^ j) := by omega
  have hnext : (nr + 1) * mnt.blockSize ≤ blocks * mnt.blockSize := Nat.mul_le_mul_right _ hnr
  rw [Nat.add_mul] at hnext
  have hblock : u32 (nr * mnt.blockSize) = nr * mnt.blockSize := Mm.u32_of_lt (by omega)
  have hlba : nr * mnt.blockSize / 512 = nr * (mnt.blockSize / 512) := by
    rw [hbytes, Nat.mul_div_cancel_left _ (by decide), Nat.mul_left_comm,
      Nat.mul_div_cancel_left _ (by decide)]
  unfold blockByte diskByte
  rw [hblock, Mm.u32_of_lt (by omega), hlba]

theorem blockPtr_eq (hnr : nr < blocks) (hvol : blocks * mnt.blockSize < 2 ^ 32)
    (hi : i < mnt.blockSize / 4) : blockPtr m mnt nr i = diskPtr m mnt nr i :=
  congrArg BitVec.toNat
    (Bytes.ofBytes_congr fun _ _ => blockByte_eq hnr hvol (by omega))

/-- Where the code goes from the pointer `nr`: a zero pointer is block 0. -/
def codeFollow (m : Medium) (mnt : Ext2Mount) : Nat → List Nat → Nat
  | nr, [] => nr
  | nr, i :: path => codeFollow m mnt (blockPtr m mnt nr i) path

theorem codeFollow_eq (hvol : blocks * mnt.blockSize < 2 ^ 32)
    (hpath : ∀ i ∈ path, i < mnt.blockSize / 4) (hon : OnVolume m mnt blocks nr path)
    (hb : followPtrs m mnt nr path = some b) : codeFollow m mnt nr path = b ∧ b < blocks := by
  induction path generalizing nr with
  | nil =>
    unfold followPtrs at hb
    split at hb
    case isTrue => simp at hb
    case isFalse =>
      obtain rfl := Option.some.inj hb
      exact ⟨rfl, hon⟩
  | cons i path ih =>
    unfold followPtrs at hb
    split at hb
    case isTrue => simp at hb
    case isFalse hne =>
      unfold codeFollow
      rw [blockPtr_eq hon.1 hvol (hpath i List.mem_cons_self)]
      exact ih (fun j hj => hpath j (List.mem_cons_of_mem i hj)) (hon.2 hne) hb

theorem blockPath_lt (hk : k < 12 + mnt.blockSize / 4 + mnt.blockSize / 4 * (mnt.blockSize / 4)) :
    ∀ i ∈ (blockPath mnt ino k).2, i < mnt.blockSize / 4 := by
  unfold blockPath
  dsimp only
  split
  case isTrue => simp
  case isFalse hdirect =>
    split
    case isTrue hsingle =>
      intro i hi
      obtain rfl := List.mem_singleton.mp hi
      omega
    case isFalse hsingle =>
      have hrow : (k - (12 + mnt.blockSize / 4)) / (mnt.blockSize / 4) < mnt.blockSize / 4 :=
        Nat.div_lt_of_lt_mul (by omega)
      have hcol := Nat.mod_lt (k - (12 + mnt.blockSize / 4)) mnt.ptrsPerBlock_pos
      simp [hrow, hcol]

/-- The end of the double indirect range wraps only where no file gets there. -/
theorem double_range (hk : k < 12 + mnt.blockSize / 4 + mnt.blockSize / 4 * (mnt.blockSize / 4))
    (hp : k * mnt.blockSize < 2 ^ 32) (hsingle : ¬ k < 12 + mnt.blockSize / 4) :
    k < u32 (12 + mnt.blockSize / 4 + u32 (mnt.blockSize / 4 * (mnt.blockSize / 4))) := by
  rcases Nat.lt_or_ge (mnt.blockSize / 4) (2 ^ 16) with hsmall | hlarge
  · have hsquare : mnt.blockSize / 4 * (mnt.blockSize / 4) ≤ (2 ^ 16 - 1) * (2 ^ 16 - 1) :=
      Nat.mul_le_mul (by omega) (by omega)
    have hu : u32 (mnt.blockSize / 4 * (mnt.blockSize / 4)) =
        mnt.blockSize / 4 * (mnt.blockSize / 4) := Mm.u32_of_lt (by omega)
    rw [hu, Mm.u32_of_lt (by omega)]
    exact hk
  · have hmul : 2 ^ 16 * 2 ^ 18 ≤ k * mnt.blockSize := Nat.mul_le_mul (by omega) (by omega)
    omega

theorem codeBlockNr_eq
    (hk : k < 12 + mnt.blockSize / 4 + mnt.blockSize / 4 * (mnt.blockSize / 4))
    (hp : k * mnt.blockSize < 2 ^ 32) : codeBlockNr m mnt ino k =
      some (codeFollow m mnt (blockPath mnt ino k).1 (blockPath mnt ino k).2) := by
  unfold codeBlockNr blockPath
  dsimp only
  by_cases hdirect : k < 12
  · rw [if_pos hdirect, if_pos hdirect]
    rfl
  · rw [if_neg hdirect, if_neg hdirect]
    by_cases hsingle : k < 12 + mnt.blockSize / 4
    · rw [if_pos hsingle, if_pos hsingle]
      rfl
    · rw [if_neg hsingle, if_neg hsingle, if_pos (double_range hk hp hsingle)]
      rfl

theorem WithinDouble.block_lt (h : WithinDouble mnt ino) (hp : p < ino.iSize) :
    p / mnt.blockSize < 12 + mnt.blockSize / 4 + mnt.blockSize / 4 * (mnt.blockSize / 4) := by
  apply Nat.div_lt_of_lt_mul
  rw [Nat.mul_comm]
  exact Nat.lt_of_lt_of_le hp h

/-- Outside the holes the code reads the file's own bytes. -/
theorem codeByte_eq (hvol : blocks * mnt.blockSize < 2 ^ 32) (hdouble : WithinDouble mnt ino)
    (hon : FileOnVolume m mnt blocks ino) (hp : p < ino.iSize) (hlt : p < 2 ^ 32)
    (hb : logicalBlock m mnt ino (p / mnt.blockSize) = some b) :
    codeByte m mnt ino p = fileByte m mnt ino p := by
  have hk := hdouble.block_lt hp
  have hle : p / mnt.blockSize * mnt.blockSize ≤ p := Nat.div_mul_le_self p _
  obtain ⟨hfollow, hlast⟩ := codeFollow_eq hvol (blockPath_lt hk) (hon p hp) hb
  unfold codeByte fileByte
  rw [codeBlockNr_eq hk (by omega), hb, Option.getD_some, hfollow]
  exact blockByte_eq hlast hvol (Nat.mod_lt p mnt.blockSize_pos)

/-! What the read returns. -/

theorem readInode_lt (h : ext2ReadInode m mnt inodeNum k = (some ino, b)) :
    ino.iSize < 2 ^ 32 := by
  unfold ext2ReadInode at h
  dsimp only at h
  split at h
  · simp at h
  · split at h
    · simp at h
    · split at h
      · simp at h
      · split at h
        · simp at h
        · obtain rfl := Option.some.inj (Prod.mk.inj h).1
          exact word32_lt

theorem ext2VfsRead_eq (hm : ∀ k, m.fails k = false)
    (hino : ext2ReadInode m mnt inodeNum 0 = (some ino, k)) (hdouble : WithinDouble mnt ino)
    (hwrap : offset + size < 2 ^ 32) : ext2VfsRead m (some mnt) inodeNum offset size =
      readTotal (bytesAt (codeByte m mnt ino) offset (min size (ino.iSize - offset))) := by
  have hlt := readInode_lt hino
  unfold ext2VfsRead
  dsimp only
  rw [hino]
  dsimp only
  by_cases hinside : offset < ino.iSize
  · have hclamp : clampSize ino.iSize offset size = min size (ino.iSize - offset) := by
      unfold clampSize
      rw [Mm.u32_of_lt hwrap]
      split <;> omega
    have hu : ∀ p < min size (ino.iSize - offset), u32 (offset + p) = offset + p := fun p hp =>
      Mm.u32_of_lt (by omega)
    have hsome : ∀ p < min size (ino.iSize - offset),
        (codeBlockNr m mnt ino (u32 (offset + p) / mnt.blockSize)).isSome := by
      intro p hp
      have hle : (offset + p) / mnt.blockSize * mnt.blockSize ≤ offset + p :=
        Nat.div_mul_le_self _ _
      rw [hu p hp, codeBlockNr_eq (hdouble.block_lt (by omega)) (by omega)]
      rfl
    rw [if_neg (by omega), hm k, hclamp, readLoop_eq hm (by omega) hsome, Nat.sub_zero]
    refine congrArg readTotal (bytesAt_congr fun i hi => ?_)
    rw [Nat.zero_add, hu i hi]
  · have hzero : min size (ino.iSize - offset) = 0 := by omega
    rw [if_pos (by omega), hzero]
    rfl

theorem int32_eq_iff {n : Nat} (hn : n < 2 ^ 32) : Mm.int32 n = n ↔ n < 2 ^ 31 := by
  constructor
  · intro h
    have hlt : Mm.int32 n < 2 ^ 31 := int32_lt
    omega
  · exact Mm.int32_of_lt

theorem bytesAt_eq_iff {f g : Buffer} {n : Nat} :
    bytesAt f p n = bytesAt g p n ↔ ∀ i < n, f (p + i) = g (p + i) := by
  unfold bytesAt
  rw [List.map_inj_left]
  simp only [List.mem_range]

/-- A read returns the content of the file just when the holes it meets lead to zeros all the same,
and the count fits an `int32_t`. -/
theorem ext2_content_iff (hm : ∀ k, m.fails k = false)
    (hino : ext2ReadInode m mnt inodeNum 0 = (some ino, k))
    (hvol : blocks * mnt.blockSize < 2 ^ 32) (hdouble : WithinDouble mnt ino)
    (hon : FileOnVolume m mnt blocks ino) (hwrap : offset + size < 2 ^ 32) :
    ReadsContent m mnt ino inodeNum offset size ↔
      HolesReadZero m mnt ino offset (min size (ino.iSize - offset)) ∧
        min size (ino.iSize - offset) < 2 ^ 31 := by
  have hlt := readInode_lt hino
  unfold ReadsContent
  rw [ext2VfsRead_eq hm hino hdouble hwrap, readTotal, length_bytesAt, Prod.mk.injEq,
    int32_eq_iff (by omega), bytesAt_eq_iff, and_comm]
  refine and_congr_left' ⟨fun h i hi hhole => ?_, fun h i hi => ?_⟩
  · rw [h i hi]
    unfold fileByte
    rw [hhole]
  · cases hb : logicalBlock m mnt ino ((offset + i) / mnt.blockSize) with
    | none =>
      rw [h i hi hb]
      unfold fileByte
      rw [hb]
    | some b => exact codeByte_eq hvol hdouble hon (by omega) (by omega) hb

/-! A volume of 64 blocks of 1024 bytes: the boot block, the superblock, the group descriptors in
block 2 and the inodes in block 3. Inode 2 is the root, in block 4; inode 3 has one byte and no
blocks. -/

/-- The bytes that are not zero, by sector. -/
def sparseBytes : List ((Nat × Nat) × BitVec 8) :=
  [((0, 0), 0xEB), ((2, 4), 64), ((2, 20), 1), ((2, 32), 64), ((2, 40), 8), ((2, 56), 0x53),
    ((2, 57), 0xEF), ((4, 8), 3), ((6, 129), 0x40), ((6, 133), 4), ((6, 168), 4), ((6, 257), 0x80),
    ((6, 260), 1)]

def sparseMedium : Medium :=
  ⟨fun lba i => (sparseBytes.lookup (lba, i)).getD 0, fun _ => 0, fun _ => false⟩

def sparseMount : Ext2Mount :=
  ⟨1024, 8, 128, 1, fun _ => 3, ⟨0, by decide, rfl⟩, by decide, inodeSize128_pos, by decide⟩

def sparseInode (inodeNum : Nat) : Ext2Inode :=
  (ext2ReadInode sparseMedium sparseMount inodeNum 0).1.getD ⟨0, fun _ => 0⟩

theorem rootInode_onVolume : FileOnVolume sparseMedium sparseMount 64 (sparseInode 2) := by
  intro p hp
  have hlt : p < 1024 := hp
  have hzero : p / sparseMount.blockSize = 0 := Nat.div_eq_of_lt hlt
  rw [hzero]
  exact show (sparseInode 2).iBlock 0 < 64 by decide

theorem ext2_content_iff_root :
    ReadsContent sparseMedium sparseMount (sparseInode 2) 2 0 1024 := by
  have hino : ext2ReadInode sparseMedium sparseMount 2 0 = (some (sparseInode 2), 3) := rfl
  have hdouble : WithinDouble sparseMount (sparseInode 2) :=
    show (sparseInode 2).iSize ≤ (12 + 1024 / 4 + 1024 / 4 * (1024 / 4)) * 1024 by decide
  have hfile : (sparseInode 2).iSize = 1024 := by decide
  have hblock : logicalBlock sparseMedium sparseMount (sparseInode 2) 0 = some 4 := by decide
  refine (ext2_content_iff (fun _ => rfl) hino (by decide) hdouble rootInode_onVolume
    (by decide)).mpr ⟨fun i hi hhole => ?_, by rw [hfile]; decide⟩
  have hfirst : 0 + i < 1024 := by
    rw [hfile] at hi
    omega
  have hzero : (0 + i) / sparseMount.blockSize = 0 := Nat.div_eq_of_lt hfirst
  rw [hzero, hblock] at hhole
  exact absurd hhole (by simp)

/-- The hole of inode 3 reads as the first byte of the boot block. -/
theorem not_ext2_content_hole : ¬ ReadsContent sparseMedium sparseMount (sparseInode 3) 3 0 1 := by
  unfold ReadsContent
  decide

end PinguinOS.Fs
