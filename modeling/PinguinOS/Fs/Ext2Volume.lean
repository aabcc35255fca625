import PinguinOS.Fs.Ext2
import PinguinOS.Fs.Listing

/-! An ext2 volume as the superblock describes it. A call has no result when it divides by zero, or
when a group descriptor or an inode is taken from outside its buffer. -/
namespace PinguinOS.Fs

open Mm (u32)

/-- The fields of `ext2_superblock_t` that the mount uses. -/
structure Ext2Superblock where
  blocksCount : Nat
  firstDataBlock : Nat
  logBlockSize : Nat
  blocksPerGroup : Nat
  inodesPerGroup : Nat
  magic : Nat
  revLevel : Nat
  sInodeSize : Nat

def ext2Magic : Nat := 0xEF53

def superblockAt (buf : Buffer) : Ext2Superblock where
  blocksCount := word32 buf 4
  firstDataBlock := word32 buf 20
  logBlockSize := word32 buf 24
  blocksPerGroup := word32 buf 32
  inodesPerGroup := word32 buf 40
  magic := word16 buf 56
  revLevel := word32 buf 76
  sInodeSize := word16 buf 88

/-- The sizes in `ext2_mount_t` as the mount computes them, and that of `bgdt`. -/
structure Ext2Geometry where
  blockSize : Nat
  inodesPerGroup : Nat
  inodeSize : Nat
  numGroups : Nat
  bgdtBytes : Nat

structure Ext2Volume extends Ext2Geometry where
  bgdt : Buffer

namespace Ext2Superblock

/-- `1024u << s_log_block_size`; the processor takes the distance modulo 32. -/
def blockSize (sb : Ext2Superblock) : Nat := u32 (1024 <<< (sb.logBlockSize % 32))

def inodeSize (sb : Ext2Superblock) : Nat := if 1 ≤ sb.revLevel then sb.sInodeSize else 128

/-- The groups, rounded up; `s_blocks_per_group` is not 0. -/
def numGroups (sb : Ext2Superblock) : Nat :=
  u32 (sb.blocksCount + sb.blocksPerGroup - 1) / sb.blocksPerGroup

def bgdtSize (sb : Ext2Superblock) : Nat := u32 (sb.numGroups * 32)

/-- The blocks of the table, rounded up; `block_size` is not 0. -/
def bgdtBlocks (sb : Ext2Superblock) : Nat :=
  u32 (sb.bgdtSize + sb.blockSize - 1) / sb.blockSize

/-- The size of the buffer for the table. -/
def bgdtBytes (sb : Ext2Superblock) : Nat := u32 (sb.bgdtBlocks * sb.blockSize)

def geometry (sb : Ext2Superblock) : Ext2Geometry :=
  ⟨sb.blockSize, sb.inodesPerGroup, sb.inodeSize, sb.numGroups, sb.bgdtBytes⟩

end Ext2Superblock

/-- The loop of `ext2_read_block` over the first `n` sectors, to the place `pos` of a buffer. -/
def ext2SectorsAt (m : Medium) (lbaStart pos : Nat) : (n : Nat) → Buffer → (k : Nat) →
    Option Buffer × Nat
  | 0, buf, k => (some buf, k)
  | n + 1, buf, k =>
    match ext2SectorsAt m lbaStart pos n buf k with
    | (none, k) => (none, k)
    | (some buf, k) => ideRead m (u32 (lbaStart + n)) 1 (pos + n * 512) buf k

/-- `ext2_read_block` for blocks of this size -/
def ext2BlockAt (m : Medium) (blockSize blockNr pos : Nat) (buf : Buffer) (k : Nat) :
    Option Buffer × Nat :=
  ext2SectorsAt m (u32 (blockNr * blockSize) / 512) pos (blockSize / 512) buf k

/-- The loop of `ext2_vfs_mount` over the first `n` blocks of the group descriptors. -/
def ext2ReadBgdt (m : Medium) (sb : Ext2Superblock) : (n : Nat) → Buffer → (k : Nat) →
    Option Buffer × Nat
  | 0, buf, k => (some buf, k)
  | n + 1, buf, k =>
    match ext2ReadBgdt m sb n buf k with
    | (none, k) => (none, k)
    | (some buf, k) =>
      ext2BlockAt m sb.blockSize (u32 (u32 (sb.firstDataBlock + 1) + n)) (n * sb.blockSize) buf k

/-- `ext2_inode_t`, with the mode that a listing checks -/
structure Ext2ModeInode extends Ext2Inode where
  iMode : BitVec 16

def ext2ModeInodeAt (buf : Buffer) (pos : Nat) : Ext2ModeInode :=
  { ext2InodeAt buf pos with iMode := buf (pos + 1) ++ buf pos }

def ext2SIfdir : BitVec 16 := 0x4000

namespace Ext2Volume

/-- `ext2_read_inode`; an inode has 128 bytes, and a group descriptor 32. -/
def readInode (m : Medium) (v : Ext2Volume) (ino k : Nat) : Option (Option Ext2ModeInode × Nat) :=
  if ino = 0 then some (none, k)
  else if v.inodesPerGroup = 0 then none
  else
    let group := (ino - 1) / v.inodesPerGroup
    let index := (ino - 1) % v.inodesPerGroup
    if v.numGroups ≤ group then some (none, k)
    else if v.bgdtBytes < (group + 1) * 32 then none
    else if v.inodeSize = 0 then none
    else
      let inodesPerBlock := v.blockSize / v.inodeSize
      if inodesPerBlock = 0 then none
      else
        let blockOff := index / inodesPerBlock
        let blockIdx := index % inodesPerBlock
        if v.blockSize = 0 ∨ m.fails k then some (none, k + 1)
        else
          match ext2BlockAt m v.blockSize (u32 (word32 v.bgdt (group * 32 + 8) + blockOff)) 0
              m.fresh (k + 1) with
          | (none, k) => some (none, k)
          | (some blockBuf, k) =>
            if v.blockSize < blockIdx * v.inodeSize + 128 then none
            else some (some (ext2ModeInodeAt blockBuf (blockIdx * v.inodeSize)), k)

def readInodeBlock (m : Medium) (v : Ext2Volume) (ino : Ext2Inode) (blockIdx : Nat) (buf : Buffer)
    (k : Nat) : Option (Option Buffer × Nat) :=
  if blockIdx < 12 then some (ext2BlockAt m v.blockSize (ino.iBlock blockIdx) 0 buf k)
  else
    let ptrsPerBlock := v.blockSize / 4
    let indirectStart := 12
    let indirectEnd := u32 (indirectStart + ptrsPerBlock)
    if blockIdx < indirectEnd then
      if v.blockSize = 0 ∨ m.fails k then some (none, k + 1)
      else
        match ext2BlockAt m v.blockSize (ino.iBlock 12) 0 m.fresh (k + 1) with
        | (none, k) => some (none, k)
        | (some ind, k) =>
          some (ext2BlockAt m v.blockSize (word32 ind (4 * (blockIdx - indirectStart))) 0 buf k)
    else
      let dindStart := indirectEnd
      let dindEnd := u32 (dindStart + u32 (ptrsPerBlock * ptrsPerBlock))
      if blockIdx < dindEnd then
        if v.blockSize = 0 ∨ m.fails k ∨ m.fails (k + 1) then some (none, k + 2)
        else
          match ext2BlockAt m v.blockSize (ino.iBlock 13) 0 m.fresh (k + 2) with
          | (none, k) => some (none, k)
          | (some l1, k) =>
            let rel := blockIdx - dindStart
            if ptrsPerBlock = 0 then none
            else
              match ext2BlockAt m v.blockSize (word32 l1 (4 * (rel / ptrsPerBlock))) 0
                  m.fresh k with
              | (none, k) => some (none, k)
              | (some l2, k) =>
                some (ext2BlockAt m v.blockSize (word32 l2 (4 * (rel % ptrsPerBlock))) 0 buf k)
      else some (none, k)

/-- The copy loop of `ext2_vfs_read`: the bytes it adds. Each of its `n` rounds copies a byte at
least. -/
def readLoop (m : Medium) (v : Ext2Volume) (ino : Ext2Inode) (offset size : Nat) :
    (n bytesRead : Nat) → Buffer → (k : Nat) → Option (List (BitVec 8))
  | 0, _, _, _ => some []
  | n + 1, bytesRead, buf, k =>
    if bytesRead < size then
      if v.blockSize = 0 then none
      else
        let fileOff := u32 (offset + bytesRead)
        let blockIdx := fileOff / v.blockSize
        let blockOff := fileOff % v.blockSize
        let canRead := min (v.blockSize - blockOff) (size - bytesRead)
        match readInodeBlock m v ino blockIdx buf k with
        | none => none
        | some (none, _) => some []
        | some (some blockBuf, k) =>
          (readLoop m v ino offset size n (bytesRead + canRead) blockBuf k).map
            (bytesAt blockBuf blockOff canRead ++ ·)
    else some []

def vfsRead (m : Medium) (v : Ext2Volume) (inodeNum offset size : Nat) : Option ReadResult :=
  match readInode m v inodeNum 0 with
  | none => none
  | some (none, _) => some readFailed
  | some (some ino, k) =>
    if ino.iSize ≤ offset then some (readTotal [])
    else
      let size := clampSize ino.iSize offset size
      if v.blockSize = 0 ∨ m.fails k then some readFailed
      else
        (readLoop m v ino.toExt2Inode offset size size 0 m.fresh (k + 1)).map readTotal

end Ext2Volume

/-! Directories. -/

/-- `ext2_dirent_t`; the name has no terminator. -/
structure Ext2Dirent where
  inode : Nat
  recLen : Nat
  nameLen : Nat
  fileType : BitVec 8
  name : Buffer

def ext2DirentAt (buf : Buffer) (pos : Nat) : Ext2Dirent :=
  ⟨word32 buf pos, word16 buf (pos + 4), (buf (pos + 6)).toNat, buf (pos + 7),
    fun i => buf (pos + 8 + i)⟩

/-- `de->name_len`, but 255 at most -/
def Ext2Dirent.nlen (de : Ext2Dirent) : Nat := min de.nameLen 255

/-- `VFS_DIR` or `VFS_FILE` -/
def Ext2Dirent.flags (de : Ext2Dirent) : BitVec 32 := if de.fileType = 2 then vfsDir else vfsFile

/-- The string in the first `n` bytes. -/
def cstrOf (buf : Buffer) (n : Nat) : CStr := (bytesAt buf 0 n).takeWhile (· ≠ 0)

/-- What becomes of an entry: it ends the search, or the search of its block, or it is passed. -/
inductive Ext2Visit (σ ρ : Type*) where
  | found (r : ρ)
  | leave (s : σ)
  | next (s : σ)

/-- What `ext2_vfs_readdir` writes to `out`. -/
structure Ext2Listed where
  name : CStr
  inodeNum : Nat
  type : BitVec 32

/-- The node that `ext2_vfs_finddir` returns. -/
structure Ext2Node where
  name : CStr
  inodeNum : Nat
  size : Nat
  flags : BitVec 32

namespace Ext2Volume

/-- The inner loop. Each round goes on by a byte at least. -/
def scanBlock {σ ρ : Type*} (v : Ext2Volume)
    (visit : σ → Ext2Dirent → Nat → Option (Ext2Visit σ ρ × Nat)) (buf : Buffer) :
    (fuel pos : Nat) → σ → (k : Nat) → Option ((ρ ⊕ σ) × Nat)
  | 0, _, s, k => some (.inr s, k)
  | fuel + 1, pos, s, k =>
    if pos < v.blockSize then
      let de := ext2DirentAt buf pos
      if de.recLen = 0 then some (.inr s, k)
      else if de.inode ≠ 0 then
        match visit s de k with
        | none => none
        | some (.found r, k) => some (.inl r, k)
        | some (.leave s, k) => some (.inr s, k)
        | some (.next s, k) => scanBlock v visit buf fuel (u32 (pos + de.recLen)) s k
      else scanBlock v visit buf fuel (u32 (pos + de.recLen)) s k
    else some (.inr s, k)

/-- The outer loop, over the direct blocks. -/
def scanBlocks {σ ρ : Type*} (m : Medium) (v : Ext2Volume) (ino : Ext2Inode)
    (visit : σ → Ext2Dirent → Nat → Option (Ext2Visit σ ρ × Nat)) :
    List Nat → σ → Buffer → (k : Nat) → Option (Option ρ)
  | [], _, _, _ => some none
  | bi :: rest, s, buf, k =>
    if ino.iBlock bi = 0 then some none
    else
      match readInodeBlock m v ino bi buf k with
      | none => none
      | some (none, _) => some none
      | some (some buf, k) =>
        match scanBlock v visit buf v.blockSize 0 s k with
        | none => none
        | some (.inl r, _) => some (some r)
        | some (.inr s, k) => scanBlocks m v ino visit rest s buf k

def readdirVisit (idx entryCount : Nat) (de : Ext2Dirent) (k : Nat) :
    Option (Ext2Visit Nat Ext2Listed × Nat) :=
  if entryCount = idx then some (.found ⟨cstrOf de.name de.nlen, de.inode, de.flags⟩, k)
  else some (.next (u32 (entryCount + 1)), k)

def vfsReaddir (m : Medium) (v : Ext2Volume) (inodeNum idx : Nat) : Option (Option Ext2Listed) :=
  match readInode m v inodeNum 0 with
  | none => none
  | some (none, _) => some none
  | some (some ino, k) =>
    if ino.iMode &&& ext2SIfdir = 0 then some none
    else if v.blockSize = 0 ∨ m.fails k then some none
    else scanBlocks m v ino.toExt2Inode (readdirVisit idx) (List.range 12) 0 m.fresh (k + 1)

/-- `strncmp` compares up to `nlen` bytes, and `name` must end there. -/
def finddirVisit (m : Medium) (v : Ext2Volume) (name : Buffer) (_ : Unit) (de : Ext2Dirent)
    (k : Nat) : Option (Ext2Visit Unit Ext2Node × Nat) :=
  if cstrOf de.name de.nlen = cstrOf name de.nlen ∧ name de.nlen = 0 then
    match readInode m v de.inode k with
    | none => none
    | some (none, k) => some (.leave (), k)
    | some (some child, k) =>
      if m.fails k then some (.leave (), k + 1)
      else some (.found ⟨cstrOf name 255, de.inode, child.iSize, de.flags⟩, k + 1)
  else some (.next (), k)

def vfsFinddir (m : Medium) (v : Ext2Volume) (inodeNum : Nat) (name : Buffer) :
    Option (Option Ext2Node) :=
  match readInode m v inodeNum 0 with
  | none => none
  | some (none, _) => some none
  | some (some ino, k) =>
    if v.blockSize = 0 ∨ m.fails k then some none
    else scanBlocks m v ino.toExt2Inode (finddirVisit m v name) (List.range 12) () m.fresh (k + 1)

end Ext2Volume

/-- The volume that is mounted, and the size of its root. -/
structure Ext2Root where
  vol : Ext2Volume
  size : Nat

/-- `ext2_vfs_mount` after it has read the superblock, as `k` calls -/
def ext2MountFrom (m : Medium) (sb : Ext2Superblock) (k : Nat) : Option (Option Ext2Root) :=
  if sb.magic ≠ ext2Magic then some none
  else if sb.blocksPerGroup = 0 then none
  else if sb.blockSize = 0 then none
  else if sb.bgdtBytes = 0 ∨ m.fails k then some none
  else
    match ext2ReadBgdt m sb sb.bgdtBlocks m.fresh (k + 1) with
    | (none, _) => some none
    | (some bgdt, k) =>
      let vol : Ext2Volume := ⟨sb.geometry, bgdt⟩
      match vol.readInode m 2 k with
      | none => none
      | some (none, _) => some none
      | some (some root, k) => if m.fails k then some none else some (some ⟨vol, root.iSize⟩)

/-- `ext2_vfs_mount`, with a free slot -/
def ext2VfsMount (m : Medium) : Option (Option Ext2Root) :=
  match ideRead m 2 1 0 m.fresh 0 with
  | (none, _) => some none
  | (some sbBuf, k) =>
    match ideRead m 3 1 512 sbBuf k with
    | (none, _) => some none
    | (some sbBuf, k) => ext2MountFrom m (superblockAt sbBuf) k

end PinguinOS.Fs
