import PinguinOS.Fs.Fat32Content
import PinguinOS.Fs.Listing

/-! The directories of a FAT32 volume: `fat32_readdir` and `fat32_finddir`. -/
namespace PinguinOS.Fs

open Mm (u32)

/-- `fat32_dirent_t`, without its times -/
structure Fat32Dirent where
  name : List (BitVec 8)
  ext : List (BitVec 8)
  attrib : BitVec 8
  clusterHigh : Nat
  clusterLow : Nat
  fileSize : Nat
  length_name : name.length = 8
  length_ext : ext.length = 3

def fat32AttrVolumeId : BitVec 8 := 0x08
def fat32AttrDirectory : BitVec 8 := 0x10
def fat32AttrLfn : BitVec 8 := 0x0F

/-- The entry `i` of a cluster buffer. -/
def direntAt (buf : Buffer) (i : Nat) : Fat32Dirent where
  name := bytesAt buf (i * 32) 8
  ext := bytesAt buf (i * 32 + 8) 3
  attrib := buf (i * 32 + 11)
  clusterHigh := word16 buf (i * 32 + 20)
  clusterLow := word16 buf (i * 32 + 26)
  fileSize := word32 buf (i * 32 + 28)
  length_name := length_bytesAt
  length_ext := length_bytesAt

/-- The entries of a cluster buffer. -/
def dirents (v : Fat32Vol) (buf : Buffer) : List Fat32Dirent :=
  (List.range (v.bytesPerCluster / 32)).map (direntAt buf)

namespace Fat32Dirent

/-- `de->name[0]` -/
def first (de : Fat32Dirent) : BitVec 8 := de.name.headD 0

/-- There are no entries from this one on. -/
def IsEnd (de : Fat32Dirent) : Prop := de.first = 0x00

/-- The entry is deleted, of a long name, or the label of the volume. -/
def Skipped (de : Fat32Dirent) : Prop :=
  de.first = 0xE5 ∨ de.attrib = fat32AttrLfn ∨ de.attrib &&& fat32AttrVolumeId ≠ 0

instance {de : Fat32Dirent} : Decidable de.IsEnd := inferInstanceAs (Decidable (_ = _))

instance {de : Fat32Dirent} : Decidable de.Skipped := inferInstanceAs (Decidable (_ ∨ _ ∨ _))

/-- `((uint32_t)de->cluster_high << 16) | de->cluster_low` -/
def firstCluster (de : Fat32Dirent) : Nat := u32 (de.clusterHigh <<< 16) ||| de.clusterLow

/-- `VFS_DIR` or `VFS_FILE` -/
def flags (de : Fat32Dirent) : BitVec 32 :=
  if de.attrib &&& fat32AttrDirectory ≠ 0 then vfsDir else vfsFile

end Fat32Dirent

/-- A capital letter becomes a small one. -/
def toLower (c : BitVec 8) : BitVec 8 := if 0x41 ≤ c ∧ c ≤ 0x5A then c + 32 else c

/-- The characters that `fat32_short_name` writes before its terminator. -/
def shortNameChars (de : Fat32Dirent) : List (BitVec 8) :=
  (de.name.takeWhile (· ≠ 0x20) ++
    if de.ext.headD 0 ≠ 0x20 then 0x2E :: de.ext.takeWhile (· ≠ 0x20) else []).map toLower

/-- `fat32_short_name`, as a C string -/
def fat32ShortName (de : Fat32Dirent) : CStr := (shortNameChars de).takeWhile (· ≠ 0)

/-! Both functions go through the clusters, and through the entries of each. -/

/-- What becomes of an entry: it is the one that is wanted, the search is given up, or it goes on. -/
inductive Picked (σ : Type*) where
  | take
  | giveUp
  | pass (s : σ)

/-- What becomes of the entries of a cluster. -/
inductive Scanned (σ : Type*) where
  | done
  | found (de : Fat32Dirent)
  | more (s : σ)

/-- The inner loop. -/
def scanEntries {σ : Type*} (pick : σ → Fat32Dirent → Nat → Picked σ × Nat) :
    List Fat32Dirent → σ → (k : Nat) → Scanned σ × Nat
  | [], s, k => (.more s, k)
  | de :: rest, s, k =>
    if de.IsEnd then (.done, k)
    else if de.Skipped then scanEntries pick rest s k
    else
      match pick s de k with
      | (.take, k) => (.found de, k)
      | (.giveUp, k) => (.done, k)
      | (.pass s, k) => scanEntries pick rest s k

/-- The variables of the outer loop, with the number of calls so far. -/
structure DirState (σ : Type*) where
  cluster : Nat
  entry : σ
  clusterBuf : Buffer
  k : Nat

/-- A round of the outer loop: the next one, or the end with the entry that was found. -/
inductive DirStep (σ : Type*) where
  | next (s : DirState σ)
  | ends (de : Option Fat32Dirent)

/-- The body of the outer loop. A last cluster is looked up even when the entry has been found; that
does not matter for the result. -/
def dirStep {σ : Type*} (m : Medium) (v : Fat32Vol)
    (pick : σ → Fat32Dirent → Nat → Picked σ × Nat) (s : DirState σ) : DirStep σ :=
  if s.cluster < fat32Eoc then
    match fat32ReadSectors m v v.sectorsPerCluster (clusterToLba v s.cluster) v.sectorsPerCluster 0
        s.clusterBuf s.k with
    | (none, _) => .ends none
    | (some clusterBuf, k) =>
      match scanEntries pick (dirents v clusterBuf) s.entry k with
      | (.done, _) => .ends none
      | (.found de, _) => .ends (some de)
      | (.more entry, k) =>
        let next := fat32NextCluster m v s.cluster k
        .next ⟨next.1, entry, clusterBuf, next.2⟩
  else .ends none

/-- The outer loop; without a result when it takes more than the given number of rounds. -/
def dirWalk {σ : Type*} (m : Medium) (v : Fat32Vol)
    (pick : σ → Fat32Dirent → Nat → Picked σ × Nat) :
    (fuel : Nat) → DirState σ → Option (Option Fat32Dirent)
  | 0, _ => none
  | fuel + 1, s =>
    match dirStep m v pick s with
    | .next s => dirWalk m v pick fuel s
    | .ends de => some de

/-- From the allocation of the cluster buffer on; `kmalloc(0)` fails. -/
def dirSearch {σ : Type*} (fuel : Nat) (m : Medium) (ino : Option Fat32Inode)
    (pick : σ → Fat32Dirent → Nat → Picked σ × Nat) (entry : σ) : Option (Option Fat32Dirent) :=
  match ino with
  | none => some none
  | some ino =>
    if m.fails 0 ∨ ino.vol.bytesPerCluster = 0 then some none
    else dirWalk m ino.vol pick fuel ⟨ino.firstCluster, entry, m.fresh, 1⟩

/-- The entry that `index` others stand before. -/
def readdirPick (index entryIdx : Nat) (_ : Fat32Dirent) (k : Nat) : Picked Nat × Nat :=
  (if entryIdx = index then .take else .pass (u32 (entryIdx + 1)), k)

/-- An entry with the name, for which the inode and the node can be allocated. -/
def finddirPick (m : Medium) (name : CStr) (_ : Unit) (de : Fat32Dirent) (k : Nat) :
    Picked Unit × Nat :=
  if ¬ strncmpEq (fat32ShortName de) name 12 then (.pass (), k)
  else if m.fails k then (.giveUp, k + 1)
  else if m.fails (k + 1) then (.giveUp, k + 2)
  else (.take, k + 2)

/-- `vfs_dirent_t` -/
structure Fat32Listed where
  name : CStr
  inodeNum : Nat
  type : BitVec 32

/-- What `fat32_readdir` writes to `out`; `rest` is what is there from byte 255 on. -/
def listed (rest : CStr) (de : Fat32Dirent) : Fat32Listed :=
  ⟨direntName (fat32ShortName de) rest, de.firstCluster, de.flags⟩

def fat32Readdir (fuel : Nat) (m : Medium) (ino : Option Fat32Inode) (index : Nat) (rest : CStr) :
    Option (Option Fat32Listed) :=
  (dirSearch fuel m ino (readdirPick index) 0).map (Option.map (listed rest))

/-- The node that `fat32_finddir` returns, and the fields of its inode. -/
structure Fat32Node where
  name : CStr
  size : Nat
  flags : BitVec 32
  firstCluster : Nat
  fileSize : Nat
deriving DecidableEq

def foundNode (de : Fat32Dirent) : Fat32Node :=
  ⟨(fat32ShortName de).take 255, de.fileSize, de.flags, de.firstCluster, de.fileSize⟩

def fat32Finddir (fuel : Nat) (m : Medium) (ino : Option Fat32Inode) (name : CStr) :
    Option (Option Fat32Node) :=
  (dirSearch fuel m ino (finddirPick m name) ()).map (Option.map foundNode)

end PinguinOS.Fs
