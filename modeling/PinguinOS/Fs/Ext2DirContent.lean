import PinguinOS.Fs.Ext2Dir

/-! What an ext2 directory holds, and what a search of one of its blocks comes to. -/
namespace PinguinOS.Fs

open Mm (u32)

namespace Ext2Volume

/-- Block `nr` of the disk, as `ext2_read_block` delivers it. -/
def blockBytes (v : Ext2Volume) (sector : Nat → Buffer) (nr : Nat) : Buffer := fun i =>
  sector (u32 (u32 (nr * v.blockSize) / 512 + i / 512)) (i % 512)

/-- The number is one of an inode of the volume. -/
def HasInode (v : Ext2Volume) (ino : Nat) : Prop :=
  0 < ino ∧ (ino - 1) / v.inodesPerGroup < v.numGroups

instance {v : Ext2Volume} {ino : Nat} : Decidable (v.HasInode ino) :=
  inferInstanceAs (Decidable (_ ∧ _))

/-- The inode with this number on the disk. -/
def diskInode (v : Ext2Volume) (sector : Nat → Buffer) (ino : Nat) : Ext2ModeInode :=
  let group := (ino - 1) / v.inodesPerGroup
  let index := (ino - 1) % v.inodesPerGroup
  let inodesPerBlock := v.blockSize / v.inodeSize
  ext2ModeInodeAt
    (v.blockBytes sector (u32 (word32 v.bgdt (group * 32 + 8) + index / inodesPerBlock)))
    (index % inodesPerBlock * v.inodeSize)

/-- The block that the indices lead to from the pointer `nr`; a zero pointer leads nowhere. -/
def follow (v : Ext2Volume) (sector : Nat → Buffer) : Nat → List Nat → Option Nat
  | nr, [] => if nr = 0 then none else some nr
  | nr, i :: path =>
    if nr = 0 then none else follow v sector (word32 (v.blockBytes sector nr) (4 * i)) path

/-- The pointer of the inode that the way to block `k` starts with, and the index in each table
after it. -/
def blockWay (v : Ext2Volume) (ino : Ext2Inode) (k : Nat) : Nat × List Nat :=
  let ptrs := v.blockSize / 4
  let single := 12 + ptrs
  let double := single + ptrs * ptrs
  if k < 12 then (ino.iBlock k, [])
  else if k < single then (ino.iBlock 12, [k - 12])
  else if k < double then (ino.iBlock 13, [(k - single) / ptrs, (k - single) % ptrs])
  else (ino.iBlock 14, [(k - double) / (ptrs * ptrs), (k - double) / ptrs % ptrs,
    (k - double) % ptrs])

/-- Block `k` of a file, if it is not in a hole. -/
def fileBlock (v : Ext2Volume) (sector : Nat → Buffer) (ino : Ext2Inode) (k : Nat) : Option Nat :=
  v.follow sector (v.blockWay ino k).1 (v.blockWay ino k).2

/-- The number of blocks of a file. -/
def blockCount (v : Ext2Volume) (ino : Ext2Inode) : Nat :=
  (ino.iSize + v.blockSize - 1) / v.blockSize

/-- An entry with room for its name, aligned, and when it is in use with an inode of the volume and
a name without zeros. -/
def EntryOk (v : Ext2Volume) (de : Ext2Dirent) : Prop :=
  8 + de.nameLen ≤ de.recLen ∧ de.recLen % 4 = 0 ∧
    (de.inode ≠ 0 → v.HasInode de.inode ∧ 0 ∉ de.entry.name)

instance {v : Ext2Volume} {de : Ext2Dirent} : Decidable (v.EntryOk de) :=
  inferInstanceAs (Decidable (_ ∧ _ ∧ (_ → _)))

/-- The entries from `pos` to the end of the block, one behind the other. -/
def chain (v : Ext2Volume) (buf : Buffer) : (fuel pos : Nat) → Option (List Ext2Dirent)
  | 0, pos => if pos = v.blockSize then some [] else none
  | fuel + 1, pos =>
    if pos = v.blockSize then some []
    else
      let de := ext2DirentAt buf pos
      if v.EntryOk de ∧ pos + de.recLen ≤ v.blockSize then
        (chain v buf fuel (pos + de.recLen)).map (de :: ·)
      else none

/-- The entries in use of block `k` of a directory. -/
def blockEntries (v : Ext2Volume) (sector : Nat → Buffer) (ino : Ext2Inode) (k : Nat) :
    List Ext2Listed :=
  match v.fileBlock sector ino k with
  | none => []
  | some nr =>
    (((v.chain (v.blockBytes sector nr) v.blockSize 0).getD []).filter fun de =>
      de.inode ≠ 0).map (·.entry)

/-- The entries in use of a directory. -/
def dirEntries (v : Ext2Volume) (sector : Nat → Buffer) (ino : Ext2Inode) : List Ext2Listed :=
  (List.range (v.blockCount ino)).flatMap (v.blockEntries sector ino)

/-- Each block of the directory that is not in a hole is a chain of entries. -/
def WellFormedDir (v : Ext2Volume) (sector : Nat → Buffer) (ino : Ext2Inode) : Prop :=
  ∀ k < v.blockCount ino, ∀ nr ∈ v.fileBlock sector ino k,
    (v.chain (v.blockBytes sector nr) v.blockSize 0).isSome

/-- The entries in use that the search of a block comes to. -/
def seenEntries (v : Ext2Volume) (buf : Buffer) : List Ext2Listed :=
  (liveAt buf (v.visited buf v.blockSize 0)).map (·.entry)

/-- The inner loop leaves the block in `fuel` rounds. -/
def LoopEnds (v : Ext2Volume) (buf : Buffer) : (fuel pos : Nat) → Prop
  | 0, pos => v.blockSize ≤ pos
  | fuel + 1, pos => pos < v.blockSize → (ext2DirentAt buf pos).recLen ≠ 0 →
    LoopEnds v buf fuel (u32 (pos + (ext2DirentAt buf pos).recLen))

end Ext2Volume

/-- The blocks that a search reads: the direct ones before the first zero pointer. -/
def Ext2Inode.searched (ino : Ext2Inode) : List Nat :=
  ((List.range 12).map ino.iBlock).takeWhile (· ≠ 0)

/-- The string `s` is in the buffer. -/
structure HoldsName (name : Buffer) (s : CStr) : Prop where
  bytes : bytesAt name 0 s.length = s
  ended : name s.length = 0
  no_zero : 0 ∉ s

/-- The names are equal up to the length of the entry's, as `strncmp` compares, and `name` ends
there. -/
def Ext2Listed.Matches (e : Ext2Listed) (name : Buffer) : Prop :=
  e.name.takeWhile (· ≠ 0) = cstrOf name e.name.length ∧ name e.name.length = 0

/-- The entry in a listing: its name is a string. -/
def Ext2Listed.cut (e : Ext2Listed) : Ext2Listed := { e with name := e.name.takeWhile (· ≠ 0) }

variable {m : Medium} {v : Ext2Volume} {ino node : Ext2Inode} {buf buf' name : Buffer}
  {de : Ext2Dirent} {e : Ext2Listed} {s : CStr} {l : List Ext2Dirent}
  {fuel pos k k' idx count nr n inodeNum lba : Nat}

/-! The block from the disk. -/

theorem sectorsAt_some (h : ext2SectorsAt m lba pos n buf k = (some buf', k')) :
    ∀ i < n * 512, buf' (pos + i) = m.sector (u32 (lba + i / 512)) (i % 512) := by
  induction n generalizing buf' k' with
  | zero => omega
  | succ n ih =>
    intro i hi
    unfold ext2SectorsAt at h
    rcases hrest : ext2SectorsAt m lba pos n buf k with ⟨_ | b, c⟩ <;> rw [hrest] at h
    · cases h
    · dsimp only at h
      unfold ideRead at h
      split_ifs at h with hfails
      · cases h
      obtain rfl := Option.some.inj (Prod.mk.inj h).1
      dsimp only
      by_cases hin : i < n * 512
      · rw [if_neg (by omega)]
        exact ih hrest i hin
      · have hdiv : (pos + i - (pos + n * 512)) / 512 = 0 := by omega
        have hmod : (pos + i - (pos + n * 512)) % 512 = i % 512 := by omega
        have hsector : i / 512 = n := by omega
        rw [if_pos (by omega), hdiv, hmod, hsector, Nat.add_zero]
        exact congrArg (m.sector · (i % 512)) (Nat.mod_mod _ _)

theorem blockAt_some (h : v.Sound)
    (hread : ext2BlockAt m v.blockSize nr 0 buf k = (some buf', k')) :
    ∀ i < v.blockSize, buf' i = v.blockBytes m.sector nr i := by
  intro i hi
  obtain ⟨j, -, hj⟩ := h.blockSize_eq
  have hbyte := sectorsAt_some hread i (by omega)
  rw [Nat.zero_add] at hbyte
  exact hbyte

theorem blockAt_ok (hm : ∀ k, m.fails k = false) :
    ∃ b k', ext2BlockAt m v.blockSize nr 0 buf k = (some b, k') := sectorsAt_ok hm

/-- The fields of the inode that a search uses. -/
structure SameInode (ino ino' : Ext2ModeInode) : Prop where
  mode : ino.iMode = ino'.iMode
  size : ino.iSize = ino'.iSize
  block : ∀ i < 15, ino.iBlock i = ino'.iBlock i

theorem inodeAt_congr {p : Nat} (hsame : ∀ i < v.blockSize, buf i = buf' i)
    (hp : p + 128 ≤ v.blockSize) : SameInode (ext2ModeInodeAt buf p) (ext2ModeInodeAt buf' p) where
  mode := by
    unfold ext2ModeInodeAt
    dsimp only
    rw [hsame p (by omega), hsame (p + 1) (by omega)]
  size := word32_congr fun i hi => hsame _ (by omega)
  block := fun i hi => word32_congr fun j hj => hsame _ (by omega)

theorem readInode_some (h : v.Sound) {r : Ext2ModeInode}
    (hread : v.readInode m inodeNum k = some (some r, k')) :
    SameInode r (v.diskInode m.sector inodeNum) := by
  unfold Ext2Volume.readInode at hread
  dsimp only at hread
  rcases hblock : ext2BlockAt m v.blockSize (u32 (word32 v.bgdt
    ((inodeNum - 1) / v.inodesPerGroup * 32 + 8) +
      (inodeNum - 1) % v.inodesPerGroup / (v.blockSize / v.inodeSize))) 0 m.fresh (k + 1)
    with ⟨_ | b, c⟩ <;> rw [hblock] at hread
  · split_ifs at hread <;> cases hread
  · dsimp only at hread
    rw [if_neg (Nat.not_lt.mpr h.copy)] at hread
    split_ifs at hread
    · cases hread
    · cases hread
    · cases hread
    · obtain rfl := Option.some.inj (Prod.mk.inj (Option.some.inj hread)).1
      exact inodeAt_congr (blockAt_some h hblock) h.copy

theorem buffer_ok (h : v.Sound) (hm : ∀ k, m.fails k = false) :
    ¬ (v.blockSize = 0 ∨ m.fails k = true) := by
  rintro (hzero | hfails)
  · exact h.blockSize_pos hzero
  · rw [hm k] at hfails
    cases hfails

theorem readInode_ok (h : v.Sound) (hm : ∀ k, m.fails k = false) (hlt : inodeNum < 2 ^ 32)
    (hino : v.HasInode inodeNum) : ∃ r k', v.readInode m inodeNum k = some (some r, k') := by
  obtain ⟨hzero, hgroup⟩ := hino
  unfold Ext2Volume.readInode
  dsimp only
  rw [if_neg (by omega), if_neg (Nat.ne_of_gt h.inodesPerGroup_pos), if_neg (by omega),
    if_neg (Nat.not_lt.mpr (h.descriptor hlt hgroup)), if_neg (Nat.ne_of_gt h.inodeSize_pos),
    if_neg (Nat.ne_of_gt h.perBlock_pos), if_neg (buffer_ok h hm)]
  obtain ⟨b, c, hblock⟩ := @blockAt_ok m v m.fresh (k + 1) (u32 (word32 v.bgdt
    ((inodeNum - 1) / v.inodesPerGroup * 32 + 8) +
      (inodeNum - 1) % v.inodesPerGroup / (v.blockSize / v.inodeSize))) hm
  rw [hblock]
  dsimp only
  rw [if_neg (Nat.not_lt.mpr h.copy)]
  exact ⟨_, _, rfl⟩

/-! What two buffers with the same block in them show. -/

theorem dirent_header (hsame : ∀ i < v.blockSize, buf i = buf' i) (hpos : pos + 6 ≤ v.blockSize) :
    (ext2DirentAt buf pos).inode = (ext2DirentAt buf' pos).inode ∧
      (ext2DirentAt buf pos).recLen = (ext2DirentAt buf' pos).recLen :=
  ⟨word32_congr fun i _ => hsame _ (by omega),
    word16_congr (hsame _ (by omega)) (hsame _ (by omega))⟩

theorem live_congr (hsame : ∀ i < v.blockSize, buf i = buf' i) (hpos : pos + 6 ≤ v.blockSize) :
    (ext2DirentAt buf pos).Live ↔ (ext2DirentAt buf' pos).Live := by
  obtain ⟨hinode, hlen⟩ := dirent_header hsame hpos
  unfold Ext2Dirent.Live
  rw [hinode, hlen]

theorem nlen_congr (hsame : ∀ i < v.blockSize, buf i = buf' i) (hpos : pos + 8 ≤ v.blockSize) :
    (ext2DirentAt buf pos).nlen = (ext2DirentAt buf' pos).nlen := by
  unfold Ext2Dirent.nlen ext2DirentAt
  dsimp only
  rw [hsame (pos + 6) (by omega)]

theorem EntryInside.congr (hsame : ∀ i < v.blockSize, buf i = buf' i)
    (hin : EntryInside v.blockSize buf pos) : EntryInside v.blockSize buf' pos := by
  obtain ⟨hheader, hname⟩ := hin
  refine ⟨hheader, fun hlive => ?_⟩
  have hle := hname ((live_congr hsame hheader).mpr hlive)
  rw [← nlen_congr hsame (by omega)]
  exact hle

theorem entry_congr (hsame : ∀ i < v.blockSize, buf i = buf' i)
    (hin : EntryInside v.blockSize buf pos) (hlive : (ext2DirentAt buf pos).Live) :
    (ext2DirentAt buf pos).entry = (ext2DirentAt buf' pos).entry := by
  have hle := hin.2 hlive
  have hinode := (dirent_header hsame hin.1).1
  have hnlen := nlen_congr hsame (by omega : pos + 8 ≤ v.blockSize)
  have hflags : (ext2DirentAt buf pos).flags = (ext2DirentAt buf' pos).flags := by
    unfold Ext2Dirent.flags ext2DirentAt
    dsimp only
    rw [hsame (pos + 7) (by omega)]
  have hname : bytesAt (ext2DirentAt buf pos).name 0 (ext2DirentAt buf pos).nlen =
      bytesAt (ext2DirentAt buf' pos).name 0 (ext2DirentAt buf pos).nlen :=
    bytesAt_congr fun i hi => hsame _ (by omega)
  unfold Ext2Dirent.entry
  rw [hname, hnlen, hinode, hflags]

theorem visited_congr (hsame : ∀ i < v.blockSize, buf i = buf' i)
    (hin : ∀ p ∈ v.visited buf fuel pos, p + 6 ≤ v.blockSize) :
    v.visited buf' fuel pos = v.visited buf fuel pos := by
  induction fuel generalizing pos with
  | zero => rfl
  | succ fuel ih =>
    unfold Ext2Volume.visited at hin ⊢
    by_cases hpos : pos < v.blockSize
    · rw [if_pos hpos] at hin ⊢
      rw [if_pos hpos]
      have hlen := (dirent_header hsame (hin pos List.mem_cons_self)).2
      rw [← hlen]
      by_cases hzero : (ext2DirentAt buf pos).recLen = 0
      · rw [if_pos hzero, if_pos hzero]
      · rw [if_neg hzero] at hin ⊢
        rw [if_neg hzero, ih fun p hp => hin p (List.mem_cons_of_mem pos hp)]
    · rw [if_neg hpos, if_neg hpos]

theorem inside_congr (hsame : ∀ i < v.blockSize, buf i = buf' i)
    (hin : ∀ p ∈ v.visited buf fuel pos, EntryInside v.blockSize buf p) :
    ∀ p ∈ v.visited buf' fuel pos, EntryInside v.blockSize buf' p := by
  rw [visited_congr hsame fun p hp => (hin p hp).1]
  exact fun p hp => (hin p hp).congr hsame

theorem map_entry_liveAt {l : List Nat} (hsame : ∀ i < v.blockSize, buf i = buf' i)
    (hin : ∀ p ∈ l, EntryInside v.blockSize buf p) :
    (liveAt buf l).map (·.entry) = (liveAt buf' l).map (·.entry) := by
  induction l with
  | nil => rfl
  | cons p l ih =>
    have hp := hin p List.mem_cons_self
    have ih := ih fun q hq => hin q (List.mem_cons_of_mem p hq)
    have hiff := live_congr hsame hp.1
    by_cases hlive : (ext2DirentAt buf p).Live
    · rw [liveAt_cons_of_live hlive, liveAt_cons_of_live (hiff.mp hlive), List.map_cons,
        List.map_cons, ih, entry_congr hsame hp hlive]
    · rw [liveAt_cons_of_not_live hlive,
        liveAt_cons_of_not_live fun h => hlive (hiff.mpr h), ih]

theorem seenEntries_congr (hsame : ∀ i < v.blockSize, buf i = buf' i)
    (hin : ∀ p ∈ v.visited buf v.blockSize 0, EntryInside v.blockSize buf p) :
    v.seenEntries buf' = v.seenEntries buf := by
  unfold Ext2Volume.seenEntries
  rw [visited_congr hsame fun p hp => (hin p hp).1, map_entry_liveAt hsame hin]

/-! The inner loop. -/

theorem recLen_lt : (ext2DirentAt buf pos).recLen < 2 ^ 16 := BitVec.isLt _

theorem Ext2Geometry.Sound.blockSize_le {g : Ext2Geometry} (h : g.Sound) :
    g.blockSize ≤ 2 ^ 31 := by
  obtain ⟨j, hle, hj⟩ := h.blockSize_eq
  have hpow : 2 ^ j ≤ 2 ^ 21 := Nat.pow_le_pow_right (by decide) hle
  omega

/-- The next place does not wrap. -/
theorem next_pos (h : v.Sound) (hpos : pos < v.blockSize) :
    u32 (pos + (ext2DirentAt buf pos).recLen) = pos + (ext2DirentAt buf pos).recLen := by
  have hle := h.blockSize_le
  have hlt := @recLen_lt buf pos
  exact Mm.u32_of_lt (by omega)

theorem length_visited (h : v.Sound) : (v.visited buf fuel pos).length ≤ v.blockSize - pos := by
  induction fuel generalizing pos with
  | zero => exact Nat.zero_le _
  | succ fuel ih =>
    unfold Ext2Volume.visited
    by_cases hpos : pos < v.blockSize
    · rw [if_pos hpos, List.length_cons]
      by_cases hzero : (ext2DirentAt buf pos).recLen = 0
      · rw [if_pos hzero, List.length_nil]
        omega
      · rw [if_neg hzero, next_pos h hpos]
        have hrest := @ih (pos + (ext2DirentAt buf pos).recLen)
        omega
    · rw [if_neg hpos]
      exact Nat.zero_le _

/-- Each round goes on by a byte at least. -/
theorem loopEnds (h : v.Sound) (hfuel : v.blockSize ≤ pos + fuel) : v.LoopEnds buf fuel pos := by
  induction fuel generalizing pos with
  | zero => exact hfuel
  | succ fuel ih =>
    intro hpos hne
    rw [next_pos h hpos]
    exact ih (by omega)

theorem length_liveAt {l : List Nat} : (liveAt buf l).length ≤ l.length := by
  unfold liveAt
  exact (List.length_filter_le _ _).trans_eq (List.length_map _)

theorem length_seenEntries (h : v.Sound) : (v.seenEntries buf).length ≤ v.blockSize := by
  unfold Ext2Volume.seenEntries
  rw [List.length_map]
  exact length_liveAt.trans (length_visited h)

/-- The search of a chain comes to its entries. -/
theorem visited_chain (h : v.Sound) (hchain : v.chain buf fuel pos = some l) :
    liveAt buf (v.visited buf fuel pos) = l.filter (·.inode ≠ 0) ∧ ∀ de ∈ l, v.EntryOk de := by
  induction fuel generalizing pos l with
  | zero =>
    unfold Ext2Volume.chain at hchain
    split_ifs at hchain
    obtain rfl := Option.some.inj hchain
    exact ⟨rfl, fun _ hde => nomatch hde⟩
  | succ fuel ih =>
    unfold Ext2Volume.chain at hchain
    unfold Ext2Volume.visited
    by_cases hend : pos = v.blockSize
    · rw [if_pos hend] at hchain
      obtain rfl := Option.some.inj hchain
      rw [if_neg (by omega)]
      exact ⟨rfl, fun _ hde => nomatch hde⟩
    rw [if_neg hend] at hchain
    dsimp only at hchain
    split_ifs at hchain with hok
    obtain ⟨hentry, hroom⟩ := hok
    have hlen := hentry.1
    have hpos : pos < v.blockSize := by omega
    obtain ⟨rest, hrest, rfl⟩ := Option.map_eq_some_iff.mp hchain
    obtain ⟨hlive, hall⟩ := ih hrest
    rw [if_pos hpos, if_neg (by omega), next_pos h hpos]
    refine ⟨?_, fun de hde => ?_⟩
    · by_cases hinode : (ext2DirentAt buf pos).inode ≠ 0
      · rw [liveAt_cons_of_live ⟨by omega, hinode⟩, hlive]
        have hkeep : decide ((ext2DirentAt buf pos).inode ≠ 0) = true := decide_eq_true hinode
        rw [List.filter_cons, if_pos hkeep]
      · rw [liveAt_cons_of_not_live fun h => hinode h.2, hlive]
        have hdrop : decide ((ext2DirentAt buf pos).inode ≠ 0) = false := decide_eq_false hinode
        rw [List.filter_cons, hdrop, if_neg Bool.false_ne_true]
    · rcases List.mem_cons.mp hde with rfl | hmem
      · exact hentry
      · exact hall de hmem

/-- What the entries of a chain in use are good for. -/
theorem seenEntries_chain (h : v.Sound) (hchain : v.chain buf v.blockSize 0 = some l) :
    v.seenEntries buf = (l.filter (·.inode ≠ 0)).map (·.entry) ∧
      ∀ e ∈ v.seenEntries buf, v.HasInode e.inodeNum ∧ 0 ∉ e.name := by
  obtain ⟨hlive, hok⟩ := visited_chain h hchain
  have hseen : v.seenEntries buf = (l.filter (·.inode ≠ 0)).map (·.entry) := by
    unfold Ext2Volume.seenEntries
    rw [hlive]
  refine ⟨hseen, fun e he => ?_⟩
  rw [hseen] at he
  obtain ⟨de, hde, rfl⟩ := List.mem_map.mp he
  obtain ⟨hmem, hinode⟩ := List.mem_filter.mp hde
  exact (hok de hmem).2.2 (of_decide_eq_true hinode)

end PinguinOS.Fs
