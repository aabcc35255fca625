import PinguinOS.Fs.Medium

/-! Reads of an ext2 file. -/
namespace PinguinOS.Fs

open Mm (u32)

/-- The fields of `ext2_inode_t` that a read uses. -/
structure Ext2Inode where
  iSize : Nat
  iBlock : Nat → Nat

/-- `ext2_mount_t` after `ext2_vfs_mount`, which has read the root inode; `bgInodeTable` is the
inode table of each group. -/
structure Ext2Mount where
  blockSize : Nat
  inodesPerGroup : Nat
  inodeSize : Nat
  numGroups : Nat
  bgInodeTable : Nat → Nat
  blockSize_eq : ∃ j ≤ 21, blockSize = 1024 * 2 ^ j
  inodesPerGroup_pos : 0 < inodesPerGroup
  inodeSize_pos : 0 < inodeSize
  inodeSize_le : inodeSize ≤ blockSize

theorem inodeSize128_pos : 0 < 128 := by decide

/-- The loop of `ext2_read_block` over the first `n` sectors. -/
def ext2ReadSectors (m : Medium) (lbaStart : Nat) : (n : Nat) → Buffer → (k : Nat) →
    Option Buffer × Nat
  | 0, buf, k => (some buf, k)
  | n + 1, buf, k =>
    match ext2ReadSectors m lbaStart n buf k with
    | (none, k) => (none, k)
    | (some buf, k) => ideRead m (u32 (lbaStart + n)) 1 (n * 512) buf k

def ext2ReadBlock (m : Medium) (mnt : Ext2Mount) (blockNr : Nat) (buf : Buffer) (k : Nat) :
    Option Buffer × Nat :=
  let byteOff := u32 (blockNr * mnt.blockSize)
  ext2ReadSectors m (byteOff / 512) (mnt.blockSize / 512) buf k

/-- The inode at `pos` of a block. -/
def ext2InodeAt (buf : Buffer) (pos : Nat) : Ext2Inode :=
  ⟨word32 buf (pos + 4), fun i => word32 buf (pos + 40 + 4 * i)⟩

def ext2ReadInode (m : Medium) (mnt : Ext2Mount) (ino k : Nat) : Option Ext2Inode × Nat :=
  if ino = 0 then (none, k)
  else
    let group := (ino - 1) / mnt.inodesPerGroup
    let index := (ino - 1) % mnt.inodesPerGroup
    if mnt.numGroups ≤ group then (none, k)
    else
      let inodesPerBlock := mnt.blockSize / mnt.inodeSize
      let blockOff := index / inodesPerBlock
      let blockIdx := index % inodesPerBlock
      if m.fails k then (none, k + 1)
      else
        match ext2ReadBlock m mnt (u32 (mnt.bgInodeTable group + blockOff)) m.fresh (k + 1) with
        | (none, k) => (none, k)
        | (some blockBuf, k) => (some (ext2InodeAt blockBuf (blockIdx * mnt.inodeSize)), k)

def ext2ReadInodeBlock (m : Medium) (mnt : Ext2Mount) (ino : Ext2Inode) (blockIdx : Nat)
    (buf : Buffer) (k : Nat) : Option Buffer × Nat :=
  if blockIdx < 12 then ext2ReadBlock m mnt (ino.iBlock blockIdx) buf k
  else
    let ptrsPerBlock := mnt.blockSize / 4
    let indirectStart := 12
    let indirectEnd := u32 (indirectStart + ptrsPerBlock)
    if blockIdx < indirectEnd then
      if m.fails k then (none, k + 1)
      else
        match ext2ReadBlock m mnt (ino.iBlock 12) m.fresh (k + 1) with
        | (none, k) => (none, k)
        | (some ind, k) =>
          ext2ReadBlock m mnt (word32 ind (4 * (blockIdx - indirectStart))) buf k
    else
      let dindStart := indirectEnd
      let dindEnd := u32 (dindStart + u32 (ptrsPerBlock * ptrsPerBlock))
      if blockIdx < dindEnd then
        if m.fails k ∨ m.fails (k + 1) then (none, k + 2)
        else
          match ext2ReadBlock m mnt (ino.iBlock 13) m.fresh (k + 2) with
          | (none, k) => (none, k)
          | (some l1, k) =>
            let rel := blockIdx - dindStart
            match ext2ReadBlock m mnt (word32 l1 (4 * (rel / ptrsPerBlock))) m.fresh k with
            | (none, k) => (none, k)
            | (some l2, k) =>
              ext2ReadBlock m mnt (word32 l2 (4 * (rel % ptrsPerBlock))) buf k
      else (none, k)

/-- The copy loop of `ext2_vfs_read`: the bytes it adds. Each of its `n` rounds copies a byte at
least. -/
def ext2ReadLoop (m : Medium) (mnt : Ext2Mount) (ino : Ext2Inode) (offset size : Nat) :
    (n bytesRead : Nat) → Buffer → (k : Nat) → List (BitVec 8)
  | 0, _, _, _ => []
  | n + 1, bytesRead, buf, k =>
    if bytesRead < size then
      let fileOff := u32 (offset + bytesRead)
      let blockIdx := fileOff / mnt.blockSize
      let blockOff := fileOff % mnt.blockSize
      let canRead := min (mnt.blockSize - blockOff) (size - bytesRead)
      match ext2ReadInodeBlock m mnt ino blockIdx buf k with
      | (none, _) => []
      | (some blockBuf, k) =>
        bytesAt blockBuf blockOff canRead ++
          ext2ReadLoop m mnt ino offset size n (bytesRead + canRead) blockBuf k
    else []

/-- `ext2_vfs_read` of the inode `inodeNum` -/
def ext2VfsRead (m : Medium) (mnt : Option Ext2Mount) (inodeNum offset size : Nat) : ReadResult :=
  match mnt with
  | none => readFailed
  | some mnt =>
    match ext2ReadInode m mnt inodeNum 0 with
    | (none, _) => readFailed
    | (some ino, k) =>
      if ino.iSize ≤ offset then readTotal []
      else
        let size := clampSize ino.iSize offset size
        if m.fails k then readFailed
        else readTotal (ext2ReadLoop m mnt ino offset size size 0 m.fresh (k + 1))

variable {m : Medium} {mnt : Ext2Mount} {ino : Ext2Inode} {buf : Buffer}
  {n size bytesRead k offset lba nr inodeNum blockIdx : Nat}

theorem Ext2Mount.blockSize_pos (mnt : Ext2Mount) : 0 < mnt.blockSize := by
  obtain ⟨j, -, hj⟩ := mnt.blockSize_eq
  rw [hj]
  exact Nat.mul_pos (by decide) (Nat.two_pow_pos j)

theorem ext2ReadLoop_le :
    (ext2ReadLoop m mnt ino offset size n bytesRead buf k).length ≤ size - bytesRead := by
  induction n generalizing bytesRead buf k with
  | zero => exact Nat.zero_le _
  | succ n ih =>
    unfold ext2ReadLoop
    split
    case isFalse => exact Nat.zero_le _
    case isTrue hmore =>
      dsimp only
      split
      · exact Nat.zero_le _
      · rw [List.length_append, length_bytesAt]
        refine (Nat.add_le_add_left ih _).trans ?_
        omega

/-! Without failures. -/

/-- Byte `i` of block `nr`. -/
def blockByte (m : Medium) (mnt : Ext2Mount) (nr i : Nat) : BitVec 8 :=
  m.sector (u32 (u32 (nr * mnt.blockSize) / 512 + i / 512)) (i % 512)

theorem readSectors_ok (hm : ∀ k, m.fails k = false) :
    ext2ReadSectors m lba n buf k = (some fun i =>
      if i < n * 512 then m.sector (u32 (lba + i / 512)) (i % 512) else buf i, k + n) := by
  induction n generalizing k with
  | zero => simp [ext2ReadSectors]
  | succ n ih =>
    unfold ext2ReadSectors
    rw [ih]
    dsimp only
    rw [ideRead_ok (hm _)]
    refine Prod.ext (congrArg some (funext fun i => ?_)) (Nat.add_assoc k n 1)
    by_cases hi : i < n * 512
    · have hbefore : ¬ (n * 512 ≤ i ∧ i < n * 512 + 512 * 1) := fun h => Nat.not_le.mpr hi h.1
      rw [if_neg hbefore, if_pos hi, if_pos (Nat.lt_of_lt_of_le hi (by omega))]
    · by_cases hnext : i < (n + 1) * 512
      · have hdiv : i / 512 = n := by omega
        have hzero : (i - n * 512) / 512 = 0 := by omega
        have hmod : (i - n * 512) % 512 = i % 512 := by omega
        have hu : u32 (u32 (lba + n) + 0) = u32 (lba + n) := by simp [u32]
        rw [if_pos ⟨Nat.not_lt.mp hi, by omega⟩, if_pos hnext, hdiv, hzero, hmod, hu]
      · rw [if_neg (fun h => hnext (by omega)), if_neg hi, if_neg hnext]

theorem readBlock_ok (hm : ∀ k, m.fails k = false) :
    ∃ block, ext2ReadBlock m mnt nr buf k = (some block, k + mnt.blockSize / 512) ∧
      ∀ i < mnt.blockSize, block i = blockByte m mnt nr i := by
  refine ⟨_, readSectors_ok hm, fun i hi => if_pos ?_⟩
  obtain ⟨j, -, hj⟩ := mnt.blockSize_eq
  omega

theorem Ext2Mount.ptrsPerBlock_le (mnt : Ext2Mount) : mnt.blockSize / 4 ≤ 2 ^ 29 := by
  obtain ⟨j, hj21, hj⟩ := mnt.blockSize_eq
  have hpow : 2 ^ j ≤ 2 ^ 21 := Nat.pow_le_pow_right (by decide) hj21
  omega

theorem Ext2Mount.ptrsPerBlock_pos (mnt : Ext2Mount) : 0 < mnt.blockSize / 4 := by
  obtain ⟨j, -, hj⟩ := mnt.blockSize_eq
  have hpow := Nat.two_pow_pos j
  omega

/-- Pointer `i` of block `nr`. -/
def blockPtr (m : Medium) (mnt : Ext2Mount) (nr i : Nat) : Nat :=
  word32 (blockByte m mnt nr) (4 * i)

/-- Where the code looks for a block of the file, if it is not a triple indirect one. -/
def codeBlockNr (m : Medium) (mnt : Ext2Mount) (ino : Ext2Inode) (blockIdx : Nat) : Option Nat :=
  let ptrs := mnt.blockSize / 4
  if blockIdx < 12 then some (ino.iBlock blockIdx)
  else if blockIdx < 12 + ptrs then some (blockPtr m mnt (ino.iBlock 12) (blockIdx - 12))
  else if blockIdx < u32 (12 + ptrs + u32 (ptrs * ptrs)) then
    let rel := blockIdx - (12 + ptrs)
    some (blockPtr m mnt (blockPtr m mnt (ino.iBlock 13) (rel / ptrs)) (rel % ptrs))
  else none

theorem word32_block {block : Buffer} {i : Nat}
    (hblock : ∀ i < mnt.blockSize, block i = blockByte m mnt nr i) (hi : i < mnt.blockSize / 4) :
    word32 block (4 * i) = blockPtr m mnt nr i :=
  congrArg BitVec.toNat (Bytes.ofBytes_congr fun j hj => hblock (4 * i + j) (by omega))

theorem readInodeBlock_ok (hm : ∀ k, m.fails k = false)
    (hnr : codeBlockNr m mnt ino blockIdx = some nr) :
    ∃ block k', ext2ReadInodeBlock m mnt ino blockIdx buf k = (some block, k') ∧
      ∀ i < mnt.blockSize, block i = blockByte m mnt nr i := by
  have hptrs := mnt.ptrsPerBlock_le
  have hend : u32 (12 + mnt.blockSize / 4) = 12 + mnt.blockSize / 4 :=
    Mm.u32_of_lt (by omega)
  unfold codeBlockNr at hnr
  unfold ext2ReadInodeBlock
  dsimp only at hnr ⊢
  rw [hend]
  split at hnr
  case isTrue hdirect =>
    obtain rfl := Option.some.inj hnr
    rw [if_pos hdirect]
    obtain ⟨block, hread, hblock⟩ := readBlock_ok hm
    exact ⟨block, _, hread, hblock⟩
  case isFalse hdirect =>
    rw [if_neg hdirect]
    split at hnr
    case isTrue hsingle =>
      obtain rfl := Option.some.inj hnr
      rw [if_pos hsingle, hm k]
      obtain ⟨ind, hind, hindBytes⟩ :=
        @readBlock_ok m mnt m.fresh (k + 1) (ino.iBlock 12) hm
      rw [if_neg (by decide), hind]
      dsimp only
      rw [word32_block hindBytes (by omega)]
      obtain ⟨block, hread, hblock⟩ := readBlock_ok hm
      exact ⟨block, _, hread, hblock⟩
    case isFalse hsingle =>
      rw [if_neg hsingle]
      split at hnr
      case isFalse => simp at hnr
      case isTrue hdouble =>
        obtain rfl := Option.some.inj hnr
        have hrel : blockIdx - (12 + mnt.blockSize / 4) <
            mnt.blockSize / 4 * (mnt.blockSize / 4) := by
          have hle : u32 (12 + mnt.blockSize / 4 +
              u32 (mnt.blockSize / 4 * (mnt.blockSize / 4))) ≤ 12 + mnt.blockSize / 4 +
                u32 (mnt.blockSize / 4 * (mnt.blockSize / 4)) := Nat.mod_le _ _
          have hsquare : u32 (mnt.blockSize / 4 * (mnt.blockSize / 4)) ≤
              mnt.blockSize / 4 * (mnt.blockSize / 4) := Nat.mod_le _ _
          omega
        have hpos := mnt.ptrsPerBlock_pos
        have hrow := Nat.div_lt_of_lt_mul hrel
        have hcol := Nat.mod_lt (blockIdx - (12 + mnt.blockSize / 4)) hpos
        rw [if_pos hdouble, hm k, hm (k + 1)]
        obtain ⟨l1, hl1, hl1Bytes⟩ := @readBlock_ok m mnt m.fresh (k + 2) (ino.iBlock 13) hm
        rw [if_neg (by decide), hl1]
        dsimp only
        rw [word32_block hl1Bytes hrow]
        obtain ⟨l2, hl2, hl2Bytes⟩ := readBlock_ok hm
        rw [hl2]
        dsimp only
        rw [word32_block hl2Bytes hcol]
        obtain ⟨block, hread, hblock⟩ := readBlock_ok hm
        exact ⟨block, _, hread, hblock⟩

/-- Byte `p` of the file, where the code looks for it. -/
def codeByte (m : Medium) (mnt : Ext2Mount) (ino : Ext2Inode) (p : Nat) : BitVec 8 :=
  blockByte m mnt ((codeBlockNr m mnt ino (p / mnt.blockSize)).getD 0) (p % mnt.blockSize)

theorem Ext2Mount.blockSize_dvd (mnt : Ext2Mount) : mnt.blockSize ∣ 2 ^ 32 := by
  obtain ⟨j, hj21, hj⟩ := mnt.blockSize_eq
  rw [hj, show 1024 = 2 ^ 10 from rfl, ← Nat.pow_add]
  exact Nat.pow_dvd_pow 2 (by omega)

/-- The offsets of a block do not wrap before its end. -/
theorem u32_in_block {p i : Nat} (hi : i < mnt.blockSize - u32 p % mnt.blockSize) :
    u32 (p + i) = u32 p + i ∧ u32 (p + i) / mnt.blockSize = u32 p / mnt.blockSize ∧
      u32 (p + i) % mnt.blockSize = u32 p % mnt.blockSize + i := by
  obtain ⟨c, hc⟩ := mnt.blockSize_dvd
  have hpos := mnt.blockSize_pos
  have hlt : u32 p / mnt.blockSize < c := Nat.div_lt_of_lt_mul (hc ▸ Mm.u32_lt)
  have hsplit := Nat.div_add_mod (u32 p) mnt.blockSize
  have hnext : mnt.blockSize * (u32 p / mnt.blockSize + 1) ≤ mnt.blockSize * c :=
    Nat.mul_le_mul_left _ hlt
  have hsum : u32 p + i = mnt.blockSize * (u32 p / mnt.blockSize) + (u32 p % mnt.blockSize + i) := by
    omega
  have hu : u32 (p + i) = u32 p + i := by
    rw [Nat.mul_add] at hnext
    have hfits : u32 p + i < 2 ^ 32 := by omega
    unfold u32 at hfits ⊢
    omega
  have hlast : u32 p % mnt.blockSize + i < mnt.blockSize := by omega
  refine ⟨hu, ?_, ?_⟩
  · rw [hu, hsum, Nat.mul_add_div hpos, Nat.div_eq_of_lt hlast, Nat.add_zero]
  · rw [hu, hsum, Nat.mul_add_mod, Nat.mod_eq_of_lt hlast]

/-- The loop copies the bytes of the file from `offset` on, around the end of the 32-bit range. -/
theorem readLoop_eq (hm : ∀ k, m.fails k = false) (hn : size - bytesRead ≤ n)
    (hnr : ∀ p < size, (codeBlockNr m mnt ino (u32 (offset + p) / mnt.blockSize)).isSome) :
    ext2ReadLoop m mnt ino offset size n bytesRead buf k =
      bytesAt (fun p => codeByte m mnt ino (u32 (offset + p))) bytesRead (size - bytesRead) := by
  induction n generalizing bytesRead buf k with
  | zero =>
    rw [show size - bytesRead = 0 by omega]
    rfl
  | succ n ih =>
    unfold ext2ReadLoop
    by_cases hmore : bytesRead < size
    · rw [if_pos hmore]
      dsimp only
      obtain ⟨nr, hnr'⟩ := Option.isSome_iff_exists.mp (hnr bytesRead hmore)
      obtain ⟨block, k', hread, hblock⟩ := @readInodeBlock_ok _ _ _ buf k _ _ hm hnr'
      rw [hread]
      dsimp only
      have hoff : u32 (offset + bytesRead) % mnt.blockSize < mnt.blockSize :=
        Nat.mod_lt _ mnt.blockSize_pos
      generalize hcan : min (mnt.blockSize - u32 (offset + bytesRead) % mnt.blockSize)
        (size - bytesRead) = canRead
      have hrest : size - bytesRead = canRead + (size - (bytesRead + canRead)) := by omega
      rw [ih (by omega), hrest, bytesAt_add]
      refine congrArg (· ++ _) (bytesAt_congr fun i hi => ?_)
      obtain ⟨-, hdiv, hmod⟩ := @u32_in_block mnt (offset + bytesRead) i (by omega)
      unfold codeByte
      rw [← Nat.add_assoc, hdiv, hmod, hnr', Option.getD_some]
      exact hblock _ (by omega)
    · rw [if_neg hmore, show size - bytesRead = 0 by omega]
      rfl

theorem ext2VfsRead_cases :
    (∃ k, ext2ReadInode m mnt inodeNum 0 = (none, k)) ∧
        ext2VfsRead m (some mnt) inodeNum offset size = readFailed ∨
      ∃ ino k, ext2ReadInode m mnt inodeNum 0 = (some ino, k) ∧
        (ino.iSize ≤ offset → ext2VfsRead m (some mnt) inodeNum offset size = readTotal []) ∧
        (offset < ino.iSize → ext2VfsRead m (some mnt) inodeNum offset size =
          if m.fails k then readFailed
          else readTotal (ext2ReadLoop m mnt ino offset (clampSize ino.iSize offset size)
            (clampSize ino.iSize offset size) 0 m.fresh (k + 1))) := by
  unfold ext2VfsRead
  dsimp only
  rcases ext2ReadInode m mnt inodeNum 0 with ⟨_ | ino, k⟩
  · exact Or.inl ⟨⟨k, rfl⟩, rfl⟩
  · refine Or.inr ⟨ino, k, rfl, fun hend => if_pos hend, fun hinside => ?_⟩
    dsimp only
    rw [if_neg (by omega)]

theorem ext2Read_cases {f : Nat} (hinside : offset < f)
    (hino : ∀ ino k, ext2ReadInode m mnt inodeNum 0 = (some ino, k) → ino.iSize = f) :
    ext2VfsRead m (some mnt) inodeNum offset size = readFailed ∨
      ∃ out, ext2VfsRead m (some mnt) inodeNum offset size = readTotal out ∧
        out.length ≤ clampSize f offset size := by
  rcases @ext2VfsRead_cases m mnt size offset inodeNum with ⟨-, hread⟩ | ⟨ino, k, hk, -, hread⟩
  · exact Or.inl hread
  · obtain rfl := hino ino k hk
    rw [hread hinside]
    split
    · exact Or.inl rfl
    · exact Or.inr ⟨_, rfl, ext2ReadLoop_le⟩

/-- The reads of every ext2 file whose inode has this size keep to the file and the request. -/
def Ext2Bounded (fileSize offset size : Nat) : Prop :=
  ∀ (m : Medium) (mnt : Option Ext2Mount) (inodeNum : Nat),
    (∀ mt ∈ mnt, ∀ ino k, ext2ReadInode m mt inodeNum 0 = (some ino, k) → ino.iSize = fileSize) →
    ReadOk fileSize offset size (ext2VfsRead m mnt inodeNum offset size)

/-! A disk where every sector has the size of the file at its byte 4. -/

def sizeMedium (fileSize : Nat) : Medium :=
  ⟨fun _ i => Bytes.byteOf (BitVec.ofNat 32 fileSize) (i - 4), fun _ => 0, fun _ => false⟩

def sizeMount : Ext2Mount :=
  ⟨4096, 1, 128, 1, fun _ => 0, ⟨2, by decide, rfl⟩, by decide, inodeSize128_pos, by decide⟩

theorem readInode_size {f : Nat} (hf : f < 2 ^ 32) :
    ∃ ino k, ext2ReadInode (sizeMedium f) sizeMount 1 0 = (some ino, k) ∧ ino.iSize = f := by
  obtain ⟨block, hread, hblock⟩ :=
    @readBlock_ok (sizeMedium f) sizeMount (sizeMedium f).fresh 1 (u32 (0 + 0)) (fun _ => rfl)
  refine ⟨ext2InodeAt block 0, 1 + 4096 / 512, ?_, ?_⟩
  · change (match ext2ReadBlock (sizeMedium f) sizeMount (u32 (0 + 0)) (sizeMedium f).fresh 1 with
      | (none, k) => (none, k)
      | (some blockBuf, k) => (some (ext2InodeAt blockBuf 0), k)) = _
    rw [hread]
    rfl
  · have hword : ∀ j < 4, block (0 + 4 + j) = Bytes.byteOf (BitVec.ofNat 32 f) j := by
      intro j hj
      rw [hblock _ (show 0 + 4 + j < 4096 by omega)]
      change Bytes.byteOf (BitVec.ofNat 32 f) ((0 + 4 + j) % 512 - 4) = _
      rw [show (0 + 4 + j) % 512 - 4 = j by omega]
    change (Bytes.ofBytes fun j => block (0 + 4 + j)).toNat = f
    rw [Bytes.ofBytes_congr hword, Bytes.ofBytes_byteOf, BitVec.toNat_ofNat, Nat.mod_eq_of_lt hf]

theorem codeBlockNr_size {p : Nat} :
    (codeBlockNr m sizeMount ino (u32 p / sizeMount.blockSize)).isSome := by
  have hlt : u32 p / 4096 < 2 ^ 20 := Nat.div_lt_of_lt_mul Mm.u32_lt
  have hend : u32 (12 + 4096 / 4 + u32 (4096 / 4 * (4096 / 4))) = 12 + 1024 + 2 ^ 20 := by decide
  unfold codeBlockNr
  change (if _ then _ else if _ then _ else if _ < u32 (12 + 4096 / 4 + u32 (4096 / 4 * (4096 / 4)))
    then _ else none).isSome = true
  rw [hend]
  split
  · rfl
  · split
    · rfl
    · rw [if_pos (show u32 p / sizeMount.blockSize < 12 + 1024 + 2 ^ 20 from
        Nat.lt_of_lt_of_le hlt (by decide))]
      rfl

theorem ext2VfsRead_size {f : Nat} (hf : f < 2 ^ 32) (hinside : offset < f) :
    ∃ out, ext2VfsRead (sizeMedium f) (some sizeMount) 1 offset size = readTotal out ∧
      out.length = clampSize f offset size := by
  obtain ⟨ino, k, hino, rfl⟩ := readInode_size hf
  unfold ext2VfsRead
  dsimp only
  rw [hino]
  dsimp only
  have hm : ∀ k, (sizeMedium ino.iSize).fails k = false := fun _ => rfl
  rw [if_neg (by omega), hm k]
  refine ⟨_, rfl, ?_⟩
  rw [readLoop_eq hm (by omega) (fun _ _ => codeBlockNr_size), length_bytesAt]
  omega

end PinguinOS.Fs
