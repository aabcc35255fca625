import PinguinOS.Fs.Medium

/-! Reads of an ISO 9660 file. -/
namespace PinguinOS.Fs

open Mm (u32)

def isoSectorSize : Nat := 2048
def isoIdeSecs : Nat := 4

/-- `iso_ino_t` -/
structure IsoIno where
  lba : Nat
  size : Nat
  size_lt : size < 2 ^ 32

def isoReadSector (m : Medium) (lba : Nat) (buf : Buffer) (k : Nat) : Option Buffer × Nat :=
  ideRead m (u32 (lba * isoIdeSecs)) isoIdeSecs 0 buf k

/-- The copy loop of `iso9660_read`: the bytes it adds. Each of its `n` rounds copies a byte at
least. -/
def iso9660ReadLoop (m : Medium) (ino : IsoIno) :
    (n size secOffset intra k : Nat) → List (BitVec 8)
  | 0, _, _, _, _ => []
  | n + 1, size, secOffset, intra, k =>
    if 0 < size then
      match isoReadSector m (u32 (ino.lba + secOffset)) m.fresh k with
      | (none, _) => []
      | (some sec, k) =>
        let chunk := min size (isoSectorSize - intra)
        bytesAt sec intra chunk ++ iso9660ReadLoop m ino n (size - chunk) (u32 (secOffset + 1)) 0 k
    else []

def iso9660Read (m : Medium) (ino : Option IsoIno) (offset size : Nat) : ReadResult :=
  match ino with
  | none => readTotal []
  | some ino =>
    if ino.size ≤ offset then readTotal []
    else
      let size := clampSize ino.size offset size
      if m.fails 0 then readFailed
      else
        readTotal (iso9660ReadLoop m ino size size (offset / isoSectorSize)
          (offset % isoSectorSize) 1)

variable {m : Medium} {ino : IsoIno} {n size secOffset intra k offset : Nat}

theorem iso9660ReadLoop_le : (iso9660ReadLoop m ino n size secOffset intra k).length ≤ size := by
  induction n generalizing size secOffset intra k with
  | zero => exact Nat.zero_le _
  | succ n ih =>
    unfold iso9660ReadLoop
    split
    case isFalse => exact Nat.zero_le _
    case isTrue hmore =>
      split
      · exact Nat.zero_le _
      · rw [List.length_append, length_bytesAt]
        refine (Nat.add_le_add_left ih _).trans ?_
        omega

/-- Without failures the loop copies everything that was asked for. -/
theorem iso9660ReadLoop_full (hm : ∀ k, m.fails k = false) (hn : size ≤ n)
    (hintra : intra < isoSectorSize) :
    (iso9660ReadLoop m ino n size secOffset intra k).length = size := by
  induction n generalizing size secOffset intra k with
  | zero =>
    obtain rfl : size = 0 := by omega
    rfl
  | succ n ih =>
    unfold iso9660ReadLoop
    by_cases hsize : 0 < size
    · rw [if_pos hsize]
      unfold isoReadSector
      rw [ideRead_ok (hm k)]
      dsimp only
      rw [List.length_append, length_bytesAt, ih (by omega) (by decide)]
      omega
    · rw [if_neg hsize]
      obtain rfl : size = 0 := by omega
      rfl

theorem iso9660Read_cases (hinside : offset < ino.size) :
    iso9660Read m (some ino) offset size = readFailed ∨
      ∃ out, iso9660Read m (some ino) offset size = readTotal out ∧
        out.length ≤ clampSize ino.size offset size := by
  unfold iso9660Read
  dsimp only
  rw [if_neg (by omega)]
  split
  · exact Or.inl rfl
  · exact Or.inr ⟨_, rfl, iso9660ReadLoop_le⟩

theorem iso9660Read_full (hm : ∀ k, m.fails k = false) (hinside : offset < ino.size) :
    ∃ out, iso9660Read m (some ino) offset size = readTotal out ∧
      out.length = clampSize ino.size offset size := by
  unfold iso9660Read
  dsimp only
  rw [if_neg (by omega), hm 0]
  exact ⟨_, rfl, iso9660ReadLoop_full hm (Nat.le_refl _) (Nat.mod_lt _ (by decide))⟩

/-- The reads of every ISO 9660 file of this size keep to the file and the request. -/
def Iso9660Bounded (fileSize offset size : Nat) : Prop :=
  ∀ (m : Medium) (ino : Option IsoIno), (∀ i ∈ ino, i.size = fileSize) →
    ReadOk fileSize offset size (iso9660Read m ino offset size)

end PinguinOS.Fs
