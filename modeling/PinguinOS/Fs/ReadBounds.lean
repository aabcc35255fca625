import PinguinOS.Fs.Ext2
import PinguinOS.Fs.Fat32
import PinguinOS.Fs.Iso9660

/-! How much a read of fat32, ext2, iso9660 and ramfs returns. -/
namespace PinguinOS.Fs

/-- What `ramfs_read` uses of a node: its `size`, and `data`, which is `NULL` for a directory. -/
structure RamfsFile where
  data : Option Buffer
  size : Nat
  size_lt : size < 2 ^ 32

def ramfsRead (node : RamfsFile) (offset size : Nat) : ReadResult :=
  match node.data with
  | none => readTotal []
  | some data =>
    if node.size ≤ offset then readTotal []
    else readTotal (bytesAt data offset (min size (node.size - offset)))

/-- The reads of every ramfs node of this size keep to the file and the request. -/
def RamfsBounded (fileSize offset size : Nat) : Prop :=
  ∀ node : RamfsFile, node.size = fileSize →
    ReadOk fileSize offset size (ramfsRead node offset size)

/-- The count of a read of `size` bytes fits an `int32_t`. -/
def CountFits (fileSize offset size : Nat) : Prop := min size (fileSize - offset) < 2 ^ 31

/-- The end of the request does not wrap. -/
def NoWrap (offset size : Nat) : Prop := offset + size < 2 ^ 32

variable {fileSize offset size : Nat}

theorem readOk_nil : ReadOk fileSize offset size (readTotal []) :=
  readOk_total (Nat.zero_le _) (by decide)

/-- The reads of a file system that clamps as `clampSize` does. -/
theorem clamped_iff {X : Type} {Of : X → Prop} {read : X → ReadResult} (hfile : fileSize < 2 ^ 32)
    (hsize : size < 2 ^ 32) (hinside : offset < fileSize)
    (hall : ∀ x, Of x → read x = readFailed ∨
      ∃ out, read x = readTotal out ∧ out.length ≤ clampSize fileSize offset size)
    (hfull : ∃ x, Of x ∧
      ∃ out, read x = readTotal out ∧ out.length = clampSize fileSize offset size) :
    (∀ x, Of x → ReadOk fileSize offset size (read x)) ↔
      NoWrap offset size ∧ CountFits fileSize offset size :=
  (readOk_forall_iff hall hfull).trans (clampSize_bounded_iff hfile hsize hinside)

theorem fat32Bounded_iff (hfile : fileSize < 2 ^ 32) (hsize : size < 2 ^ 32)
    (hinside : offset < fileSize) : Fat32Bounded fileSize offset size ↔
      NoWrap offset size ∧ CountFits fileSize offset size := by
  let Of (x : Medium × Option Fat32Inode) : Prop := ∀ i ∈ x.2, i.fileSize = fileSize
  let read (x : Medium × Option Fat32Inode) : ReadResult := fat32Read x.1 x.2 offset size
  have hall : ∀ x, Of x → read x = readFailed ∨
      ∃ out, read x = readTotal out ∧ out.length ≤ clampSize fileSize offset size := by
    rintro ⟨m, _ | ino⟩ hx
    · exact Or.inr ⟨[], rfl, Nat.zero_le _⟩
    · obtain rfl := hx ino rfl
      exact fat32Read_cases hinside
  have hfull : ∃ x, Of x ∧
      ∃ out, read x = readTotal out ∧ out.length = clampSize fileSize offset size := by
    refine ⟨(zeroMedium, some ⟨zeroVol, 0, fileSize, hfile, fun _ => by decide⟩), ?_, ?_⟩
    · intro i hi
      rw [← Option.some.inj hi]
    · exact fat32Read_zero hfile hinside
  refine Iff.trans ?_ (clamped_iff hfile hsize hinside hall hfull)
  exact ⟨fun h x hx => h x.1 x.2 hx, fun h m ino hino => h (m, ino) hino⟩

theorem iso9660Bounded_iff (hfile : fileSize < 2 ^ 32) (hsize : size < 2 ^ 32)
    (hinside : offset < fileSize) : Iso9660Bounded fileSize offset size ↔
      NoWrap offset size ∧ CountFits fileSize offset size := by
  let Of (x : Medium × Option IsoIno) : Prop := ∀ i ∈ x.2, i.size = fileSize
  let read (x : Medium × Option IsoIno) : ReadResult := iso9660Read x.1 x.2 offset size
  have hall : ∀ x, Of x → read x = readFailed ∨
      ∃ out, read x = readTotal out ∧ out.length ≤ clampSize fileSize offset size := by
    rintro ⟨m, _ | ino⟩ hx
    · exact Or.inr ⟨[], rfl, Nat.zero_le _⟩
    · obtain rfl := hx ino rfl
      exact iso9660Read_cases hinside
  have hfull : ∃ x, Of x ∧
      ∃ out, read x = readTotal out ∧ out.length = clampSize fileSize offset size := by
    refine ⟨(zeroMedium, some ⟨0, fileSize, hfile⟩), ?_, ?_⟩
    · intro i hi
      rw [← Option.some.inj hi]
    · exact @iso9660Read_full zeroMedium ⟨0, fileSize, hfile⟩ size offset (fun _ => rfl) hinside
  refine Iff.trans ?_ (clamped_iff hfile hsize hinside hall hfull)
  exact ⟨fun h x hx => h x.1 x.2 hx, fun h m ino hino => h (m, ino) hino⟩

theorem ext2Bounded_iff (hfile : fileSize < 2 ^ 32) (hsize : size < 2 ^ 32)
    (hinside : offset < fileSize) : Ext2Bounded fileSize offset size ↔
      NoWrap offset size ∧ CountFits fileSize offset size := by
  let Of (x : Medium × Option Ext2Mount × Nat) : Prop := ∀ mt ∈ x.2.1, ∀ ino k,
    ext2ReadInode x.1 mt x.2.2 0 = (some ino, k) → ino.iSize = fileSize
  let read (x : Medium × Option Ext2Mount × Nat) : ReadResult :=
    ext2VfsRead x.1 x.2.1 x.2.2 offset size
  have hall : ∀ x, Of x → read x = readFailed ∨
      ∃ out, read x = readTotal out ∧ out.length ≤ clampSize fileSize offset size := by
    rintro ⟨m, _ | mnt, inodeNum⟩ hx
    · exact Or.inl rfl
    · exact ext2Read_cases hinside (hx mnt rfl)
  have hfull : ∃ x, Of x ∧
      ∃ out, read x = readTotal out ∧ out.length = clampSize fileSize offset size := by
    refine ⟨(sizeMedium fileSize, some sizeMount, 1), ?_, ext2VfsRead_size hfile hinside⟩
    intro mt hmt ino k hino
    obtain ⟨ino', k', hino', hsize'⟩ := readInode_size hfile
    obtain rfl := Option.some.inj hmt
    rw [hino'] at hino
    rw [← hsize', Option.some.inj (Prod.mk.inj hino).1]
  refine Iff.trans ?_ (clamped_iff hfile hsize hinside hall hfull)
  exact ⟨fun h x hx => h x.1 x.2.1 x.2.2 hx, fun h m mnt num hx => h (m, mnt, num) hx⟩

theorem ramfsBounded_iff (hfile : fileSize < 2 ^ 32) (hinside : offset < fileSize) :
    RamfsBounded fileSize offset size ↔ CountFits fileSize offset size := by
  have hall : ∀ x : RamfsFile, x.size = fileSize → ramfsRead x offset size = readFailed ∨
      ∃ out, ramfsRead x offset size = readTotal out ∧
        out.length ≤ min size (fileSize - offset) := by
    rintro ⟨_ | data, _, _⟩ rfl
    · exact Or.inr ⟨[], rfl, Nat.zero_le _⟩
    · refine Or.inr ⟨_, if_neg (Nat.not_le.mpr hinside), ?_⟩
      rw [length_bytesAt]
  have hfull : ∃ x : RamfsFile, x.size = fileSize ∧
      ∃ out, ramfsRead x offset size = readTotal out ∧
        out.length = min size (fileSize - offset) :=
    ⟨⟨some fun _ => 0, fileSize, hfile⟩, rfl, _, if_neg (Nat.not_le.mpr hinside), length_bytesAt⟩
  exact (readOk_forall_iff hall hfull).trans (and_iff_right (Nat.le_refl _))

/-- At or after the end of the file no read returns or writes anything. -/
theorem bounded_at_end (hend : fileSize ≤ offset) : Fat32Bounded fileSize offset size ∧
    Ext2Bounded fileSize offset size ∧ Iso9660Bounded fileSize offset size ∧
      RamfsBounded fileSize offset size := by
  refine ⟨?_, ?_, ?_, ?_⟩
  · rintro m (_ | ino) hino
    · exact readOk_nil
    · obtain rfl := hino ino rfl
      unfold fat32Read
      dsimp only
      rw [if_pos hend]
      exact readOk_nil
  · rintro m (_ | mnt) num hino
    · exact readOk_failed
    · rcases @ext2VfsRead_cases m mnt size offset num with ⟨-, hread⟩ | ⟨ino, k, hk, hread, -⟩
      · rw [hread]
        exact readOk_failed
      · obtain rfl := hino mnt rfl ino k hk
        rw [hread hend]
        exact readOk_nil
  · rintro m (_ | ino) hino
    · exact readOk_nil
    · obtain rfl := hino ino rfl
      unfold iso9660Read
      dsimp only
      rw [if_pos hend]
      exact readOk_nil
  · rintro ⟨_ | data, _, _⟩ rfl
    · exact readOk_nil
    · unfold ramfsRead
      dsimp only
      rw [if_pos hend]
      exact readOk_nil

/-- The reads of all four file systems keep to the file and the request just when the end of the
request does not wrap (ramfs never adds them) and the count fits, or the request starts after the
end of the file. -/
theorem reads_bounded_iff (fileSize offset size : BitVec 32) :
    let f := fileSize.toNat
    let o := offset.toNat
    let n := size.toNat
    (Fat32Bounded f o n ↔ f ≤ o ∨ NoWrap o n ∧ CountFits f o n) ∧
      (Ext2Bounded f o n ↔ f ≤ o ∨ NoWrap o n ∧ CountFits f o n) ∧
      (Iso9660Bounded f o n ↔ f ≤ o ∨ NoWrap o n ∧ CountFits f o n) ∧
      (RamfsBounded f o n ↔ f ≤ o ∨ CountFits f o n) := by
  intro f o n
  have hfile : f < 2 ^ 32 := fileSize.isLt
  have hsize : n < 2 ^ 32 := size.isLt
  rcases Nat.lt_or_ge o f with hinside | hend
  · have hnot : ¬ f ≤ o := Nat.not_le.mpr hinside
    simp only [hnot, false_or]
    exact ⟨fat32Bounded_iff hfile hsize hinside, ext2Bounded_iff hfile hsize hinside,
      iso9660Bounded_iff hfile hsize hinside, ramfsBounded_iff hfile hinside⟩
  · obtain ⟨hfat, hext, hiso, hram⟩ := @bounded_at_end f o n hend
    exact ⟨iff_of_true hfat (Or.inl hend), iff_of_true hext (Or.inl hend),
      iff_of_true hiso (Or.inl hend), iff_of_true hram (Or.inl hend)⟩

/-- A request for everything from byte 1 of a file of two bytes, with the largest size. -/
theorem not_reads_bounded_wrap : ¬ Fat32Bounded 2 1 (2 ^ 32 - 1) := by
  intro h
  have hwrap : 1 + (2 ^ 32 - 1) < 2 ^ 32 :=
    ((fat32Bounded_iff (by decide) (by decide) (by decide)).mp h).1
  exact absurd hwrap (by decide)

end PinguinOS.Fs
