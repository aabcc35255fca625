import PinguinOS.Lib.Bytes
import PinguinOS.Mm.Types

/-! The disk below a file system, and what a read may return. -/
namespace PinguinOS.Fs

open Mm (u32 int32)

/-- The size of an empty file. -/
theorem emptySize_lt : 0 < 2 ^ 32 := Nat.two_pow_pos 32

/-- The bytes of a buffer. -/
abbrev Buffer := Nat → BitVec 8

/-- What a read finds: the bytes of the sectors by their LBA, those that fresh memory holds, and
which of its calls of `kmalloc` and `ide_read` fail, counted from the first one. -/
structure Medium where
  sector : Nat → Buffer
  fresh : Buffer
  fails : Nat → Bool

/-- `ide_read` to the place `pos` of a buffer, as call `k` -/
def ideRead (m : Medium) (lba count pos : Nat) (buf : Buffer) (k : Nat) : Option Buffer × Nat :=
  (if m.fails k then none
    else some fun i =>
      if pos ≤ i ∧ i < pos + 512 * count then
        m.sector (u32 (lba + (i - pos) / 512)) ((i - pos) % 512)
      else buf i, k + 1)

/-- `n` bytes of a buffer. -/
def bytesAt (buf : Buffer) (pos n : Nat) : List (BitVec 8) :=
  (List.range n).map fun i => buf (pos + i)

/-- The 16-bit word at `pos`. -/
def word16 (buf : Buffer) (pos : Nat) : Nat := (buf (pos + 1) ++ buf pos).toNat

/-- The 32-bit word at `pos`. -/
def word32 (buf : Buffer) (pos : Nat) : Nat := (Bytes.ofBytes fun j => buf (pos + j)).toNat

/-- What a read returns, and the bytes it has written to the caller's buffer. -/
abbrev ReadResult := Int × List (BitVec 8)

/-- The read gives up with -1. -/
def readFailed : ReadResult := (-1, [])

/-- The read returns the number of bytes it has written. -/
def readTotal (out : List (BitVec 8)) : ReadResult := (int32 out.length, out)

/-- `if (offset + size > file_size) size = file_size - offset`, with `offset` inside the file; the
addition wraps. -/
def clampSize (fileSize offset size : Nat) : Nat :=
  if fileSize < u32 (offset + size) then fileSize - offset else size

/-- An error and nothing written, or a count that fits both the file and the request, and as many
bytes written. -/
def ReadOk (fileSize offset size : Nat) (r : ReadResult) : Prop :=
  (r.1 < 0 ∧ r.2 = []) ∨ (r.1 = r.2.length ∧ r.2.length ≤ min size (fileSize - offset))

variable {fileSize offset size n pos : Nat} {out : List (BitVec 8)} {buf : Buffer}

@[simp] theorem length_bytesAt : (bytesAt buf pos n).length = n := by
  simp [bytesAt]

theorem bytesAt_add {a b : Nat} :
    bytesAt buf pos (a + b) = bytesAt buf pos a ++ bytesAt buf (pos + a) b := by
  unfold bytesAt
  rw [List.range_add, List.map_append, List.map_map]
  simp only [Function.comp_def, Nat.add_assoc]

theorem bytesAt_congr {buf' : Buffer} {pos' : Nat} (h : ∀ i < n, buf (pos + i) = buf' (pos' + i)) :
    bytesAt buf pos n = bytesAt buf' pos' n :=
  List.map_congr_left fun i hi => h i (List.mem_range.mp hi)

theorem word16_congr {m m' : Buffer} {a c : Nat} (h₀ : m a = m' c)
    (h₁ : m (a + 1) = m' (c + 1)) : word16 m a = word16 m' c := by
  unfold word16
  rw [h₀, h₁]

theorem word32_congr {m m' : Buffer} {a c : Nat} (h : ∀ k < 4, m (a + k) = m' (c + k)) :
    word32 m a = word32 m' c := congrArg BitVec.toNat (Bytes.ofBytes_congr h)

theorem word32_lt : word32 buf pos < 2 ^ 32 := BitVec.isLt _

theorem int32_lt : int32 n < 2 ^ 31 := by
  unfold int32
  exact BitVec.toInt_lt

theorem ideRead_ok {m : Medium} {lba count k : Nat} (h : m.fails k = false) :
    ideRead m lba count pos buf k = (some fun i =>
      if pos ≤ i ∧ i < pos + 512 * count then
        m.sector (u32 (lba + (i - pos) / 512)) ((i - pos) % 512)
      else buf i, k + 1) := by
  unfold ideRead
  rw [h]
  rfl

/-! The bound on a read, for all the nodes and media `x` at once. -/

theorem readOk_failed : ReadOk fileSize offset size readFailed := Or.inl ⟨by decide, rfl⟩

theorem readOk_total (hle : out.length ≤ min size (fileSize - offset)) (hlt : out.length < 2 ^ 31) :
    ReadOk fileSize offset size (readTotal out) := Or.inr ⟨Mm.int32_of_lt hlt, hle⟩

theorem le_of_readOk_total (h : ReadOk fileSize offset size (readTotal out)) :
    out.length ≤ min size (fileSize - offset) ∧ out.length < 2 ^ 31 := by
  rcases h with ⟨-, hempty⟩ | ⟨hcount, hle⟩
  · have hzero : out.length = 0 := List.length_eq_zero_iff.mpr hempty
    omega
  · refine ⟨hle, ?_⟩
    have hlt : int32 out.length < 2 ^ 31 := int32_lt
    have hcount : int32 out.length = out.length := hcount
    omega

/-- Reads that give up or write up to `n` bytes, and all `n` of them in some case. -/
theorem readOk_forall_iff {ι : Type*} {Of : ι → Prop} {read : ι → ReadResult}
    (hall : ∀ x, Of x → read x = readFailed ∨ ∃ out, read x = readTotal out ∧ out.length ≤ n)
    (hfull : ∃ x, Of x ∧ ∃ out, read x = readTotal out ∧ out.length = n) :
    (∀ x, Of x → ReadOk fileSize offset size (read x)) ↔
      n ≤ min size (fileSize - offset) ∧ n < 2 ^ 31 := by
  constructor
  · intro h
    obtain ⟨x, hx, out, hread, rfl⟩ := hfull
    exact le_of_readOk_total (hread ▸ h x hx)
  · rintro ⟨hle, hlt⟩ x hx
    rcases hall x hx with hfailed | ⟨out, hread, hout⟩
    · rw [hfailed]
      exact readOk_failed
    · rw [hread]
      exact readOk_total (hout.trans hle) (Nat.lt_of_le_of_lt hout hlt)

/-- The clamp keeps to the file unless the addition wraps. -/
theorem clampSize_bounded_iff (hfile : fileSize < 2 ^ 32) (hsize : size < 2 ^ 32)
    (hinside : offset < fileSize) :
    (clampSize fileSize offset size ≤ min size (fileSize - offset) ∧
      clampSize fileSize offset size < 2 ^ 31) ↔
        offset + size < 2 ^ 32 ∧ min size (fileSize - offset) < 2 ^ 31 := by
  unfold clampSize u32
  split <;> omega

end PinguinOS.Fs
