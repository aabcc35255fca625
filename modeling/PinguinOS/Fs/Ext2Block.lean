import PinguinOS.Drivers.Ide
import PinguinOS.Fs.Ext2

/-! The sectors that `ext2_read_block` asks the drive for. -/
namespace PinguinOS.Fs

open Mm (u32)
open Drivers (IdeDrive IdeDisk IdeResult IdeTransfer ideTransfer ideSectorSize loadAll inOrder)

/-- The loop of `ext2_read_block` over the first `n` sectors; `k` calls of `ide_wait` have been made
before it. -/
def ext2BlockLoop (fails : Nat → Bool) (d : IdeDrive) (lbaStart k : Nat) : (n : Nat) → IdeResult
  | 0 => (true, [])
  | n + 1 =>
    match ext2BlockLoop fails d lbaStart k n with
    | (false, ts) => (false, ts)
    | (true, ts) =>
      let (ok, next) := ideTransfer fails d (BitVec.ofNat 32 (lbaStart + n)) 1 (n * 512) (k + n)
      (ok, ts ++ next)

/-- `ext2_read_block`: the sectors that go to its buffer. -/
def ext2BlockTransfers (fails : Nat → Bool) (d : IdeDrive) (blockSize blockNr k : Nat) : IdeResult :=
  let byteOff := u32 (blockNr * blockSize)
  let lbaStart := byteOff / 512
  let sectors := blockSize / 512
  ext2BlockLoop fails d lbaStart k sectors

/-- The sectors of a block, one behind the other in the buffer. -/
def blockTransfers (blockSize blockNr : Nat) : List IdeTransfer :=
  inOrder (blockNr * (blockSize / 512)) 0 (blockSize / 512)

/-- A read of the block moves its sectors in order, and all of them when it returns 0; without an
error it does. -/
structure ReadsBlock (blockSize blockNr : Nat) : Prop where
  order : ∀ fails d k, ∃ n, (ext2BlockTransfers fails d blockSize blockNr k).2 =
    (blockTransfers blockSize blockNr).take n
  all : ∀ fails d k, (ext2BlockTransfers fails d blockSize blockNr k).1 = true →
    (ext2BlockTransfers fails d blockSize blockNr k).2 = blockTransfers blockSize blockNr
  ok : ∀ (fails : Nat → Bool) (d : IdeDrive) k, d.present = true → (∀ j, fails j = false) →
    (ext2BlockTransfers fails d blockSize blockNr k).1 = true

variable {fails : Nat → Bool} {d : IdeDrive} {lbaStart k n m start pos nr blockSize : Nat}
  {disk : IdeDisk} {buf fresh : Buffer} {mnt : Ext2Mount}

theorem take_inOrder (h : m ≤ n) : (inOrder start pos n).take m = inOrder start pos m := by
  unfold inOrder
  rw [← List.map_take, List.take_range, Nat.min_eq_left h]

/-- The loop ends with all the sectors, or before the one that cannot be read. -/
theorem blockLoop_cases (hfits : lbaStart + n ≤ 2 ^ 28) :
    ext2BlockLoop fails d lbaStart k n = (true, inOrder lbaStart 0 n) ∨
      ∃ m < n, (d.present = false ∨ fails (k + m) = true) ∧
        ext2BlockLoop fails d lbaStart k n = (false, inOrder lbaStart 0 m) := by
  induction n with
  | zero => exact Or.inl rfl
  | succ n ih =>
    unfold ext2BlockLoop
    rcases ih (by omega) with hloop | ⟨m, hm, hwhy, hloop⟩
    · have hlba : (BitVec.ofNat 32 (lbaStart + n)).toNat % 2 ^ 28 = lbaStart + n := by
        rw [BitVec.toNat_ofNat]
        omega
      rw [hloop]
      dsimp only
      rw [Drivers.ideTransfer_one, hlba]
      by_cases hok : d.present = true ∧ fails (k + n) = false
      · left
        rw [if_pos hok, Drivers.inOrder_succ, Nat.zero_add]
        rfl
      · right
        refine ⟨n, Nat.lt_succ_self n, ?_, ?_⟩
        · rw [Classical.not_and_iff_not_or_not, Bool.not_eq_true, Bool.not_eq_false] at hok
          exact hok
        · rw [if_neg hok, List.append_nil]
    · rw [hloop]
      exact Or.inr ⟨m, Nat.lt_succ_of_lt hm, hwhy, rfl⟩

theorem sectors_of_blockSize {j : Nat} (hsize : blockSize = 1024 * 2 ^ j) :
    blockSize = blockSize / 512 * 512 ∧ 0 < blockSize / 512 := by
  have hpow := Nat.two_pow_pos j
  omega

theorem blockTransfers_cases (hlt : blockSize < 2 ^ 32) :
    ext2BlockTransfers fails d blockSize nr k =
        (true, inOrder (u32 (nr * blockSize) / 512) 0 (blockSize / 512)) ∨
      ∃ m < blockSize / 512, (d.present = false ∨ fails (k + m) = true) ∧
        ext2BlockTransfers fails d blockSize nr k =
          (false, inOrder (u32 (nr * blockSize) / 512) 0 m) := by
  have hstart : u32 (nr * blockSize) < 2 ^ 32 := Mm.u32_lt
  exact blockLoop_cases (by omega)

/-- The first sector tells where the read starts. -/
theorem ReadsBlock.fits {j : Nat} (hsize : blockSize = 1024 * 2 ^ j) (hlt : blockSize < 2 ^ 32)
    (h : ReadsBlock blockSize nr) : nr * blockSize < 2 ^ 32 := by
  obtain ⟨hsectors, hpos⟩ := sectors_of_blockSize hsize
  have hbytes : nr * blockSize = nr * (blockSize / 512) * 512 := by
    rw [Nat.mul_assoc, ← hsectors]
  have hstart : u32 (nr * blockSize) < 2 ^ 32 := Mm.u32_lt
  have hok := h.ok (fun _ => false) ⟨true, 0⟩ 0 rfl fun _ => rfl
  have hall := h.all _ _ _ hok
  rcases @blockTransfers_cases (fun _ => false) ⟨true, 0⟩ 0 nr blockSize hlt with
    hread | ⟨m, -, hwhy, -⟩
  · unfold blockTransfers at hall
    rw [hread, ← Nat.succ_pred_eq_of_pos hpos] at hall
    unfold inOrder at hall
    rw [List.range_succ_eq_map, List.map_cons, List.map_cons] at hall
    have hfirst := congrArg IdeTransfer.sector (List.cons.inj hall).1
    dsimp only at hfirst
    rw [← Nat.succ_pred_eq_of_pos hpos] at hbytes
    omega
  · rcases hwhy with habsent | hfails
    · cases habsent
    · cases hfails

theorem readsBlock_of_fits {j : Nat} (hsize : blockSize = 1024 * 2 ^ j) (hlt : blockSize < 2 ^ 32)
    (hfits : nr * blockSize < 2 ^ 32) : ReadsBlock blockSize nr := by
  obtain ⟨hsectors, hpos⟩ := sectors_of_blockSize hsize
  have hbytes : nr * blockSize = nr * (blockSize / 512) * 512 := by
    rw [Nat.mul_assoc, ← hsectors]
  have hdiv : u32 (nr * blockSize) / 512 = nr * (blockSize / 512) := by
    rw [Mm.u32_of_lt hfits, hbytes, Nat.mul_div_cancel _ (by decide)]
  have hcases := fun fails d k => @blockTransfers_cases fails d k nr blockSize hlt
  rw [hdiv] at hcases
  constructor
  case order =>
    intro fails d k
    rcases hcases fails d k with hread | ⟨m, hm, -, hread⟩
    · exact ⟨blockSize / 512, by rw [hread, blockTransfers, take_inOrder (Nat.le_refl _)]⟩
    · exact ⟨m, by rw [hread, blockTransfers, take_inOrder (Nat.le_of_lt hm)]⟩
  case all =>
    intro fails d k hok
    rcases hcases fails d k with hread | ⟨m, -, -, hread⟩
    · rw [hread]
      rfl
    · rw [hread] at hok
      cases hok
  case ok =>
    intro fails d k hd hnone
    rcases hcases fails d k with hread | ⟨m, -, hwhy, -⟩
    · rw [hread]
    · rcases hwhy with habsent | hfails
      · rw [hd] at habsent
        cases habsent
      · rw [hnone] at hfails
        cases hfails

/-- The block is read exactly when its offset in bytes does not wrap. -/
theorem readsBlock_iff {j : Nat} (hsize : blockSize = 1024 * 2 ^ j) (hlt : blockSize < 2 ^ 32) :
    ReadsBlock blockSize nr ↔ nr * blockSize < 2 ^ 32 :=
  ⟨ReadsBlock.fits hsize hlt, readsBlock_of_fits hsize hlt⟩

theorem readsBlock_first : ReadsBlock 1024 3 :=
  (@readsBlock_iff 3 1024 0 rfl (by decide)).mpr (by decide)

/-- Block `2 ^ 20` of 4096 bytes, on a volume of `2 ^ 25` such blocks: sector 0 is read. -/
theorem not_readsBlock_wide :
    ¬ ∀ k blocksCount nr : Nat, 1024 * 2 ^ k < 2 ^ 32 →
      blocksCount * (1024 * 2 ^ k / 512) ≤ 2 ^ 28 → nr < blocksCount →
        ReadsBlock (1024 * 2 ^ k) nr := by
  intro hall
  have hread := hall 2 (2 ^ 25) (2 ^ 20) (by decide) (by decide) (by decide)
  have hsame := hread.all (fun _ => false) ⟨true, 0⟩ 0 (by decide)
  exact absurd (congrArg (·.map IdeTransfer.sector) hsame) (by decide)

/-! The reads of a mounted volume, as transfers. -/

/-- The medium of a drive, which sees 28 bits of an address. -/
def driveMedium (disk : IdeDisk) (fresh : Buffer) (fails : Nat → Bool) : Medium :=
  ⟨fun lba => disk (lba % 2 ^ 28), fresh, fails⟩

theorem ideRead_drive (hd : d.present = true) :
    ideRead (driveMedium disk fresh fails) lbaStart 1 pos buf k =
      let r := ideTransfer fails d (BitVec.ofNat 32 lbaStart) 1 pos k
      (if r.1 then some (loadAll disk r.2 buf) else none, k + 1) := by
  dsimp only
  rw [Drivers.ideTransfer_one, BitVec.toNat_ofNat]
  cases hk : fails k with
  | true =>
    have hno : ¬ (d.present = true ∧ true = false) := fun h => nomatch h.2
    rw [if_neg hno]
    unfold ideRead driveMedium
    rw [if_pos hk]
    rfl
  | false =>
    have hyes : d.present = true ∧ false = false := ⟨hd, rfl⟩
    have hok : (driveMedium disk fresh fails).fails k = false := hk
    rw [if_pos hyes, ideRead_ok hok]
    refine Prod.ext (congrArg some (funext fun i => ?_)) rfl
    by_cases hin : pos ≤ i ∧ i < pos + 512
    · have hdiv : (i - pos) / 512 = 0 := by omega
      have hmod : (i - pos) % 512 = i - pos := by omega
      rw [if_pos hin, hdiv, hmod]
      exact (if_pos hin).symm
    · rw [if_neg hin]
      exact (if_neg hin).symm

/-- `ext2_read_block` on a medium fills its buffer with the sectors that go to it. -/
theorem ext2ReadBlock_drive (hd : d.present = true) :
    (ext2ReadBlock (driveMedium disk fresh fails) mnt nr buf k).1 =
      let r := ext2BlockTransfers fails d mnt.blockSize nr k
      if r.1 then some (loadAll disk r.2 buf) else none := by
  unfold ext2ReadBlock ext2BlockTransfers
  dsimp only
  generalize u32 (nr * mnt.blockSize) / 512 = lba
  have hloop : ∀ n, (ext2ReadSectors (driveMedium disk fresh fails) lba n buf k).1 =
      (if (ext2BlockLoop fails d lba k n).1 then
        some (loadAll disk (ext2BlockLoop fails d lba k n).2 buf) else none) ∧
      ((ext2BlockLoop fails d lba k n).1 = true →
        (ext2ReadSectors (driveMedium disk fresh fails) lba n buf k).2 = k + n) := by
    intro n
    induction n with
    | zero => exact ⟨rfl, fun _ => rfl⟩
    | succ n ih =>
      obtain ⟨hbuf, hcount⟩ := ih
      unfold ext2ReadSectors ext2BlockLoop
      rcases hread : ext2ReadSectors (driveMedium disk fresh fails) lba n buf k with ⟨b, k'⟩
      rcases ht : ext2BlockLoop fails d lba k n with ⟨ok, ts⟩
      rw [hread, ht] at hbuf hcount
      dsimp only at hbuf hcount
      cases ok with
      | false =>
        rw [hbuf]
        exact ⟨rfl, fun h => absurd h Bool.false_ne_true⟩
      | true =>
        rw [hbuf, hcount rfl]
        dsimp only
        rw [if_pos rfl]
        dsimp only
        rw [ideRead_drive hd]
        have hlba : BitVec.ofNat 32 (u32 (lba + n)) = BitVec.ofNat 32 (lba + n) := by
          apply BitVec.eq_of_toNat_eq
          rw [BitVec.toNat_ofNat, BitVec.toNat_ofNat, u32, Nat.mod_mod]
        dsimp only
        rw [hlba]
        rcases ideTransfer fails d (BitVec.ofNat 32 (lba + n)) 1 (n * 512) (k + n) with ⟨ok, next⟩
        dsimp only
        refine ⟨?_, fun _ => Nat.add_assoc k n 1⟩
        unfold loadAll
        rw [List.foldl_append]
  exact (hloop _).1

end PinguinOS.Fs
