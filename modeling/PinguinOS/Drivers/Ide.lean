import Mathlib.Data.BitVec
import Mathlib.Tactic.Common

/-! PIO transfers of an IDE drive: the sectors that the registers of the channel address, and
where their bytes go. -/
namespace PinguinOS.Drivers

def ideSectorSize : Nat := 512

/-- The registers of the channel that `ide_select_lba` writes. -/
structure IdeRegs where
  select : BitVec 8
  nsec : BitVec 8
  lbaLo : BitVec 8
  lbaMi : BitVec 8
  lbaHi : BitVec 8

/-- What the code uses of an `ide_drive_t`. -/
structure IdeDrive where
  present : Bool
  drive : BitVec 8

def ideSelectLba (d : IdeDrive) (lba : BitVec 32) (count : BitVec 8) : IdeRegs where
  select := (0xE0 ||| (d.drive.setWidth 32 <<< 4) ||| ((lba >>> 24) &&& 0x0F)).setWidth 8
  nsec := count
  lbaLo := (lba &&& 0xFF).setWidth 8
  lbaMi := ((lba >>> 8) &&& 0xFF).setWidth 8
  lbaHi := ((lba >>> 16) &&& 0xFF).setWidth 8

/-- The sector that the drive takes out of the registers. -/
def IdeRegs.sector (r : IdeRegs) : BitVec 28 :=
  r.select.setWidth 4 ++ r.lbaHi ++ r.lbaMi ++ r.lbaLo

/-- A sector that goes between the drive and the place `pos` of a buffer. -/
structure IdeTransfer where
  sector : Nat
  pos : Nat

/-- What a call of `ide_read` or `ide_write` returns, whether it is 0, and the sectors that go
through the data register meanwhile. -/
abbrev IdeResult := Bool × List IdeTransfer

/-- The loop of `ide_read` and `ide_write` over `n` sectors from `s` on. `fails` tells which calls
of `ide_wait` fail, counted from the first one; `k` of them have been made. -/
def ideLoop (fails : Nat → Bool) (start pos : Nat) : (n s k : Nat) → IdeResult
  | 0, _, _ => (true, [])
  | n + 1, s, k =>
    if fails k then (false, [])
    else
      let (ok, rest) := ideLoop fails start pos n (s + 1) (k + 1)
      (ok, ⟨start + s, pos + s * ideSectorSize⟩ :: rest)

/-- `ide_read` to the place `pos` of a buffer, or `ide_write` from there -/
def ideTransfer (fails : Nat → Bool) (d : IdeDrive) (lba : BitVec 32) (count : BitVec 8)
    (pos k : Nat) : IdeResult :=
  if !d.present then (false, [])
  else ideLoop fails (ideSelectLba d lba count).sector.toNat pos count.toNat 0 k

/-- The bytes of a drive, sector by sector. -/
abbrev IdeDisk := Nat → Nat → BitVec 8

/-- The sector moves into the buffer. -/
def IdeTransfer.load (t : IdeTransfer) (disk : IdeDisk) (buf : Nat → BitVec 8) : Nat → BitVec 8 :=
  fun i => if t.pos ≤ i ∧ i < t.pos + ideSectorSize then disk t.sector (i - t.pos) else buf i

/-- The sector is written from the buffer. -/
def IdeTransfer.store (t : IdeTransfer) (buf : Nat → BitVec 8) (disk : IdeDisk) : IdeDisk :=
  Function.update disk t.sector fun i => buf (t.pos + i)

/-- The buffer after `ide_read`. -/
def loadAll (disk : IdeDisk) (ts : List IdeTransfer) (buf : Nat → BitVec 8) : Nat → BitVec 8 :=
  ts.foldl (fun buf t => t.load disk buf) buf

/-- The drive after `ide_write`. -/
def storeAll (buf : Nat → BitVec 8) (ts : List IdeTransfer) (disk : IdeDisk) : IdeDisk :=
  ts.foldl (fun disk t => t.store buf disk) disk

/-- `n` sectors from `start` on, one behind the other in the buffer from `pos` on. -/
def inOrder (start pos n : Nat) : List IdeTransfer :=
  (List.range n).map fun s => ⟨start + s, pos + s * ideSectorSize⟩

variable {fails : Nat → Bool} {d : IdeDrive} {lba : BitVec 32} {count : BitVec 8}
  {start pos n s k i : Nat} {disk : IdeDisk} {buf : Nat → BitVec 8}

theorem getLsbD_mask {w j : Nat} (hn : n < w) :
    (BitVec.ofNat w (2 ^ n - 1)).getLsbD j = decide (j < n) := by
  rw [BitVec.getLsbD_ofNat, Nat.testBit_two_pow_sub_one]
  by_cases hj : j < n
  · rw [decide_eq_true (hj.trans hn), decide_eq_true hj]
    rfl
  · rw [decide_eq_false hj, Bool.and_false]

/-- The registers hold the low 28 bits of the address. -/
theorem sector_selectLba : (ideSelectLba d lba count).sector = lba.setWidth 28 := by
  have hbyte : ∀ j, (0xFF#32).getLsbD j = decide (j < 8) :=
    fun j => @getLsbD_mask 8 32 j (by decide)
  have hnibble : ∀ j, (0x0F#32).getLsbD j = decide (j < 4) :=
    fun j => @getLsbD_mask 4 32 j (by decide)
  have hfixed : ∀ j < 4, (0xE0#32).getLsbD j = false := by decide
  unfold IdeRegs.sector ideSelectLba
  apply BitVec.eq_of_getLsbD_eq
  intro j hj
  simp only [BitVec.getLsbD_append, BitVec.getLsbD_setWidth, BitVec.getLsbD_or,
    BitVec.getLsbD_and, BitVec.getLsbD_ushiftRight, BitVec.getLsbD_shiftLeft, BitVec.ofNat_eq_ofNat,
    hbyte, hnibble]
  by_cases h0 : j < 8
  · simp [h0, hj]
  by_cases h1 : j < 16
  · simp [h0, hj, show j - 8 < 8 by omega, show 8 + (j - 8) = j by omega]
  by_cases h2 : j < 24
  · simp [h0, hj, show ¬ j - 8 < 8 by omega, show j - 8 - 8 < 8 by omega,
      show 16 + (j - 8 - 8) = j by omega]
  · have hlow : j - 8 - 8 - 8 < 4 := by omega
    simp [h0, hj, show ¬ j - 8 < 8 by omega, show ¬ j - 8 - 8 < 8 by omega, hlow,
      hfixed _ hlow, show 24 + (j - 8 - 8 - 8) = j by omega, show j - 8 - 8 - 8 < 8 by omega]

theorem ideLoop_ok (hok : ∀ j, fails j = false) : ideLoop fails start pos n s k =
    (true, (List.range' s n).map fun i => ⟨start + i, pos + i * ideSectorSize⟩) := by
  induction n generalizing s k with
  | zero => rfl
  | succ n ih =>
    unfold ideLoop
    rw [hok k, if_neg Bool.false_ne_true, ih]
    rfl

/-- Without an error the sectors follow each other from the addressed one on. -/
theorem ideTransfer_ok (hd : d.present = true) (hok : ∀ j, fails j = false) :
    ideTransfer fails d lba count pos k =
      (true, inOrder (lba.toNat % 2 ^ 28) pos count.toNat) := by
  unfold ideTransfer inOrder
  rw [hd, Bool.not_true, if_neg Bool.false_ne_true, sector_selectLba, BitVec.toNat_setWidth,
    ideLoop_ok hok, List.range_eq_range']

theorem ideLoop_true (h : (ideLoop fails start pos n s k).1 = true) :
    (ideLoop fails start pos n s k).2 =
      (List.range' s n).map fun i => ⟨start + i, pos + i * ideSectorSize⟩ := by
  induction n generalizing s k with
  | zero => rfl
  | succ n ih =>
    unfold ideLoop at h ⊢
    by_cases hk : fails k = true
    · rw [if_pos hk] at h
      exact absurd h Bool.false_ne_true
    · rw [if_neg hk] at h ⊢
      dsimp only at h ⊢
      rw [ih h]
      rfl

/-- A call that ends well has moved all sectors of the request. -/
theorem ideTransfer_true (h : (ideTransfer fails d lba count pos k).1 = true) :
    (ideTransfer fails d lba count pos k).2 = inOrder (lba.toNat % 2 ^ 28) pos count.toNat := by
  unfold ideTransfer at h ⊢
  cases hd : d.present with
  | false =>
    rw [hd] at h
    exact absurd h Bool.false_ne_true
  | true =>
    rw [hd, Bool.not_true, if_neg Bool.false_ne_true, sector_selectLba, BitVec.toNat_setWidth] at h
    rw [Bool.not_true, if_neg Bool.false_ne_true, sector_selectLba, BitVec.toNat_setWidth,
      ideLoop_true h]
    unfold inOrder
    rw [List.range_eq_range']

/-- One sector is a single wait, and moves if that ends well. -/
theorem ideTransfer_one : ideTransfer fails d lba 1 pos k =
    if d.present ∧ fails k = false then (true, [⟨lba.toNat % 2 ^ 28, pos⟩]) else (false, []) := by
  unfold ideTransfer
  rw [sector_selectLba, BitVec.toNat_setWidth]
  cases hd : d.present with
  | false => simp
  | true =>
    cases hk : fails k with
    | true => simp [ideLoop, hk]
    | false => simp [ideLoop, hk, ideSectorSize]

/-! Buffers and drives after the transfers. -/

theorem inOrder_succ : inOrder start pos (n + 1) =
    inOrder start pos n ++ [⟨start + n, pos + n * ideSectorSize⟩] := by
  unfold inOrder
  rw [List.range_succ, List.map_append]
  rfl

theorem loadAll_succ : loadAll disk (inOrder start pos (n + 1)) buf =
    (⟨start + n, pos + n * ideSectorSize⟩ : IdeTransfer).load disk
      (loadAll disk (inOrder start pos n) buf) := by
  rw [inOrder_succ]
  exact List.foldl_append

theorem storeAll_succ : storeAll buf (inOrder start pos (n + 1)) disk =
    (⟨start + n, pos + n * ideSectorSize⟩ : IdeTransfer).store buf
      (storeAll buf (inOrder start pos n) disk) := by
  rw [inOrder_succ]
  exact List.foldl_append

/-- The buffer holds the bytes of the sectors, one sector behind the other. -/
theorem loadAll_inOrder : loadAll disk (inOrder start pos n) buf i =
    if pos ≤ i ∧ i < pos + n * ideSectorSize then
      disk (start + (i - pos) / ideSectorSize) ((i - pos) % ideSectorSize)
    else buf i := by
  induction n with
  | zero =>
    rw [if_neg (by omega)]
    rfl
  | succ n ih =>
    rw [loadAll_succ]
    unfold IdeTransfer.load
    dsimp only
    unfold ideSectorSize at ih ⊢
    by_cases hlast : pos + n * 512 ≤ i ∧ i < pos + n * 512 + 512
    · have hin : pos ≤ i ∧ i < pos + (n + 1) * 512 := by omega
      have hdiv : (i - pos) / 512 = n := by omega
      have hmod : i - (pos + n * 512) = (i - pos) % 512 := by omega
      rw [if_pos hlast, if_pos hin, hdiv, hmod]
    · rw [if_neg hlast, ih]
      refine if_congr ?_ rfl rfl
      clear ih
      omega

/-- The sectors hold the bytes of the buffer, and the others are as they were. -/
theorem storeAll_inOrder : storeAll buf (inOrder start pos n) disk s =
    if start ≤ s ∧ s < start + n then fun i => buf (pos + (s - start) * ideSectorSize + i)
    else disk s := by
  induction n with
  | zero =>
    rw [if_neg (by omega)]
    rfl
  | succ n ih =>
    rw [storeAll_succ]
    unfold IdeTransfer.store
    dsimp only
    by_cases hlast : s = start + n
    · have hin : start ≤ start + n ∧ start + n < start + (n + 1) := by omega
      rw [hlast, Function.update_self, if_pos hin, Nat.add_sub_cancel_left]
    · rw [Function.update_of_ne hlast, ih]
      refine if_congr ?_ rfl rfl
      omega

end PinguinOS.Drivers
