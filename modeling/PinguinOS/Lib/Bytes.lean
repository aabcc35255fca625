import Mathlib.Data.BitVec
import Mathlib.Logic.Function.Basic
import Mathlib.Tactic.Common

/-! A memory of 32-bit words seen as bytes, and little-endian pointers at any address. -/
namespace Bytes

abbrev Words := Nat → BitVec 32

/-- The bytes `0` to `3` of a word. -/
def ofBytes (f : Nat → BitVec 8) : BitVec 32 := f 3 ++ f 2 ++ f 1 ++ f 0

def byteOf (w : BitVec 32) (j : Nat) : BitVec 8 := w.extractLsb' (8 * j) 8

def byte (m : Words) (a : Nat) : BitVec 8 := byteOf (m (a / 4)) (a % 4)

/-- Every byte is replaced by a function of its address and its value. -/
def mapBytes (m : Words) (f : Nat → BitVec 8 → BitVec 8) : Words := fun w =>
  ofBytes fun j => f (4 * w + j) (byte m (4 * w + j))

/-- One byte is replaced. -/
def setByte (m : Words) (a : Nat) (b : BitVec 8) : Words :=
  Function.update m (a / 4) (ofBytes fun j => if j = a % 4 then b else byteOf (m (a / 4)) j)

/-- The pointer stored at `a`. -/
def readPtr (m : Words) (a : Nat) : Nat := (ofBytes fun j => byte m (a + j)).toNat

def writePtr (m : Words) (a x : Nat) : Words :=
  mapBytes m fun b old => if a ≤ b ∧ b < a + 4 then byteOf (BitVec.ofNat 32 x) (b - a) else old

/-- `memset((void *)a, 0, n)` -/
def zeroBytes (m : Words) (a n : Nat) : Words :=
  mapBytes m fun b old => if a ≤ b ∧ b < a + n then 0 else old

variable {m : Words} {f : Nat → BitVec 8 → BitVec 8} {g : Nat → BitVec 8} {w : BitVec 32}
  {a b i j n x : Nat}

theorem byteOf_ofBytes (hj : j < 4) : byteOf (ofBytes g) j = g j := by
  unfold byteOf ofBytes
  apply BitVec.eq_of_getLsbD_eq
  intro k hk
  have hcases : j = 0 ∨ j = 1 ∨ j = 2 ∨ j = 3 := by omega
  simp only [BitVec.getLsbD_extractLsb', BitVec.getLsbD_append]
  rcases hcases with rfl | rfl | rfl | rfl
  · simp [hk]
  · simp [hk]
  · simp [hk, show ¬ 16 + k < 8 by omega, show ¬ 16 + k - 8 < 8 by omega,
      show 16 + k - 8 - 8 = k by omega]
  · simp [hk, show ¬ 24 + k < 8 by omega, show ¬ 24 + k - 8 < 8 by omega,
      show ¬ 24 + k - 8 - 8 < 8 by omega, show 24 + k - 8 - 8 - 8 = k by omega]

theorem ofBytes_byteOf : (ofBytes fun j => byteOf w j) = w := by
  apply BitVec.eq_of_getLsbD_eq
  intro k hk
  unfold ofBytes byteOf
  simp only [BitVec.getLsbD_append, BitVec.getLsbD_extractLsb']
  split_ifs with h0 h1 h2
  · simp [h0]
  · simp [h1, show 8 + (k - 8) = k by omega]
  · simp [h2, show 16 + (k - 8 - 8) = k by omega]
  · simp [show k - 8 - 8 - 8 < 8 by omega, show 24 + (k - 8 - 8 - 8) = k by omega]

theorem ofBytes_congr {g' : Nat → BitVec 8} (h : ∀ j < 4, g j = g' j) : ofBytes g = ofBytes g' := by
  unfold ofBytes
  rw [h 0 (by decide), h 1 (by decide), h 2 (by decide), h 3 (by decide)]

theorem byte_mapBytes : byte (mapBytes m f) a = f a (byte m a) := by
  have haddr : 4 * (a / 4) + a % 4 = a := Nat.div_add_mod a 4
  have hbyte := @byteOf_ofBytes (fun j => f (4 * (a / 4) + j) (byte m (4 * (a / 4) + j))) (a % 4)
    (Nat.mod_lt a (by decide))
  rw [haddr] at hbyte
  exact hbyte

/-- A word keeps its value when its four bytes do. -/
theorem mapBytes_word (h : ∀ j < 4, f (4 * i + j) (byte m (4 * i + j)) = byte m (4 * i + j)) :
    mapBytes m f i = m i := by
  have hword : (ofBytes fun j => byte m (4 * i + j)) = m i := by
    rw [← @ofBytes_byteOf (m i)]
    refine ofBytes_congr fun j hj => ?_
    unfold byte
    rw [show (4 * i + j) / 4 = i by omega, show (4 * i + j) % 4 = j by omega]
  exact (ofBytes_congr h).trans hword

theorem setByte_word {c : BitVec 8} (h : i ≠ a / 4) : setByte m a c i = m i :=
  Function.update_of_ne h _ _

theorem byte_setByte {c : BitVec 8} : byte (setByte m a c) b = if b = a then c else byte m b := by
  unfold byte setByte
  by_cases hword : b / 4 = a / 4
  · rw [hword, Function.update_self, byteOf_ofBytes (Nat.mod_lt b (by decide))]
    refine if_congr ?_ rfl rfl
    omega
  · rw [Function.update_of_ne hword, if_neg]
    rintro rfl
    exact hword rfl

theorem readPtr_congr {m' : Words} (h : ∀ j < 4, byte m' (a + j) = byte m (a + j)) :
    readPtr m' a = readPtr m a := by
  unfold readPtr
  rw [ofBytes_congr h]

theorem byte_writePtr : byte (writePtr m a x) b =
    if a ≤ b ∧ b < a + 4 then byteOf (BitVec.ofNat 32 x) (b - a) else byte m b := byte_mapBytes

theorem byte_zeroBytes : byte (zeroBytes m a n) b =
    if a ≤ b ∧ b < a + n then 0 else byte m b := byte_mapBytes

theorem readPtr_writePtr (hx : x < 2 ^ 32) : readPtr (writePtr m a x) a = x := by
  have hbytes : ∀ j < 4, byte (writePtr m a x) (a + j) = byteOf (BitVec.ofNat 32 x) j := by
    intro j hj
    rw [byte_writePtr, if_pos (by omega), Nat.add_sub_cancel_left]
  unfold readPtr
  rw [ofBytes_congr hbytes, ofBytes_byteOf, BitVec.toNat_ofNat, Nat.mod_eq_of_lt hx]

theorem readPtr_writePtr_apart (h : a + 4 ≤ b ∨ b + 4 ≤ a) :
    readPtr (writePtr m a x) b = readPtr m b := by
  refine readPtr_congr fun j hj => ?_
  rw [byte_writePtr, if_neg (by omega)]

theorem readPtr_zeroBytes_apart (h : a + n ≤ b ∨ b + 4 ≤ a) :
    readPtr (zeroBytes m a n) b = readPtr m b := by
  refine readPtr_congr fun j hj => ?_
  rw [byte_zeroBytes, if_neg (by omega)]

theorem writePtr_word (h : 4 * i + 4 ≤ a ∨ a + 4 ≤ 4 * i) : writePtr m a x i = m i :=
  mapBytes_word fun _ _ => if_neg (by omega)

theorem zeroBytes_word (h : 4 * i + 4 ≤ a ∨ a + n ≤ 4 * i) : zeroBytes m a n i = m i :=
  mapBytes_word fun _ _ => if_neg (by omega)

end Bytes
