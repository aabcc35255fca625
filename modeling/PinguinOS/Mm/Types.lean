import Mathlib.Data.Nat.Bitwise
import Mathlib.Tactic.Common

/-! The macros of `types.h` and `mm.h`, on 32-bit values held in `Nat`. -/
namespace PinguinOS.Mm

abbrev pageSize : Nat := 4096

/-- A result of unsigned 32-bit arithmetic, as it is stored. -/
def u32 (n : Nat) : Nat := n % 2 ^ 32

/-- `a - b` on `uint32_t` -/
def sub32 (a b : Nat) : Nat := u32 (a + 2 ^ 32 - b)

/-- An `int32_t` made of a `uint32_t`. -/
def int32 (n : Nat) : Int := (BitVec.ofNat 32 n).toInt

/-- `~n` -/
def not32 (n : Nat) : Nat := 2 ^ 32 - (n + 1)

/-- `ALIGN_UP`; the addition wraps. -/
def alignUp (val align : Nat) : Nat := u32 (val + align - 1) &&& not32 (align - 1)

/-- `ALIGN_DOWN` -/
def alignDown (val align : Nat) : Nat := val &&& not32 (align - 1)

/-- `ADDR_TO_PFN` -/
def addrToPfn (a : Nat) : Nat := a >>> 12

/-- `PFN_TO_ADDR` -/
def pfnToAddr (p : Nat) : Nat := u32 (p <<< 12)

variable {n k val : Nat}

theorem u32_lt : u32 n < 2 ^ 32 := Nat.mod_lt _ (by decide)

@[simp] theorem u32_of_lt (h : n < 2 ^ 32) : u32 n = n := Nat.mod_eq_of_lt h

theorem int32_of_lt (h : n < 2 ^ 31) : int32 n = n := by
  unfold int32
  rw [BitVec.toInt_ofNat']
  exact Int.bmod_eq_of_le (by omega) (by omega)

@[simp] theorem sub32_of_le {a b : Nat} (hab : b ≤ a) (ha : a < 2 ^ 32) : sub32 a b = a - b := by
  unfold sub32 u32
  omega

/-- Masking with the complement of `2 ^ k - 1` rounds down to a multiple of `2 ^ k`. -/
theorem and_not32 (hk : k ≤ 32) (hn : n < 2 ^ 32) :
    n &&& not32 (2 ^ k - 1) = n / 2 ^ k * 2 ^ k := by
  have hmask : 2 ^ k - 1 < 2 ^ 32 := by
    have := Nat.pow_le_pow_right (by decide : 0 < 2) hk
    omega
  apply Nat.eq_of_testBit_eq
  intro i
  rw [Nat.testBit_and, not32, Nat.testBit_two_pow_sub_succ hmask, Nat.testBit_two_pow_sub_one,
    Nat.testBit_mul_two_pow, Nat.testBit_div_two_pow]
  by_cases hik : i < k
  · simp [hik, Nat.not_le.mpr hik]
  · have hki : k ≤ i := Nat.not_lt.mp hik
    by_cases hi : i < 32
    · simp [hik, hki, hi]
    · have hbit : n.testBit i = false := by
        apply Nat.testBit_lt_two_pow
        exact Nat.lt_of_lt_of_le hn (Nat.pow_le_pow_right (by decide) (Nat.not_lt.mp hi))
      simp [hki, hbit]

theorem alignDown_page (h : val < 2 ^ 32) : alignDown val pageSize = val / 4096 * 4096 :=
  and_not32 (k := 12) (by decide) h

theorem alignUp_page : alignUp val pageSize = u32 (val + 4095) / 4096 * 4096 :=
  and_not32 (k := 12) (by decide) u32_lt

theorem alignUp_eight : alignUp val 8 = u32 (val + 7) / 8 * 8 :=
  and_not32 (k := 3) (by decide) u32_lt

theorem addrToPfn_eq : addrToPfn n = n / 4096 := Nat.shiftRight_eq_div_pow n 12

theorem pfnToAddr_eq (h : n < 2 ^ 20) : pfnToAddr n = n * 4096 := by
  rw [pfnToAddr, Nat.shiftLeft_eq]
  exact u32_of_lt (by omega)

end PinguinOS.Mm
