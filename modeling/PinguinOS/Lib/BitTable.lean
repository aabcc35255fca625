import Mathlib.Data.List.Range
import Mathlib.Logic.Function.Basic

/-! Bit sets stored in a table of fixed-width words, addressed by word and bit number. -/
namespace BitTable

variable {ι : Type*} [DecidableEq ι] {w : Nat}

def test (b : ι → BitVec w) (i : ι) (k : Nat) : Bool := (b i).getLsbD k

def set (b : ι → BitVec w) (i : ι) (k : Nat) : ι → BitVec w :=
  Function.update b i (b i ||| 1#w <<< k)

def clear (b : ι → BitVec w) (i : ι) (k : Nat) : ι → BitVec w :=
  Function.update b i (b i &&& ~~~(1#w <<< k))

variable {b : ι → BitVec w} {i j : ι} {k l : Nat}

theorem getLsbD_one_shiftLeft (hl : l < w) : (1#w <<< k).getLsbD l = decide (k = l) := by
  simp only [BitVec.getLsbD_shiftLeft, BitVec.getLsbD_one]
  by_cases h : k = l
  · subst h
    simp [hl, Nat.zero_lt_of_lt hl]
  · by_cases hlk : l < k
    · simp [hlk, h]
    · have : l - k ≠ 0 := by omega
      simp [this, h]

theorem test_set (hl : l < w) :
    test (set b i k) j l = (decide (i = j ∧ k = l) || test b j l) := by
  by_cases hij : j = i
  · subst hij
    simp [test, set, getLsbD_one_shiftLeft hl, Bool.or_comm]
  · simp [test, set, Function.update_of_ne hij, Ne.symm hij]

theorem test_clear (hl : l < w) :
    test (clear b i k) j l = (!decide (i = j ∧ k = l) && test b j l) := by
  by_cases hij : j = i
  · subst hij
    simp only [test, clear, Function.update_self, BitVec.getLsbD_and, BitVec.getLsbD_not,
      getLsbD_one_shiftLeft hl]
    simp [hl, Bool.and_comm]
  · simp [test, clear, Function.update_of_ne hij, Ne.symm hij]

/-- Counting leading zeros of a nonzero word finds a set bit. -/
theorem test_top {x : BitVec w} (hw : 0 < w) (hx : x ≠ 0#w) :
    x.getLsbD (w - 1 - x.clz.toNat) = true := BitVec.getLsbD_true_clz_of_ne_zero hw hx

/-- No bit above the leading-zero count is set. -/
theorem le_top {x : BitVec w} (hk : x.getLsbD k = true) : k ≤ w - 1 - x.clz.toNat := by
  have hlt := BitVec.toNat_lt_two_pow_sub_clz (x := x)
  have hge : 2 ^ k ≤ x.toNat := Nat.ge_two_pow_of_testBit hk
  have := (Nat.pow_lt_pow_iff_right (by decide : 1 < 2)).mp (Nat.lt_of_le_of_lt hge hlt)
  omega

/-- Counting below `n` after one more index has been added. -/
theorem countP_range_insert {f g : Nat → Bool} {n m : Nat} (hm : m < n) (hf : f m = true)
    (hg : g m = false) (hother : ∀ i, i ≠ m → g i = f i) :
    (List.range n).countP f = (List.range n).countP g + 1 := by
  induction n with
  | zero => omega
  | succ n ih =>
    rw [List.range_succ, List.countP_append, List.countP_append]
    by_cases hmn : m = n
    · subst hmn
      have hsame : (List.range m).countP f = (List.range m).countP g := by
        apply List.countP_congr
        intro i hi
        have hne : i ≠ m := Nat.ne_of_lt (List.mem_range.mp hi)
        rw [hother i hne]
      simp [hsame, hf, hg]
    · rw [ih (by omega)]
      simp only [List.countP_singleton, hother n (Ne.symm hmn)]
      omega

end BitTable
