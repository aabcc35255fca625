import Mathlib.Data.Nat.ModEq
import Mathlib.Algebra.BigOperators.Group.List.Basic

/-! Ones' complement sums: the carry out of the top bit is added at the bottom. -/
namespace OnesComplement

variable {a b m : Nat} {ws : List Nat}

/-- Addition with end-around carry, of words up to `m`. -/
def add (m a b : Nat) : Nat := if a + b ≤ m then a + b else a + b - m

def sum (m : Nat) (ws : List Nat) : Nat := ws.foldr (add m) 0

theorem add_le (ha : a ≤ m) (hb : b ≤ m) : add m a b ≤ m := by
  unfold add
  split <;> omega

theorem add_modEq : add m a b ≡ a + b [MOD m] := by
  unfold add
  split
  case isTrue => exact Nat.ModEq.refl _
  case isFalse hcarry =>
    have hback : a + b - m + m = a + b := by omega
    calc a + b - m ≡ a + b - m + m [MOD m] := (Nat.add_mod_right _ _).symm
      _ = a + b := hback

theorem add_eq_zero (hm : 0 < m) : add m a b = 0 ↔ a = 0 ∧ b = 0 := by
  unfold add
  split <;> omega

theorem sum_le (h : ∀ w ∈ ws, w ≤ m) : sum m ws ≤ m := by
  induction ws with
  | nil => exact Nat.zero_le m
  | cons w ws ih =>
    rw [List.forall_mem_cons] at h
    exact add_le h.1 (ih h.2)

theorem sum_modEq : sum m ws ≡ ws.sum [MOD m] := by
  induction ws with
  | nil => exact Nat.ModEq.refl _
  | cons w ws ih =>
    rw [List.sum_cons]
    exact add_modEq.trans (Nat.ModEq.add_left w ih)

theorem sum_eq_zero (hm : 0 < m) : sum m ws = 0 ↔ ws.sum = 0 := by
  induction ws with
  | nil => exact Iff.rfl
  | cons w ws ih =>
    rw [List.sum_cons, Nat.add_eq_zero_iff, ← ih]
    exact add_eq_zero hm

/-- All ones stands for zero, when something was added. -/
theorem sum_eq_iff (hm : 0 < m) (h : ∀ w ∈ ws, w ≤ m) :
    sum m ws = m ↔ m ∣ ws.sum ∧ ws.sum ≠ 0 := by
  have hle := sum_le h
  have hmod := @sum_modEq m ws
  rw [ne_eq, ← sum_eq_zero hm, ← hmod.dvd_iff (Nat.dvd_refl m)]
  constructor
  · intro heq
    rw [heq]
    exact ⟨Nat.dvd_refl m, Nat.ne_of_gt hm⟩
  · rintro ⟨hdvd, hne⟩
    exact Nat.le_antisymm hle (Nat.le_of_dvd (Nat.pos_of_ne_zero hne) hdvd)

/-- A word is known from its remainder, if it is known whether it is zero. -/
theorem eq_of_modEq (ha : a ≤ m) (hb : b ≤ m) (hmod : a ≡ b [MOD m]) (hzero : a = 0 ↔ b = 0) :
    a = b := by
  unfold Nat.ModEq at hmod
  rcases Nat.eq_or_lt_of_le ha with rfl | hlt
  · rcases Nat.eq_or_lt_of_le hb with rfl | hlt'
    · rfl
    · rw [Nat.mod_self, Nat.mod_eq_of_lt hlt'] at hmod
      exact (hzero.mpr hmod.symm).trans hmod
  · rcases Nat.eq_or_lt_of_le hb with rfl | hlt'
    · rw [Nat.mod_self, Nat.mod_eq_of_lt hlt] at hmod
      exact hmod.trans (hzero.mp hmod).symm
    · rwa [Nat.mod_eq_of_lt hlt, Nat.mod_eq_of_lt hlt'] at hmod

/-- Words of two bytes: with the bytes swapped, a sum is `256` times what it was. -/
theorem swap_modEq : 256 * a + b ≡ 256 * (a + 256 * b) [MOD 65535] := by
  have hcarry : 256 * (a + 256 * b) = 256 * a + b + 65535 * b := by omega
  rw [hcarry]
  exact (Nat.add_mul_mod_self_left _ _ _).symm

end OnesComplement
