import Mathlib.Logic.Function.Basic

/-! Arrays whose first `n` cells are in use: an element goes in between, the first one comes out. -/
namespace Slots

variable {α β : Type*} {f : Nat → α} {g : Nat → β} {n i j k : Nat} {x a : α} {y : β}

/-- `x` is put at `i`, and the elements from there on move up one cell. -/
def insertAt (f : Nat → α) (n i : Nat) (x : α) : Nat → α := fun j =>
  if j = i then x else if i < j ∧ j ≤ n then f (j - 1) else f j

/-- The elements move down one cell, over the first one. -/
def removeHead (f : Nat → α) (n : Nat) : Nat → α := fun j => if j + 1 < n then f (j + 1) else f j

/-- A loop that moves the elements up, the last one first. -/
def shiftUp (f : Nat → α) (i : Nat) : Nat → Nat → α
  | 0 => f
  | j + 1 => if i < j + 1 then shiftUp (Function.update f (j + 1) (f j)) i j else f

/-- A loop that moves them down, the second one first. -/
def shiftDown (f : Nat → α) (n : Nat) : Nat → Nat → Nat → α
  | _, 0 => f
  | j, fuel + 1 => if j < n then shiftDown (Function.update f (j - 1) (f j)) n (j + 1) fuel else f

theorem shiftUp_apply : shiftUp f i n j = if i < j ∧ j ≤ n then f (j - 1) else f j := by
  induction n generalizing f with
  | zero =>
    rw [if_neg (by omega)]
    rfl
  | succ n ih =>
    unfold shiftUp
    split
    case isTrue hless =>
      rw [ih]
      by_cases hj : j = n + 1
      · subst hj
        rw [if_neg (by omega), if_pos ⟨hless, Nat.le_refl _⟩, Function.update_self]
        rfl
      · by_cases hmoved : i < j ∧ j ≤ n
        · rw [if_pos hmoved, if_pos (by omega), Function.update_of_ne (by omega)]
        · rw [if_neg hmoved, if_neg (by omega), Function.update_of_ne hj]
    case isFalse hless => rw [if_neg (by omega)]

theorem update_shiftUp :
    Function.update (shiftUp f i n) i x = insertAt f n i x := by
  funext j
  unfold insertAt
  by_cases hj : j = i
  · rw [if_pos hj, hj, Function.update_self]
  · rw [if_neg hj, Function.update_of_ne hj, shiftUp_apply]

/-- The loop has come to `j`: what is below is moved, what is above is not. -/
theorem shiftDown_apply {fuel : Nat} (hfuel : n ≤ j + fuel) (hj : 0 < j) :
    shiftDown f n j fuel k = if j ≤ k + 1 ∧ k + 1 < n then f (k + 1) else f k := by
  induction fuel generalizing f j with
  | zero =>
    rw [if_neg (by omega)]
    rfl
  | succ fuel ih =>
    unfold shiftDown
    split
    case isTrue hless =>
      rw [ih (by omega) (by omega)]
      by_cases hk : k = j - 1
      · subst hk
        have hback : j - 1 + 1 = j := by omega
        rw [if_neg (by omega), Function.update_self, if_pos (by omega), hback]
      · by_cases hmoved : j + 1 ≤ k + 1 ∧ k + 1 < n
        · rw [if_pos hmoved, if_pos (by omega), Function.update_of_ne (by omega)]
        · rw [if_neg hmoved, if_neg (by omega), Function.update_of_ne hk]
    case isFalse hless => rw [if_neg (by omega)]

theorem shiftDown_one : shiftDown f n 1 n = removeHead f n := by
  funext k
  rw [shiftDown_apply (by omega) (by decide)]
  unfold removeHead
  by_cases hk : k + 1 < n
  · rw [if_pos hk, if_pos (by omega)]
  · rw [if_neg hk, if_neg (by omega)]

/-! What holds of the elements, of two of them in order, and what is among them. -/

theorem insertAt_forall {R : α → β → Prop} (hi : i ≤ n) (h : ∀ k < n, R (f k) (g k)) (hx : R x y) :
    ∀ k < n + 1, R (insertAt f n i x k) (insertAt g n i y k) := by
  intro k hk
  unfold insertAt
  split
  case isTrue => exact hx
  case isFalse =>
    split
    · exact h (k - 1) (by omega)
    · exact h k (by omega)

theorem removeHead_forall {R : α → β → Prop} (h : ∀ k < n, R (f k) (g k)) :
    ∀ k < n - 1, R (removeHead f n k) (removeHead g n k) := by
  intro k hk
  unfold removeHead
  rw [if_pos (by omega), if_pos (by omega)]
  exact h (k + 1) (by omega)

theorem insertAt_pairwise {R : α → α → Prop} (hi : i ≤ n)
    (h : ∀ j k, j < k → k < n → R (f j) (f k)) (hbelow : ∀ j < i, R (f j) x)
    (habove : ∀ k, i ≤ k → k < n → R x (f k)) :
    ∀ j k, j < k → k < n + 1 → R (insertAt f n i x j) (insertAt f n i x k) := by
  intro j k hjk hk
  unfold insertAt
  rcases Nat.lt_trichotomy j i with hj | rfl | hj
  · rw [if_neg (by omega), if_neg (by omega)]
    rcases Nat.lt_trichotomy k i with hki | rfl | hki
    · rw [if_neg (by omega), if_neg (by omega)]
      exact h j k hjk (by omega)
    · rw [if_pos rfl]
      exact hbelow j hj
    · rw [if_neg (by omega), if_pos (by omega)]
      exact h j (k - 1) (by omega) (by omega)
  · rw [if_pos rfl, if_neg (by omega), if_pos (by omega)]
    exact habove (k - 1) (by omega) (by omega)
  · rw [if_neg (by omega), if_pos (by omega), if_neg (by omega), if_pos (by omega)]
    exact h (j - 1) (k - 1) (by omega) (by omega)

theorem removeHead_pairwise {R : α → α → Prop} (h : ∀ j k, j < k → k < n → R (f j) (f k)) :
    ∀ j k, j < k → k < n - 1 → R (removeHead f n j) (removeHead f n k) := by
  intro j k hjk hk
  unfold removeHead
  rw [if_pos (by omega), if_pos (by omega)]
  exact h (j + 1) (k + 1) (by omega) (by omega)

theorem exists_insertAt (hi : i ≤ n) :
    (∃ k < n + 1, insertAt f n i x k = a) ↔ a = x ∨ ∃ k < n, f k = a := by
  constructor
  · rintro ⟨k, hk, rfl⟩
    unfold insertAt
    split
    case isTrue => exact .inl rfl
    case isFalse hne =>
      split
      case isTrue => exact .inr ⟨k - 1, by omega, rfl⟩
      case isFalse => exact .inr ⟨k, by omega, rfl⟩
  · rintro (rfl | ⟨k, hk, rfl⟩)
    · exact ⟨i, by omega, if_pos rfl⟩
    · unfold insertAt
      by_cases hki : k < i
      · exact ⟨k, by omega, by rw [if_neg (by omega), if_neg (by omega)]⟩
      · exact ⟨k + 1, by omega, by rw [if_neg (by omega), if_pos (by omega)]; rfl⟩

/-- When the first element is at no other place, the others are left. -/
theorem exists_removeHead (hn : 0 < n) (hfirst : ∀ k < n, f k = f 0 → k = 0) :
    (∃ k < n - 1, removeHead f n k = a) ↔ a ≠ f 0 ∧ ∃ k < n, f k = a := by
  constructor
  · rintro ⟨k, hk, rfl⟩
    unfold removeHead
    rw [if_pos (by omega)]
    refine ⟨fun heq => ?_, k + 1, by omega, rfl⟩
    exact absurd (hfirst (k + 1) (by omega) heq) (by omega)
  · rintro ⟨hne, k, hk, rfl⟩
    have hpos : k ≠ 0 := by
      rintro rfl
      exact hne rfl
    refine ⟨k - 1, by omega, ?_⟩
    have hback : k - 1 + 1 = k := by omega
    unfold removeHead
    rw [if_pos (by omega), hback]

end Slots
