import Mathlib.Data.List.Range
import Mathlib.Logic.Function.Basic

/-! Tables stored row by row, and the loops over their rows and columns. -/
namespace Grid

variable {α β : Type*} {f : β → Nat → β} {b : β} {g : Nat → α} {x : α} {w h r r' c c' n k d i : Nat}

/-- The cell of row `r` and column `c` in rows of `w` cells. -/
def index (w r c : Nat) : Nat := r * w + c

theorem index_lt (hr : r < h) (hc : c < w) : index w r c < h * w := by
  have hrow : (r + 1) * w ≤ h * w := Nat.mul_le_mul_right w hr
  rw [Nat.succ_mul] at hrow
  unfold index
  omega

theorem index_inj (hc : c < w) (hc' : c' < w) (heq : index w r c = index w r' c') :
    r = r' ∧ c = c' := by
  unfold index at heq
  rcases Nat.lt_trichotomy r r' with hlt | rfl | hlt
  · have hrow : (r + 1) * w ≤ r' * w := Nat.mul_le_mul_right w hlt
    rw [Nat.succ_mul] at hrow
    omega
  · exact ⟨rfl, by omega⟩
  · have hrow : (r' + 1) * w ≤ r * w := Nat.mul_le_mul_right w hlt
    rw [Nat.succ_mul] at hrow
    omega

/-- A cell of the row below. -/
theorem index_succ : index w (r + 1) c = index w r c + w := by
  unfold index
  rw [Nat.succ_mul]
  omega

/-- A loop over the rows, and in each of them over the columns, goes through all cells. -/
theorem foldl_rows :
    (List.range h).foldl (fun b r => (List.range w).foldl (fun b c => f b (index w r c)) b) b =
      (List.range (h * w)).foldl f b := by
  induction h with
  | zero => rw [Nat.zero_mul]; rfl
  | succ h ih =>
    rw [List.range_succ, List.foldl_append, ih, Nat.succ_mul, List.range_add, List.foldl_append,
      List.foldl_map]
    rfl

/-- Cells are filled from `k` on. -/
theorem foldl_fill :
    (List.range n).foldl (fun g i => Function.update g (k + i) x) g =
      fun i => if k ≤ i ∧ i < k + n then x else g i := by
  induction n with
  | zero =>
    funext i
    rw [if_neg (by omega)]
    rfl
  | succ n ih =>
    rw [List.range_succ, List.foldl_append, ih]
    funext i
    rw [List.foldl_cons, List.foldl_nil, Function.update_apply]
    by_cases hi : i = k + n
    · rw [if_pos hi, if_pos (by omega)]
    · rw [if_neg hi]
      exact if_congr (by omega) rfl rfl

/-- The first cells get the values of `v`. -/
theorem foldl_values {v : Nat → α} :
    (List.range n).foldl (fun g i => Function.update g i (v i)) g =
      fun i => if i < n then v i else g i := by
  induction n with
  | zero =>
    funext i
    rw [if_neg (Nat.not_lt_zero i)]
    rfl
  | succ n ih =>
    rw [List.range_succ, List.foldl_append, ih]
    funext i
    rw [List.foldl_cons, List.foldl_nil, Function.update_apply]
    by_cases hi : i = n
    · rw [if_pos hi, if_pos (by omega), hi]
    · rw [if_neg hi]
      exact if_congr (by omega) rfl rfl

/-- Cells are copied down by `d`, from the first on: no copy destroys the source of a later one. -/
theorem foldl_shift (hd : 0 < d) :
    (List.range n).foldl (fun g i => Function.update g i (g (i + d))) g =
      fun i => if i < n then g (i + d) else g i := by
  induction n with
  | zero =>
    funext i
    rw [if_neg (by omega)]
    rfl
  | succ n ih =>
    rw [List.range_succ, List.foldl_append, ih]
    funext i
    have hsource : (if n + d < n then g (n + d + d) else g (n + d)) = g (n + d) :=
      if_neg (by omega)
    rw [List.foldl_cons, List.foldl_nil, Function.update_apply]
    dsimp only
    rw [hsource]
    by_cases hi : i = n
    · rw [if_pos hi, if_pos (by omega), hi]
    · rw [if_neg hi]
      exact if_congr (by omega) rfl rfl

end Grid
