import Mathlib.Data.List.Basic
import Mathlib.Logic.Function.Basic

/-! Ring buffers: the elements from a read position on, in a buffer of `c` cells. -/
namespace Ring

variable {α : Type*} {f : Nat → α} {c i m n r r' : Nat} {x : α} {xs : List α}

/-- The `n` elements from position `r` on. -/
def contents (f : Nat → α) (c r n : Nat) : List α := (List.range n).map fun i => f ((r + i) % c)

@[simp] theorem length_contents : (contents f c r n).length = n := by
  unfold contents
  rw [List.length_map, List.length_range]

/-- Positions count modulo the size of the buffer. -/
theorem contents_congr (h : r % c = r' % c) : contents f c r n = contents f c r' n := by
  refine List.map_congr_left fun i _ => ?_
  rw [Nat.add_mod, h, ← Nat.add_mod]

/-- Fewer than `c` positions apart, two positions are two cells. -/
theorem slot_ne {j k : Nat} (hlt : j < k) (hnear : k < j + c) : j % c ≠ k % c := by
  intro heq
  have hdiff : (k - j) % c = 0 := Nat.sub_mod_eq_zero_of_mod_eq heq.symm
  rw [Nat.mod_eq_of_lt (by omega)] at hdiff
  omega

theorem contents_add : contents f c r (m + n) = contents f c r m ++ contents f c (r + m) n := by
  unfold contents
  rw [List.range_add, List.map_append, List.map_map]
  congr 1
  refine List.map_congr_left fun i _ => ?_
  simp only [Function.comp_apply, Nat.add_assoc]

/-- The last element is the one that was put in last. -/
theorem contents_succ : contents f c r (n + 1) = contents f c r n ++ [f ((r + n) % c)] :=
  contents_add

/-- The first element is the one at the read position. -/
theorem contents_cons : contents f c r (n + 1) = f (r % c) :: contents f c (r + 1) n := by
  rw [Nat.add_comm, contents_add]
  rfl

/-- A free cell is written: the one behind the elements. -/
theorem contents_update (hn : n < c) :
    contents (Function.update f ((r + n) % c) x) c r n = contents f c r n := by
  refine List.map_congr_left fun i hi => ?_
  have hlt := List.mem_range.mp hi
  refine Function.update_of_ne (fun heq => ?_) _ _
  have hdiff : (r + n - (r + i)) % c = 0 := Nat.sub_mod_eq_zero_of_mod_eq heq.symm
  have hsub : r + n - (r + i) = n - i := by omega
  rw [hsub, Nat.mod_eq_of_lt (by omega)] at hdiff
  omega

/-- An element is put behind the others. -/
theorem contents_push (hn : n < c) :
    contents (Function.update f ((r + n) % c) x) c r (n + 1) = contents f c r n ++ [x] := by
  rw [contents_succ, contents_update hn, Function.update_self]

/-- The elements are put into the cells from `i` on. -/
def pushAll (f : Nat → α) (c i : Nat) : List α → Nat → α
  | [] => f
  | x :: xs => pushAll (Function.update f (i % c) x) c (i + 1) xs

/-- Several elements are put behind the others. -/
theorem contents_pushAll (hn : n + xs.length ≤ c) :
    contents (pushAll f c (r + n) xs) c r (n + xs.length) = contents f c r n ++ xs := by
  induction xs generalizing f n with
  | nil => rw [List.append_nil]; rfl
  | cons x xs ih =>
    rw [List.length_cons] at hn ⊢
    have hnext := @ih (Function.update f ((r + n) % c) x) (n + 1) (by omega)
    have hlength : n + (xs.length + 1) = n + 1 + xs.length := by omega
    unfold pushAll
    rw [hlength, Nat.add_assoc r n 1, hnext, contents_push (by omega), List.append_assoc]
    rfl

theorem pushAll_congr (h : i % c = m % c) : pushAll f c i xs = pushAll f c m xs := by
  induction xs generalizing f i m with
  | nil => rfl
  | cons x xs ih =>
    unfold pushAll
    rw [h]
    refine ih ?_
    rw [Nat.add_mod, h, ← Nat.add_mod]

end Ring
