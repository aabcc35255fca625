import Mathlib.Order.Lattice
import Mathlib.Algebra.Order.Monoid.Defs

/-! Lists of regions laid out one after the other between two addresses. -/
namespace Layout

variable {α β : Type*} {R S : α → α → Prop} {first last : β → α} {lo hi mid : α} {b : β}
  {xs ys : List β}

/-- The regions run from `lo` to `hi`; `R` relates the end of each to the start of the next.
With `Eq` they tile the range, with `≤` there may be gaps. -/
def Packed (R : α → α → Prop) (first last : β → α) (lo hi : α) : List β → Prop
  | [] => R lo hi
  | b :: bs => R lo (first b) ∧ Packed R first last (last b) hi bs

@[simp] theorem packed_nil : Packed R first last lo hi [] ↔ R lo hi := Iff.rfl

@[simp] theorem packed_cons : Packed R first last lo hi (b :: xs) ↔
    R lo (first b) ∧ Packed R first last (last b) hi xs := Iff.rfl

theorem Packed.mono (hRS : ∀ x y, R x y → S x y) (h : Packed R first last lo hi xs) :
    Packed S first last lo hi xs := by
  induction xs generalizing lo with
  | nil => exact hRS _ _ h
  | cons b xs ih => exact ⟨hRS _ _ h.1, ih h.2⟩

/-- The range may start earlier. -/
theorem Packed.lower [IsTrans α R] (hlo : R lo mid) (h : Packed R first last mid hi xs) :
    Packed R first last lo hi xs := by
  cases xs with
  | nil => exact IsTrans.trans _ _ _ hlo h
  | cons b xs => exact ⟨IsTrans.trans _ _ _ hlo h.1, h.2⟩

/-- The range may end later. -/
theorem Packed.upper [IsTrans α R] (h : Packed R first last lo mid xs) (hhi : R mid hi) :
    Packed R first last lo hi xs := by
  induction xs generalizing lo with
  | nil => exact IsTrans.trans _ _ _ h hhi
  | cons b xs ih => exact ⟨h.1, ih h.2⟩

theorem packed_append [Std.Refl R] [IsTrans α R] :
    Packed R first last lo hi (xs ++ ys) ↔
      ∃ mid, Packed R first last lo mid xs ∧ Packed R first last mid hi ys := by
  induction xs generalizing lo with
  | nil =>
    constructor
    · intro h
      exact ⟨lo, refl_of R lo, h⟩
    · rintro ⟨mid, hlo, h⟩
      exact h.lower hlo
  | cons b xs ih =>
    rw [List.cons_append, packed_cons, ih]
    constructor
    · rintro ⟨hb, mid, hxs, hys⟩
      exact ⟨mid, ⟨hb, hxs⟩, hys⟩
    · rintro ⟨mid, ⟨hb, hxs⟩, hys⟩
      exact ⟨hb, mid, hxs, hys⟩

/-! Regions in order of their addresses. -/

theorem Packed.le [Preorder α] (hfl : ∀ b, first b ≤ last b)
    (h : Packed (· ≤ ·) first last lo hi xs) : lo ≤ hi := by
  induction xs generalizing lo with
  | nil => exact h
  | cons b xs ih => exact le_trans h.1 (le_trans (hfl b) (ih h.2))

theorem Packed.bounds [Preorder α] (hfl : ∀ b, first b ≤ last b)
    (h : Packed (· ≤ ·) first last lo hi xs) (hb : b ∈ xs) : lo ≤ first b ∧ last b ≤ hi := by
  induction xs generalizing lo with
  | nil => cases hb
  | cons a xs ih =>
    rcases List.mem_cons.mp hb with rfl | hb
    · exact ⟨h.1, h.2.le hfl⟩
    · obtain ⟨hlo, hhi⟩ := ih h.2 hb
      exact ⟨le_trans h.1 (le_trans (hfl a) hlo), hhi⟩

/-- No two regions overlap. -/
theorem Packed.pairwise [Preorder α] (hfl : ∀ b, first b ≤ last b)
    (h : Packed (· ≤ ·) first last lo hi xs) : xs.Pairwise fun a b => last a ≤ first b := by
  induction xs generalizing lo with
  | nil => exact List.Pairwise.nil
  | cons a xs ih =>
    refine List.pairwise_cons.mpr ⟨?_, ih h.2⟩
    intro b hb
    exact (h.2.bounds hfl hb).1

/-- A tiling determines its end. -/
theorem Packed.hi_unique {hi' : α} (h : Packed Eq first last lo hi xs)
    (h' : Packed Eq first last lo hi' xs) : hi = hi' := by
  induction xs generalizing lo with
  | nil => exact h.symm.trans h'
  | cons b xs ih => exact ih h.2 h'.2

end Layout
