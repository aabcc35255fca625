import Mathlib.Data.List.Basic

/-! A list laid out in a memory of cells. -/
namespace Stored

variable {β : Type*}

/-- The cells from `a` on hold the list. -/
def StoredAt (mem : Nat → β) (a : Nat) (xs : List β) : Prop :=
  ∀ i (hi : i < xs.length), mem (a + i) = xs[i]

variable {mem mem' : Nat → β} {a n : Nat} {x : β} {xs ys : List β}

theorem storedAt_nil : StoredAt mem a [] := by
  intro i hi
  cases hi

theorem storedAt_append :
    StoredAt mem a (xs ++ ys) ↔ StoredAt mem a xs ∧ StoredAt mem (a + xs.length) ys := by
  unfold StoredAt
  constructor
  · intro h
    refine ⟨fun i hi => ?_, fun i hi => ?_⟩
    · rw [h i (by rw [List.length_append]; omega), List.getElem_append_left hi]
    · have hright := h (xs.length + i) (by rw [List.length_append]; omega)
      rw [List.getElem_append_right (by omega), ← Nat.add_assoc] at hright
      simpa using hright
  · rintro ⟨hxs, hys⟩ i hi
    by_cases hlt : i < xs.length
    · rw [List.getElem_append_left hlt]
      exact hxs i hlt
    · rw [List.getElem_append_right (by omega)]
      have hright := hys (i - xs.length) (by rw [List.length_append] at hi; omega)
      rwa [show a + xs.length + (i - xs.length) = a + i by omega] at hright

theorem storedAt_singleton : StoredAt mem a [x] ↔ mem a = x := by
  constructor
  · exact fun h => h 0 Nat.one_pos
  · rintro rfl i hi
    have hzero : i = 0 := Nat.lt_one_iff.mp hi
    subst hzero
    rfl

theorem storedAt_cons : StoredAt mem a (x :: xs) ↔ mem a = x ∧ StoredAt mem (a + 1) xs := by
  rw [← List.singleton_append, storedAt_append, storedAt_singleton, List.length_singleton]

theorem StoredAt.congr (h : StoredAt mem a xs)
    (hsame : ∀ b, a ≤ b → b < a + xs.length → mem' b = mem b) : StoredAt mem' a xs :=
  fun i hi => (hsame (a + i) (by omega) (by omega)).trans (h i hi)

/-- The stored cells, read one after the other. -/
theorem StoredAt.map_range (h : StoredAt mem a xs) (hn : n ≤ xs.length) :
    ((List.range n).map fun i => mem (a + i)) = xs.take n := by
  refine List.ext_getElem (by simp [hn]) ?_
  intro i hi hi'
  rw [List.getElem_map, List.getElem_range, List.getElem_take]
  exact h i _

end Stored
