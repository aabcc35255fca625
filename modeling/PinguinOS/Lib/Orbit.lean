import Mathlib.Data.Finset.Basic
import Mathlib.Data.Fintype.Pigeonhole

/-! The states a partial function goes through, and when it comes to an end. -/
namespace Orbit

variable {α : Type*}

/-- The state after `k` steps, if there are so many. -/
def after (f : α → Option α) (a : α) : Nat → Option α
  | 0 => some a
  | k + 1 => (f a).bind fun b => after f b k

def Ends (f : α → Option α) (a : α) : Prop := ∃ k, after f a k = none

/-- No state comes again. -/
def Simple (f : α → Option α) (a : α) : Prop :=
  ∀ i j s, after f a i = some s → after f a j = some s → i = j

/-- Every state that is met has the property. -/
def Always (f : α → Option α) (P : α → Prop) (a : α) : Prop :=
  ∀ k s, after f a k = some s → P s

variable {f : α → Option α} {a b s : α} {i j k : Nat} {P : α → Prop}

theorem after_succ_of_step (h : f a = some b) : after f a (k + 1) = after f b k := by
  rw [after, h, Option.bind_some]

theorem after_add (h : after f a i = some b) : after f a (i + k) = after f b k := by
  induction i generalizing a with
  | zero =>
    cases h
    rw [Nat.zero_add]
  | succ i ih =>
    obtain ⟨c, hc, hrest⟩ := Option.bind_eq_some_iff.mp h
    rw [Nat.succ_add, after_succ_of_step hc]
    exact ih hrest

theorem after_split (h : after f a (i + k) = some s) :
    ∃ b, after f a i = some b ∧ after f b k = some s := by
  induction i generalizing a with
  | zero => exact ⟨a, rfl, by rwa [Nat.zero_add] at h⟩
  | succ i ih =>
    rw [Nat.succ_add] at h
    obtain ⟨c, hc, hrest⟩ := Option.bind_eq_some_iff.mp h
    rw [after_succ_of_step hc]
    exact ih hrest

theorem ends_of_stop (h : f a = none) : Ends f a := ⟨1, by rw [after, h, Option.bind_none]⟩

theorem simple_of_stop (h : f a = none) : Simple f a := by
  have hfirst : ∀ k s, after f a k = some s → k = 0 := by
    rintro (_ | k) s hs
    · rfl
    · rw [after, h] at hs
      cases hs
  intro i j s hi hj
  rw [hfirst i s hi, hfirst j s hj]

theorem ends_iff_of_step (h : f a = some b) : Ends f a ↔ Ends f b := by
  constructor
  · rintro ⟨_ | k, hk⟩
    · cases hk
    · exact ⟨k, (after_succ_of_step h).symm.trans hk⟩
  · rintro ⟨k, hk⟩
    exact ⟨k + 1, (after_succ_of_step h).trans hk⟩

theorem always_of_stop (h : f a = none) (ha : P a) : Always f P a := by
  rintro (_ | k) s hs
  · cases hs
    exact ha
  · rw [after, h] at hs
    cases hs

theorem always_iff_of_step (h : f a = some b) : Always f P a ↔ P a ∧ Always f P b := by
  constructor
  · intro hall
    exact ⟨hall 0 a rfl, fun k s hs => hall (k + 1) s ((after_succ_of_step h).trans hs)⟩
  · rintro ⟨ha, hb⟩ (_ | k) s hs
    · cases hs
      exact ha
    · exact hb k s ((after_succ_of_step h).symm.trans hs)

/-- Nothing follows a state that does not exist. -/
theorem after_none {n : Nat} (h : after f a k = none) (hle : k ≤ n) : after f a n = none := by
  induction k generalizing a n with
  | zero => cases h
  | succ k ih =>
    obtain ⟨d, rfl⟩ := Nat.exists_eq_add_of_le' hle
    cases hstep : f a with
    | none => rw [← Nat.add_assoc, after, hstep, Option.bind_none]
    | some b =>
      rw [after_succ_of_step hstep] at h
      rw [← Nat.add_assoc, after_succ_of_step hstep]
      exact ih h (by omega)

/-- A state that comes again comes again forever. -/
theorem not_ends_of_recurs (hij : i < j) (hi : after f a i = some s) (hj : after f a j = some s) :
    ¬ Ends f a := by
  rintro ⟨k, hk⟩
  induction k using Nat.strong_induction_on with
  | h k ih =>
    have hge : j ≤ k := by
      by_contra hlt
      rw [after_none hk (by omega)] at hj
      cases hj
    obtain ⟨d, rfl⟩ := Nat.exists_eq_add_of_le hge
    refine ih (i + d) (by omega) ?_
    rw [after_add hi, ← after_add hj]
    exact hk

/-- Among finitely many states, to end is never to meet one twice. -/
theorem ends_iff_simple (S : Finset α)
    (hS : ∀ k s, after f a k = some s → (f s).isSome → s ∈ S) : Ends f a ↔ Simple f a := by
  constructor
  · intro hends i j s hi hj
    rcases Nat.lt_trichotomy i j with hlt | heq | hgt
    · exact absurd hends (not_ends_of_recurs hlt hi hj)
    · exact heq
    · exact absurd hends (not_ends_of_recurs hgt hj hi)
  · intro hsimple
    by_contra hnever
    have hmet : ∀ k, ∃ s, after f a k = some s ∧ s ∈ S := by
      intro k
      obtain ⟨s, hs⟩ := Option.ne_none_iff_exists'.mp fun hnone => hnever ⟨k, hnone⟩
      refine ⟨s, hs, hS k s hs ?_⟩
      rw [Option.isSome_iff_ne_none]
      intro hstop
      refine hnever ⟨k + 1, ?_⟩
      rw [after_add hs, after, hstop, Option.bind_none]
    choose state hstate hmem using hmet
    obtain ⟨i, j, hne, heq⟩ :=
      Finite.exists_ne_map_eq_of_infinite fun k => (⟨state k, hmem k⟩ : {s // s ∈ S})
    have hsame : state i = state j := congrArg Subtype.val heq
    exact hne (hsimple i j (state i) (hstate i) (hsame ▸ hstate j))

end Orbit
