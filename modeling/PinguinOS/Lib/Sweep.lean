import Mathlib.Data.List.Basic
import Mathlib.Data.List.Range
import Mathlib.Tactic.Common
import Mathlib.Data.List.Sort
import Mathlib.Data.Fintype.Basic

/-! Loops that visit every entry of a table once, each visit rewriting only its own entry. -/

/-- `visit` rewrites entry `i` by `upd` and leaves the other entries alone, as long as `K`
(the part of the state the visits read but never write) holds. -/
structure Sweep {σ ι β : Type*} (K : σ → Prop) (view : σ → ι → β) (visit : σ → ι → σ)
    (upd : β → β) : Prop where
  keep : ∀ s i, K s → K (visit s i)
  own : ∀ s i, K s → view (visit s i) i = upd (view s i)
  other : ∀ s i j, j ≠ i → view (visit s i) j = view s j

namespace Sweep

variable {σ ι β : Type*} {K : σ → Prop} {view : σ → ι → β} {visit : σ → ι → σ} {upd : β → β}
  {s : σ} {j : ι} {l : List ι}

theorem foldl_keep (h : Sweep K view visit upd) (hs : K s) : K (l.foldl visit s) := by
  induction l generalizing s with
  | nil => exact hs
  | cons i l ih => exact ih (h.keep s i hs)

theorem foldl_of_notMem (h : Sweep K view visit upd) (hj : j ∉ l) :
    view (l.foldl visit s) j = view s j := by
  induction l generalizing s with
  | nil => rfl
  | cons i l ih =>
    have hji : j ≠ i := fun h => hj (h ▸ List.mem_cons_self)
    have hjl : j ∉ l := fun h => hj (List.mem_cons_of_mem i h)
    rw [List.foldl_cons, ih hjl, h.other s i j hji]

theorem foldl_of_mem (h : Sweep K view visit upd) (hs : K s) (hl : l.Nodup) (hj : j ∈ l) :
    view (l.foldl visit s) j = upd (view s j) := by
  induction l generalizing s with
  | nil => simp at hj
  | cons i l ih =>
    obtain ⟨hil, hl⟩ := List.nodup_cons.mp hl
    rw [List.foldl_cons]
    by_cases hji : j = i
    · subst hji
      rw [h.foldl_of_notMem hil, h.own s j hs]
    · have hjl : j ∈ l := (List.mem_cons.mp hj).resolve_left hji
      rw [ih (h.keep s i hs) hl hjl, h.other s i j hji]

/-- A one-bit register that every visit may write, as a function of the entry it visits. -/
theorem foldl_register (h : Sweep K view visit upd) (read : σ → Bool) {w : β → Option Bool}
    (hw : ∀ s i, K s → read (visit s i) = (w (view s i)).getD (read s))
    (hs : K s) (hl : l.Nodup) :
    read (l.foldl visit s) = l.foldl (fun b i => (w (view s i)).getD b) (read s) := by
  induction l generalizing s with
  | nil => rfl
  | cons i l ih =>
    obtain ⟨hil, hl⟩ := List.nodup_cons.mp hl
    rw [List.foldl_cons, List.foldl_cons, ih (h.keep s i hs) hl, hw s i hs]
    -- The entries still to be visited are the original ones.
    have hrest : ∀ k ∈ l, view (visit s i) k = view s k := by
      intro k hk
      apply h.other
      intro hki
      exact hil (hki ▸ hk)
    exact List.foldl_ext _ _ _ (fun b k hk => by rw [hrest k hk])

end Sweep

/-- Writes in increasing order: the register ends up set exactly when some write sets it and
no later one clears it, or it was set before and nothing clears it. -/
theorem foldl_lastWrite {ι : Type*} [LinearOrder ι] {w : ι → Option Bool} {b : Bool}
    {l : List ι} (hl : l.Pairwise (· < ·)) :
    l.foldl (fun b i => (w i).getD b) b = true ↔
      (∃ i ∈ l, w i = some true ∧ ∀ j ∈ l, i < j → w j ≠ some false) ∨
        (b = true ∧ ∀ j ∈ l, w j ≠ some false) := by
  induction l using List.reverseRecOn with
  | nil => simp
  | append_singleton l k ih =>
    obtain ⟨hl', -, hlast⟩ := List.pairwise_append.mp hl
    have hlt : ∀ i ∈ l, i < k := fun i hi => hlast i hi k (by simp)
    rw [List.foldl_append, List.foldl_cons, List.foldl_nil]
    rcases hk : w k with _ | _ | _
    · rw [Option.getD_none, ih hl']
      simp only [List.mem_append, List.mem_singleton, or_and_right, exists_or,
        exists_eq_left, hk, reduceCtorEq, false_and, or_false, or_imp, forall_and, forall_eq,
        ne_eq, not_false_eq_true, and_true, implies_true]
    · have hbad : ∀ i ∈ l, ¬ ∀ j ∈ l ++ [k], i < j → w j ≠ some false := by
        intro i hi h
        exact h k (by simp) (hlt i hi) hk
      constructor
      · simp
      · rintro (⟨i, hi, hw, hafter⟩ | ⟨-, hnone⟩)
        · rcases List.mem_append.mp hi with hi | hi
          · exact absurd hafter (hbad i hi)
          · simp [List.mem_singleton.mp hi, hk] at hw
        · exact absurd hk (hnone k (by simp))
    · simp only [Option.getD_some, true_iff]
      refine Or.inl ⟨k, by simp, hk, ?_⟩
      intro j hj hkj
      rcases List.mem_append.mp hj with hj | hj
      · exact absurd (hlt j hj) (not_lt.mpr hkj.le)
      · exact absurd (List.mem_singleton.mp hj ▸ hkj) (lt_irrefl k)

/-! Loops that fill a table until it is full. -/
namespace Capped

variable {α β σ : Type*} {n : Nat} {l : List α} {xs : List α} {x : α}

/-- `x` is appended if there is room. -/
def push (n : Nat) (l : List α) (x : α) : List α := if l.length ≥ n then l else l ++ [x]

theorem push_take : push n (l.take n) x = (l ++ [x]).take n := by
  unfold push
  rw [List.length_take]
  split
  case isTrue hfull => rw [List.take_append_of_le_length (by omega)]
  case isFalse hroom =>
    have hlen : l.length < n := by omega
    rw [List.take_of_length_le hlen.le, List.take_of_length_le]
    rw [List.length_append, List.length_singleton]
    exact hlen

/-- A loop that pushes keeps the first `n`. -/
theorem foldl_push : xs.foldl (push n) (l.take n) = (l ++ xs).take n := by
  induction xs generalizing l with
  | nil => rw [List.append_nil, List.foldl_nil]
  | cons x xs ih => rw [List.foldl_cons, push_take, ih, List.append_assoc, List.singleton_append]

/-- A loop whose body is the loop over the items of `f`. -/
theorem foldl_body {f : α → List β} {body : σ → α → σ} {step : σ → β → σ} (xs : List α) (s : σ)
    (h : ∀ s, ∀ x ∈ xs, body s x = (f x).foldl step s) :
    xs.foldl body s = (xs.flatMap f).foldl step s := by
  induction xs generalizing s with
  | nil => rfl
  | cons x xs ih =>
    rw [List.foldl_cons, List.flatMap_cons, List.foldl_append, h s x List.mem_cons_self]
    exact ih _ fun s y hy => h s y (List.mem_cons_of_mem x hy)

end Capped
