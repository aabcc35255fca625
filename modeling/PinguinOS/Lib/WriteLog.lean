import Mathlib.Data.List.Basic

/-! What a storage should hold after a history of writes, newest first. -/
namespace WriteLog

variable {α : Type*}

/-- Writes: where each starts, and what it writes. -/
abbrev Log (α : Type*) := List (Nat × List α)

/-- What was last written at `i`, and `zero` where nothing was. -/
def content (zero : α) : Log α → Nat → α
  | [], _ => zero
  | (start, data) :: older, i =>
    if start ≤ i ∧ i < start + data.length then data.getD (i - start) zero
    else content zero older i

/-- The largest end of a write. -/
def size (log : Log α) : Nat := log.foldr (fun w n => max n (w.1 + w.2.length)) 0

/-- A write to a memory. -/
def store (zero : α) (m : Nat → α) (start : Nat) (data : List α) : Nat → α := fun i =>
  if start ≤ i ∧ i < start + data.length then data.getD (i - start) zero else m i

/-- The memory holds what was written, up to the largest end. -/
def Holds (zero : α) (m : Nat → α) (log : Log α) : Prop :=
  ∀ i < size log, m i = content zero log i

variable {zero : α} {m m' : Nat → α} {log : Log α} {start base i : Nat} {data : List α}

@[simp] theorem size_nil : size ([] : Log α) = 0 := rfl

@[simp] theorem size_cons : size ((start, data) :: log) = max (size log) (start + data.length) := rfl

theorem holds_nil : Holds zero m [] := fun _ hi => absurd hi (Nat.not_lt_zero _)

theorem Holds.congr (h : Holds zero m log) (hsame : ∀ i < size log, m' i = m i) :
    Holds zero m' log := fun i hi => (hsame i hi).trans (h i hi)

/-- Nothing was written at or after the largest end. -/
theorem content_beyond (h : size log ≤ i) : content zero log i = zero := by
  induction log with
  | nil => rfl
  | cons w older ih =>
    obtain ⟨start, data⟩ := w
    rw [size_cons] at h
    unfold content
    rw [if_neg (by omega)]
    exact ih (by omega)

theorem store_outside (h : i < start ∨ start + data.length ≤ i) :
    store zero m start data i = m i := by
  unfold store
  rw [if_neg (by omega)]

/-- A write into a part of the memory, as the part sees it. -/
theorem store_at : store zero m (base + start) data (base + i) =
    store zero (fun j => m (base + j)) start data i := by
  unfold store
  by_cases h : start ≤ i ∧ i < start + data.length
  · rw [if_pos h, if_pos (by omega), Nat.add_sub_add_left]
  · rw [if_neg h, if_neg (by omega)]

/-- One more write: the memory holds all of them exactly when the part between the largest end so
far and the start of the write is zero. -/
theorem holds_store_iff (h : Holds zero m log) :
    Holds zero (store zero m start data) ((start, data) :: log) ↔
      ∀ i, size log ≤ i → i < start → m i = zero := by
  constructor
  · intro hall i hlo hhi
    have hin : i < size ((start, data) :: log) := by
      rw [size_cons]
      omega
    have hat := hall i hin
    rw [store_outside (Or.inl hhi)] at hat
    rw [hat]
    unfold content
    rw [if_neg (by omega)]
    exact content_beyond hlo
  · intro hgap i hi
    unfold store content
    by_cases hin : start ≤ i ∧ i < start + data.length
    · rw [if_pos hin, if_pos hin]
    · rw [if_neg hin, if_neg hin]
      by_cases hold : i < size log
      · exact h i hold
      · have hlo : size log ≤ i := Nat.not_lt.mp hold
        rw [size_cons] at hi
        rw [content_beyond hlo]
        exact hgap i hlo (by omega)

end WriteLog
