import Mathlib.Data.List.TakeWhile

/-! Paths as lists with a separator, and the names between the separators. -/
namespace Path

variable {α : Type*} [DecidableEq α] {sep a : α} {l c : List α}

/-- The nonempty parts between the separators, in order. -/
def components (sep : α) (l : List α) : List (List α) := (l.splitOn sep).filter (· ≠ [])

/-- `l` lies below `m`, or is `m`, by whole components. -/
def Under (sep : α) (m l : List α) : Prop :=
  m <+: l ∧ (m = l ∨ l[m.length]? = some sep ∨ m = [sep])

instance (sep : α) (m l : List α) : Decidable (Under sep m l) :=
  inferInstanceAs (Decidable (_ ∧ _))

@[simp] theorem components_nil : components sep [] = [] := by
  simp [components]

theorem components_sep : components sep (sep :: l) = components sep l := by
  unfold components
  rw [List.splitOn_cons_eq_if_modifyHead, if_pos (by simp)]
  simp

theorem components_append_sep (hc : sep ∉ c) (hne : c ≠ []) :
    components sep (c ++ sep :: l) = c :: components sep l := by
  unfold components
  rw [List.splitOn_append_cons_self_of_not_mem hc, List.filter_cons_of_pos (by simpa using hne)]

theorem components_single (hc : sep ∉ c) (hne : c ≠ []) : components sep c = [c] := by
  unfold components
  rw [List.splitOn_eq_singleton hc, List.filter_cons_of_pos (by simpa using hne), List.filter_nil]

theorem components_dropWhile : components sep (l.dropWhile (· = sep)) = components sep l := by
  induction l with
  | nil => rfl
  | cons a l ih =>
    by_cases ha : a = sep
    · rw [List.dropWhile_cons_of_pos (by simpa using ha), ih, ha, components_sep]
    · rw [List.dropWhile_cons_of_neg (by simpa using ha)]

theorem sep_notMem_takeWhile : sep ∉ l.takeWhile (· ≠ sep) := by
  intro hmem
  simpa using List.mem_takeWhile_imp hmem

/-- The first name is what stands before the first separator. -/
theorem components_cons (ha : a ≠ sep) :
    components sep (a :: l) = (a :: l).takeWhile (· ≠ sep) ::
      components sep ((a :: l).dropWhile (· ≠ sep)) := by
  have hne : (a :: l).takeWhile (· ≠ sep) ≠ [] := by
    rw [List.takeWhile_cons_of_pos (by simpa using ha)]
    simp
  have hsplit : (a :: l).takeWhile (· ≠ sep) ++ (a :: l).dropWhile (· ≠ sep) = a :: l :=
    List.takeWhile_append_dropWhile
  have hhead := List.head?_dropWhile_not (· ≠ sep) (a :: l)
  refine (congrArg (components sep) hsplit.symm).trans ?_
  cases hrest : (a :: l).dropWhile (· ≠ sep) with
  | nil => rw [List.append_nil, components_nil, components_single sep_notMem_takeWhile hne]
  | cons b rest =>
    have hb : b = sep := by
      rw [hrest] at hhead
      simpa using hhead
    rw [hb, components_append_sep sep_notMem_takeWhile hne, components_sep]

theorem sep_notMem_splitOn (hc : c ∈ l.splitOn sep) : sep ∉ c := by
  induction l generalizing c with
  | nil =>
    rw [List.splitOn_nil, List.mem_singleton] at hc
    simp [hc]
  | cons a l ih =>
    rw [List.splitOn_cons_eq_if_modifyHead] at hc
    split at hc
    case isTrue ha =>
      rcases List.mem_cons.mp hc with rfl | hc
      · simp
      · exact ih hc
    case isFalse ha =>
      cases hl : l.splitOn sep with
      | nil => simp [hl] at hc
      | cons d ds =>
        rw [hl, List.modifyHead_cons] at hc
        rcases List.mem_cons.mp hc with rfl | hc
        · have hd : sep ∉ d := ih (hl ▸ List.mem_cons_self)
          simp only [beq_iff_eq] at ha
          simp [hd, Ne.symm ha]
        · exact ih (hl ▸ List.mem_cons_of_mem d hc)

/-- No name is empty or holds a separator. -/
theorem mem_components (hc : c ∈ components sep l) : c ≠ [] ∧ sep ∉ c := by
  obtain ⟨hc, hne⟩ := List.mem_filter.mp hc
  exact ⟨by simpa using hne, sep_notMem_splitOn hc⟩

/-- One name after a separator. -/
theorem components_sep_eq_single : components sep (sep :: c) = [c] ↔ c ≠ [] ∧ sep ∉ c := by
  constructor
  · intro h
    exact mem_components (h ▸ List.mem_cons_self)
  · rintro ⟨hne, hc⟩
    rw [components_sep, components_single hc hne]

end Path
