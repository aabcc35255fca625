import Mathlib.Data.List.Basic
import Mathlib.Logic.Function.Basic

/-! Stores to a memory one after the other, and copies from one cell to another. -/
namespace Copy

variable {α β : Type*} [DecidableEq α]

/-- Values are stored in their order. -/
def stores (m : α → β) (ws : List (α × β)) : α → β :=
  ws.foldl (fun m w => Function.update m w.1 w.2) m

/-- Cells are copied in their order, each as it is then: the target, and the source. -/
def copies (m : α → β) (ps : List (α × α)) : α → β :=
  ps.foldl (fun m p => Function.update m p.1 (m p.2)) m

variable {m : α → β} {ws ws' : List (α × β)} {ps ps' : List (α × α)} {w : α × β} {p : α × α}
  {a : α}

theorem stores_append : stores m (ws ++ ws') = stores (stores m ws) ws' := List.foldl_append

theorem copies_append : copies m (ps ++ ps') = copies (copies m ps) ps' := List.foldl_append

theorem stores_other (h : ∀ w ∈ ws, w.1 ≠ a) : stores m ws a = m a := by
  induction ws generalizing m with
  | nil => rfl
  | cons w ws ih =>
    have hrest := ih (m := Function.update m w.1 w.2) fun v hv => h v (List.mem_cons_of_mem w hv)
    exact hrest.trans (Function.update_of_ne (h w List.mem_cons_self).symm _ _)

/-- If no copy overwrites the source of a later one, the copies are stores of the first values. -/
theorem copies_eq_stores (h : ps.Pairwise fun p q => p.1 ≠ q.2) :
    copies m ps = stores m (ps.map fun p => (p.1, m p.2)) := by
  induction ps generalizing m with
  | nil => rfl
  | cons p ps ih =>
    obtain ⟨hfirst, hrest⟩ := List.pairwise_cons.mp h
    refine (ih (m := Function.update m p.1 (m p.2)) hrest).trans ?_
    refine congrArg (stores _) (List.map_congr_left fun q hq => Prod.ext rfl ?_)
    exact Function.update_of_ne (hfirst q hq).symm _ _

/-- A store to a cell that is not stored to again can be made last. -/
theorem stores_cons (h : ∀ v ∈ ws, v.1 ≠ w.1) :
    stores m (w :: ws) = Function.update (stores m ws) w.1 w.2 := by
  induction ws generalizing m with
  | nil => rfl
  | cons v ws ih =>
    have hne := h v List.mem_cons_self
    refine Eq.trans ?_ (ih (m := Function.update m v.1 v.2)
      fun u hu => h u (List.mem_cons_of_mem v hu))
    exact congrArg (stores · ws) (Function.update_comm hne.symm _ _ _)

/-- Stores to different cells can be made in the other order. -/
theorem stores_reverse (h : ws.Pairwise fun v w => v.1 ≠ w.1) :
    stores m ws.reverse = stores m ws := by
  induction ws with
  | nil => rfl
  | cons w ws ih =>
    obtain ⟨hfirst, hrest⟩ := List.pairwise_cons.mp h
    rw [List.reverse_cons, stores_append, ih hrest,
      stores_cons fun v hv => (hfirst v hv).symm]
    rfl

/-- Of stores to different cells each is found in its cell. -/
theorem stores_mem (h : ws.Pairwise fun v w => v.1 ≠ w.1) (hw : w ∈ ws) :
    stores m ws w.1 = w.2 := by
  induction ws generalizing m with
  | nil => exact absurd hw List.not_mem_nil
  | cons v ws ih =>
    obtain ⟨hfirst, hrest⟩ := List.pairwise_cons.mp h
    rcases List.mem_cons.mp hw with rfl | hw
    · have hsame := stores_other (m := Function.update m w.1 w.2)
        fun u hu => (hfirst u hu).symm
      exact hsame.trans (Function.update_self _ _ _)
    · exact ih (m := Function.update m v.1 v.2) hrest hw

end Copy
