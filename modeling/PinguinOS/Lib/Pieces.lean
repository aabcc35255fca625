import Mathlib.Data.List.Basic
import Mathlib.Tactic.Common

/-! Streams that are sent in pieces, and receivers that take the pieces in order. -/
namespace Pieces

variable {α : Type*} {stream got piece : List α} {pieces : List (List α)} {pos n k M : Nat}

/-- Where a piece begins, when all of them together are the stream. -/
def position (pieces : List (List α)) (n : Nat) : Nat := (pieces.take n).flatten.length

/-- What a receiver has after a piece whose first `old` elements it has already, and of which it
takes `k` others at most. -/
def take (got piece : List α) (old k : Nat) : List α := got ++ (piece.drop old).take k

/-- A piece lies in the stream, between those before it and those behind it. -/
theorem drop_position (h : pieces[n]? = some piece) :
    pieces.flatten.drop (position pieces n) = piece ++ (pieces.drop (n + 1)).flatten := by
  have hlt : n < pieces.length := (List.getElem?_eq_some_iff.mp h).1
  have hpiece : pieces[n] = piece := (List.getElem?_eq_some_iff.mp h).2
  have hsplit : pieces = pieces.take n ++ piece :: pieces.drop (n + 1) := by
    rw [← hpiece, ← List.drop_eq_getElem_cons hlt, List.take_append_drop]
  have hflat : pieces.flatten =
      (pieces.take n).flatten ++ (piece ++ (pieces.drop (n + 1)).flatten) := by
    conv_lhs => rw [hsplit]
    rw [List.flatten_append, List.flatten_cons]
  unfold position
  rw [hflat, List.drop_left]

theorem prefix_drop_position (h : pieces[n]? = some piece) :
    piece <+: pieces.flatten.drop (position pieces n) := by
  rw [drop_position h]
  exact List.prefix_append _ _

theorem position_add_le (h : pieces[n]? = some piece) :
    position pieces n + piece.length ≤ pieces.flatten.length := by
  have hlength := congrArg List.length (drop_position h)
  have hlt : n < pieces.length := (List.getElem?_eq_some_iff.mp h).1
  have hle : position pieces n ≤ pieces.flatten.length := by
    unfold position
    conv_rhs => rw [← List.take_append_drop n pieces]
    rw [List.flatten_append, List.length_append]
    exact Nat.le_add_right _ _
  rw [List.length_drop, List.length_append] at hlength
  omega

/-- A later piece begins where an earlier one ends, or behind that. -/
theorem position_add_le_position {m : Nat} (h : pieces[n]? = some piece) (hlt : n < m) :
    position pieces n + piece.length ≤ position pieces m := by
  have htake : (pieces.take m)[n]? = some piece := by
    rw [List.getElem?_take_of_lt hlt]
    exact h
  have hle := position_add_le htake
  have hmin : position (pieces.take m) n = position pieces n := by
    unfold position
    rw [List.take_take, Nat.min_eq_left (Nat.le_of_lt hlt)]
  rwa [hmin] at hle

theorem position_le_append {more : List (List α)} :
    position pieces n ≤ position (pieces ++ more) n := by
  unfold position
  rw [List.take_append, List.flatten_append, List.length_append]
  exact Nat.le_add_right _ _

/-- A prefix that does not get behind the beginning of a piece lies in those before it. -/
theorem prefix_flatten_take (h : got <+: pieces.flatten) (hle : got.length ≤ position pieces n) :
    got <+: (pieces.take n).flatten := by
  refine List.prefix_of_prefix_length_le h ?_ hle
  conv_rhs => rw [← List.take_append_drop n pieces, List.flatten_append]
  exact List.prefix_append _ _

theorem append_prefix_iff (h : got <+: stream) :
    got ++ piece <+: stream ↔ piece <+: stream.drop got.length := by
  obtain ⟨rest, rfl⟩ := h
  rw [List.prefix_append_right_inj, List.drop_left]

/-- A receiver that drops what it has from the front of a piece stays within the stream. -/
theorem take_prefix (h : got <+: stream) (hpiece : piece <+: stream.drop pos)
    (hpos : pos ≤ got.length) : take got piece (got.length - pos) k <+: stream := by
  refine (append_prefix_iff h).mpr ((List.take_prefix k _).trans ?_)
  obtain ⟨rest, hrest⟩ := hpiece
  have hdrop : (stream.drop pos).drop (got.length - pos) = stream.drop got.length := by
    rw [List.drop_drop, Nat.add_sub_cancel' hpos]
  rw [← hdrop, ← hrest, List.drop_append]
  exact List.prefix_append _ _

/-- What a receiver takes, it takes from where it is. -/
theorem length_take_le (hpos : pos ≤ got.length) (hend : got.length ≤ pos + piece.length) :
    (take got piece (got.length - pos) k).length ≤ pos + piece.length := by
  unfold take
  rw [List.length_append, List.length_take, List.length_drop]
  omega

/-- A distance modulo `M` that is shorter than the piece is the distance itself, in a stream of
fewer than `M` elements. -/
theorem sub_eq_of_mod_lt (hgot : got.length ≤ stream.length)
    (hend : pos + piece.length ≤ stream.length) (hM : stream.length < M)
    (hold : (got.length + M - pos) % M < piece.length) :
    pos ≤ got.length ∧ (got.length + M - pos) % M = got.length - pos := by
  rcases Nat.lt_or_ge got.length pos with hlt | hge
  · have hmod : (got.length + M - pos) % M = got.length + M - pos := Nat.mod_eq_of_lt (by omega)
    omega
  · have hsplit : got.length + M - pos = got.length - pos + M := by omega
    have hmod : (got.length + M - pos) % M = got.length - pos := by
      rw [hsplit, Nat.add_mod_right, Nat.mod_eq_of_lt (by omega)]
    exact ⟨hge, hmod⟩

end Pieces
