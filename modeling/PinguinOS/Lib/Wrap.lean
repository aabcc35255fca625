import Mathlib.Data.List.Range
import Mathlib.Logic.Function.Basic
import Mathlib.Tactic.Common

/-! Text that is broken into lines: at every separator, and whenever a line is full. -/
namespace Wrap

variable {α : Type*} {w q i c : Nat} {l text last : List α} {init ls : List (List α)} {x y blank : α}

/-- Pieces of `w` elements and what is left; a full line is followed by an empty one. -/
def chunks (w : Nat) (l : List α) : List (List α) :=
  (List.range (l.length / w + 1)).map fun k => (l.drop (k * w)).take w

/-- The lines of a text. -/
def lines [BEq α] (w : Nat) (sep : α) (text : List α) : List (List α) :=
  (text.splitOn sep).flatMap (chunks w)

/-- The element of line `i` and column `c`. -/
def glyph (blank : α) (ls : List (List α)) (i c : Nat) : α := ((ls[i]?.getD [])[c]?).getD blank

theorem chunks_nil : chunks w ([] : List α) = [[]] := by
  unfold chunks
  rw [List.length_nil, Nat.zero_div, List.range_succ, List.range_zero, List.nil_append,
    List.map_singleton, List.drop_nil, List.take_nil]

/-- The full pieces. -/
def fullChunks (w : Nat) (l : List α) : List (List α) :=
  (List.range (l.length / w)).map fun k => (l.drop (k * w)).take w

/-- What is left behind them. -/
def rest (w : Nat) (l : List α) : List α := l.drop (l.length / w * w)

theorem rest_length : (rest w l).length = l.length % w := by
  unfold rest
  rw [List.length_drop, ← Nat.mod_eq_sub_div_mul]

theorem rest_length_lt (hw : 0 < w) : (rest w l).length < w := rest_length ▸ Nat.mod_lt _ hw

theorem chunks_eq (hw : 0 < w) : chunks w l = fullChunks w l ++ [rest w l] := by
  unfold chunks
  rw [List.range_succ, List.map_append, List.map_singleton]
  congr 2
  exact List.take_of_length_le (rest_length_lt hw).le

/-- The full pieces of a longer text begin with those of the text. -/
theorem fullChunks_append {l' : List α} : ((List.range (l.length / w)).map fun k =>
    ((l ++ l').drop (k * w)).take w) = fullChunks w l := by
  refine List.map_congr_left fun k hk => ?_
  have hend : (k + 1) * w ≤ l.length :=
    (Nat.mul_le_mul_right w (List.mem_range.mp hk)).trans (Nat.div_mul_le_self _ _)
  rw [Nat.succ_mul] at hend
  rw [List.drop_append_of_le_length (by omega), List.take_append_of_le_length]
  rw [List.length_drop]
  omega

/-- One more element goes into the last line, or fills it. -/
theorem chunks_snoc (hw : 0 < w) : chunks w (l ++ [x]) = fullChunks w l ++
    if (rest w l).length + 1 < w then [rest w l ++ [x]] else [rest w l ++ [x], []] := by
  have hsplit : l.length / w * w + l.length % w = l.length := Nat.div_add_mod' _ _
  have hlt : l.length % w < w := Nat.mod_lt _ hw
  have hdrop : (l ++ [x]).drop (l.length / w * w) = rest w l ++ [x] :=
    List.drop_append_of_le_length (by omega)
  rw [chunks_eq hw, rest_length]
  by_cases hfull : l.length % w + 1 < w
  · have hdiv : (l ++ [x]).length / w = l.length / w := by
      rw [List.length_append, List.length_singleton]
      refine Nat.div_eq_of_lt_le (by omega) ?_
      rw [Nat.succ_mul]
      omega
    rw [if_pos hfull]
    unfold fullChunks rest
    rw [hdiv, fullChunks_append, hdrop]
    rfl
  · have hdiv : (l ++ [x]).length / w = l.length / w + 1 := by
      rw [List.length_append, List.length_singleton]
      refine Nat.div_eq_of_lt_le ?_ ?_
      · rw [Nat.succ_mul]
        omega
      · rw [Nat.succ_mul, Nat.succ_mul]
        omega
    have hrest : rest w (l ++ [x]) = [] := by
      rw [List.eq_nil_iff_length_eq_zero, rest_length, List.length_append, List.length_singleton,
        ← hsplit, Nat.add_assoc, Nat.mul_add_mod_self_right]
      have hw' : l.length % w + 1 = w := by omega
      rw [hw', Nat.mod_self]
    have htake : ((l ++ [x]).drop (l.length / w * w)).take w = rest w l ++ [x] := by
      rw [hdrop, List.take_of_length_le]
      rw [List.length_append, rest_length, List.length_singleton]
      omega
    rw [if_neg hfull, hrest]
    unfold fullChunks
    rw [hdiv, List.range_succ, List.map_append, fullChunks_append, List.map_singleton, htake,
      List.append_assoc]
    rfl

section Lines

variable [BEq α] {sep : α}

theorem lines_nil : lines w sep ([] : List α) = [[]] := by
  unfold lines
  rw [List.splitOn_nil, List.flatMap_singleton, chunks_nil]

variable [LawfulBEq α]

/-- A separator starts a line. -/
theorem lines_sep : lines w sep (text ++ [sep]) = lines w sep text ++ [[]] := by
  unfold lines
  rw [List.splitOn_append_cons_self, List.splitOn_nil, List.flatMap_append, List.flatMap_singleton,
    chunks_nil]

/-- A text is one line at most, or it ends with one behind a separator. -/
theorem lines_split (sep : α) (text : List α) : ∃ ls l, sep ∉ l ∧
    ∀ more, sep ∉ more → lines w sep (text ++ more) = ls ++ chunks w (l ++ more) := by
  induction text using List.reverseRecOn with
  | nil =>
    refine ⟨[], [], List.not_mem_nil, ?_⟩
    intro more hmore
    unfold lines
    rw [List.nil_append, List.splitOn_eq_singleton hmore, List.flatMap_singleton]
    rfl
  | append_singleton text y ih =>
    obtain ⟨ls, l, hl, hlines⟩ := ih
    by_cases hy : y = sep
    · subst hy
      refine ⟨lines w y text, [], List.not_mem_nil, ?_⟩
      intro more hmore
      unfold lines
      rw [List.append_assoc, List.singleton_append, List.splitOn_append_cons_self,
        List.splitOn_eq_singleton hmore, List.flatMap_append, List.flatMap_singleton]
      rfl
    · refine ⟨ls, l ++ [y], ?_, ?_⟩
      · intro hmem
        rcases List.mem_append.mp hmem with hmem | hmem
        · exact hl hmem
        · exact hy (List.mem_singleton.mp hmem).symm
      · intro more hmore
        have hmem : sep ∉ [y] ++ more := by
          intro hmem
          rcases List.mem_append.mp hmem with hmem | hmem
          · exact hy (List.mem_singleton.mp hmem).symm
          · exact hmore hmem
        rw [List.append_assoc, hlines _ hmem, List.append_assoc]

/-- Any other element goes into the last line, or fills it. -/
theorem lines_other (hw : 0 < w) (hx : x ≠ sep) : ∃ init last, last.length < w ∧
    lines w sep text = init ++ [last] ∧
    lines w sep (text ++ [x]) =
      init ++ if last.length + 1 < w then [last ++ [x]] else [last ++ [x], []] := by
  obtain ⟨ls, l, -, hlines⟩ := lines_split (w := w) sep text
  have hmem : sep ∉ [x] := fun h => hx (List.mem_singleton.mp h).symm
  have hnil := hlines [] List.not_mem_nil
  rw [List.append_nil, List.append_nil, chunks_eq hw, ← List.append_assoc] at hnil
  refine ⟨ls ++ fullChunks w l, rest w l, rest_length_lt hw, hnil, ?_⟩
  rw [hlines _ hmem, chunks_snoc hw, List.append_assoc]

end Lines

/-- An empty line shows nothing. -/
theorem glyph_snoc_nil : glyph blank (ls ++ [[]]) = glyph blank ls := by
  funext i c
  unfold glyph
  rcases Nat.lt_trichotomy i ls.length with hlt | rfl | hlt
  · rw [List.getElem?_append_left hlt]
  · rw [List.getElem?_concat_length, List.getElem?_eq_none (Nat.le_refl _)]
    rfl
  · have hlen : (ls ++ [[]]).length ≤ i := by
      rw [List.length_append, List.length_singleton]
      omega
    rw [List.getElem?_eq_none hlen, List.getElem?_eq_none hlt.le]

/-- An element is shown behind the last line. -/
theorem glyph_snoc : glyph blank (init ++ [last ++ [x]]) =
    Function.update (glyph blank (init ++ [last])) init.length
      (Function.update (glyph blank (init ++ [last]) init.length) last.length x) := by
  funext i c
  by_cases hi : i = init.length
  · subst hi
    rw [Function.update_self]
    unfold glyph
    rw [List.getElem?_concat_length, List.getElem?_concat_length, Option.getD_some,
      Option.getD_some]
    by_cases hc : c = last.length
    · subst hc
      rw [Function.update_self, List.getElem?_concat_length, Option.getD_some]
    · rw [Function.update_of_ne hc]
      rcases Nat.lt_or_gt_of_ne hc with hlt | hlt
      · rw [List.getElem?_append_left hlt]
      · rw [List.getElem?_eq_none, List.getElem?_eq_none hlt.le]
        rw [List.length_append, List.length_singleton]
        omega
  · rw [Function.update_of_ne hi]
    unfold glyph
    rcases Nat.lt_or_gt_of_ne hi with hlt | hlt
    · rw [List.getElem?_append_left hlt, List.getElem?_append_left hlt]
    · have hlen : ∀ l : List α, (init ++ [l]).length ≤ i := by
        intro l
        rw [List.length_append, List.length_singleton]
        omega
      rw [List.getElem?_eq_none (hlen _), List.getElem?_eq_none (hlen _)]

end Wrap
