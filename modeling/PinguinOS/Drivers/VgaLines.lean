import PinguinOS.Klib.PrintfPrefix
import PinguinOS.Lib.Run
import PinguinOS.Drivers.VgaPage

/-! What a text looks like on the screen: the last 25 of its lines. -/
namespace PinguinOS.Drivers

/-- The lines that a text fills. -/
def vgaLines (text : List (BitVec 8)) : List (List (BitVec 8)) :=
  Wrap.lines vgaWidth charNewline text

/-- The colours after `vga_init`. -/
def initAttr : BitVec 8 := vgaMakeAttr vgaLightGrey vgaBlack

/-- Neither the end of a string nor one of the characters that move the cursor back or to a tab;
newlines are plain. -/
def Plain (c : BitVec 8) : Prop :=
  c ≠ 0 ∧ c ≠ charReturn ∧ c ≠ charTab ∧ c ≠ charBackspace

instance {c : BitVec 8} : Decidable (Plain c) := inferInstanceAs (Decidable (_ ∧ _))

/-- The page has the lines of the text and nothing else. -/
structure Written (text : List (BitVec 8)) (p : Page) : Prop where
  row : p.row + 1 = (vgaLines text).length
  col : ∀ init last, vgaLines text = init ++ [last] → p.col = last.length
  top : p.top = (vgaLines text).length - vgaHeight
  attr : p.attr = initAttr
  cell : ∀ i c, p.cell i c = vgaMakeEntry (Wrap.glyph charSpace (vgaLines text) i c) initAttr

variable {text str : List (BitVec 8)} {p : Page} {c : BitVec 8}

theorem written_blank : Written [] (.blank initAttr) where
  row := by
    unfold vgaLines
    rw [Wrap.lines_nil]
    rfl
  col := by
    intro init last heq
    unfold vgaLines at heq
    rw [Wrap.lines_nil] at heq
    have hlast := List.append_inj' ((List.nil_append _).trans heq) rfl
    rw [← List.singleton_inj.mp hlast.2]
    rfl
  top := by
    unfold vgaLines
    rw [Wrap.lines_nil]
    rfl
  attr := rfl
  cell := by
    intro i c
    have hglyph : Wrap.glyph charSpace (vgaLines []) i c = charSpace := by
      unfold vgaLines
      rw [Wrap.lines_nil]
      cases i with
      | zero => rfl
      | succ i => rfl
    rw [hglyph]
    exact ite_self _

/-- A newline, and the window that follows it. -/
theorem Written.newline (h : Written text p) :
    Written (text ++ [charNewline]) (p.putchar charNewline) := by
  have hlines : vgaLines (text ++ [charNewline]) = vgaLines text ++ [[]] := Wrap.lines_sep
  have hlen : (vgaLines text ++ [[]]).length = (vgaLines text).length + 1 := by
    rw [List.length_append, List.length_singleton]
  have hrow := h.row
  have htop := h.top
  refine { row := ?_, col := ?_, top := ?_, attr := h.attr, cell := ?_ }
  · rw [hlines, hlen, ← h.row]
    rfl
  · intro init last heq
    rw [hlines] at heq
    have hlast := List.singleton_inj.mp (List.append_inj' heq rfl).2
    rw [← hlast]
    rfl
  · rw [hlines, hlen]
    change max p.top (p.row + 1 + 1 - vgaHeight) = _
    omega
  · intro i k
    rw [hlines, Wrap.glyph_snoc_nil]
    exact h.cell i k

/-- A character that moves the cursor on by one. -/
theorem Written.char (h : Written text p) (hc : Plain c) (hnl : c ≠ charNewline) :
    Written (text ++ [c]) (p.putchar c) := by
  obtain ⟨init, last, hlast, hold, hnew⟩ : ∃ init last, last.length < vgaWidth ∧
      vgaLines text = init ++ [last] ∧ vgaLines (text ++ [c]) =
        init ++ if last.length + 1 < vgaWidth then [last ++ [c]] else [last ++ [c], []] :=
    Wrap.lines_other (by decide) hnl
  have hcol := h.col init last hold
  have hrow := h.row
  have htop := h.top
  have hlen : (vgaLines text).length = init.length + 1 := by
    rw [hold, List.length_append, List.length_singleton]
  have htype : p.putchar c = ((p.put c).goto (last.length + 1)).follow := by
    unfold Page.putchar Page.type
    rw [if_neg hnl, if_neg hc.2.1, if_neg hc.2.2.1, if_neg hc.2.2.2, hcol]
  have hput : ∀ i k, (p.put c).cell i k =
      vgaMakeEntry (Wrap.glyph charSpace (init ++ [last ++ [c]]) i k) initAttr := by
    have hrow' : p.row = init.length := by omega
    intro i k
    rw [Wrap.glyph_snoc]
    change Function.update p.cell p.row _ i k = _
    rw [hrow', hcol, h.attr]
    by_cases hi : i = init.length
    · subst hi
      rw [Function.update_self, Function.update_self]
      by_cases hk : k = last.length
      · rw [hk, Function.update_self, Function.update_self]
      · rw [Function.update_of_ne hk, Function.update_of_ne hk, h.cell, hold]
    · rw [Function.update_of_ne hi, Function.update_of_ne hi, h.cell, hold]
  rw [htype]
  unfold Page.goto
  by_cases hfull : last.length + 1 < vgaWidth
  · have hlines : vgaLines (text ++ [c]) = init ++ [last ++ [c]] := by
      rw [hnew, if_pos hfull]
    have hlen' : (init ++ [last ++ [c]]).length = init.length + 1 := by
      rw [List.length_append, List.length_singleton]
    rw [if_pos hfull]
    refine { row := ?_, col := ?_, top := ?_, attr := h.attr, cell := ?_ }
    · rw [hlines, hlen', ← hlen]
      exact h.row
    · intro init' last' heq
      rw [hlines] at heq
      have hlast' := List.singleton_inj.mp (List.append_inj' heq rfl).2
      rw [← hlast', List.length_append]
      rfl
    · rw [hlines, hlen']
      change max p.top (p.row + 1 - vgaHeight) = _
      omega
    · intro i k
      rw [hlines]
      exact hput i k
  · have hlines : vgaLines (text ++ [c]) = (init ++ [last ++ [c]]) ++ [[]] := by
      rw [hnew, if_neg hfull, List.append_assoc]
      rfl
    have hlen' : ((init ++ [last ++ [c]]) ++ [[]]).length = init.length + 1 + 1 := by
      rw [List.length_append, List.length_append, List.length_singleton, List.length_singleton]
    rw [if_neg hfull]
    refine { row := ?_, col := ?_, top := ?_, attr := h.attr, cell := ?_ }
    · rw [hlines, hlen', ← hlen]
      exact congrArg (· + 1) h.row
    · intro init' last' heq
      rw [hlines] at heq
      have hlast' := List.singleton_inj.mp (List.append_inj' heq rfl).2
      rw [← hlast']
      rfl
    · rw [hlines, hlen']
      change max p.top (p.row + 1 + 1 - vgaHeight) = _
      omega
    · intro i k
      rw [hlines, Wrap.glyph_snoc_nil]
      exact hput i k

theorem Written.putchar (h : Written text p) (hc : Plain c) :
    Written (text ++ [c]) (p.putchar c) := by
  by_cases hnl : c = charNewline
  · subst hnl
    exact h.newline
  · exact h.char hc hnl

theorem Written.puts (h : Written text p) (hstr : ∀ c ∈ str, Plain c) :
    Written (text ++ str) (p.puts (str ++ [0])) := by
  induction str generalizing text p with
  | nil =>
    rw [List.append_nil]
    exact h
  | cons c str ih =>
    have hc := hstr c List.mem_cons_self
    have hrest : ∀ d ∈ str, Plain d := fun d hd => hstr d (List.mem_cons_of_mem c hd)
    have hnext := ih (h.putchar hc) hrest
    rw [List.append_assoc, List.singleton_append] at hnext
    change Written _ (if c = 0 then p else (p.putchar c).puts (str ++ [0]))
    rw [if_neg hc.1]
    exact hnext

/-- The screen shows the last 25 of the lines of a text, and the cursor stands behind the last
one. -/
structure ShowsLines (t : VgaText) (text : List (BitVec 8)) : Prop where
  cell : ∀ r < vgaHeight, ∀ c < vgaWidth, t.vmem (r * vgaWidth + c) = vgaMakeEntry
    (Wrap.glyph charSpace (vgaLines text) ((vgaLines text).length - vgaHeight + r) c) initAttr
  row : t.curRow.toNat + 1 = min (vgaLines text).length vgaHeight
  col : ∃ init last, vgaLines text = init ++ [last] ∧ t.curCol.toNat = last.length ∧
    last.length < vgaWidth

theorem Written.showsLines {base : Nat → BitVec 16} {t : VgaText} (h : Written text p)
    (hshows : Shows base t p) : ShowsLines t text where
  cell := by
    intro r hr c hc
    have hcell := hshows.cell r hr c hc
    rw [h.cell, h.top] at hcell
    exact hcell
  row := by
    have hrow := hshows.row
    have hrow_lt := hshows.row_lt
    have hprow := h.row
    have htop := h.top
    omega
  col := by
    have hne : vgaLines text ≠ [] := by
      intro hnil
      have hprow := h.row
      rw [hnil] at hprow
      exact Nat.succ_ne_zero _ hprow
    have hlast := (List.dropLast_append_getLast hne).symm
    have hcol := h.col _ _ hlast
    refine ⟨_, _, hlast, hshows.col.trans hcol, ?_⟩
    rw [← hcol]
    exact hshows.col_lt

end PinguinOS.Drivers

/-! `vga_printf`: the text is formatted into a buffer of 512 bytes and printed from there. -/
namespace PinguinOS.Drivers

open Klib

/-- `buf` is what is on the stack; `none`: the format is read behind its NUL. -/
def vgaPrintf (s : VgaText) (buf : Nat → BitVec 8) (fmt : List (BitVec 8)) (args : Args) :
    Option VgaText :=
  (vsnprintf 512 fmt args).map fun (p, _) =>
    vgaPuts s ((List.range 512).map fun i => (p.out.buf i).getD (buf i))

variable {s : VgaText} {args : Args} {es : List Element} {o : Output}

/-- Nothing behind the end of a string is printed. -/
theorem vgaPuts_terminated (str rest : List (BitVec 8)) :
    vgaPuts s (str ++ 0 :: rest) = vgaPuts s (str ++ [0]) := by
  induction str generalizing s with
  | nil => rfl
  | cons c str ih =>
    change (if c = 0 then s else vgaPuts (vgaPutchar s c) (str ++ 0 :: rest)) =
      if c = 0 then s else vgaPuts (vgaPutchar s c) (str ++ [0])
    rw [ih]

/-- The buffer begins with what the output holds, and its NUL. -/
theorem buffer_eq {n : Nat} (buf : Nat → BitVec 8) {text : List (BitVec 8)}
    (h : HoldsPrefix (n + 1) o text) : ∃ rest,
    ((List.range (n + 1)).map fun i => (o.buf i).getD (buf i)) = text.take n ++ 0 :: rest := by
  obtain ⟨hchars, hend⟩ := h
  rw [Nat.add_sub_cancel] at hchars hend
  have hsplit : ∀ (f : Nat → BitVec 8) (k m : Nat), (List.range (k + 1 + m)).map f =
      (List.range k).map f ++ f k :: (List.range m).map fun i => f (k + 1 + i) := by
    intro f k m
    rw [List.range_add, List.range_succ, List.map_append, List.map_append, List.map_map,
      List.append_assoc]
    rfl
  have hlen : n + 1 = min text.length n + 1 + (n - min text.length n) := by omega
  have htext : ((List.range (min text.length n)).map fun i => (o.buf i).getD (buf i)) =
      text.take n := by
    apply List.ext_getElem?
    intro i
    rw [List.getElem?_map, List.getElem?_take]
    by_cases hi : i < min text.length n
    · have hget : text[i]? = some text[i] := List.getElem?_eq_getElem (by omega)
      rw [List.getElem?_range hi, if_pos (by omega), Option.map_some, hchars i hi, hget]
      rfl
    · rw [List.getElem?_eq_none (by rw [List.length_range]; omega), Option.map_none]
      by_cases hn : i < n
      · rw [if_pos hn, List.getElem?_eq_none (by omega)]
      · rw [if_neg hn]
  rw [hlen, hsplit, htext, hend]
  exact ⟨_, rfl⟩

/-- Whatever is on the stack, the first 511 characters of the text are printed. -/
theorem vgaPrintf_eq (buf : Nat → BitVec 8) (hwidth : ∀ e ∈ es, e.width < 2 ^ 31)
    (hlen : (contents args es 0).length < 2 ^ 31) :
    vgaPrintf s buf (spell es) args =
      some (vgaPuts s ((contents args es 0).take 511 ++ [0])) := by
  have hrun := @vsnprintf_eq 512 args _ _ (@pieces_spell es)
  have htext := text_pieces hwidth hlen
  have hsize : (512 : BitVec 32).toNat = 511 + 1 := rfl
  have hholds : HoldsPrefix (512 : BitVec 32).toNat
      (terminate 512 (printed 512 args (es.map Element.piece) ⟨⟨0, []⟩, 0, []⟩)).out
      (contents args es 0) :=
    holdsPrefix_terminate (by decide) (hlen.trans (by decide)) (congrArg (emits 512 ⟨0, []⟩) htext)
  rw [hsize] at hholds
  obtain ⟨rest, hrest⟩ := buffer_eq buf hholds
  unfold vgaPrintf
  rw [hrun, Option.map_some]
  dsimp only
  rw [hrest, vgaPuts_terminated]

/-- A call that prints. -/
inductive Print
  | puts (text : List (BitVec 8))
  | printf (buf : Nat → BitVec 8) (es : List Element) (args : Args)

def Print.run (s : VgaText) : Print → Option VgaText
  | .puts text => some (vgaPuts s (text ++ [0]))
  | .printf buf es args => vgaPrintf s buf (spell es) args

/-- The characters that are printed. -/
def Print.output : Print → List (BitVec 8)
  | .puts text => text
  | .printf _ es args => (contents args es 0).take 511

/-- The widths and the length of a text are numbers of the code. -/
def Print.Fits : Print → Prop
  | .puts _ => True
  | .printf _ es args => (∀ e ∈ es, e.width < 2 ^ 31) ∧ (contents args es 0).length < 2 ^ 31

theorem Print.run_eq {p : Print} (h : p.Fits) : p.run s = some (vgaPuts s (p.output ++ [0])) := by
  cases p with
  | puts text => rfl
  | printf buf es args => exact vgaPrintf_eq buf h.1 h.2

/-- Before any call. -/
def powerOnText : VgaText := ⟨fun _ => 0, 0, 0, 0, ⟨0, fun _ => 0⟩⟩

end PinguinOS.Drivers
