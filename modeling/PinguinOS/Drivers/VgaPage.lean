import PinguinOS.Lib.Wrap
import Mathlib.Tactic.Common
import Mathlib.Data.BitVec
import PinguinOS.Lib.Grid

/-! The text mode of `vga.c`: the cells at `VGA_MEMORY`, the cursor and its registers. -/
namespace PinguinOS.Drivers

def vgaWidth : Nat := 80
def vgaHeight : Nat := 25
def vgaCrtcAddr : BitVec 16 := 0x3D4
def vgaCrtcData : BitVec 16 := 0x3D5
def vgaCursorHi : BitVec 8 := 0x0E
def vgaCursorLo : BitVec 8 := 0x0F
def vgaBlack : BitVec 32 := 0
def vgaLightGrey : BitVec 32 := 7

def charNewline : BitVec 8 := 0x0A
def charReturn : BitVec 8 := 0x0D
def charTab : BitVec 8 := 0x09
def charBackspace : BitVec 8 := 0x08
def charSpace : BitVec 8 := 0x20

/-- The index register of the CRT controller, and the registers behind it. -/
structure Crtc where
  index : BitVec 8
  reg : BitVec 8 → BitVec 8

/-- `vmem` is the memory from `VGA_MEMORY` on, in cells of 16 bits. -/
structure VgaText where
  vmem : Nat → BitVec 16
  curCol : BitVec 8
  curRow : BitVec 8
  curAttr : BitVec 8
  crtc : Crtc

def vgaMakeAttr (fg bg : BitVec 32) : BitVec 8 := (bg <<< 4 ||| fg &&& 0x0F).setWidth 8

def vgaMakeEntry (c attr : BitVec 8) : BitVec 16 := attr.setWidth 16 <<< 8 ||| c.setWidth 16

/-- What `scroll` puts into the last row. -/
def scrollBlank : BitVec 16 := vgaMakeEntry charSpace (vgaMakeAttr vgaLightGrey vgaBlack)

/-- A byte to one of the two ports of the controller. -/
def Crtc.outb (s : Crtc) (port : BitVec 16) (v : BitVec 8) : Crtc :=
  if port = vgaCrtcAddr then { s with index := v }
  else if port = vgaCrtcData then { s with reg := Function.update s.reg s.index v }
  else s

/-- `cur_row * VGA_WIDTH + cur_col` -/
def VgaText.pos (s : VgaText) : Nat := s.curRow.toNat * vgaWidth + s.curCol.toNat

def updateCursor (s : VgaText) : VgaText :=
  let pos := BitVec.ofNat 16 s.pos
  let crtc := s.crtc.outb vgaCrtcAddr vgaCursorHi
  let crtc := crtc.outb vgaCrtcData ((pos >>> 8).setWidth 8)
  let crtc := crtc.outb vgaCrtcAddr vgaCursorLo
  let crtc := crtc.outb vgaCrtcData ((pos &&& 0xFF).setWidth 8)
  { s with crtc }

/-- `vmem[cur_row * VGA_WIDTH + cur_col] = vga_make_entry(c, cur_attr)` -/
def VgaText.put (s : VgaText) (c : BitVec 8) : VgaText :=
  { s with vmem := Function.update s.vmem s.pos (vgaMakeEntry c s.curAttr) }

/-- The rows are copied one up, from the first to the last. -/
def scrollRows (vmem : Nat → BitVec 16) : Nat → BitVec 16 :=
  (List.range' 1 (vgaHeight - 1)).foldl (fun vmem row =>
    (List.range vgaWidth).foldl (fun vmem col =>
      Function.update vmem ((row - 1) * vgaWidth + col) (vmem (row * vgaWidth + col))) vmem) vmem

def scroll (s : VgaText) : VgaText :=
  let vmem := (List.range vgaWidth).foldl (fun vmem col =>
    Function.update vmem ((vgaHeight - 1) * vgaWidth + col) scrollBlank) (scrollRows s.vmem)
  { s with vmem, curRow := BitVec.ofNat 8 (vgaHeight - 1) }

def vgaClear (s : VgaText) : VgaText :=
  let vmem := (List.range (vgaWidth * vgaHeight)).foldl (fun vmem i =>
    Function.update vmem i (vgaMakeEntry charSpace s.curAttr)) s.vmem
  updateCursor { s with vmem, curCol := 0, curRow := 0 }

def vgaInit (s : VgaText) : VgaText :=
  vgaClear { s with curAttr := vgaMakeAttr vgaLightGrey vgaBlack }

def vgaSetFg (s : VgaText) (c : BitVec 32) : VgaText :=
  { s with curAttr := (s.curAttr.setWidth 32 &&& 0xF0 ||| c &&& 0x0F).setWidth 8 }

def vgaSetBg (s : VgaText) (c : BitVec 32) : VgaText :=
  { s with curAttr := (s.curAttr.setWidth 32 &&& 0x0F ||| (c &&& 0x0F) <<< 4).setWidth 8 }

def vgaSetColor (s : VgaText) (fg bg : BitVec 32) : VgaText :=
  { s with curAttr := vgaMakeAttr fg bg }

def vgaSetCursor (s : VgaText) (col row : BitVec 8) : VgaText :=
  updateCursor { s with
    curCol := if col.toNat < vgaWidth then col else BitVec.ofNat 8 (vgaWidth - 1)
    curRow := if row.toNat < vgaHeight then row else BitVec.ofNat 8 (vgaHeight - 1) }

/-- `if (cur_col >= VGA_WIDTH) { cur_col = 0; cur_row++; }` -/
def VgaText.wrap (s : VgaText) : VgaText :=
  if s.curCol.toNat ≥ vgaWidth then { s with curCol := 0, curRow := s.curRow + 1 } else s

/-- The `switch` of `vga_putchar`. -/
def putcharSwitch (s : VgaText) (c : BitVec 8) : VgaText :=
  if c = charNewline then { s with curCol := 0, curRow := s.curRow + 1 }
  else if c = charReturn then { s with curCol := 0 }
  else if c = charTab then
    VgaText.wrap { s with curCol := ((s.curCol.setWidth 32 + 4) &&& ~~~3).setWidth 8 }
  else if c = charBackspace then
    if s.curCol > 0 then VgaText.put { s with curCol := s.curCol - 1 } charSpace else s
  else VgaText.wrap { s.put c with curCol := s.curCol + 1 }

def vgaPutchar (s : VgaText) (c : BitVec 8) : VgaText :=
  let s := putcharSwitch s c
  updateCursor (if s.curRow.toNat ≥ vgaHeight then scroll s else s)

/-- `str` is the memory from the pointer on. -/
def vgaPuts (s : VgaText) : List (BitVec 8) → VgaText
  | [] => s
  | c :: str => if c = 0 then s else vgaPuts (vgaPutchar s c) str

inductive VgaCall
  | init
  | clear
  | setFg (c : BitVec 32)
  | setBg (c : BitVec 32)
  | setColor (fg bg : BitVec 32)
  | setCursor (col row : BitVec 8)
  | putchar (c : BitVec 8)
  | puts (str : List (BitVec 8))

def vgaCall (s : VgaText) : VgaCall → VgaText
  | .init => vgaInit s
  | .clear => vgaClear s
  | .setFg c => vgaSetFg s c
  | .setBg c => vgaSetBg s c
  | .setColor fg bg => vgaSetColor s fg bg
  | .setCursor col row => vgaSetCursor s col row
  | .putchar c => vgaPutchar s c
  | .puts str => vgaPuts s str

/-- The position in the two cursor registers. -/
def Crtc.cursor (s : Crtc) : Nat := (s.reg vgaCursorHi ++ s.reg vgaCursorLo).toNat

/-! The screen as a window of 25 lines that follows the cursor down an unlimited page. -/

/-- `top` is the first line on the screen; `row` and `col` are the cursor's place on the page. -/
structure Page where
  cell : Nat → Nat → BitVec 16
  top : Nat
  row : Nat
  col : Nat
  attr : BitVec 8

/-- What is below the first screen has the colours of `scroll`. -/
def Page.blank (attr : BitVec 8) : Page where
  cell := fun i _ => if i < vgaHeight then vgaMakeEntry charSpace attr else scrollBlank
  top := 0
  row := 0
  col := 0
  attr := attr

def Page.put (p : Page) (c : BitVec 8) : Page :=
  { p with
    cell := Function.update p.cell p.row
      (Function.update (p.cell p.row) p.col (vgaMakeEntry c p.attr)) }

def Page.newline (p : Page) : Page := { p with row := p.row + 1, col := 0 }

/-- The cursor goes to a column, or to the next line if the line has no such column. -/
def Page.goto (p : Page) (col : Nat) : Page :=
  if col < vgaWidth then { p with col := col } else p.newline

def Page.type (p : Page) (c : BitVec 8) : Page :=
  if c = charNewline then p.newline
  else if c = charReturn then { p with col := 0 }
  else if c = charTab then p.goto ((p.col / 4 + 1) * 4)
  else if c = charBackspace then
    if 0 < p.col then Page.put { p with col := p.col - 1 } charSpace else p
  else (p.put c).goto (p.col + 1)

/-- The window goes down as far as it must to have the cursor's line in it. -/
def Page.follow (p : Page) : Page := { p with top := max p.top (p.row + 1 - vgaHeight) }

def Page.putchar (p : Page) (c : BitVec 8) : Page := (p.type c).follow

def Page.puts (p : Page) : List (BitVec 8) → Page
  | [] => p
  | c :: str => if c = 0 then p else (p.putchar c).puts str

/-- The cursor goes to a place on the screen. -/
def Page.setCursor (p : Page) (col row : Nat) : Page :=
  { p with col := min col (vgaWidth - 1), row := p.top + min row (vgaHeight - 1) }

def Page.setAttr (p : Page) (attr : BitVec 8) : Page := { p with attr := attr }

def Page.call (p : Page) : VgaCall → Page
  | .init => .blank (vgaMakeAttr vgaLightGrey vgaBlack)
  | .clear => .blank p.attr
  | .setFg c => p.setAttr ((p.attr.setWidth 32 &&& 0xF0 ||| c &&& 0x0F).setWidth 8)
  | .setBg c => p.setAttr ((p.attr.setWidth 32 &&& 0x0F ||| (c &&& 0x0F) <<< 4).setWidth 8)
  | .setColor fg bg => p.setAttr (vgaMakeAttr fg bg)
  | .setCursor col row => p.setCursor col.toNat row.toNat
  | .putchar c => p.putchar c
  | .puts str => p.puts str

/-- The screen is the window of the page; the cursor may be `slack` rows below the window. -/
structure Within (slack : Nat) (base : Nat → BitVec 16) (s : VgaText) (p : Page) : Prop where
  cell : ∀ r < vgaHeight, ∀ c < vgaWidth, s.vmem (Grid.index vgaWidth r c) = p.cell (p.top + r) c
  below : ∀ i, p.top + vgaHeight ≤ i → ∀ c, p.cell i c = scrollBlank
  col : s.curCol.toNat = p.col
  col_lt : p.col < vgaWidth
  row : p.top + s.curRow.toNat = p.row
  row_lt : s.curRow.toNat < vgaHeight + slack
  attr : s.curAttr = p.attr
  -- no cell behind the screen is written
  frame : ∀ i, vgaHeight * vgaWidth ≤ i → s.vmem i = base i

/-- The screen shows the page, and the controller the cursor. -/
structure Shows (base : Nat → BitVec 16) (s : VgaText) (p : Page) : Prop extends
    Within 0 base s p where
  cursor : s.crtc.cursor = s.pos

variable {s : VgaText} {p : Page} {base : Nat → BitVec 16} {slack : Nat} {c : BitVec 8}

theorem pos_eq : s.pos = Grid.index vgaWidth s.curRow.toNat s.curCol.toNat := rfl

@[simp] theorem updateCursor_vmem : (updateCursor s).vmem = s.vmem := rfl
@[simp] theorem updateCursor_curCol : (updateCursor s).curCol = s.curCol := rfl
@[simp] theorem updateCursor_curRow : (updateCursor s).curRow = s.curRow := rfl
@[simp] theorem updateCursor_curAttr : (updateCursor s).curAttr = s.curAttr := rfl

/-- The two bytes of a word, put together. -/
theorem append_bytes (x : BitVec 16) :
    ((x >>> 8).setWidth 8 ++ (x &&& 0xFF).setWidth 8 : BitVec 16) = x := by
  ext i hi
  rw [BitVec.getElem_append]
  split
  case isTrue h =>
    have hones : (BitVec.allOnes 8)[i] = true := BitVec.getElem_allOnes i h
    have hmask : (255#8)[i] = true := hones
    simp [hmask, BitVec.getLsbD_eq_getElem hi]
  case isFalse h =>
    have hsum : 8 + (i - 8) = i := by omega
    simp [hsum, BitVec.getLsbD_eq_getElem hi]

theorem updateCursor_cursor (hpos : s.pos < 2 ^ 16) : (updateCursor s).crtc.cursor = s.pos := by
  have hbytes : (updateCursor s).crtc.cursor = (((BitVec.ofNat 16 s.pos) >>> 8).setWidth 8 ++
      ((BitVec.ofNat 16 s.pos) &&& 0xFF).setWidth 8 : BitVec 16).toNat := rfl
  rw [hbytes, append_bytes, BitVec.toNat_ofNat, Nat.mod_eq_of_lt hpos]

theorem scrollRows_eq (vmem : Nat → BitVec 16) : scrollRows vmem = fun i =>
    if i < (vgaHeight - 1) * vgaWidth then vmem (i + vgaWidth) else vmem i := by
  have hloop := Grid.foldl_rows (w := vgaWidth) (h := vgaHeight - 1) (b := vmem)
    (f := fun vmem i => Function.update vmem i (vmem (i + vgaWidth)))
  rw [Grid.foldl_shift (by decide)] at hloop
  unfold scrollRows
  rw [← hloop, List.range'_eq_map_range, List.foldl_map]
  refine List.foldl_ext _ _ _ fun vmem row _ => ?_
  refine List.foldl_ext _ _ _ fun vmem col _ => ?_
  have hrow : (1 + row) * vgaWidth + col = Grid.index vgaWidth row col + vgaWidth := by
    rw [← Grid.index_succ, Nat.add_comm 1 row]
    rfl
  rw [hrow, Nat.add_sub_cancel_left]
  rfl

theorem scroll_vmem (s : VgaText) (i : Nat) : (scroll s).vmem i =
    if i < (vgaHeight - 1) * vgaWidth then s.vmem (i + vgaWidth)
    else if i < vgaHeight * vgaWidth then scrollBlank else s.vmem i := by
  unfold scroll
  dsimp only
  rw [Grid.foldl_fill, scrollRows_eq]
  have hsize : vgaHeight * vgaWidth = (vgaHeight - 1) * vgaWidth + vgaWidth := rfl
  dsimp only
  by_cases hlast : i < (vgaHeight - 1) * vgaWidth
  · rw [if_neg (by omega), if_pos hlast, if_pos hlast]
  · by_cases hend : i < vgaHeight * vgaWidth
    · rw [if_pos (by omega), if_neg hlast, if_pos hend]
    · rw [if_neg (by omega), if_neg hlast, if_neg hlast, if_neg hend]

theorem scroll_curRow : (scroll s).curRow.toNat = vgaHeight - 1 := rfl

namespace Within

theorem pos_lt (h : Within 0 base s p) : s.pos < vgaHeight * vgaWidth :=
  Grid.index_lt h.row_lt (h.col ▸ h.col_lt)

theorem put (h : Within 0 base s p) : Within 0 base (s.put c) (p.put c) where
  cell := by
    intro r hr k hk
    change Function.update s.vmem s.pos _ _ = Function.update p.cell p.row _ (p.top + r) k
    have hcell := h.cell r hr k hk
    by_cases hrow : p.top + r = p.row
    · have hr' : r = s.curRow.toNat := by
        have := h.row
        omega
      rw [hrow, Function.update_self]
      by_cases hcol : k = p.col
      · rw [hcol, Function.update_self, pos_eq, hr', h.col, Function.update_self, h.attr]
      · rw [Function.update_of_ne hcol, Function.update_of_ne, hcell, hrow]
        intro heq
        exact hcol ((Grid.index_inj hk (h.col ▸ h.col_lt) heq).2.trans h.col)
    · rw [Function.update_of_ne hrow, Function.update_of_ne, hcell]
      intro heq
      have hr' := (Grid.index_inj hk (h.col ▸ h.col_lt) heq).1
      exact hrow (hr' ▸ h.row)
  below := by
    intro i hi k
    change p.top + vgaHeight ≤ i at hi
    have hrow : i ≠ p.row := by
      have := h.row
      have := h.row_lt
      omega
    change Function.update p.cell p.row _ _ _ = _
    rw [Function.update_of_ne hrow, h.below i hi k]
  col := h.col
  col_lt := h.col_lt
  row := h.row
  row_lt := h.row_lt
  attr := h.attr
  frame := by
    intro i hi
    have hpos := h.pos_lt
    change Function.update s.vmem s.pos _ _ = _
    rw [Function.update_of_ne (by omega), h.frame i hi]

/-- The cursor alone is moved. -/
theorem moveCursor (h : Within slack base s p) {col row : BitVec 8} {crtc : Crtc}
    {col' row' slack' : Nat} (hcol : col.toNat = col') (hlt : col' < vgaWidth)
    (hrow : p.top + row.toNat = row') (hslack : row.toNat < vgaHeight + slack') :
    Within slack' base { s with curCol := col, curRow := row, crtc := crtc }
      { p with row := row', col := col' } where
  cell := h.cell
  below := h.below
  col := hcol
  col_lt := hlt
  row := hrow
  row_lt := hslack
  attr := h.attr
  frame := h.frame

/-- The colours alone are changed. -/
theorem setAttr (h : Within slack base s p) {attr attr' : BitVec 8} (heq : attr = attr') :
    Within slack base { s with curAttr := attr } (p.setAttr attr') where
  cell := h.cell
  below := h.below
  col := h.col
  col_lt := h.col_lt
  row := h.row
  row_lt := h.row_lt
  attr := heq
  frame := h.frame

theorem newline (h : Within 0 base s p) :
    Within 1 base { s with curCol := 0, curRow := s.curRow + 1 } p.newline := by
  have hrow := h.row
  have hlt : s.curRow.toNat < 25 := h.row_lt
  have hnext : (s.curRow + 1).toNat = s.curRow.toNat + 1 := by
    rw [BitVec.toNat_add]
    exact Nat.mod_eq_of_lt (by change s.curRow.toNat + 1 < 256; omega)
  refine h.moveCursor rfl (by decide) ?_ ?_
  · rw [hnext]
    omega
  · rw [hnext]
    exact Nat.succ_lt_succ hlt

theorem goto (h : Within 0 base s p) {col : BitVec 8} {col' : Nat} (hcol : col.toNat = col') :
    Within 1 base (VgaText.wrap { s with curCol := col }) (p.goto col') := by
  unfold VgaText.wrap Page.goto
  dsimp only
  rw [hcol]
  by_cases hlt : col' < vgaWidth
  · rw [if_neg (Nat.not_le.mpr hlt), if_pos hlt]
    exact h.moveCursor hcol hlt h.row (Nat.lt_succ_of_lt h.row_lt)
  · rw [if_pos (Nat.not_lt.mp hlt), if_neg hlt]
    exact h.newline

/-- Nothing but the limit for the cursor's row is relaxed. -/
theorem relax (h : Within 0 base s p) : Within 1 base s p :=
  h.moveCursor h.col h.col_lt h.row (Nat.lt_succ_of_lt h.row_lt)

end Within

theorem tab_col : ∀ x : BitVec 8, x.toNat < vgaWidth →
    (((x.setWidth 32 + 4) &&& ~~~3).setWidth 8).toNat = (x.toNat / 4 + 1) * 4 := by
  decide +kernel

namespace Within

theorem type (h : Within 0 base s p) (c : BitVec 8) :
    Within 1 base (putcharSwitch s c) (p.type c) := by
  have hcol := h.col
  have hcol_lt : p.col < 80 := h.col_lt
  unfold putcharSwitch Page.type
  by_cases hnl : c = charNewline
  · rw [if_pos hnl, if_pos hnl]
    exact h.newline
  rw [if_neg hnl, if_neg hnl]
  by_cases hcr : c = charReturn
  · rw [if_pos hcr, if_pos hcr]
    exact h.relax.moveCursor rfl (by decide) h.row h.relax.row_lt
  rw [if_neg hcr, if_neg hcr]
  by_cases htab : c = charTab
  · rw [if_pos htab, if_pos htab, ← hcol]
    exact h.goto (tab_col s.curCol (hcol ▸ h.col_lt))
  rw [if_neg htab, if_neg htab]
  by_cases hbs : c = charBackspace
  · rw [if_pos hbs, if_pos hbs]
    by_cases hpos : 0 < p.col
    · have hgt : s.curCol > 0 := by
        rw [gt_iff_lt, BitVec.lt_def, hcol]
        exact hpos
      have hprev : (s.curCol - 1).toNat = p.col - 1 := by
        rw [BitVec.toNat_sub_of_le (BitVec.le_def.mpr (hcol ▸ hpos)), hcol]
        rfl
      rw [if_pos hgt, if_pos hpos]
      refine relax (put ?_)
      exact h.moveCursor hprev (lt_of_le_of_lt (Nat.sub_le _ _) h.col_lt) h.row h.row_lt
    · have hgt : ¬ s.curCol > 0 := by
        rw [gt_iff_lt, BitVec.lt_def, hcol]
        exact hpos
      rw [if_neg hgt, if_neg hpos]
      exact h.relax
  · rw [if_neg hbs, if_neg hbs]
    refine h.put.goto ?_
    rw [BitVec.toNat_add, hcol]
    exact Nat.mod_eq_of_lt (by change p.col + 1 < 256; omega)

/-- The window follows the cursor by scrolling. -/
theorem follow (h : Within 1 base s p) :
    Within 0 base (if s.curRow.toNat ≥ vgaHeight then scroll s else s) p.follow := by
  have hrow := h.row
  have hrow_lt : s.curRow.toNat < vgaHeight + 1 := h.row_lt
  have hheight : vgaHeight = 25 := rfl
  by_cases hscroll : s.curRow.toNat ≥ vgaHeight
  · have htop : max p.top (p.row + 1 - vgaHeight) = p.top + 1 := by omega
    rw [if_pos hscroll]
    unfold Page.follow
    rw [htop]
    refine
      { cell := ?_, below := ?_, col := h.col, col_lt := h.col_lt, row := ?_, row_lt := ?_,
        attr := h.attr, frame := ?_ }
    · intro r hr k hk
      have hindex := Grid.index_lt hr hk
      rw [scroll_vmem]
      by_cases hlast : r < vgaHeight - 1
      · rw [if_pos (Grid.index_lt hlast hk), ← Grid.index_succ, h.cell (r + 1) (by omega) k hk]
        change p.cell (p.top + (r + 1)) k = p.cell (p.top + 1 + r) k
        rw [Nat.add_assoc, Nat.add_comm 1 r]
      · have hr' : r = vgaHeight - 1 := by omega
        have hnot : ¬ Grid.index vgaWidth r k < (vgaHeight - 1) * vgaWidth := by
          rw [hr']
          exact Nat.not_lt.mpr (Nat.le_add_right _ _)
        rw [if_neg hnot, if_pos hindex]
        refine (h.below _ ?_ k).symm
        change p.top + vgaHeight ≤ p.top + 1 + r
        omega
    · intro i hi k
      change p.top + 1 + vgaHeight ≤ i at hi
      exact h.below i (by omega) k
    · change p.top + 1 + (scroll s).curRow.toNat = p.row
      rw [scroll_curRow]
      omega
    · rw [scroll_curRow]
      decide
    · intro i hi
      have hrows : (vgaHeight - 1) * vgaWidth ≤ vgaHeight * vgaWidth := by decide
      rw [scroll_vmem, if_neg (by omega), if_neg (by omega)]
      exact h.frame i hi
  · have htop : max p.top (p.row + 1 - vgaHeight) = p.top := by omega
    rw [if_neg hscroll]
    unfold Page.follow
    rw [htop]
    exact h.moveCursor h.col h.col_lt h.row (by omega)

theorem shows (h : Within 0 base s p) : Shows base (updateCursor s) p where
  toWithin := h.moveCursor h.col h.col_lt h.row h.row_lt
  cursor := updateCursor_cursor (h.pos_lt.trans (by decide))

end Within

theorem Shows.putchar (h : Shows base s p) (c : BitVec 8) :
    Shows base (vgaPutchar s c) (p.putchar c) := (h.toWithin.type c).follow.shows

theorem Shows.puts (h : Shows base s p) (str : List (BitVec 8)) :
    Shows base (vgaPuts s str) (p.puts str) := by
  induction str generalizing s p with
  | nil => exact h
  | cons c str ih =>
    unfold vgaPuts Page.puts
    by_cases hc : c = 0
    · rw [if_pos hc, if_pos hc]
      exact h
    · rw [if_neg hc, if_neg hc]
      exact ih (h.putchar c)

theorem Shows.setAttr (h : Shows base s p) {attr attr' : BitVec 8} (heq : attr = attr') :
    Shows base { s with curAttr := attr } (p.setAttr attr') where
  toWithin := h.toWithin.setAttr heq
  cursor := h.cursor

/-- A cleared screen is a new page. -/
theorem within_blank {attr : BitVec 8} {vmem : Nat → BitVec 16} {crtc : Crtc}
    (hclear : ∀ i < vgaHeight * vgaWidth, vmem i = vgaMakeEntry charSpace attr)
    (hframe : ∀ i, vgaHeight * vgaWidth ≤ i → vmem i = base i) :
    Within 0 base ⟨vmem, 0, 0, attr, crtc⟩ (.blank attr) where
  cell := by
    intro r hr k hk
    have hline : 0 + r < vgaHeight := by omega
    exact (hclear _ (Grid.index_lt hr hk)).trans (if_pos hline).symm
  below := by
    intro i hi k
    change 0 + vgaHeight ≤ i at hi
    exact if_neg (by omega)
  col := rfl
  col_lt := show 0 < 80 by omega
  row := rfl
  row_lt := show 0 < 25 by omega
  attr := rfl
  frame := hframe

theorem shows_vgaClear (hframe : ∀ i, vgaHeight * vgaWidth ≤ i → s.vmem i = base i) :
    Shows base (vgaClear s) (.blank s.curAttr) := by
  unfold vgaClear
  dsimp only
  rw [Grid.foldl_values]
  refine Within.shows (within_blank ?_ ?_)
  · intro i hi
    exact if_pos hi
  · intro i hi
    exact (if_neg (Nat.not_lt.mpr hi)).trans (hframe i hi)

/-- The clamp of `vga_set_cursor`. -/
theorem toNat_clamp (x : BitVec 8) {n : Nat} (hpos : 0 < n) (hfit : n ≤ 256) :
    (if x.toNat < n then x else BitVec.ofNat 8 (n - 1)).toNat = min x.toNat (n - 1) := by
  split
  case isTrue h => exact (Nat.min_eq_left (Nat.le_sub_one_of_lt h)).symm
  case isFalse h =>
    rw [BitVec.toNat_ofNat, Nat.mod_eq_of_lt (show n - 1 < 2 ^ 8 by omega)]
    omega

theorem Shows.call (h : Shows base s p) (call : VgaCall) :
    Shows base (vgaCall s call) (p.call call) := by
  cases call with
  | init => exact shows_vgaClear h.frame
  | clear =>
    have hnew := shows_vgaClear h.frame
    rw [h.attr] at hnew
    exact hnew
  | setFg c => exact h.setAttr (by rw [h.attr])
  | setBg c => exact h.setAttr (by rw [h.attr])
  | setColor fg bg => exact h.setAttr rfl
  | setCursor col row =>
    have hcol := toNat_clamp col (n := vgaWidth) (by decide) (by decide)
    have hrow := toNat_clamp row (n := vgaHeight) (by decide) (by decide)
    refine Within.shows (h.toWithin.moveCursor hcol ?_ (congrArg (p.top + ·) hrow) ?_)
    · exact lt_of_le_of_lt (Nat.min_le_right _ _) (by decide)
    · rw [hrow]
      exact lt_of_le_of_lt (Nat.min_le_right _ _) (by decide)
  | putchar c => exact h.putchar c
  | puts str => exact h.puts str

/-- After any calls the screen is what the page shows in its window, the cursor is where the page
has it, inside the screen, and so is the one of the controller. -/
theorem vga_shows_page (s : VgaText) (calls : List VgaCall) :
    Shows s.vmem (calls.foldl vgaCall (vgaInit s))
      (calls.foldl Page.call (.blank (vgaMakeAttr vgaLightGrey vgaBlack))) := by
  have hinit : Shows s.vmem (vgaInit s) (.blank (vgaMakeAttr vgaLightGrey vgaBlack)) :=
    shows_vgaClear fun _ _ => rfl
  generalize vgaInit s = t at hinit ⊢
  generalize Page.blank (vgaMakeAttr vgaLightGrey vgaBlack) = p at hinit ⊢
  induction calls generalizing t p with
  | nil => exact hinit
  | cons call calls ih => exact ih _ _ (hinit.call call)

end PinguinOS.Drivers
