import Mathlib.Data.BitVec
import Mathlib.Logic.Function.Basic
import PinguinOS.Klib.Numbers

/-! The glyphs of `font8x8.h`, from the space on; bit 0 of a row is its leftmost pixel. -/
namespace PinguinOS.Os

def font8x8 : List (List (BitVec 8)) :=
  [[0x00, 0x00, 0x00, 0x00, 0x00, 0x00, 0x00, 0x00],
    [0x04, 0x04, 0x04, 0x04, 0x04, 0x00, 0x04, 0x00],
    [0x0A, 0x0A, 0x0A, 0x00, 0x00, 0x00, 0x00, 0x00],
    [0x0A, 0x1F, 0x0A, 0x0A, 0x1F, 0x0A, 0x00, 0x00],
    [0x04, 0x1E, 0x05, 0x0E, 0x14, 0x0F, 0x04, 0x00],
    [0x03, 0x13, 0x08, 0x04, 0x02, 0x19, 0x18, 0x00],
    [0x06, 0x09, 0x05, 0x02, 0x15, 0x09, 0x16, 0x00],
    [0x06, 0x04, 0x02, 0x00, 0x00, 0x00, 0x00, 0x00],
    [0x10, 0x08, 0x04, 0x04, 0x04, 0x08, 0x10, 0x00],
    [0x02, 0x04, 0x08, 0x08, 0x08, 0x04, 0x02, 0x00],
    [0x00, 0x15, 0x0E, 0x1F, 0x0E, 0x15, 0x00, 0x00],
    [0x00, 0x04, 0x04, 0x1F, 0x04, 0x04, 0x00, 0x00],
    [0x00, 0x00, 0x00, 0x00, 0x06, 0x06, 0x02, 0x00],
    [0x00, 0x00, 0x00, 0x1F, 0x00, 0x00, 0x00, 0x00],
    [0x00, 0x00, 0x00, 0x00, 0x00, 0x06, 0x06, 0x00],
    [0x10, 0x10, 0x08, 0x04, 0x02, 0x01, 0x01, 0x00],
    [0x0E, 0x11, 0x19, 0x15, 0x13, 0x11, 0x0E, 0x00],
    [0x04, 0x06, 0x04, 0x04, 0x04, 0x04, 0x0E, 0x00],
    [0x0E, 0x11, 0x10, 0x08, 0x04, 0x02, 0x1F, 0x00],
    [0x0E, 0x11, 0x10, 0x0C, 0x10, 0x11, 0x0E, 0x00],
    [0x08, 0x0C, 0x0A, 0x09, 0x1F, 0x08, 0x08, 0x00],
    [0x1F, 0x01, 0x0F, 0x10, 0x10, 0x11, 0x0E, 0x00],
    [0x0C, 0x02, 0x01, 0x0F, 0x11, 0x11, 0x0E, 0x00],
    [0x1F, 0x10, 0x08, 0x08, 0x04, 0x04, 0x02, 0x00],
    [0x0E, 0x11, 0x11, 0x0E, 0x11, 0x11, 0x0E, 0x00],
    [0x0E, 0x11, 0x11, 0x1E, 0x10, 0x08, 0x06, 0x00],
    [0x00, 0x06, 0x06, 0x00, 0x06, 0x06, 0x00, 0x00],
    [0x00, 0x06, 0x06, 0x00, 0x06, 0x06, 0x04, 0x00],
    [0x10, 0x08, 0x04, 0x02, 0x04, 0x08, 0x10, 0x00],
    [0x00, 0x00, 0x1F, 0x00, 0x1F, 0x00, 0x00, 0x00],
    [0x01, 0x02, 0x04, 0x08, 0x04, 0x02, 0x01, 0x00],
    [0x0E, 0x11, 0x10, 0x08, 0x04, 0x00, 0x04, 0x00],
    [0x0E, 0x11, 0x17, 0x15, 0x17, 0x01, 0x0E, 0x00],
    [0x0E, 0x11, 0x11, 0x1F, 0x11, 0x11, 0x11, 0x00],
    [0x0F, 0x11, 0x11, 0x0F, 0x11, 0x11, 0x0F, 0x00],
    [0x0E, 0x11, 0x01, 0x01, 0x01, 0x11, 0x0E, 0x00],
    [0x07, 0x09, 0x11, 0x11, 0x11, 0x09, 0x07, 0x00],
    [0x1F, 0x01, 0x01, 0x0F, 0x01, 0x01, 0x1F, 0x00],
    [0x1F, 0x01, 0x01, 0x0F, 0x01, 0x01, 0x01, 0x00],
    [0x0E, 0x11, 0x01, 0x1D, 0x11, 0x11, 0x0E, 0x00],
    [0x11, 0x11, 0x11, 0x1F, 0x11, 0x11, 0x11, 0x00],
    [0x0E, 0x04, 0x04, 0x04, 0x04, 0x04, 0x0E, 0x00],
    [0x1F, 0x08, 0x08, 0x08, 0x08, 0x09, 0x06, 0x00],
    [0x11, 0x09, 0x05, 0x03, 0x05, 0x09, 0x11, 0x00],
    [0x01, 0x01, 0x01, 0x01, 0x01, 0x01, 0x1F, 0x00],
    [0x11, 0x1B, 0x15, 0x15, 0x11, 0x11, 0x11, 0x00],
    [0x11, 0x13, 0x15, 0x19, 0x11, 0x11, 0x11, 0x00],
    [0x0E, 0x11, 0x11, 0x11, 0x11, 0x11, 0x0E, 0x00],
    [0x0F, 0x11, 0x11, 0x0F, 0x01, 0x01, 0x01, 0x00],
    [0x0E, 0x11, 0x11, 0x11, 0x15, 0x09, 0x16, 0x00],
    [0x0F, 0x11, 0x11, 0x0F, 0x05, 0x09, 0x11, 0x00],
    [0x1E, 0x01, 0x01, 0x0E, 0x10, 0x10, 0x0F, 0x00],
    [0x1F, 0x04, 0x04, 0x04, 0x04, 0x04, 0x04, 0x00],
    [0x11, 0x11, 0x11, 0x11, 0x11, 0x11, 0x0E, 0x00],
    [0x11, 0x11, 0x11, 0x11, 0x0A, 0x0A, 0x04, 0x00],
    [0x11, 0x11, 0x15, 0x15, 0x15, 0x1B, 0x11, 0x00],
    [0x11, 0x11, 0x0A, 0x04, 0x0A, 0x11, 0x11, 0x00],
    [0x11, 0x11, 0x0A, 0x04, 0x04, 0x04, 0x04, 0x00],
    [0x1F, 0x10, 0x08, 0x04, 0x02, 0x01, 0x1F, 0x00],
    [0x0E, 0x02, 0x02, 0x02, 0x02, 0x02, 0x0E, 0x00],
    [0x01, 0x01, 0x02, 0x04, 0x08, 0x10, 0x10, 0x00],
    [0x0E, 0x08, 0x08, 0x08, 0x08, 0x08, 0x0E, 0x00],
    [0x04, 0x0A, 0x11, 0x00, 0x00, 0x00, 0x00, 0x00],
    [0x00, 0x00, 0x00, 0x00, 0x00, 0x00, 0x1F, 0x00],
    [0x02, 0x04, 0x08, 0x00, 0x00, 0x00, 0x00, 0x00],
    [0x00, 0x0E, 0x10, 0x1E, 0x11, 0x1E, 0x00, 0x00],
    [0x01, 0x01, 0x0F, 0x11, 0x11, 0x0F, 0x00, 0x00],
    [0x00, 0x00, 0x0E, 0x01, 0x01, 0x0E, 0x00, 0x00],
    [0x10, 0x10, 0x1E, 0x11, 0x11, 0x1E, 0x00, 0x00],
    [0x00, 0x0E, 0x11, 0x1F, 0x01, 0x0E, 0x00, 0x00],
    [0x0C, 0x02, 0x07, 0x02, 0x02, 0x02, 0x00, 0x00],
    [0x00, 0x1E, 0x11, 0x11, 0x1E, 0x10, 0x0E, 0x00],
    [0x01, 0x01, 0x0F, 0x11, 0x11, 0x11, 0x00, 0x00],
    [0x04, 0x00, 0x06, 0x04, 0x04, 0x0E, 0x00, 0x00],
    [0x08, 0x00, 0x0C, 0x08, 0x08, 0x09, 0x06, 0x00],
    [0x01, 0x01, 0x09, 0x05, 0x03, 0x05, 0x09, 0x00],
    [0x06, 0x04, 0x04, 0x04, 0x04, 0x0E, 0x00, 0x00],
    [0x00, 0x00, 0x0B, 0x15, 0x15, 0x11, 0x00, 0x00],
    [0x00, 0x00, 0x0F, 0x11, 0x11, 0x11, 0x00, 0x00],
    [0x00, 0x00, 0x0E, 0x11, 0x11, 0x0E, 0x00, 0x00],
    [0x00, 0x00, 0x0F, 0x11, 0x11, 0x0F, 0x01, 0x01],
    [0x00, 0x00, 0x1E, 0x11, 0x11, 0x1E, 0x10, 0x10],
    [0x00, 0x00, 0x0D, 0x03, 0x01, 0x01, 0x00, 0x00],
    [0x00, 0x00, 0x0E, 0x01, 0x0E, 0x10, 0x0F, 0x00],
    [0x04, 0x04, 0x0F, 0x04, 0x04, 0x0C, 0x00, 0x00],
    [0x00, 0x00, 0x11, 0x11, 0x11, 0x1E, 0x00, 0x00],
    [0x00, 0x00, 0x11, 0x11, 0x0A, 0x04, 0x00, 0x00],
    [0x00, 0x00, 0x11, 0x15, 0x15, 0x0A, 0x00, 0x00],
    [0x00, 0x00, 0x11, 0x0A, 0x04, 0x0A, 0x11, 0x00],
    [0x00, 0x00, 0x11, 0x11, 0x1E, 0x10, 0x0E, 0x00],
    [0x00, 0x00, 0x1F, 0x08, 0x04, 0x02, 0x1F, 0x00],
    [0x0C, 0x04, 0x04, 0x02, 0x04, 0x04, 0x0C, 0x00],
    [0x04, 0x04, 0x04, 0x00, 0x04, 0x04, 0x04, 0x00],
    [0x06, 0x04, 0x04, 0x08, 0x04, 0x04, 0x06, 0x00],
    [0x00, 0x00, 0x08, 0x15, 0x02, 0x00, 0x00, 0x00],
    [0x00, 0x00, 0x00, 0x00, 0x00, 0x00, 0x00, 0x00]]

/-! The drawing engine `ui.c`: all calls draw into `g_back`, `ui_flip` shows it. -/

open Klib (ch)

abbrev Colour := BitVec 32

def gWidth : Int := 1280
def gHeight : Int := 720
def fontW : Int := 6
def fontH : Int := 8
def iconRawSize : Int := 10
def iconDrawSize : Int := 32

def colBg : Colour := 0x07070F
def colPanel : Colour := 0x0C0C1A
def colAccent : Colour := 0x00FFF0
def colAccentDim : Colour := 0x009988
def colWhite : Colour := 0xFFFFFF
def colDarkGray : Colour := 0x333344
def colHover : Colour := 0x1A1A30
def colInputBg : Colour := 0x0F0F22
def colInputFocus : Colour := 0x00FFF0
def colInputIdle : Colour := 0x333355
def colBtnBg : Colour := 0x00FFF0
def colBtnText : Colour := 0x07070F
def colBtnHover : Colour := 0x00CCCC
def colSeparator : Colour := 0x1E1E35
def colIconBg : Colour := 0x131328

/-- The result of a sum of `int`s; an overflow wraps. -/
def i32 (z : Int) : Int := z.bmod (2 ^ 32)

/-- `for (int i = a; i < b; i++)` -/
def intRange (a b : Int) : List Int := (List.range (b - a).toNat).map fun (k : Nat) => a + (k : Int)

/-- The memory from the start of a buffer on, in pixels. -/
abbrev Pixels := Nat → Colour

/-- `g_back` and the framebuffer. -/
structure Ui where
  back : Pixels
  fb : Pixels

/-- `g_back[y * g_width + x]` -/
def pixelAt (x y : Int) : Nat := (y * gWidth + x).toNat

/-- `fb_put`; the comparisons are unsigned. -/
def fbPut (g : Pixels) (x y : Int) (col : Colour) : Pixels :=
  if x % 2 ^ 32 < gWidth ∧ y % 2 ^ 32 < gHeight then Function.update g (pixelAt x y) col else g

def uiFillRect (g : Pixels) (x y w h : Int) (colour : Colour) : Pixels :=
  let x1 := if x < 0 then 0 else x
  let y1 := if y < 0 then 0 else y
  let x2 := if i32 (x + w) > gWidth then gWidth else i32 (x + w)
  let y2 := if i32 (y + h) > gHeight then gHeight else i32 (y + h)
  (intRange y1 y2).foldl (fun g row =>
    (intRange x1 x2).foldl (fun g col => Function.update g (pixelAt col row) colour) g) g

def uiClear (g : Pixels) (colour : Colour) : Pixels :=
  (List.range (gWidth * gHeight).toNat).foldl (fun g i => Function.update g i colour) g

def uiHline (g : Pixels) (x y len : Int) (colour : Colour) : Pixels :=
  if y < 0 ∨ y ≥ gHeight then g
  else
    let x1 := if x < 0 then 0 else x
    let x2 := if i32 (x + len) > gWidth then gWidth else i32 (x + len)
    (intRange x1 x2).foldl (fun g col => Function.update g (pixelAt col y) colour) g

def uiVline (g : Pixels) (x y len : Int) (colour : Colour) : Pixels :=
  if x < 0 ∨ x ≥ gWidth then g
  else
    let y1 := if y < 0 then 0 else y
    let y2 := if i32 (y + len) > gHeight then gHeight else i32 (y + len)
    (intRange y1 y2).foldl (fun g row => Function.update g (pixelAt x row) colour) g

/-- The rows of the glyph; characters without one have that of the question mark. -/
def glyphOf (c : BitVec 8) : List (BitVec 8) :=
  let c := if c.toNat < 32 ∨ c.toNat > 127 then ch '?' else c
  font8x8.getD (c.toNat - 32) []

/-- `bits & (1u << col)` -/
def glyphBit (c : BitVec 8) (row col : Nat) : Bool := ((glyphOf c).getD row 0).getLsbD col

/-- The pixels of `ui_draw_char`. -/
def charPixels (g : Pixels) (x y : Int) (c : BitVec 8) (colour : Colour) : Pixels :=
  (List.range 8).foldl (fun g row =>
    (List.range 8).foldl (fun g col =>
      if glyphBit c row col then fbPut g (i32 (x + (col : Int))) (i32 (y + (row : Int))) colour
      else g) g) g

/-- `ui_draw_char`, with the position behind the character. -/
def uiDrawChar (g : Pixels) (x y : Int) (c : BitVec 8) (colour : Colour) : Int × Pixels :=
  (i32 (x + fontW + 1), charPixels g x y c colour)

def uiDrawText (g : Pixels) (x y : Int) (s : List (BitVec 8)) (colour : Colour) : Int × Pixels :=
  match s with
  | [] => (x, g)
  | c :: s =>
    let (x, g) := uiDrawChar g x y c colour
    if x ≥ gWidth then (x, g) else uiDrawText g x y s colour

def uiFlip (s : Ui) : Ui :=
  { s with
    fb := (List.range (gWidth * gHeight).toNat).foldl
      (fun fb i => Function.update fb i (s.back i)) s.fb }

/-- `ui_init`, after the mode is set: `memset`, and a flip. -/
def uiInit (s : Ui) : Ui := uiFlip { s with back := uiClear s.back 0 }

/-- The calls that draw by themselves, and the one that shows what was drawn. -/
inductive UiCall
  | putPixel (x y : Int) (colour : Colour)
  | clear (colour : Colour)
  | fillRect (x y w h : Int) (colour : Colour)
  | hline (x y len : Int) (colour : Colour)
  | vline (x y len : Int) (colour : Colour)
  | drawChar (x y : Int) (c : BitVec 8) (colour : Colour)
  | drawText (x y : Int) (s : List (BitVec 8)) (colour : Colour)
  | flip

def drawCall (g : Pixels) : UiCall → Pixels
  | .putPixel x y colour => fbPut g x y colour
  | .clear colour => uiClear g colour
  | .fillRect x y w h colour => uiFillRect g x y w h colour
  | .hline x y len colour => uiHline g x y len colour
  | .vline x y len colour => uiVline g x y len colour
  | .drawChar x y c colour => (uiDrawChar g x y c colour).2
  | .drawText x y s colour => (uiDrawText g x y s colour).2
  | .flip => g

def uiCall (s : Ui) (call : UiCall) : Ui :=
  match call with
  | .flip => uiFlip s
  | call => { s with back := drawCall s.back call }

/-! The other functions, as the calls that they make. -/

def uiDrawRect (x y w h : Int) (colour : Colour) : List UiCall :=
  [.hline x y w colour, .hline x (i32 (y + h - 1)) w colour, .vline x y h colour,
    .vline (i32 (x + w - 1)) y h colour]

def uiDrawShadowBox (x y w h : Int) : List UiCall :=
  [.fillRect (i32 (x + 4)) (i32 (y + 4)) w h 0x02020A,
    .fillRect (i32 (x + 2)) (i32 (y + 2)) (i32 (w + 1)) (i32 (h + 1)) 0x05050E,
    .fillRect x y w h colPanel, .hline x y w colAccentDim, .hline x (i32 (y + h - 1)) w colDarkGray,
    .vline x y h colDarkGray, .vline (i32 (x + w - 1)) y h colDarkGray]

def uiDrawSeparator (x y w : Int) : List UiCall :=
  [.hline x y w colSeparator, .hline x (i32 (y + 1)) w 0x252535]

def uiDrawTextCentered (rx ry rw rh : Int) (s : List (BitVec 8)) (colour : Colour) : List UiCall :=
  let tw := i32 (i32 s.length * (fontW + 1))
  [.drawText (i32 (rx + (i32 (rw - tw)).tdiv 2)) (i32 (ry + (i32 (rh - fontH)).tdiv 2)) s colour]

def uiDrawButton (x y w h : Int) (label : List (BitVec 8)) (hover : Bool) : List UiCall :=
  .fillRect x y w h (if hover then colBtnHover else colBtnBg) ::
    uiDrawRect x y w h (if hover then colWhite else colAccentDim) ++
    uiDrawTextCentered x y w h label colBtnText

/-- The loop over the characters of a secret: a square for each that has room. -/
def secretDots (x ty w : Int) : Int → Nat → List UiCall × Int
  | tx, 0 => ([], tx)
  | tx, count + 1 =>
    if i32 (tx + 8) < i32 (x + w - 4) then
      let (calls, last) := secretDots x ty w (i32 (tx + 9)) count
      (.fillRect (i32 (tx + 1)) (i32 (ty + 1)) 5 5 colAccent :: calls, last)
    else ([], tx)

def maxChars (w : Int) : Int := (i32 (w - 16)).tdiv (fontW + 1)

/-- The text of an input field, and `tx` behind it. -/
def inputText (x ty w : Int) (s : List (BitVec 8)) (secret : Bool) : List UiCall × Int :=
  let tx := i32 (x + 8)
  let len := i32 s.length
  if s = [] then ([], tx)
  else if secret then secretDots x ty w tx s.length
  else
    ([.drawText tx ty (if len > maxChars w then s.drop (len - maxChars w).toNat else s) colWhite], tx)

/-- The cursor of an input field that has the focus. -/
def inputCursor (x ty w tx : Int) (s : List (BitVec 8)) (secret : Bool) : List UiCall :=
  let clen := i32 s.length
  let cx := if secret then i32 (tx + i32 (clen * 9))
    else i32 (x + 8 + (if clen < maxChars w then clen else maxChars w) * (fontW + 1))
  if cx < i32 (x + w - 4) then [.vline cx ty fontH colAccent] else []

/-- `ui_draw_input`; `none` is `NULL`. -/
def uiDrawInput (x y w h : Int) (text : Option (List (BitVec 8))) (focused secret : Bool) :
    List UiCall :=
  let border := if focused then colInputFocus else colInputIdle
  let frame := if focused then
      uiDrawRect (i32 (x + 1)) (i32 (y + 1)) (i32 (w - 2)) (i32 (h - 2)) 0x00887744
    else []
  let ty := i32 (y + (i32 (h - fontH)).tdiv 2)
  let s := text.getD []
  let (shown, tx) := inputText x ty w s secret
  let cursor := if focused then inputCursor x ty w tx s secret else []
  .fillRect x y w h colInputBg :: uiDrawRect x y w h border ++ frame ++ shown ++ cursor

/-- `ui_draw_icon`: each pixel of the 10 × 10 is a square of 3. -/
def uiDrawIcon (x y : Int) (pixels : Nat → Colour) : List UiCall :=
  let scale := iconDrawSize.tdiv iconRawSize
  let off := (iconDrawSize - iconRawSize * scale).tdiv 2
  (List.range 10).flatMap fun (row : Nat) => (List.range 10).map fun (col : Nat) =>
    let c := pixels (row * 10 + col)
    .fillRect (i32 (x + off + (col : Int) * scale)) (i32 (y + off + (row : Int) * scale)) scale scale
      (if c = 0 then colIconBg else c)

def uiDrawIconTile (x y : Int) (pixels : Nat → Colour) (label : List (BitVec 8)) (selected : Bool) :
    List UiCall :=
  let ix := i32 (x + (64 - iconDrawSize).tdiv 2)
  let iy := i32 (y + 4)
  let lx := i32 (x + (i32 (64 - i32 (i32 label.length * (fontW + 1)))).tdiv 2)
  .fillRect x y 64 80 (if selected then colHover else colBg) ::
    (if selected then uiDrawRect x y 64 80 colAccentDim else []) ++
    .fillRect (i32 (ix - 2)) (i32 (iy - 2)) (iconDrawSize + 4) (iconDrawSize + 4) colIconBg ::
    uiDrawRect (i32 (ix - 2)) (i32 (iy - 2)) (iconDrawSize + 4) (iconDrawSize + 4) colDarkGray ++
    uiDrawIcon ix iy pixels ++
    [.drawText (if lx < x then x else lx) (i32 (iy + iconDrawSize + 6)) label
      (if selected then colAccent else colWhite)]

end PinguinOS.Os
