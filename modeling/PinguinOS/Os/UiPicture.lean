import Mathlib.Data.List.Basic
import Mathlib.Data.List.Range
import Mathlib.Tactic.Common
import PinguinOS.Lib.Grid
import PinguinOS.Os.Ui

/-! What is drawn is the visible part of a picture without edges. -/
namespace PinguinOS.Os

abbrev Point := Int × Int

abbrev Picture := Point → Colour

def OnScreen (q : Point) : Prop := 0 ≤ q.1 ∧ q.1 < gWidth ∧ 0 ≤ q.2 ∧ q.2 < gHeight

/-- A value that an `int` can have. -/
def IsInt (z : Int) : Prop := -2 ^ 31 ≤ z ∧ z < 2 ^ 31

def Picture.rect (p : Picture) (x y w h : Int) (c : Colour) : Picture := fun q =>
  if x ≤ q.1 ∧ q.1 < x + w ∧ y ≤ q.2 ∧ q.2 < y + h then c else p q

/-- The set bits of a glyph, at a place. -/
def InGlyph (c : BitVec 8) (x y : Int) (q : Point) : Prop :=
  x ≤ q.1 ∧ q.1 < x + 8 ∧ y ≤ q.2 ∧ q.2 < y + 8 ∧
    glyphBit c (q.2 - y).toNat (q.1 - x).toNat = true

instance {c : BitVec 8} {x y : Int} {q : Point} : Decidable (InGlyph c x y q) :=
  inferInstanceAs (Decidable (_ ∧ _ ∧ _ ∧ _ ∧ _))

def Picture.char (p : Picture) (x y : Int) (c : BitVec 8) (colour : Colour) : Picture := fun q =>
  if InGlyph c x y q then colour else p q

/-- All characters, each 7 to the right of the one before. -/
def Picture.text (p : Picture) (x y : Int) (s : List (BitVec 8)) (colour : Colour) : Picture :=
  match s with
  | [] => p
  | c :: s => (p.char x y c colour).text (x + 7) y s colour

def Picture.draw (p : Picture) : UiCall → Picture
  | .putPixel x y colour => p.rect x y 1 1 colour
  | .clear colour => fun _ => colour
  | .fillRect x y w h colour => p.rect x y w h colour
  | .hline x y len colour => p.rect x y len 1 colour
  | .vline x y len colour => p.rect x y 1 len colour
  | .drawChar x y c colour => p.char x y c colour
  | .drawText x y s colour => p.text x y s colour
  | .flip => p

/-- No sum of the call overflows. -/
def UiCall.Fits : UiCall → Prop
  | .putPixel x y _ => IsInt x ∧ IsInt y
  | .clear _ | .flip => True
  | .fillRect x y w h _ => IsInt x ∧ IsInt y ∧ IsInt (x + w) ∧ IsInt (y + h)
  | .hline x y len _ => IsInt x ∧ IsInt y ∧ IsInt (x + len)
  | .vline x y len _ => IsInt x ∧ IsInt y ∧ IsInt (y + len)
  | .drawChar x y _ _ => IsInt x ∧ IsInt y
  | .drawText x y _ _ => IsInt x ∧ IsInt y ∧ IsInt (x + 7)

/-- The buffer has the visible part of the picture, and nothing behind it is written. -/
structure Drawn (base g : Pixels) (p : Picture) : Prop where
  visible : ∀ q, OnScreen q → g (pixelAt q.1 q.2) = p q
  frame : ∀ i, 1280 * 720 ≤ i → g i = base i

variable {base g : Pixels} {p p' : Picture} {x y w h a b z : Int} {c : BitVec 8} {colour : Colour}
  {q q' : Point} {l : List Point} {s : List (BitVec 8)}

theorem mem_intRange : z ∈ intRange a b ↔ a ≤ z ∧ z < b := by
  unfold intRange
  rw [List.mem_map]
  constructor
  · rintro ⟨k, hk, rfl⟩
    have hlt := List.mem_range.mp hk
    omega
  · rintro ⟨hlo, hhi⟩
    exact ⟨(z - a).toNat, List.mem_range.mpr (by omega), by omega⟩

theorem i32_eq (h : IsInt z) : i32 z = z := by
  obtain ⟨hlo, hhi⟩ := h
  unfold i32
  rw [Int.bmod_eq_of_le]
  · omega
  · omega

theorem i32_isInt (z : Int) : IsInt (i32 z) := by
  have hlo := Int.le_bmod (x := z) (m := 2 ^ 32) (by decide)
  have hhi := Int.bmod_lt (x := z) (m := 2 ^ 32) (by decide)
  unfold i32 IsInt
  omega

/-- A sum that overflows is not visible. -/
theorem i32_visible (hz : IsInt z) (ha : 0 ≤ a ∧ a < 8) (hb : 0 ≤ b ∧ b < 1280) :
    i32 (z + a) = b ↔ z + a = b := by
  obtain ⟨hlo, hhi⟩ := hz
  by_cases hfit : z + a < 2 ^ 31
  · rw [i32_eq ⟨by omega, hfit⟩]
  · have hwrap : i32 (z + a) = z + a - 2 ^ 32 := by
      unfold i32
      rw [Int.bmod_def]
      omega
    omega

theorem pixelAt_eq (h : OnScreen q) (h' : OnScreen q') :
    pixelAt q.1 q.2 = pixelAt q'.1 q'.2 ↔ q = q' := by
  obtain ⟨hx, hx', hy, hy'⟩ := h
  obtain ⟨kx, kx', ky, ky'⟩ := h'
  unfold gWidth at hx' kx'
  unfold pixelAt gWidth
  constructor
  · intro heq
    have h2 : q.2 = q'.2 := by omega
    exact Prod.ext (by omega) h2
  · rintro rfl
    rfl

theorem pixelAt_lt (h : OnScreen q) : pixelAt q.1 q.2 < 1280 * 720 := by
  obtain ⟨hx, hx', hy, hy'⟩ := h
  unfold gWidth at hx'
  unfold gHeight at hy'
  unfold pixelAt gWidth
  omega

/-- `fb_put` tests whether the point is visible. -/
theorem fbPut_eq (hx : IsInt x) (hy : IsInt y) [Decidable (OnScreen (x, y))] :
    fbPut g x y colour =
      if OnScreen (x, y) then Function.update g (pixelAt x y) colour else g := by
  obtain ⟨hx, hx'⟩ := hx
  obtain ⟨hy, hy'⟩ := hy
  unfold fbPut
  refine if_congr ?_ rfl rfl
  unfold OnScreen gWidth gHeight
  dsimp only
  omega

theorem Drawn.congr (h : Drawn base g p) (hsame : ∀ q, OnScreen q → p q = p' q) :
    Drawn base g p' :=
  ⟨fun q hq => (h.visible q hq).trans (hsame q hq), h.frame⟩

/-- One point is drawn, if it is visible. -/
theorem Drawn.put (h : Drawn base g p) (hx : IsInt x) (hy : IsInt y) :
    Drawn base (fbPut g x y colour) (Function.update p (x, y) colour) := by
  classical
  rw [fbPut_eq hx hy]
  split
  case isTrue hvis =>
    constructor
    · intro q hq
      by_cases heq : q = (x, y)
      · subst heq
        rw [Function.update_self, Function.update_self]
      · rw [Function.update_of_ne heq, Function.update_of_ne, h.visible q hq]
        intro hsame
        exact heq ((pixelAt_eq hq hvis).mp hsame)
    · intro i hi
      have hlt : pixelAt x y < 1280 * 720 := pixelAt_lt hvis
      rw [Function.update_of_ne (by omega), h.frame i hi]
  case isFalse hhidden =>
    refine h.congr fun q hq => (Function.update_of_ne ?_ _ _).symm
    rintro rfl
    exact hhidden hq

/-- The points of a list are drawn. -/
theorem Drawn.points (h : Drawn base g p) (hl : ∀ q ∈ l, IsInt q.1 ∧ IsInt q.2) :
    Drawn base (l.foldl (fun g q => fbPut g q.1 q.2 colour) g)
      (fun q => if q ∈ l then colour else p q) := by
  induction l generalizing g p with
  | nil => exact h.congr fun q _ => (if_neg List.not_mem_nil).symm
  | cons r l ih =>
    obtain ⟨hx, hy⟩ := hl r List.mem_cons_self
    refine (ih (h.put hx hy) fun q hq => hl q (List.mem_cons_of_mem r hq)).congr fun q _ => ?_
    by_cases hq : q ∈ l
    · rw [if_pos hq, if_pos (List.mem_cons_of_mem r hq)]
    · rw [if_neg hq]
      by_cases heq : q = r
      · subst heq
        rw [Function.update_self, if_pos List.mem_cons_self]
      · rw [Function.update_of_ne heq, if_neg]
        intro hmem
        rcases List.mem_cons.mp hmem with hmem | hmem
        · exact heq hmem
        · exact hq hmem

/-- The points between two corners, row by row. -/
def rectPoints (x1 y1 x2 y2 : Int) : List Point :=
  (intRange y1 y2).flatMap fun row => (intRange x1 x2).map fun col => (col, row)

theorem mem_rectPoints {x1 y1 x2 y2 : Int} :
    q ∈ rectPoints x1 y1 x2 y2 ↔ (x1 ≤ q.1 ∧ q.1 < x2) ∧ y1 ≤ q.2 ∧ q.2 < y2 := by
  unfold rectPoints
  rw [List.mem_flatMap]
  constructor
  · rintro ⟨row, hrow, hq⟩
    obtain ⟨col, hcol, rfl⟩ := List.mem_map.mp hq
    exact ⟨mem_intRange.mp hcol, mem_intRange.mp hrow⟩
  · rintro ⟨hcol, hrow⟩
    exact ⟨q.2, mem_intRange.mpr hrow, List.mem_map.mpr ⟨q.1, mem_intRange.mpr hcol, rfl⟩⟩

/-- A loop over visible points needs no test. -/
theorem Drawn.stores (h : Drawn base g p) (colour : Colour) (hl : ∀ q ∈ l, OnScreen q) :
    Drawn base (l.foldl (fun g q => Function.update g (pixelAt q.1 q.2) colour) g)
      (fun q => if q ∈ l then colour else p q) := by
  classical
  have hint : ∀ q ∈ l, IsInt q.1 ∧ IsInt q.2 := by
    intro q hq
    obtain ⟨hx, hx', hy, hy'⟩ := hl q hq
    unfold gWidth at hx'
    unfold gHeight at hy'
    unfold IsInt
    omega
  have heq : l.foldl (fun g q => Function.update g (pixelAt q.1 q.2) colour) g =
      l.foldl (fun g q => fbPut g q.1 q.2 colour) g := by
    refine List.foldl_ext _ _ _ fun g q hq => ?_
    rw [fbPut_eq (hint q hq).1 (hint q hq).2]
    exact (if_pos (hl q hq)).symm
  rw [heq]
  exact h.points hint

/-- The loops over rows and columns whose bounds are clipped. -/
theorem Drawn.clipped (h : Drawn base g p) (colour : Colour) {x1 y1 x2 y2 : Int} (hx1 : x1 = max 0 x)
    (hy1 : y1 = max 0 y) (hx2 : x2 = min (x + w) gWidth) (hy2 : y2 = min (y + z) gHeight) :
    Drawn base ((intRange y1 y2).foldl (fun g row => (intRange x1 x2).foldl
      (fun g col => Function.update g (pixelAt col row) colour) g) g) (p.rect x y w z colour) := by
  have hloop : (intRange y1 y2).foldl (fun g row => (intRange x1 x2).foldl
      (fun g col => Function.update g (pixelAt col row) colour) g) g =
      (rectPoints x1 y1 x2 y2).foldl
        (fun g q => Function.update g (pixelAt q.1 q.2) colour) g := by
    unfold rectPoints
    rw [List.foldl_flatMap]
    refine List.foldl_ext _ _ _ fun g row _ => ?_
    rw [List.foldl_map]
  rw [hloop]
  have hstores := h.stores (l := rectPoints x1 y1 x2 y2) colour ?_
  · refine hstores.congr fun q hq => ?_
    obtain ⟨hqx, hqx', hqy, hqy'⟩ := hq
    refine if_congr ?_ rfl rfl
    rw [mem_rectPoints]
    omega
  · intro q hq
    obtain ⟨⟨hqx, hqx'⟩, hqy, hqy'⟩ := mem_rectPoints.mp hq
    unfold OnScreen
    omega

theorem max_eq (x : Int) : (if x < 0 then 0 else x) = max 0 x := by omega

theorem min_eq (x b : Int) : (if x > b then b else x) = min x b := by omega

theorem Drawn.fillRect (h : Drawn base g p) (hx : IsInt (x + w)) (hy : IsInt (y + z)) :
    Drawn base (uiFillRect g x y w z colour) (p.rect x y w z colour) := by
  unfold uiFillRect
  dsimp only
  rw [i32_eq hx, i32_eq hy]
  exact h.clipped colour (max_eq x) (max_eq y) (min_eq _ _) (min_eq _ _)

/-- A range of one. -/
theorem intRange_one {n : Int} (hlo : 0 ≤ z) (hhi : z < n) :
    intRange (max 0 z) (min (z + 1) n) = [z] := by
  have hmax : max 0 z = z := by omega
  have hmin : min (z + 1) n = z + 1 := by omega
  have hone : (z + 1 - z).toNat = 1 := by omega
  rw [hmax, hmin]
  unfold intRange
  rw [hone, List.range_one, List.map_singleton, Nat.cast_zero, Int.add_zero]

theorem Drawn.hline (h : Drawn base g p) (hx : IsInt (x + w)) :
    Drawn base (uiHline g x y w colour) (p.rect x y w 1 colour) := by
  unfold uiHline
  dsimp only
  split
  case isTrue hout =>
    refine h.congr fun q hq => (if_neg ?_).symm
    obtain ⟨-, -, hqy, hqy'⟩ := hq
    omega
  case isFalse hin =>
    have hloop := h.clipped (y := y) (z := 1) (w := w) (x := x) colour rfl rfl rfl rfl
    rw [intRange_one (by omega) (by omega), List.foldl_cons, List.foldl_nil] at hloop
    rw [i32_eq hx, max_eq, min_eq]
    exact hloop

theorem Drawn.vline (h : Drawn base g p) (hy : IsInt (y + z)) :
    Drawn base (uiVline g x y z colour) (p.rect x y 1 z colour) := by
  unfold uiVline
  dsimp only
  split
  case isTrue hout =>
    refine h.congr fun q hq => (if_neg ?_).symm
    obtain ⟨hqx, hqx', -, -⟩ := hq
    omega
  case isFalse hin =>
    have hloop := h.clipped (y := y) (z := z) (w := 1) (x := x) colour rfl rfl rfl rfl
    rw [intRange_one (by omega) (by omega)] at hloop
    rw [i32_eq hy, max_eq, min_eq]
    exact hloop

theorem Drawn.clear (h : Drawn base g p) : Drawn base (uiClear g colour) (fun _ => colour) := by
  unfold uiClear
  rw [Grid.foldl_values]
  constructor
  · intro q hq
    exact if_pos (pixelAt_lt hq)
  · intro i hi
    exact (if_neg (Nat.not_lt.mpr hi)).trans (h.frame i hi)

/-- The points of a character, in the order of the loops. -/
def charPoints (x y : Int) (c : BitVec 8) : List Point :=
  (List.range 8).flatMap fun row =>
    ((List.range 8).filter (glyphBit c row)).map fun (col : Nat) =>
      (i32 (x + (col : Int)), i32 (y + (row : Int)))

theorem charPixels_eq : charPixels g x y c colour =
    (charPoints x y c).foldl (fun g q => fbPut g q.1 q.2 colour) g := by
  unfold charPixels charPoints
  rw [List.foldl_flatMap]
  refine List.foldl_ext _ _ _ fun g row _ => ?_
  rw [List.foldl_map, List.foldl_filter]

theorem mem_charPoints (hx : IsInt x) (hy : IsInt y) (hq : OnScreen q) :
    q ∈ charPoints x y c ↔ InGlyph c x y q := by
  obtain ⟨hqx, hqx', hqy, hqy'⟩ := hq
  have hqx' : q.1 < 1280 := hqx'
  have hqy' : q.2 < 720 := hqy'
  unfold charPoints InGlyph
  rw [List.mem_flatMap]
  constructor
  · rintro ⟨row, hrow, hmem⟩
    obtain ⟨col, hcol, hpoint⟩ := List.mem_map.mp hmem
    obtain ⟨hcol, hbit⟩ := List.mem_filter.mp hcol
    have hcol := List.mem_range.mp hcol
    have hrow := List.mem_range.mp hrow
    obtain ⟨h1, h2⟩ := Prod.ext_iff.mp hpoint
    have h1 := (i32_visible hx ⟨by omega, by omega⟩ ⟨hqx, hqx'⟩).mp h1
    have h2 := (i32_visible hy ⟨by omega, by omega⟩ ⟨hqy, by omega⟩).mp h2
    have hcol' : (q.1 - x).toNat = col := by omega
    have hrow' : (q.2 - y).toNat = row := by omega
    rw [hcol', hrow']
    exact ⟨by omega, by omega, by omega, by omega, hbit⟩
  · rintro ⟨hx1, hx2, hy1, hy2, hbit⟩
    refine ⟨(q.2 - y).toNat, List.mem_range.mpr (by omega), List.mem_map.mpr ⟨(q.1 - x).toNat, ?_, ?_⟩⟩
    · exact List.mem_filter.mpr ⟨List.mem_range.mpr (by omega), hbit⟩
    · refine Prod.ext ?_ ?_
      · exact (i32_visible hx ⟨by omega, by omega⟩ ⟨hqx, hqx'⟩).mpr (by omega)
      · exact (i32_visible hy ⟨by omega, by omega⟩ ⟨hqy, by omega⟩).mpr (by omega)

theorem Drawn.char (h : Drawn base g p) (hx : IsInt x) (hy : IsInt y) :
    Drawn base (charPixels g x y c colour) (p.char x y c colour) := by
  rw [charPixels_eq]
  refine (h.points ?_).congr fun q hq => if_congr (mem_charPoints hx hy hq) rfl rfl
  intro q hq
  obtain ⟨row, -, hmem⟩ := List.mem_flatMap.mp hq
  obtain ⟨col, -, rfl⟩ := List.mem_map.mp hmem
  exact ⟨i32_isInt _, i32_isInt _⟩

/-- Text that begins to the right of the screen is not seen. -/
theorem text_hidden (hx : gWidth ≤ x) (hq : OnScreen q) : p.text x y s colour q = p q := by
  induction s generalizing x p with
  | nil => rfl
  | cons c s ih =>
    refine (ih (show gWidth ≤ x + 7 by omega)).trans (if_neg ?_)
    rintro ⟨hlo, -⟩
    obtain ⟨-, hqx, -⟩ := hq
    omega

/-- The text ends early, but nothing that is seen is missing. -/
theorem Drawn.text (h : Drawn base g p) (hx : IsInt x) (hy : IsInt y) (hnext : IsInt (x + 7)) :
    Drawn base (uiDrawText g x y s colour).2 (p.text x y s colour) := by
  induction s generalizing g p x with
  | nil => exact h
  | cons c s ih =>
    have hfirst : Drawn base (charPixels g x y c colour) (p.char x y c colour) := h.char hx hy
    have hstep : i32 (x + fontW + 1) = x + 7 := by
      have hsum : x + fontW + 1 = x + 7 := Int.add_assoc x 6 1
      rw [hsum, i32_eq hnext]
    unfold uiDrawText uiDrawChar
    dsimp only
    rw [hstep]
    split
    case isTrue hright =>
      exact hfirst.congr fun q hq => (text_hidden hright hq).symm
    case isFalse hin =>
      have hlt : x + 7 < 1280 := Int.not_le.mp hin
      refine ih hfirst hnext ?_
      obtain ⟨hlo, -⟩ := hnext
      exact ⟨by omega, by omega⟩

theorem Drawn.call (h : Drawn base g p) {call : UiCall} (hfits : call.Fits) :
    Drawn base (drawCall g call) (p.draw call) := by
  cases call with
  | putPixel x y colour =>
    refine (h.put hfits.1 hfits.2).congr fun q _ => ?_
    unfold Picture.draw Picture.rect
    rw [Function.update_apply]
    refine if_congr ?_ rfl rfl
    rw [Prod.ext_iff]
    dsimp only
    omega
  | clear colour => exact h.clear
  | fillRect x y w z colour => exact h.fillRect hfits.2.2.1 hfits.2.2.2
  | hline x y w colour => exact h.hline hfits.2.2
  | vline x y z colour => exact h.vline hfits.2.2
  | drawChar x y c colour => exact h.char hfits.1 hfits.2
  | drawText x y s colour => exact h.text hfits.1 hfits.2.1 hfits.2.2
  | flip => exact h

/-! With the framebuffer. -/

/-- The picture, and the one that was shown last. -/
structure Canvas where
  picture : Picture
  shown : Picture

def Canvas.call (v : Canvas) : UiCall → Canvas
  | .flip => { v with shown := v.picture }
  | call => { v with picture := v.picture.draw call }

structure Paints (base : Ui) (u : Ui) (v : Canvas) : Prop where
  back : Drawn base.back u.back v.picture
  fb : Drawn base.fb u.fb v.shown

theorem Paints.flip {base u : Ui} {v : Canvas} (h : Paints base u v) :
    Paints base (uiFlip u) ⟨v.picture, v.picture⟩ := by
  unfold uiFlip
  rw [Grid.foldl_values]
  refine ⟨h.back, ?_⟩
  constructor
  · intro q hq
    exact (if_pos (pixelAt_lt hq)).trans (h.back.visible q hq)
  · intro i hi
    exact (if_neg (Nat.not_lt.mpr hi)).trans (h.fb.frame i hi)

/-- A call that draws leaves the framebuffer alone. -/
theorem Paints.draw {base u : Ui} {v : Canvas} {g : Pixels} {p : Picture} (h : Paints base u v)
    (hdrawn : Drawn base.back g p) : Paints base { u with back := g } { v with picture := p } :=
  ⟨hdrawn, h.fb⟩

theorem Paints.call {base u : Ui} {v : Canvas} (h : Paints base u v) {call : UiCall}
    (hfits : call.Fits) : Paints base (uiCall u call) (v.call call) := by
  have hdrawn := h.back.call hfits
  cases call with
  | flip => exact h.flip
  | putPixel x y colour => exact h.draw hdrawn
  | clear colour => exact h.draw hdrawn
  | fillRect x y w z colour => exact h.draw hdrawn
  | hline x y w colour => exact h.draw hdrawn
  | vline x y z colour => exact h.draw hdrawn
  | drawChar x y c colour => exact h.draw hdrawn
  | drawText x y s colour => exact h.draw hdrawn

/-- After any calls the framebuffer has the visible part of what was drawn up to the last flip and
the back buffer that of all that was drawn, and no pixel behind the two is written. -/
theorem ui_paints_picture (base : Ui) (calls : List UiCall) (hfits : ∀ call ∈ calls, call.Fits) :
    Paints base (calls.foldl uiCall (uiInit base))
      (calls.foldl Canvas.call ⟨fun _ => 0, fun _ => 0⟩) := by
  have hbase : Paints base base
      ⟨fun q => base.back (pixelAt q.1 q.2), fun q => base.fb (pixelAt q.1 q.2)⟩ :=
    ⟨⟨fun _ _ => rfl, fun _ _ => rfl⟩, ⟨fun _ _ => rfl, fun _ _ => rfl⟩⟩
  have hstart : Paints base (uiInit base) ⟨fun _ => 0, fun _ => 0⟩ :=
    (hbase.draw hbase.back.clear).flip
  generalize uiInit base = u at hstart ⊢
  generalize (⟨fun _ => 0, fun _ => 0⟩ : Canvas) = v at hstart ⊢
  induction calls generalizing u v with
  | nil => exact hstart
  | cons call calls ih =>
    exact ih (fun c hc => hfits c (List.mem_cons_of_mem call hc)) _ _
      (hstart.call (hfits call List.mem_cons_self))

/-- Both buffers are black. -/
def blackUi : Ui := ⟨fun _ => 0, fun _ => 0⟩

theorem ui_paints_picture_off_screen :
    Paints blackUi ([UiCall.fillRect (-5) 700 20 40 1, .flip].foldl uiCall (uiInit blackUi))
      ([UiCall.fillRect (-5) 700 20 40 1, .flip].foldl Canvas.call ⟨fun _ => 0, fun _ => 0⟩) := by
  refine ui_paints_picture blackUi _ ?_
  intro call hcall
  rcases List.mem_cons.mp hcall with rfl | hcall
  · exact ⟨⟨by decide, by decide⟩, ⟨by decide, by decide⟩, ⟨by decide, by decide⟩, by decide, by decide⟩
  · cases List.mem_singleton.mp hcall
    trivial

end PinguinOS.Os
