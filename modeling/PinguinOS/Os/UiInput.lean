import PinguinOS.Os.UiPicture

/-! The functions that draw a box draw inside it, whatever text they are given. -/
namespace PinguinOS.Os

def Box (x y w h : Int) (q : Point) : Prop := x ≤ q.1 ∧ q.1 < x + w ∧ y ≤ q.2 ∧ q.2 < y + h

/-- The call draws inside the box, and no sum of it overflows. -/
def UiCall.Inside (B : Point → Prop) (call : UiCall) : Prop :=
  call.Fits ∧ ∀ (p : Picture) q, ¬ B q → p.draw call q = p q

/-- Coordinates and sizes far from an overflow; there is room for a border and a line of text. -/
structure BoxFits (x y w h : Int) : Prop where
  x : -2 ^ 28 ≤ x ∧ x ≤ 2 ^ 28
  y : -2 ^ 28 ≤ y ∧ y ≤ 2 ^ 28
  w : 16 ≤ w ∧ w ≤ 2 ^ 28
  h : 8 ≤ h ∧ h ≤ 2 ^ 28

variable {x y w h a b u v tx ty : Int} {colour : Colour} {q : Point} {p : Picture} {g : Pixels}
  {calls : List UiCall} {s : List (BitVec 8)}

theorem i32_of_bounds {z : Int} (hlo : -2 ^ 31 ≤ z) (hhi : z < 2 ^ 31) : i32 z = z := i32_eq ⟨hlo, hhi⟩

theorem rect_outside (hq : ¬ Box a b u v q) : p.rect a b u v colour q = p q := if_neg hq

theorem inside_fillRect (hbox : BoxFits x y w h) (hu : 0 ≤ u) (hv : 0 ≤ v) (ha : x ≤ a)
    (hau : a + u ≤ x + w) (hb : y ≤ b) (hbv : b + v ≤ y + h) :
    (UiCall.fillRect a b u v colour).Inside (Box x y w h) := by
  obtain ⟨hx, hy, hw, hh⟩ := hbox
  refine ⟨⟨⟨by omega, by omega⟩, ⟨by omega, by omega⟩, ⟨by omega, by omega⟩, by omega, by omega⟩, ?_⟩
  intro p q hq
  refine rect_outside fun hin => hq ?_
  obtain ⟨h1, h2, h3, h4⟩ := hin
  exact ⟨by omega, by omega, by omega, by omega⟩

theorem inside_hline (hbox : BoxFits x y w h) (hu : 0 ≤ u) (ha : x ≤ a) (hau : a + u ≤ x + w)
    (hb : y ≤ b) (hb' : b < y + h) : (UiCall.hline a b u colour).Inside (Box x y w h) := by
  obtain ⟨hx, hy, hw, hh⟩ := hbox
  refine ⟨⟨⟨by omega, by omega⟩, ⟨by omega, by omega⟩, by omega, by omega⟩, ?_⟩
  intro p q hq
  refine rect_outside fun hin => hq ?_
  obtain ⟨h1, h2, h3, h4⟩ := hin
  exact ⟨by omega, by omega, by omega, by omega⟩

theorem inside_vline (hbox : BoxFits x y w h) (hv : 0 ≤ v) (ha : x ≤ a) (ha' : a < x + w)
    (hb : y ≤ b) (hbv : b + v ≤ y + h) : (UiCall.vline a b v colour).Inside (Box x y w h) := by
  obtain ⟨hx, hy, hw, hh⟩ := hbox
  refine ⟨⟨⟨by omega, by omega⟩, ⟨by omega, by omega⟩, by omega, by omega⟩, ?_⟩
  intro p q hq
  refine rect_outside fun hin => hq ?_
  obtain ⟨h1, h2, h3, h4⟩ := hin
  exact ⟨by omega, by omega, by omega, by omega⟩

/-- A text of `n` characters is `7 n + 1` wide at most. -/
theorem text_outside (hq : ¬ Box a b (7 * s.length + 1) 8 q) : p.text a b s colour q = p q := by
  induction s generalizing a p with
  | nil => rfl
  | cons c s ih =>
    rw [List.length_cons] at hq
    refine (ih fun hin => hq ?_).trans (if_neg fun hin => hq ?_)
    · obtain ⟨h1, h2, h3, h4⟩ := hin
      exact ⟨by omega, by omega, h3, h4⟩
    · obtain ⟨h1, h2, h3, h4, -⟩ := hin
      exact ⟨h1, by omega, h3, h4⟩

theorem inside_drawText (hbox : BoxFits x y w h) (ha : x ≤ a)
    (hlen : a + (7 * s.length + 1) ≤ x + w) (hb : y ≤ b) (hb' : b + 8 ≤ y + h) :
    (UiCall.drawText a b s colour).Inside (Box x y w h) := by
  obtain ⟨hx, hy, hw, hh⟩ := hbox
  refine ⟨⟨⟨by omega, by omega⟩, ⟨by omega, by omega⟩, by omega, by omega⟩, ?_⟩
  intro p q hq
  refine text_outside fun hin => hq ?_
  obtain ⟨h1, h2, h3, h4⟩ := hin
  exact ⟨by omega, by omega, by omega, by omega⟩

/-- A border inside the box. -/
theorem inside_drawRect (hbox : BoxFits x y w h) (hu : 1 ≤ u) (hv : 1 ≤ v) (ha : x ≤ a)
    (hau : a + u ≤ x + w) (hb : y ≤ b) (hbv : b + v ≤ y + h) :
    ∀ call ∈ uiDrawRect a b u v colour, call.Inside (Box x y w h) := by
  have hfits := hbox
  obtain ⟨hx, hy, hw, hh⟩ := hfits
  have hbottom : i32 (b + v - 1) = b + v - 1 := i32_of_bounds (by omega) (by omega)
  have hright : i32 (a + u - 1) = a + u - 1 := i32_of_bounds (by omega) (by omega)
  intro call hcall
  unfold uiDrawRect at hcall
  rw [hbottom, hright] at hcall
  simp only [List.mem_cons, List.not_mem_nil, or_false] at hcall
  rcases hcall with rfl | rfl | rfl | rfl
  · exact inside_hline hbox (by omega) ha hau hb (by omega)
  · exact inside_hline hbox (by omega) ha hau (by omega) (by omega)
  · exact inside_vline hbox (by omega) ha (by omega) hb hbv
  · exact inside_vline hbox (by omega) (by omega) (by omega) hb hbv

/-- The squares of a secret. -/
theorem inside_secretDots (hbox : BoxFits x y w h) (hty : y ≤ ty) (hty' : ty + 8 ≤ y + h) (n : Nat)
    (htx : x + 8 ≤ tx) (htx' : tx ≤ x + w) :
    (∀ call ∈ (secretDots x ty w tx n).1, call.Inside (Box x y w h)) ∧
    x + 8 ≤ (secretDots x ty w tx n).2 ∧ (secretDots x ty w tx n).2 ≤ x + w := by
  have hfits := hbox
  obtain ⟨hx, hy, hw, hh⟩ := hfits
  induction n generalizing tx with
  | zero => exact ⟨fun _ hcall => absurd hcall List.not_mem_nil, htx, htx'⟩
  | succ n ih =>
    have hnext : i32 (tx + 8) = tx + 8 := i32_of_bounds (by omega) (by omega)
    have hend : i32 (x + w - 4) = x + w - 4 := i32_of_bounds (by omega) (by omega)
    have hstep : i32 (tx + 9) = tx + 9 := i32_of_bounds (by omega) (by omega)
    have hleft : i32 (tx + 1) = tx + 1 := i32_of_bounds (by omega) (by omega)
    have htop : i32 (ty + 1) = ty + 1 := i32_of_bounds (by omega) (by omega)
    unfold secretDots
    rw [hnext, hend, hstep, hleft, htop]
    split
    case isTrue hroom =>
      obtain ⟨hcalls, hlast⟩ := ih (by omega : x + 8 ≤ tx + 9) (by omega)
      refine ⟨?_, hlast⟩
      intro call hcall
      rcases List.mem_cons.mp hcall with rfl | hcall
      · exact inside_fillRect hbox (by omega) (by omega) (by omega) (by omega) (by omega) (by omega)
      · exact hcalls call hcall
    case isFalse => exact ⟨fun _ hcall => absurd hcall List.not_mem_nil, htx, htx'⟩

/-- Only the last characters that have room are drawn. -/
theorem shown_length {len maxChars : Int} (hlen : len = s.length) (hmax : 0 ≤ maxChars) :
    ((if len > maxChars then s.drop (len - maxChars).toNat else s).length : Int) ≤ maxChars := by
  split
  case isTrue hlong =>
    rw [List.length_drop]
    omega
  case isFalse hshort => omega

theorem maxChars_eq (hbox : BoxFits x y w h) : maxChars w = (w - 16) / 7 := by
  obtain ⟨hx, hy, hw, hh⟩ := hbox
  unfold maxChars
  rw [i32_of_bounds (by omega) (by omega)]
  exact Int.tdiv_eq_ediv_of_nonneg (by omega)

/-- The text stays inside the field, and so does its end. -/
theorem inside_inputText (hbox : BoxFits x y w h) (hs : s.length ≤ 2 ^ 26) (hty : y ≤ ty)
    (hty' : ty + 8 ≤ y + h) (secret : Bool) :
    (∀ call ∈ (inputText x ty w s secret).1, call.Inside (Box x y w h)) ∧
    x + 8 ≤ (inputText x ty w s secret).2 ∧ (inputText x ty w s secret).2 ≤ x + w := by
  have hmax := maxChars_eq hbox
  have hfits := hbox
  obtain ⟨hx, hy, hw, hh⟩ := hfits
  have htx : i32 (x + 8) = x + 8 := i32_of_bounds (by omega) (by omega)
  have hlen : i32 s.length = s.length := i32_of_bounds (by omega) (by omega)
  unfold inputText
  rw [htx, hlen, hmax]
  dsimp only
  split
  case isTrue => exact ⟨fun _ hcall => absurd hcall List.not_mem_nil, by omega, by omega⟩
  case isFalse =>
    split
    case isTrue => exact inside_secretDots hbox hty hty' s.length (by omega) (by omega)
    case isFalse =>
      have hroom : 0 ≤ (w - 16) / 7 := by omega
      have hshown := shown_length (s := s) rfl hroom
      refine ⟨?_, by omega, by omega⟩
      intro call hcall
      rw [List.mem_singleton.mp hcall]
      exact inside_drawText hbox (by omega) (by omega) hty hty'

/-- The cursor is left out where it would not be inside. -/
theorem inside_inputCursor (hbox : BoxFits x y w h) (hs : s.length ≤ 2 ^ 26) (hty : y ≤ ty)
    (hty' : ty + 8 ≤ y + h) (htx : x + 8 ≤ tx) (htx' : tx ≤ x + w) (secret : Bool) :
    ∀ call ∈ inputCursor x ty w tx s secret, call.Inside (Box x y w h) := by
  have hmax := maxChars_eq hbox
  have hfits := hbox
  obtain ⟨hx, hy, hw, hh⟩ := hfits
  have hlen : i32 s.length = s.length := i32_of_bounds (by omega) (by omega)
  have hend : i32 (x + w - 4) = x + w - 4 := i32_of_bounds (by omega) (by omega)
  have hdots : i32 ((s.length : Int) * 9) = s.length * 9 := i32_of_bounds (by omega) (by omega)
  have hsecret : i32 (tx + s.length * 9) = tx + s.length * 9 :=
    i32_of_bounds (by omega) (by omega)
  have hplain : ∀ k : Int, 0 ≤ k → k ≤ (w - 16) / 7 → x ≤ i32 (x + 8 + k * (fontW + 1)) := by
    intro k hk hk'
    unfold fontW
    rw [i32_of_bounds (by omega) (by omega)]
    omega
  have hcursor : ∀ cx : Int, x ≤ cx →
      ∀ call ∈ (if cx < x + w - 4 then [UiCall.vline cx ty fontH colAccent] else []),
        call.Inside (Box x y w h) := by
    intro cx hcx call hcall
    split at hcall
    case isTrue hroom =>
      rw [List.mem_singleton.mp hcall]
      unfold fontH
      exact inside_vline hbox (by omega) hcx (by omega) hty hty'
    case isFalse => exact absurd hcall List.not_mem_nil
  unfold inputCursor
  rw [hlen, hmax, hend]
  dsimp only
  rw [hdots, hsecret]
  refine hcursor _ ?_
  split
  case isTrue => omega
  case isFalse =>
    split
    case isTrue hshort => exact hplain _ (by omega) (by omega)
    case isFalse => exact hplain _ (by omega) (by omega)

/-- All calls of the field draw inside it. -/
theorem inside_input (hbox : BoxFits x y w h) (text : Option (List (BitVec 8)))
    (hlen : (text.getD []).length ≤ 2 ^ 26) (focused secret : Bool) :
    ∀ call ∈ uiDrawInput x y w h text focused secret, call.Inside (Box x y w h) := by
  have hfits := hbox
  obtain ⟨hx, hy, hw, hh⟩ := hfits
  have hx1 : i32 (x + 1) = x + 1 := i32_of_bounds (by omega) (by omega)
  have hy1 : i32 (y + 1) = y + 1 := i32_of_bounds (by omega) (by omega)
  have hw2 : i32 (w - 2) = w - 2 := i32_of_bounds (by omega) (by omega)
  have hh2 : i32 (h - 2) = h - 2 := i32_of_bounds (by omega) (by omega)
  have hty : i32 (y + (i32 (h - fontH)).tdiv 2) = y + (h - 8) / 2 := by
    unfold fontH
    rw [i32_of_bounds (by omega : -2 ^ 31 ≤ h - 8) (by omega), Int.tdiv_eq_ediv_of_nonneg (by omega)]
    exact i32_of_bounds (by omega) (by omega)
  have htop : y ≤ y + (h - 8) / 2 := by omega
  have hbottom : y + (h - 8) / 2 + 8 ≤ y + h := by omega
  obtain ⟨htext, htx, htx'⟩ := inside_inputText hbox hlen htop hbottom secret
  have hcursor := inside_inputCursor hbox hlen htop hbottom htx htx' secret
  intro call hcall
  unfold uiDrawInput at hcall
  rw [hx1, hy1, hw2, hh2, hty] at hcall
  dsimp only at hcall
  simp only [List.cons_append, List.mem_cons, List.mem_append] at hcall
  rcases hcall with rfl | ((hborder | hframe) | hshown) | hlast
  · exact inside_fillRect hbox (by omega) (by omega) (by omega) (by omega) (by omega) (by omega)
  · exact inside_drawRect hbox (by omega) (by omega) (by omega) (by omega) (by omega) (by omega) call
      hborder
  · split at hframe
    case isTrue =>
      exact inside_drawRect hbox (by omega) (by omega) (by omega) (by omega) (by omega) (by omega)
        call hframe
    case isFalse => exact absurd hframe List.not_mem_nil
  · exact htext call hshown
  · split at hlast
    case isTrue => exact hcursor call hlast
    case isFalse => exact absurd hlast List.not_mem_nil

/-- A picture keeps what lies outside the box. -/
theorem picture_outside {B : Point → Prop} (hcalls : ∀ call ∈ calls, call.Inside B) (hq : ¬ B q) :
    calls.foldl Picture.draw p q = p q := by
  induction calls generalizing p with
  | nil => rfl
  | cons call calls ih =>
    rw [List.foldl_cons, ih fun c hc => hcalls c (List.mem_cons_of_mem call hc)]
    exact (hcalls call List.mem_cons_self).2 p q hq

theorem Drawn.run {base : Pixels} (h : Drawn base g p) (hfits : ∀ call ∈ calls, call.Fits) :
    Drawn base (calls.foldl drawCall g) (calls.foldl Picture.draw p) := by
  induction calls generalizing g p with
  | nil => exact h
  | cons call calls ih =>
    exact ih (h.call (hfits call List.mem_cons_self))
      fun c hc => hfits c (List.mem_cons_of_mem call hc)

/-- A pixel that no visible point of the box has is not written. -/
theorem stays_inside {B : Point → Prop} (hcalls : ∀ call ∈ calls, call.Inside B) (i : Nat)
    (hi : ∀ q, OnScreen q → B q → pixelAt q.1 q.2 ≠ i) : calls.foldl drawCall g i = g i := by
  have hstart : Drawn g g fun q => g (pixelAt q.1 q.2) := ⟨fun _ _ => rfl, fun _ _ => rfl⟩
  have hdrawn := hstart.run fun call hcall => (hcalls call hcall).1
  by_cases hlt : i < 1280 * 720
  · have hvis : OnScreen ((i % 1280 : Nat), (i / 1280 : Nat)) := by
      unfold OnScreen gWidth gHeight
      dsimp only
      omega
    have hpixel : pixelAt (i % 1280 : Nat) (i / 1280 : Nat) = i := by
      unfold pixelAt gWidth
      omega
    have hkept := hdrawn.visible _ hvis
    rw [picture_outside hcalls fun hin => hi _ hvis hin hpixel] at hkept
    rwa [hpixel] at hkept
  · exact hdrawn.frame i (by omega)

end PinguinOS.Os
