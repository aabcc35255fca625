import PinguinOS.Klib.Numbers

/-! `vsnprintf`: the code, and the text that a format and its arguments stand for. -/
namespace PinguinOS.Klib

/-- The characters of a literal. -/
def str (s : String) : List Byte := s.toList.map ch

/-- The words of the argument list, and the string at an address. `long` has one word too. -/
structure Args where
  word : Nat → BitVec 32
  string : BitVec 32 → List Byte

/-- `pos`, and the writes to `buf`, the last one first. -/
structure Output where
  pos : BitVec 32
  writes : List (Nat × Byte)

/-- `ap` is the number of the arguments read, `tmps` what was written to `tmp`, the last number
first. -/
structure Printer where
  out : Output
  ap : Nat
  tmps : List (List Byte)

/-- What stands between `%` and the conversion. -/
structure Flags where
  la : Bool
  pc : Byte
  w : BitVec 32
  lng : Bool
  deriving DecidableEq

/-- `EMIT` -/
def emit (size : BitVec 32) (o : Output) (c : Byte) : Output where
  pos := o.pos + 1
  writes := if o.pos + 1 < size then (o.pos.toNat, c) :: o.writes else o.writes

/-- `EMITS` -/
def emits (size : BitVec 32) (o : Output) (s : List Byte) : Output := s.foldl (emit size) o

/-- `for(int i=l;i<w;i++)EMIT(c)` -/
def emitPad (size : BitVec 32) (o : Output) (l w : Int) (c : Byte) : Output :=
  emits size o (List.replicate (w - l).toNat c)

/-- The width wraps. -/
def widthLoop : List Byte → BitVec 32 → BitVec 32 × List Byte
  | [], w => (w, [])
  | c :: fmt, w =>
    if ch '0' ≤ c ∧ c ≤ ch '9' then widthLoop fmt (w * 10 + (c.setWidth 32 - 0x30))
    else (w, c :: fmt)

/-- The flags, the width and the modifier, and the rest from the conversion on. -/
def readFlags (fmt : List Byte) : Flags × List Byte :=
  let la := fmt.headD 0 == ch '-'
  let fmt := if la then fmt.tail else fmt
  let zero := fmt.headD 0 == ch '0' && !la
  let fmt := if zero then fmt.tail else fmt
  let (w, fmt) := widthLoop fmt 0
  let lng := fmt.headD 0 == ch 'l'
  let fmt := if lng then fmt.tail else fmt
  (⟨la, if zero then ch '0' else ch ' ', w, lng⟩, fmt)

/-- A number in `tmp`, as `uitoa` and `itoa` return it; `%b` is not padded on the right. -/
def emitNumber (size : BitVec 32) (f : Flags) (right : Bool) (n : List Byte × Nat)
    (o : Output) : Output :=
  let o := if f.la then o else emitPad size o n.2 f.w.toInt f.pc
  let o := emits size o (n.1.take n.2)
  if f.la && right then emitPad size o n.2 f.w.toInt (ch ' ') else o

/-- The `switch` over the conversion. -/
def convert (size : BitVec 32) (args : Args) (f : Flags) (conv : Byte) (p : Printer) : Printer :=
  let v := args.word p.ap
  let w := f.w.toInt
  if conv = ch 'c' then
    let o := if f.la then p.out else emitPad size p.out 1 w (ch ' ')
    let o := emit size o (v.setWidth 8)
    let o := if f.la then emitPad size o 1 w (ch ' ') else o
    { p with out := o, ap := p.ap + 1 }
  else if conv = ch 's' then
    let s := if v = 0 then str "(null)" else args.string v
    let sl := (BitVec.ofNat 32 s.length).toInt
    let o := if f.la then p.out else emitPad size p.out sl w (ch ' ')
    let o := emits size o s
    let o := if f.la then emitPad size o sl w (ch ' ') else o
    { p with out := o, ap := p.ap + 1 }
  else if conv = ch 'd' ∨ conv = ch 'i' then
    let n := itoa v
    ⟨emitNumber size f true n p.out, p.ap + 1, n.1 :: p.tmps⟩
  else if conv = ch 'u' then
    let n := uitoa v 10 false
    ⟨emitNumber size f true n p.out, p.ap + 1, n.1 :: p.tmps⟩
  else if conv = ch 'x' ∨ conv = ch 'X' then
    let n := uitoa v 16 (conv == ch 'X')
    ⟨emitNumber size f true n p.out, p.ap + 1, n.1 :: p.tmps⟩
  else if conv = ch 'p' then
    let o := emit size (emit size p.out (ch '0')) (ch 'x')
    let n := uitoa v 16 false
    let o := emitPad size o n.2 8 (ch '0')
    ⟨emits size o (n.1.take n.2), p.ap + 1, n.1 :: p.tmps⟩
  else if conv = ch 'b' then
    let n := uitoa v 2 false
    ⟨emitNumber size f false n p.out, p.ap + 1, n.1 :: p.tmps⟩
  else if conv = ch '%' then { p with out := emit size p.out (ch '%') }
  else { p with out := emit size (emit size p.out (ch '%')) conv }

variable {size : BitVec 32} {args : Args} {f : Flags} {o : Output} {p : Printer} {c conv : Byte}
  {s t fmt rest : List Byte} {w : BitVec 32} {ap i n : Nat}

theorem widthLoop_length : (widthLoop fmt w).2.length ≤ fmt.length := by
  induction fmt generalizing w with
  | nil => exact Nat.le_refl 0
  | cons c fmt ih =>
    unfold widthLoop
    split
    case isTrue => exact Nat.le_succ_of_le ih
    case isFalse => exact Nat.le_refl _

theorem readFlags_length : (readFlags fmt).2.length ≤ fmt.length := by
  have hskip : ∀ (b : Bool) (s : List Byte), (if b then s.tail else s).length ≤ s.length := by
    intro b s
    cases b with
    | true => exact List.length_tail.trans_le (Nat.sub_le _ _)
    | false => exact Nat.le_refl _
  unfold readFlags
  exact (hskip _ _).trans (widthLoop_length.trans ((hskip _ _).trans (hskip _ _)))

/-- The loop over the format, which is the list of its characters without the NUL; `none`: the
format is read behind the NUL. -/
def vsnprintfLoop (size : BitVec 32) (args : Args) (fmt : List Byte) (p : Printer) :
    Option Printer :=
  match fmt with
  | [] => some p
  | c :: fmt =>
    if c = ch '%' then
      match _h : readFlags fmt with
      -- the NUL is the conversion, and `fmt++` steps over it
      | (_, []) => none
      | (f, conv :: rest) => vsnprintfLoop size args rest (convert size args f conv p)
    else vsnprintfLoop size args fmt { p with out := emit size p.out c }
termination_by fmt.length
decreasing_by
  · have hle : (readFlags fmt).2.length ≤ fmt.length := readFlags_length
    rw [_h] at hle
    exact Nat.lt_succ_of_lt hle
  · exact Nat.lt_succ_self _

/-- The NUL is written last. -/
def terminate (size : BitVec 32) (p : Printer) : Printer :=
  if size > 0 then
    let i := if p.out.pos < size then p.out.pos else size - 1
    { p with out.writes := (i.toNat, 0) :: p.out.writes }
  else p

/-- What the run has left, and the number returned. -/
def vsnprintf (size : BitVec 32) (fmt : List Byte) (args : Args) : Option (Printer × Int) :=
  (vsnprintfLoop size args fmt ⟨⟨0, []⟩, 0, []⟩).map fun p => (terminate size p, p.out.pos.toInt)

/-! The text. -/

inductive Piece
  | char (c : Byte)
  | directive (f : Flags) (conv : Byte)

/-- The characters and the directives of a format; `none`: it ends inside a directive. -/
def pieces (fmt : List Byte) : Option (List Piece) :=
  match fmt with
  | [] => some []
  | c :: fmt =>
    if c = ch '%' then
      match _h : readFlags fmt with
      | (_, []) => none
      | (f, conv :: rest) => (pieces rest).map (Piece.directive f conv :: ·)
    else (pieces fmt).map (Piece.char c :: ·)
termination_by fmt.length
decreasing_by
  · have hle : (readFlags fmt).2.length ≤ fmt.length := readFlags_length
    rw [_h] at hle
    exact Nat.lt_succ_of_lt hle
  · exact Nat.lt_succ_self _

/-- How many arguments a conversion takes. -/
def argCount (conv : Byte) : Nat :=
  if conv ∈ str "csdiuxXpb" then 1 else 0

/-- The number that a conversion writes. -/
def numberText (conv : Byte) (v : BitVec 32) : List Byte :=
  if conv = ch 'd' ∨ conv = ch 'i' then signedNumeral v.toInt
  else if conv = ch 'u' then numeral false 10 v.toNat
  else if conv = ch 'b' then numeral false 2 v.toNat
  else numeral (conv == ch 'X') 16 v.toNat

def stringText (args : Args) (v : BitVec 32) : List Byte :=
  if v = 0 then str "(null)" else args.string v

/-- `s` between the characters that bring its length `l` to the width. -/
def padded (f : Flags) (right : Bool) (pc : Byte) (l : Int) (s : List Byte) : List Byte :=
  let fill := (f.w.toInt - l).toNat
  (if f.la then [] else List.replicate fill pc) ++
    (s ++ if f.la && right then List.replicate fill (ch ' ') else [])

/-- What a directive stands for. -/
def directiveText (args : Args) (f : Flags) (conv : Byte) (v : BitVec 32) : List Byte :=
  if conv = ch 'c' then padded f true (ch ' ') 1 [v.setWidth 8]
  else if conv = ch 's' then
    let s := stringText args v
    padded f true (ch ' ') (BitVec.ofNat 32 s.length).toInt s
  else if conv ∈ str "diuxXb" then
    let s := numberText conv v
    padded f (conv != ch 'b') f.pc s.length s
  else if conv = ch 'p' then
    let s := numberText conv v
    ch '0' :: ch 'x' :: (List.replicate (8 - s.length : Int).toNat (ch '0') ++ s)
  else if conv = ch '%' then [ch '%']
  else [ch '%', conv]

/-- What a directive leaves in `tmp`. -/
def directiveTmp (conv : Byte) (v : BitVec 32) : List (List Byte) :=
  if conv ∈ str "diuxXpb" then [numberText conv v ++ [0]] else []

def Piece.count : Piece → Nat
  | .char _ => 0
  | .directive _ conv => argCount conv

def Piece.text (args : Args) (v : BitVec 32) : Piece → List Byte
  | .char c => [c]
  | .directive f conv => directiveText args f conv v

def Piece.tmp (v : BitVec 32) : Piece → List (List Byte)
  | .char _ => []
  | .directive _ conv => directiveTmp conv v

/-- Each piece and the word it takes, from the argument `ap` on. -/
def assigned (args : Args) : List Piece → (ap : Nat) → List (Piece × BitVec 32)
  | [], _ => []
  | p :: ps, ap => (p, args.word ap) :: assigned args ps (ap + p.count)

/-- The text of the pieces. -/
def text (args : Args) (ps : List Piece) (ap : Nat) : List Byte :=
  (assigned args ps ap).flatMap fun a => a.1.text args a.2

/-- What the pieces leave in `tmp`, the last number first. -/
def tmpsOf (args : Args) (ps : List Piece) (ap : Nat) : List (List Byte) :=
  ((assigned args ps ap).flatMap fun a => a.1.tmp a.2).reverse

variable {q : Piece} {ps : List Piece}

/-! The code emits the text. -/

theorem toInt_ofNat_of_lt (h : n < 2 ^ 31) : (BitVec.ofNat 32 n).toInt = n := by
  have hnat : (BitVec.ofNat 32 n).toNat = n := by
    rw [BitVec.toNat_ofNat, Nat.mod_eq_of_lt (by omega)]
  rw [BitVec.toInt_eq_toNat_of_lt (by omega), hnat]

theorem emits_append : emits size (emits size o s) t = emits size o (s ++ t) :=
  List.foldl_append.symm

theorem emits_pos : (emits size o s).pos = o.pos + BitVec.ofNat 32 s.length := by
  induction s generalizing o with
  | nil => exact (BitVec.add_zero _).symm
  | cons c s ih =>
    refine ih.trans ?_
    rw [List.length_cons, Nat.add_comm, BitVec.ofNat_add, ← BitVec.add_assoc]
    rfl

/-- What was last written at `i`. -/
def Output.buf (o : Output) (i : Nat) : Option Byte :=
  (o.writes.find? fun w => w.1 = i).map Prod.snd

theorem emit_buf : (emit size o c).buf i =
    if i = o.pos.toNat ∧ o.pos + 1 < size then some c else o.buf i := by
  unfold emit Output.buf
  dsimp only
  by_cases hlt : o.pos + 1 < size
  · rw [if_pos hlt]
    by_cases hat : i = o.pos.toNat
    · subst hat
      rw [if_pos ⟨rfl, hlt⟩, List.find?_cons_of_pos (by simp)]
      rfl
    · rw [if_neg (fun h => hat h.1), List.find?_cons_of_neg (by simpa using Ne.symm hat)]
  · rw [if_neg hlt, if_neg (fun h => hlt h.2)]

theorem toNat_next (h : o.pos.toNat + 1 < 2 ^ 32) : (o.pos + 1).toNat = o.pos.toNat + 1 :=
  BitVec.toNat_add_of_lt h

/-- As long as `pos` does not wrap, the writes are before the last place. -/
theorem emits_bounds (hpos : o.pos.toNat + s.length < 2 ^ 32) {e : Nat × Byte}
    (he : e ∈ (emits size o s).writes) : e ∈ o.writes ∨ e.1 + 1 < size.toNat := by
  induction s generalizing o with
  | nil => exact Or.inl he
  | cons c s ih =>
    rw [List.length_cons] at hpos
    have hnext := toNat_next (o := o) (by omega)
    rcases ih (o := emit size o c) (by show (o.pos + 1).toNat + _ < _; omega) he with hold | hin
    · unfold emit at hold
      dsimp only at hold
      split at hold
      case isTrue hlt =>
        rw [BitVec.lt_def, hnext] at hlt
        rcases List.mem_cons.mp hold with rfl | hold
        · exact Or.inr hlt
        · exact Or.inl hold
      case isFalse => exact Or.inl hold
    · exact Or.inr hin

/-- The buffer holds what was emitted, as far as it has a place before the last one. -/
theorem emits_buf (hpos : o.pos.toNat + s.length < 2 ^ 32) : (emits size o s).buf i =
    if o.pos.toNat ≤ i ∧ i < o.pos.toNat + s.length ∧ i + 1 < size.toNat then
      s[i - o.pos.toNat]?
    else o.buf i := by
  induction s generalizing o with
  | nil =>
    rw [if_neg]
    · rfl
    · rw [List.length_nil]
      omega
  | cons c s ih =>
    rw [List.length_cons] at hpos ⊢
    have hnext := toNat_next (o := o) (by omega)
    have hemit : (emit size o c).pos.toNat = o.pos.toNat + 1 := hnext
    refine (ih (o := emit size o c) (by omega)).trans ?_
    have hfits : o.pos + 1 < size ↔ o.pos.toNat + 1 < size.toNat := by
      rw [BitVec.lt_def, hnext]
    rw [hemit, emit_buf]
    by_cases hat : i = o.pos.toNat
    · subst hat
      rw [if_neg (by omega), Nat.sub_self]
      by_cases hlt : o.pos.toNat + 1 < size.toNat
      · rw [if_pos ⟨rfl, hfits.mpr hlt⟩, if_pos (by omega)]
        rfl
      · rw [if_neg (fun h => hlt (hfits.mp h.2)), if_neg (by omega)]
    · rw [if_neg (fun h : i = o.pos.toNat ∧ o.pos + 1 < size => hat h.1)]
      by_cases hin : o.pos.toNat + 1 ≤ i ∧ i < o.pos.toNat + 1 + s.length ∧ i + 1 < size.toNat
      · rw [if_pos hin, if_pos (by omega),
          show i - o.pos.toNat = i - (o.pos.toNat + 1) + 1 by omega, List.getElem?_cons_succ]
      · rw [if_neg hin, if_neg (by omega)]

theorem mem_emits {e : Nat × Byte} (he : e ∈ o.writes) : e ∈ (emits size o s).writes := by
  induction s generalizing o with
  | nil => exact he
  | cons c s ih =>
    refine ih (o := emit size o c) ?_
    unfold emit
    dsimp only
    split_ifs with hlt
    · exact List.mem_cons_of_mem _ he
    · exact he

/-- Where `pos` wraps, the last place of the address space is written. -/
theorem emits_wraps (hsize : 0 < size) (hpos : 2 ^ 32 ≤ o.pos.toNat + s.length) :
    ∃ c, (2 ^ 32 - 1, c) ∈ (emits size o s).writes := by
  induction s generalizing o with
  | nil =>
    have hlt := o.pos.isLt
    rw [List.length_nil] at hpos
    omega
  | cons c s ih =>
    rw [List.length_cons] at hpos
    by_cases hlast : o.pos.toNat + 1 < 2 ^ 32
    · have hemit : (emit size o c).pos.toNat = o.pos.toNat + 1 := toNat_next hlast
      exact ih (o := emit size o c) (by omega)
    · have hlt := o.pos.isLt
      have hzero : o.pos + 1 = 0 := by
        have hmax : o.pos.toNat = 2 ^ 32 - 1 := by omega
        refine BitVec.eq_of_toNat_eq ?_
        rw [BitVec.toNat_add, hmax]
        rfl
      refine ⟨c, mem_emits (o := emit size o c) ?_⟩
      unfold emit
      dsimp only
      rw [hzero, if_pos hsize, show o.pos.toNat = 2 ^ 32 - 1 by omega]
      exact List.mem_cons_self

/-- The loops before and after `s` bring it to the width. -/
theorem emits_padded {right : Bool} {pc : Byte} {l : Int} :
    (if f.la && right then
        emitPad size (emits size (if f.la then o else emitPad size o l f.w.toInt pc) s) l f.w.toInt
          (ch ' ')
      else emits size (if f.la then o else emitPad size o l f.w.toInt pc) s) =
      emits size o (padded f right pc l s) := by
  unfold padded emitPad
  cases f.la with
  | true =>
    cases right with
    | true => exact emits_append
    | false => exact congrArg (emits size o) (List.append_nil s).symm
  | false =>
    simp only [Bool.false_and, Bool.false_eq_true, if_false, List.append_nil]
    exact emits_append

theorem emits_padded_both {pc : Byte} {l : Int} :
    (if f.la then
        emitPad size (emits size (if f.la then o else emitPad size o l f.w.toInt pc) s) l f.w.toInt
          (ch ' ')
      else emits size (if f.la then o else emitPad size o l f.w.toInt pc) s) =
      emits size o (padded f true pc l s) := by
  rw [← emits_padded, Bool.and_true]

/-- A number in `tmp` is emitted at its width. -/
theorem number_eq {right : Bool} {n : List Byte × Nat} (hn : n = (s ++ [0], s.length)) :
    (⟨emitNumber size f right n p.out, p.ap + 1, n.1 :: p.tmps⟩ : Printer) =
      ⟨emits size p.out (padded f right f.pc s.length s), p.ap + 1, [s ++ [0]] ++ p.tmps⟩ := by
  subst hn
  rw [← emits_padded]
  unfold emitNumber
  rw [List.take_left]
  rfl

/-- What a conversion does. -/
theorem convert_eq : convert size args f conv p =
    ⟨emits size p.out (directiveText args f conv (args.word p.ap)), p.ap + argCount conv,
      directiveTmp conv (args.word p.ap) ++ p.tmps⟩ := by
  unfold convert
  dsimp only
  split
  case isTrue hc =>
    subst hc
    exact congrArg (Printer.mk · _ _) (emits_padded_both (s := [_]))
  case isFalse hc =>
  split
  case isTrue hs =>
    subst hs
    exact congrArg (Printer.mk · _ _) emits_padded_both
  case isFalse hs =>
  split
  case isTrue hd =>
    rcases hd with rfl | rfl
    · exact number_eq itoa_eq
    · exact number_eq itoa_eq
  case isFalse hd =>
  split
  case isTrue hu =>
    subst hu
    exact number_eq (uitoa_eq (by decide) (by decide))
  case isFalse hu =>
  split
  case isTrue hx =>
    rcases hx with rfl | rfl
    · exact number_eq (uitoa_eq (by decide) (by decide))
    · exact number_eq (uitoa_eq (by decide) (by decide))
  case isFalse hx =>
  split
  case isTrue hp =>
    subst hp
    rw [uitoa_eq (by decide) (by decide)]
    dsimp only
    rw [List.take_left]
    unfold emitPad
    rw [emits_append]
    rfl
  case isFalse hp =>
  split
  case isTrue hb =>
    subst hb
    exact number_eq (uitoa_eq (by decide) (by decide))
  case isFalse hb =>
  split
  case isTrue hpercent =>
    subst hpercent
    rfl
  case isFalse hpercent =>
    have hcount : argCount conv = 0 := by
      refine if_neg ?_
      simp [str, hc, hs, hu, hp, hb, not_or.mp hd, not_or.mp hx]
    have htmp : directiveTmp conv (args.word p.ap) = [] := by
      refine if_neg ?_
      simp [str, hu, hp, hb, not_or.mp hd, not_or.mp hx]
    have htext : directiveText args f conv (args.word p.ap) = [ch '%', conv] := by
      simp [directiveText, str, hc, hs, hu, hp, hb, not_or.mp hd, not_or.mp hx, hpercent]
    rw [hcount, htmp, htext]
    rfl

/-- What the pieces do. -/
def printed (size : BitVec 32) (args : Args) (ps : List Piece) (p : Printer) : Printer where
  out := emits size p.out (text args ps p.ap)
  ap := p.ap + (ps.map Piece.count).sum
  tmps := tmpsOf args ps p.ap ++ p.tmps

theorem reverse_tmp {v : BitVec 32} : (q.tmp v).reverse = q.tmp v := by
  cases q with
  | char c => rfl
  | directive f conv =>
    have hone : (directiveTmp conv v).reverse = directiveTmp conv v := by
      unfold directiveTmp
      split_ifs with hnumber
      · rfl
      · rfl
    exact hone

theorem printed_cons : printed size args (q :: ps) p = printed size args ps
    ⟨emits size p.out (q.text args (args.word p.ap)), p.ap + q.count,
      q.tmp (args.word p.ap) ++ p.tmps⟩ := by
  have hassigned : assigned args (q :: ps) p.ap =
      (q, args.word p.ap) :: assigned args ps (p.ap + q.count) := rfl
  unfold printed text tmpsOf
  simp only [hassigned, List.flatMap_cons, emits_append, List.map_cons, List.sum_cons,
    Nat.add_assoc, List.reverse_append, reverse_tmp, List.append_assoc]

theorem vsnprintfLoop_directive (h : readFlags fmt = (f, conv :: rest)) :
    vsnprintfLoop size args (ch '%' :: fmt) p =
      vsnprintfLoop size args rest (convert size args f conv p) := by
  rw [vsnprintfLoop, if_pos rfl]
  split
  case h_1 hnone => simp [h] at hnone
  case h_2 hsome =>
    obtain ⟨rfl, rfl, rfl⟩ := by simpa [h] using hsome
    rfl

theorem vsnprintfLoop_truncated (h : readFlags fmt = (f, [])) :
    vsnprintfLoop size args (ch '%' :: fmt) p = none := by
  rw [vsnprintfLoop, if_pos rfl]
  split
  case h_1 => rfl
  case h_2 hsome => simp [h] at hsome

theorem pieces_directive (h : readFlags fmt = (f, conv :: rest)) :
    pieces (ch '%' :: fmt) = (pieces rest).map (Piece.directive f conv :: ·) := by
  rw [pieces, if_pos rfl]
  split
  case h_1 hnone => simp [h] at hnone
  case h_2 hsome =>
    obtain ⟨rfl, rfl, rfl⟩ := by simpa [h] using hsome
    rfl

theorem pieces_truncated (h : readFlags fmt = (f, [])) : pieces (ch '%' :: fmt) = none := by
  rw [pieces, if_pos rfl]
  split
  case h_1 => rfl
  case h_2 hsome => simp [h] at hsome

theorem pieces_char (hc : c ≠ ch '%') :
    pieces (c :: fmt) = (pieces fmt).map (Piece.char c :: ·) := by
  rw [pieces, if_neg hc]

/-- The loop does what the pieces do. -/
theorem vsnprintfLoop_eq : vsnprintfLoop size args fmt p =
    (pieces fmt).map fun ps => printed size args ps p := by
  induction fmt, p using vsnprintfLoop.induct size args with
  | case1 p =>
    rw [vsnprintfLoop, pieces]
    rfl
  | case2 p fmt f hread =>
    rw [vsnprintfLoop_truncated hread, pieces_truncated hread]
    rfl
  | case3 p fmt f conv rest hread ih =>
    rw [vsnprintfLoop_directive hread, ih, convert_eq, pieces_directive hread, Option.map_map]
    exact congrArg (Option.map · _)
      (funext fun ps => (printed_cons (q := .directive f conv)).symm)
  | case4 p c fmt hc ih =>
    rw [vsnprintfLoop, if_neg hc, ih, pieces_char hc, Option.map_map]
    exact congrArg (Option.map · _) (funext fun ps => (printed_cons (q := .char c)).symm)

theorem vsnprintf_eq (h : pieces fmt = some ps) : vsnprintf size fmt args =
    some (terminate size (printed size args ps ⟨⟨0, []⟩, 0, []⟩),
      (BitVec.ofNat 32 (text args ps 0).length).toInt) := by
  unfold vsnprintf
  rw [vsnprintfLoop_eq, h]
  refine congrArg some (Prod.ext rfl ?_)
  refine congrArg BitVec.toInt (emits_pos.trans ?_)
  exact BitVec.zero_add _

theorem vsnprintf_truncated (h : pieces fmt = none) : vsnprintf size fmt args = none := by
  unfold vsnprintf
  rw [vsnprintfLoop_eq, h]
  rfl

end PinguinOS.Klib
