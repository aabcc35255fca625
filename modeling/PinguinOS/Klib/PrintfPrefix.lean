import PinguinOS.Klib.Printf

/-! Formats of complete directives: the buffer gets a prefix of one text. -/
namespace PinguinOS.Klib

inductive Flag
  | minus
  | zero
  deriving DecidableEq

inductive Conv
  | c | s | d | i | u | x | X | p | percent
  deriving DecidableEq

def Conv.char : Conv → Byte
  | .c => ch 'c'
  | .s => ch 's'
  | .d => ch 'd'
  | .i => ch 'i'
  | .u => ch 'u'
  | .x => ch 'x'
  | .X => ch 'X'
  | .p => ch 'p'
  | .percent => ch '%'

structure Directive where
  flag : Option Flag
  digits : List (Fin 10)
  long : Bool
  conv : Conv
  /-- Without a flag a first zero would be one. -/
  canonical : flag = none → digits.head? ≠ some 0

inductive Element
  | char (c : Byte) (ordinary : c ≠ ch '%' ∧ c ≠ 0)
  | directive (d : Directive)

/-! The format string. -/

def digitText (e : Fin 10) : Byte := digitChar false e.val

def Directive.flagText (d : Directive) : List Byte :=
  match d.flag with
  | none => []
  | some .minus => [ch '-']
  | some .zero => [ch '0']

def Directive.longText (d : Directive) : List Byte := if d.long then [ch 'l'] else []

/-- What stands between `%` and the conversion. -/
def Directive.flagsText (d : Directive) : List Byte :=
  d.flagText ++ (d.digits.map digitText ++ d.longText)

def Element.spell : Element → List Byte
  | .char c _ => [c]
  | .directive d => ch '%' :: (d.flagsText ++ [d.conv.char])

/-- The format string of the elements. -/
def spell (es : List Element) : List Byte := es.flatMap Element.spell

/-! The text. -/

def Directive.width (d : Directive) : Nat := d.digits.foldl (fun w e => w * 10 + e.val) 0

def Element.width : Element → Nat
  | .char _ _ => 0
  | .directive d => d.width

/-- The converted argument. -/
def Conv.converted (args : Args) (v : BitVec 32) : Conv → List Byte
  | .c => [v.setWidth 8]
  | .s => stringText args v
  | .d | .i => signedNumeral v.toInt
  | .u => numeral false 10 v.toNat
  | .x => numeral false 16 v.toNat
  | .X => numeral true 16 v.toNat
  | .p =>
    let s := numeral false 16 v.toNat
    ch '0' :: ch 'x' :: (List.replicate (8 - s.length) (ch '0') ++ s)
  | .percent => [ch '%']

/-- `%p` and `%%` have no width. -/
def Conv.HasWidth (conv : Conv) : Prop := conv ≠ .p ∧ conv ≠ .percent

instance {conv : Conv} : Decidable conv.HasWidth := inferInstanceAs (Decidable (_ ∧ _))

/-- Only numbers are filled with zeros. -/
def Directive.fillChar (d : Directive) : Byte :=
  if d.flag = some .zero ∧ d.conv ≠ .c ∧ d.conv ≠ .s then ch '0' else ch ' '

/-- What a directive contributes. -/
def Directive.contribution (args : Args) (v : BitVec 32) (d : Directive) : List Byte :=
  let s := d.conv.converted args v
  if d.conv.HasWidth then
    let fill := List.replicate (d.width - s.length) d.fillChar
    if d.flag = some .minus then s ++ fill else fill ++ s
  else s

def Element.contribution (args : Args) (v : BitVec 32) : Element → List Byte
  | .char c _ => [c]
  | .directive d => d.contribution args v

/-- `%%` takes no argument. -/
def Element.count : Element → Nat
  | .char _ _ => 0
  | .directive d => if d.conv = .percent then 0 else 1

/-- The whole text, from the argument `ap` on. -/
def contents (args : Args) : List Element → (ap : Nat) → List Byte
  | [], _ => []
  | e :: es, ap => e.contribution args (args.word ap) ++ contents args es (ap + e.count)

variable {size v w : BitVec 32} {args : Args} {d : Directive} {e : Element} {es : List Element}
  {rest s : List Byte} {ds : List (Fin 10)} {ap i n : Nat} {c : Byte} {p : Printer}

/-! Reading the format. -/

/-- The flags of a directive, as they are read. -/
def Directive.flags (d : Directive) : Flags where
  la := d.flag = some .minus
  pc := if d.flag = some .zero then ch '0' else ch ' '
  w := BitVec.ofNat 32 d.width
  lng := d.long

def Element.piece : Element → Piece
  | .char c _ => .char c
  | .directive d => .directive d.flags d.conv.char

theorem digitText_reads (e : Fin 10) : ch '0' ≤ digitText e ∧ digitText e ≤ ch '9' ∧
    (digitText e).setWidth 32 - 0x30 = BitVec.ofNat 32 e.val ∧
    (digitText e == ch '-') = false ∧ (digitText e == ch '0') = decide (e = 0) := by
  revert e
  decide

theorem widthLoop_digits (hc : ¬ (ch '0' ≤ c ∧ c ≤ ch '9')) :
    widthLoop (ds.map digitText ++ c :: rest) (BitVec.ofNat 32 n) =
      (BitVec.ofNat 32 (ds.foldl (fun w e => w * 10 + e.val) n), c :: rest) := by
  induction ds generalizing n with
  | nil =>
    unfold widthLoop
    exact if_neg hc
  | cons e ds ih =>
    obtain ⟨hlo, hhi, hvalue, -⟩ := digitText_reads e
    have hstep : BitVec.ofNat 32 n * 10 + BitVec.ofNat 32 e.val =
        BitVec.ofNat 32 (n * 10 + e.val) := by
      rw [BitVec.ofNat_add, BitVec.ofNat_mul]
      rfl
    rw [List.map_cons, List.cons_append]
    unfold widthLoop
    rw [if_pos ⟨hlo, hhi⟩, hvalue, hstep]
    exact ih

/-- A conversion is no digit and no modifier. -/
theorem conv_char (conv : Conv) : ¬ (ch '0' ≤ conv.char ∧ conv.char ≤ ch '9') ∧
    (conv.char == ch 'l') = false ∧ (conv.char == ch '-') = false ∧
    (conv.char == ch '0') = false := by
  cases conv <;> decide

/-- What is read after the flag. -/
theorem width_spell (d : Directive) (rest : List Byte) :
    widthLoop (d.digits.map digitText ++ (d.longText ++ d.conv.char :: rest)) 0 =
      (BitVec.ofNat 32 d.width, d.longText ++ d.conv.char :: rest) := by
  obtain ⟨hdigit, -⟩ := conv_char d.conv
  unfold Directive.longText
  split
  case isTrue => exact widthLoop_digits (n := 0) (by decide)
  case isFalse => exact widthLoop_digits (n := 0) hdigit

theorem long_spell (d : Directive) (rest : List Byte) :
    ((d.longText ++ d.conv.char :: rest).headD 0 == ch 'l') = d.long ∧
    (if d.long then (d.longText ++ d.conv.char :: rest).tail
      else d.longText ++ d.conv.char :: rest) = d.conv.char :: rest := by
  obtain ⟨-, hmodifier, -⟩ := conv_char d.conv
  unfold Directive.longText
  cases d.long with
  | true => exact ⟨rfl, rfl⟩
  | false => exact ⟨hmodifier, rfl⟩

/-- What stands after the flag is no flag, except for a zero in the first place of the width. -/
theorem first_spell (s rest : List Byte) (hs : s = d.digits.map digitText ++
    (d.longText ++ d.conv.char :: rest)) : (s.headD 0 == ch '-') = false ∧
      (d.digits.head? ≠ some 0 → (s.headD 0 == ch '0') = false) := by
  subst hs
  obtain ⟨-, -, hminus, hzero⟩ := conv_char d.conv
  cases d.digits with
  | nil =>
    unfold Directive.longText
    cases d.long with
    | true => exact ⟨rfl, fun _ => rfl⟩
    | false => exact ⟨hminus, fun _ => hzero⟩
  | cons e ds =>
    obtain ⟨-, -, -, hminus, hzero⟩ := digitText_reads e
    refine ⟨hminus, fun hne => hzero.trans (decide_eq_false ?_)⟩
    exact fun he => hne (congrArg some he)

theorem readFlags_spell :
    readFlags (d.flagsText ++ d.conv.char :: rest) = (d.flags, d.conv.char :: rest) := by
  have hwidth := width_spell d rest
  obtain ⟨hlong, htail⟩ := long_spell d rest
  obtain ⟨hminus, hzero⟩ := first_spell (d := d) _ rest rfl
  unfold Directive.flagsText Directive.flagText Directive.flags readFlags
  rw [List.append_assoc, List.append_assoc]
  generalize d.digits.map digitText ++ (d.longText ++ d.conv.char :: rest) = s at *
  cases hflag : d.flag with
  | none =>
    have hno := hzero (d.canonical hflag)
    simp only [List.nil_append, hminus, hno, Bool.false_eq_true, if_false, Bool.false_and, hwidth,
      hlong, htail, reduceCtorEq, decide_false]
  | some flag =>
    cases flag with
    | minus =>
      simp only [List.singleton_append, List.headD_cons, beq_self_eq_true, if_true, List.tail_cons,
        Bool.not_true, Bool.and_false, Bool.false_eq_true, if_false, hwidth, hlong, htail]
      rfl
    | zero =>
      have hother : (ch '0' == ch '-') = false := by decide
      simp only [List.singleton_append, List.headD_cons, beq_self_eq_true, if_true, List.tail_cons,
        hother, Bool.not_false, Bool.and_true, Bool.false_eq_true, if_false, hwidth, hlong, htail]
      rfl

/-- The pieces of the format string are those of the elements. -/
theorem pieces_spell : pieces (spell es) = some (es.map Element.piece) := by
  induction es with
  | nil =>
    rw [spell, List.flatMap_nil, pieces]
    rfl
  | cons e es ih =>
    cases e with
    | char c ordinary =>
      have hcons : spell (.char c ordinary :: es) = c :: spell es := rfl
      rw [hcons, pieces_char ordinary.1, ih]
      rfl
    | directive d =>
      have hcons : spell (.directive d :: es) =
          ch '%' :: (d.flagsText ++ d.conv.char :: spell es) :=
        congrArg (ch '%' :: ·) (List.append_assoc d.flagsText [d.conv.char] (spell es))
      rw [hcons, pieces_directive readFlags_spell, ih]
      rfl

/-! The text of the pieces. -/

/-- `padded` at a width that is no negative number. -/
theorem padded_flags {pc : Byte} (hw : d.width < 2 ^ 31)
    (hpc : d.flag ≠ some .minus → pc = d.fillChar) :
    padded d.flags true pc s.length s =
      (if d.flag = some .minus then s ++ List.replicate (d.width - s.length) d.fillChar
      else List.replicate (d.width - s.length) d.fillChar ++ s) := by
  have hfill : (d.flags.w.toInt - s.length).toNat = d.width - s.length := by
    rw [show d.flags.w.toInt = d.width from toInt_ofNat_of_lt hw]
    omega
  unfold padded
  dsimp only
  rw [hfill, Bool.and_true]
  by_cases hminus : d.flag = some .minus
  · have hla : d.flags.la = true := decide_eq_true hminus
    have hspace : d.fillChar = ch ' ' := by
      unfold Directive.fillChar
      rw [hminus]
      rfl
    rw [hla, if_pos hminus, hspace]
    rfl
  · have hla : d.flags.la = false := decide_eq_false hminus
    rw [hla, if_neg hminus, hpc hminus]
    exact congrArg _ (List.append_nil s)

theorem numeral_pc (h : d.conv ≠ .c ∧ d.conv ≠ .s) : d.flags.pc = d.fillChar := by
  unfold Directive.flags Directive.fillChar
  by_cases hzero : d.flag = some .zero
  · rw [if_pos hzero, if_pos ⟨hzero, h⟩]
  · rw [if_neg hzero, if_neg (fun h => hzero h.1)]

theorem converted_length_le :
    (d.conv.converted args v).length ≤ (d.contribution args v).length := by
  unfold Directive.contribution
  dsimp only
  split_ifs with hwidth hminus
  · rw [List.length_append]
    exact Nat.le_add_right _ _
  · rw [List.length_append]
    exact Nat.le_add_left _ _
  · exact Nat.le_refl _

theorem contribution_of_width (h : d.conv.HasWidth) : d.contribution args v =
    (if d.flag = some .minus then
      d.conv.converted args v ++
        List.replicate (d.width - (d.conv.converted args v).length) d.fillChar
    else
      List.replicate (d.width - (d.conv.converted args v).length) d.fillChar ++
        d.conv.converted args v) := if_pos h

/-- A number stands at its width. -/
theorem number_contribution (args : Args) (v : BitVec 32) (hw : d.width < 2 ^ 31) (h : d.conv.HasWidth)
    (hnumber : d.conv ≠ .c ∧ d.conv ≠ .s) :
    padded d.flags true d.flags.pc (d.conv.converted args v).length (d.conv.converted args v) =
      d.contribution args v := by
  rw [contribution_of_width h]
  exact padded_flags hw fun _ => numeral_pc hnumber

/-- A character and a string are filled with spaces. -/
theorem text_contribution (args : Args) (v : BitVec 32) (hw : d.width < 2 ^ 31) (h : d.conv.HasWidth)
    (htext : d.conv = .c ∨ d.conv = .s) :
    padded d.flags true (ch ' ') (d.conv.converted args v).length (d.conv.converted args v) =
      d.contribution args v := by
  rw [contribution_of_width h]
  refine padded_flags hw fun _ => (if_neg ?_).symm
  rintro ⟨-, hnoc, hnos⟩
  exact htext.elim hnoc hnos

/-- A directive stands for its contribution. -/
theorem directiveText_eq (hw : d.width < 2 ^ 31) (hlen : (d.contribution args v).length < 2 ^ 31) :
    directiveText args d.flags d.conv.char v = d.contribution args v := by
  have hshort := converted_length_le.trans_lt hlen
  have hnumber := number_contribution args v hw
  have htext := text_contribution args v hw
  cases hconv : d.conv with
  | c =>
    rw [hconv] at htext
    exact htext (by decide) (Or.inl rfl)
  | s =>
    rw [hconv] at htext hshort
    refine Eq.trans ?_ (htext (by decide) (Or.inr rfl))
    exact congrArg (padded d.flags true (ch ' ') · _) (toInt_ofNat_of_lt hshort)
  | d | i | u | x | X =>
    rw [hconv] at hnumber
    exact hnumber (by decide) (by decide)
  | p =>
    have hplain : d.contribution args v = Conv.p.converted args v := by
      unfold Directive.contribution
      rw [hconv]
      rfl
    have hfill : (8 - (numeral false 16 v.toNat).length : Int).toNat =
        8 - (numeral false 16 v.toNat).length := by omega
    rw [hplain]
    exact congrArg (fun n => ch '0' :: ch 'x' :: (List.replicate n (ch '0') ++ _)) hfill
  | percent =>
    unfold Directive.contribution
    rw [hconv]
    rfl

theorem piece_count : e.piece.count = e.count := by
  cases e with
  | char c ordinary => rfl
  | directive d =>
    change argCount d.conv.char = if d.conv = .percent then 0 else 1
    cases d.conv <;> rfl

theorem piece_text (hw : e.width < 2 ^ 31) (hlen : (e.contribution args v).length < 2 ^ 31) :
    e.piece.text args v = e.contribution args v := by
  cases e with
  | char c ordinary => rfl
  | directive d => exact directiveText_eq hw hlen

/-- The pieces stand for the contributions. -/
theorem text_pieces (hw : ∀ e ∈ es, e.width < 2 ^ 31)
    (hlen : (contents args es ap).length < 2 ^ 31) :
    text args (es.map Element.piece) ap = contents args es ap := by
  induction es generalizing ap with
  | nil => rfl
  | cons e es ih =>
    unfold contents at hlen ⊢
    rw [List.length_append] at hlen
    have hfirst : e.piece.text args (args.word ap) = e.contribution args (args.word ap) :=
      piece_text (hw e List.mem_cons_self) (by omega)
    have hrest : text args (es.map Element.piece) (ap + e.count) =
        contents args es (ap + e.count) :=
      ih (fun e he => hw e (List.mem_cons_of_mem _ he)) (by omega)
    have hcons : text args ((e :: es).map Element.piece) ap =
        e.piece.text args (args.word ap) ++ text args (es.map Element.piece) (ap + e.piece.count) :=
      List.flatMap_cons
    rw [hcons, hfirst, piece_count, hrest]

/-! The prefix. -/

/-- `s` brought to the width of the directive, on its side. -/
def PaddedTo (d : Directive) (s t : List Byte) : Prop :=
  d.width ≤ t.length ∧
    ∃ fill, t = if d.flag = some .minus then s ++ fill else fill ++ s

theorem contribution_padded (h : d.conv.HasWidth) :
    PaddedTo d (d.conv.converted args v) (d.contribution args v) := by
  rw [contribution_of_width h]
  refine ⟨?_, _, rfl⟩
  split
  case isTrue =>
    rw [List.length_append, List.length_replicate]
    omega
  case isFalse =>
    rw [List.length_append, List.length_replicate]
    omega

/-- The buffer holds the start of `s` that has room, and the NUL. -/
def HoldsPrefix (size : Nat) (o : Output) (s : List Byte) : Prop :=
  (∀ i < min s.length (size - 1), o.buf i = s[i]?) ∧ o.buf (min s.length (size - 1)) = some 0

theorem terminate_buf (hsize : 0 < size) : (terminate size p).out.buf i =
    if i = min p.out.pos.toNat (size.toNat - 1) then some 0 else p.out.buf i := by
  have hpos : 0 < size.toNat := hsize
  have hlast : (if p.out.pos < size then p.out.pos else size - 1).toNat =
      min p.out.pos.toNat (size.toNat - 1) := by
    split
    case isTrue hlt =>
      rw [BitVec.lt_def] at hlt
      omega
    case isFalse hge =>
      rw [BitVec.lt_def] at hge
      have hone : (1 : BitVec 32).toNat = 1 := rfl
      rw [BitVec.toNat_sub_of_le hsize, hone]
      omega
  unfold terminate Output.buf
  rw [if_pos (show size > 0 from hsize)]
  dsimp only
  rw [hlast]
  by_cases hi : i = min p.out.pos.toNat (size.toNat - 1)
  · subst hi
    rw [if_pos rfl, List.find?_cons_of_pos (by simp)]
    rfl
  · rw [if_neg hi, List.find?_cons_of_neg]
    exact fun h => hi (of_decide_eq_true h).symm

/-- The emitted text and the NUL behind it. -/
theorem holdsPrefix_terminate (hsize : 0 < size) (hlen : s.length < 2 ^ 32)
    (hout : p.out = emits size ⟨0, []⟩ s) : HoldsPrefix size.toNat (terminate size p).out s := by
  have hstart : (⟨0, []⟩ : Output).pos.toNat = 0 := rfl
  have hpos : p.out.pos.toNat = s.length := by
    rw [hout, emits_pos, BitVec.toNat_add, BitVec.toNat_ofNat, hstart, Nat.zero_add, Nat.mod_mod,
      Nat.mod_eq_of_lt hlen]
  constructor
  · intro i hi
    rw [terminate_buf hsize, hpos, if_neg (by omega), hout, emits_buf (by omega), hstart,
      if_pos (by omega), Nat.sub_zero]
  · rw [terminate_buf hsize, hpos, if_pos rfl]

/-- The format `%-3s|` and the string `hi`. -/
def paddedString : List Element :=
  [.directive ⟨some .minus, [3], false, .s, fun h => absurd h (by decide)⟩,
    .char (ch '|') (by decide)]

def greeting : Args := ⟨fun _ => 1, fun _ => str "hi"⟩

end PinguinOS.Klib
