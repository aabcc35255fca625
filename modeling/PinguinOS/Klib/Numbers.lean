import Mathlib.Data.BitVec
import Mathlib.Data.Nat.Digits.Lemmas

/-! Numbers as strings: `uitoa` and `itoa`, `strtoul` and `strtol`. -/
namespace PinguinOS.Klib

abbrev Byte := BitVec 8

/-- The code of an ASCII character. -/
def ch (c : Char) : Byte := BitVec.ofNat 8 c.toNat

/-- The characters before the first NUL. -/
def cString (buf : List Byte) : List Byte := buf.takeWhile fun c => c ≠ 0

/-! Parsing. A string is the list of its characters without the NUL, which `headD` gives then. -/

def charValue (c : Byte) : Int :=
  if ch '0' ≤ c ∧ c ≤ ch '9' then c.toNat - 0x30
  else if ch 'a' ≤ c ∧ c ≤ ch 'z' then c.toNat - 0x61 + 10
  else if ch 'A' ≤ c ∧ c ≤ ch 'Z' then c.toNat - 0x41 + 10
  else -1

def charDigit (c : Byte) (base : Int) : Int :=
  let v := charValue c
  if v ≥ 0 ∧ v < base then v else -1

/-- The loop of `strtoul` over the digits. -/
def digitLoop (base : Int) : List Byte → BitVec 32 → BitVec 32 × List Byte
  | [], r => (r, [])
  | c :: str, r =>
    let d := charDigit c base
    if d ≥ 0 then digitLoop base str (r * BitVec.ofInt 32 base + BitVec.ofInt 32 d)
    else (r, c :: str)

/-- `0x` or `0X` -/
def hexPrefix (str : List Byte) : Bool :=
  str.headD 0 == ch '0' && (str.tail.headD 0 == ch 'x' || str.tail.headD 0 == ch 'X')

/-- The number, and the string from the end pointer on. -/
def strtoul (str : List Byte) (base : Int) : BitVec 32 × List Byte :=
  let str := str.dropWhile fun c => c == ch ' ' || c == ch '\t'
  let neg := str.headD 0 == ch '-'
  let str := if neg || str.headD 0 == ch '+' then str.tail else str
  let (base, str) :=
    if base = 0 then
      if hexPrefix str then (16, str.drop 2)
      else if str.headD 0 == ch '0' then (8, str.tail)
      else (10, str)
    else if base = 16 ∧ hexPrefix str then (base, str.drop 2)
    else (base, str)
  let (r, str) := digitLoop base str 0
  (if neg then -r else r, str)

def strtol (str : List Byte) (base : Int) : BitVec 32 × List Byte := strtoul str base

/-! Formatting. The functions return what they write to the buffer, and the length without the
NUL. -/

def lowerDigits : List Byte :=
  ['0', '1', '2', '3', '4', '5', '6', '7', '8', '9', 'a', 'b', 'c', 'd', 'e', 'f', 'g', 'h', 'i',
    'j', 'k', 'l', 'm', 'n', 'o', 'p', 'q', 'r', 's', 't', 'u', 'v', 'w', 'x', 'y', 'z'].map ch

def upperDigits : List Byte :=
  ['0', '1', '2', '3', '4', '5', '6', '7', '8', '9', 'A', 'B', 'C', 'D', 'E', 'F', 'G', 'H', 'I',
    'J', 'K', 'L', 'M', 'N', 'O', 'P', 'Q', 'R', 'S', 'T', 'U', 'V', 'W', 'X', 'Y', 'Z'].map ch

def digitChar (upper : Bool) (d : Nat) : Byte :=
  (if upper then upperDigits else lowerDigits).getD d 0

/-- What the loop of `uitoa` leaves in `tmp`, after at most as many rounds as there are places. -/
def uitoaTmp (upper : Bool) (base : Nat) : (rounds val : Nat) → List Byte
  | 0, _ => []
  | rounds + 1, val =>
    if val = 0 then []
    else digitChar upper (val % base) :: uitoaTmp upper base rounds (val / base)

def uitoa (val : BitVec 32) (base : Int) (upper : Bool) : List Byte × Nat :=
  if base < 2 ∨ base > 36 then ([0], 0)
  else
    let digits :=
      if val = 0 then [ch '0'] else (uitoaTmp upper base.toNat 32 val.toNat).reverse
    (digits ++ [0], digits.length)

/-- `-val` wraps. -/
def itoa (val : BitVec 32) : List Byte × Nat :=
  if val.slt 0 then
    let r := uitoa (-val) 10 false
    (ch '-' :: r.1, r.2 + 1)
  else uitoa val 10 false

variable {val v : BitVec 32} {upper : Bool} {b d m n rounds : Nat} {base : Int} {ds : List Nat}
  {s : List Byte}

/-! The digits. -/

/-- The digits of `n` in the base `b`, the first one first; zero has one. -/
def numeralDigits (b n : Nat) : List Nat := if n = 0 then [0] else (b.digits n).reverse

def numeral (upper : Bool) (b n : Nat) : List Byte := (numeralDigits b n).map (digitChar upper)

/-- The numeral of a signed number. -/
def signedNumeral (v : Int) : List Byte :=
  if v < 0 then ch '-' :: numeral false 10 v.natAbs else numeral false 10 v.natAbs

theorem uitoaTmp_eq (hb : 2 ≤ b) (hn : n < 2 ^ rounds) :
    uitoaTmp upper b rounds n = (b.digits n).map (digitChar upper) := by
  induction rounds generalizing n with
  | zero =>
    have hzero : n = 0 := by simpa using hn
    subst hzero
    rw [Nat.digits_zero]
    rfl
  | succ rounds ih =>
    unfold uitoaTmp
    split
    case isTrue hzero =>
      subst hzero
      rw [Nat.digits_zero]
      rfl
    case isFalse hpos =>
      have hless : n / b < 2 ^ rounds := by
        rw [Nat.pow_succ] at hn
        have hhalf : n / b ≤ n / 2 := Nat.div_le_div_left hb (by decide)
        omega
      rw [Nat.digits_def' hb (Nat.pos_of_ne_zero hpos), List.map_cons, ih hless]

/-- `tmp` is large enough: the loop has ended after 32 rounds. -/
theorem uitoa_eq (hlo : 2 ≤ base) (hhi : base ≤ 36) : uitoa val base upper =
    (numeral upper base.toNat val.toNat ++ [0], (numeral upper base.toNat val.toNat).length) := by
  have hzero : val = 0 ↔ val.toNat = 0 := BitVec.toNat_inj.symm
  unfold uitoa numeral numeralDigits
  rw [if_neg (by omega), uitoaTmp_eq (by omega) val.isLt, ← List.map_reverse]
  by_cases h : val = 0
  · rw [if_pos h, if_pos (hzero.mp h)]
    cases upper with
    | false => rfl
    | true => rfl
  · rw [if_neg h, if_neg (mt hzero.mpr h)]

theorem itoa_eq : itoa val = (signedNumeral val.toInt ++ [0], (signedNumeral val.toInt).length) := by
  have hslt : val.slt 0 = true ↔ val.toInt < 0 := BitVec.slt_iff_toInt_lt
  unfold itoa signedNumeral
  by_cases hneg : val.toInt < 0
  · have habs : (-val).toNat = val.toInt.natAbs := by
      rw [BitVec.toNat_neg]
      rw [BitVec.toInt_eq_toNat_cond] at hneg ⊢
      have hlt := val.isLt
      split_ifs at hneg ⊢ with hsmall
      · omega
      · omega
    rw [if_pos (hslt.mpr hneg), if_pos hneg, uitoa_eq (by decide) (by decide), habs]
    rfl
  · have habs : val.toNat = val.toInt.natAbs := by
      rw [BitVec.toInt_eq_toNat_cond] at hneg ⊢
      have hlt := val.isLt
      split_ifs at hneg ⊢ with hsmall
      · omega
      · omega
    rw [if_neg (mt hslt.mp hneg), if_neg hneg, uitoa_eq (by decide) (by decide), habs]
    rfl

theorem mem_numeralDigits (hb : 2 ≤ b) (h : d ∈ numeralDigits b n) : d < b := by
  unfold numeralDigits at h
  split at h
  case isTrue =>
    rw [List.mem_singleton.mp h]
    omega
  case isFalse => exact Nat.digits_lt_base hb (List.mem_reverse.mp h)

theorem foldl_numeralDigits : (numeralDigits b n).foldl (fun r d => r * b + d) 0 = n := by
  unfold numeralDigits
  split
  case isTrue hzero =>
    subst hzero
    simp
  case isFalse =>
    rw [List.foldl_reverse]
    have hvalue := Nat.ofDigits_digits b n
    rw [Nat.ofDigits_eq_foldr] at hvalue
    refine Eq.trans ?_ hvalue
    refine congrFun (congrFun (congrArg List.foldr ?_) 0) _
    funext x y
    rw [Nat.mul_comm, Nat.add_comm]
    rfl

/-! The characters. -/

theorem charValue_digitChar (h : d < 36) : charValue (digitChar upper d) = d := by
  revert d
  cases upper with
  | false => decide
  | true => decide

theorem charDigit_digitChar (hd : d < b) (hb : b ≤ 36) :
    charDigit (digitChar upper d) b = d := by
  unfold charDigit
  rw [charValue_digitChar (by omega)]
  exact if_pos (by omega)

/-- No digit is skipped, a sign or a NUL. -/
theorem digitChar_ne (upper : Bool) (h : d < 36) :
    digitChar upper d ≠ ch ' ' ∧ digitChar upper d ≠ ch '\t' ∧
    digitChar upper d ≠ ch '-' ∧ digitChar upper d ≠ ch '+' ∧ digitChar upper d ≠ 0 := by
  revert d
  cases upper with
  | false => decide
  | true => decide

theorem digitChar_ne_x (upper : Bool) (h : d < 16) :
    digitChar upper d ≠ ch 'x' ∧ digitChar upper d ≠ ch 'X' := by
  revert d
  cases upper with
  | false => decide
  | true => decide

/-! The round trip. -/

theorem digitLoop_digits (hb : b ≤ 36) (hds : ∀ d ∈ ds, d < b) :
    digitLoop b (ds.map (digitChar upper)) (BitVec.ofNat 32 n) =
      (BitVec.ofNat 32 (ds.foldl (fun r d => r * b + d) n), []) := by
  induction ds generalizing n with
  | nil => rfl
  | cons d ds ih =>
    have hd : charDigit (digitChar upper d) b = d :=
      charDigit_digitChar (hds d List.mem_cons_self) hb
    have hstep : BitVec.ofNat 32 n * BitVec.ofInt 32 b + BitVec.ofInt 32 d =
        BitVec.ofNat 32 (n * b + d) := by
      rw [BitVec.ofInt_natCast, BitVec.ofInt_natCast, BitVec.ofNat_add, BitVec.ofNat_mul]
    rw [List.map_cons]
    unfold digitLoop
    dsimp only
    rw [hd, if_pos (Int.natCast_nonneg d), hstep]
    exact ih fun e he => hds e (List.mem_cons_of_mem d he)

theorem cString_numeral (upper : Bool) (n : Nat) (hb : 2 ≤ b) (hb' : b ≤ 36) :
    cString (numeral upper b n ++ [0]) = numeral upper b n := by
  unfold cString
  rw [List.takeWhile_append_of_pos]
  · simp
  · intro c hc
    obtain ⟨d, hd, rfl⟩ := List.mem_map.mp hc
    have hlt := mem_numeralDigits hb hd
    exact decide_eq_true (digitChar_ne upper (by omega)).2.2.2.2

/-- What stands before the digits. -/
structure Plain (base : Int) (s : List Byte) : Prop where
  space : s.headD 0 ≠ ch ' '
  tab : s.headD 0 ≠ ch '\t'
  minus : s.headD 0 ≠ ch '-'
  plus : s.headD 0 ≠ ch '+'
  noPrefix : ¬ (base = 16 ∧ hexPrefix s = true)

theorem strtoul_plain (hbase : base ≠ 0) (h : Plain base s) :
    strtoul s base = digitLoop base s 0 := by
  have hdrop : (s.dropWhile fun c => c == ch ' ' || c == ch '\t') = s := by
    cases s with
    | nil => rfl
    | cons c s =>
      have hspace : (c == ch ' ') = false := beq_false_of_ne h.space
      have htab : (c == ch '\t') = false := beq_false_of_ne h.tab
      refine List.dropWhile_cons_of_neg ?_
      rw [hspace, htab]
      exact Bool.false_ne_true
  have hminus : (s.headD 0 == ch '-') = false := beq_false_of_ne h.minus
  have hplus : (s.headD 0 == ch '+') = false := beq_false_of_ne h.plus
  unfold strtoul
  simp only [hdrop, hminus, hplus, Bool.or_self, Bool.false_eq_true, if_false, hbase, h.noPrefix]

theorem strtoul_minus (hbase : base ≠ 0) (h : Plain base s) : strtoul (ch '-' :: s) base =
    (-(digitLoop base s 0).1, (digitLoop base s 0).2) := by
  have hdrop : ((ch '-' :: s).dropWhile fun c => c == ch ' ' || c == ch '\t') = ch '-' :: s :=
    List.dropWhile_cons_of_neg (by decide)
  unfold strtoul
  simp only [hdrop, List.headD_cons, List.tail_cons, beq_self_eq_true, Bool.true_or, if_true, hbase,
    if_false, h.noPrefix]

theorem plain_digits (hb : b ≤ 36) (hne : ds ≠ []) (hds : ∀ d ∈ ds, d < b) :
    Plain b (ds.map (digitChar upper)) := by
  obtain ⟨d, rest, rfl⟩ := List.exists_cons_of_ne_nil hne
  have hd := hds d List.mem_cons_self
  obtain ⟨hspace, htab, hminus, hplus, -⟩ := digitChar_ne upper (d := d) (by omega)
  refine ⟨hspace, htab, hminus, hplus, ?_⟩
  -- in the base 16 an `x` is no digit
  rintro ⟨h16, hhex⟩
  obtain rfl : b = 16 := by omega
  obtain ⟨-, hx⟩ := Bool.and_eq_true_iff.mp hhex
  cases rest with
  | nil =>
    have hnul : ¬ ((0 : Byte) == ch 'x' || (0 : Byte) == ch 'X') = true := by decide
    exact hnul hx
  | cons e rest =>
    have he := hds e (List.mem_cons_of_mem d List.mem_cons_self)
    obtain ⟨hlower, hupper⟩ := digitChar_ne_x upper he
    rcases Bool.or_eq_true_iff.mp hx with heq | heq
    · exact hlower (eq_of_beq heq)
    · exact hupper (eq_of_beq heq)

theorem numeral_loop (upper : Bool) (n : Nat) (hb : 2 ≤ b) (hb' : b ≤ 36) :
    digitLoop b (numeral upper b n) 0 = (BitVec.ofNat 32 n, []) := by
  have hloop : digitLoop b (numeral upper b n) (BitVec.ofNat 32 0) = _ :=
    digitLoop_digits hb' fun d hd => mem_numeralDigits hb hd
  rwa [foldl_numeralDigits] at hloop

theorem plain_numeral (upper : Bool) (n : Nat) (hb : 2 ≤ b) (hb' : b ≤ 36) :
    Plain b (numeral upper b n) := by
  refine plain_digits hb' ?_ fun d hd => mem_numeralDigits hb hd
  unfold numeralDigits
  split
  case isTrue => exact List.cons_ne_nil _ _
  case isFalse hpos => exact mt List.reverse_eq_nil_iff.mp (Nat.digits_ne_nil_iff_ne_zero.mpr hpos)

/-- What is formatted is parsed again, up to the NUL: every number in every base, and every signed
number in the base 10. -/
theorem strtoul_uitoa (hlo : 2 ≤ base) (hhi : base ≤ 36) :
    strtoul (cString (uitoa val base upper).1) base = (val, []) ∧
      strtol (cString (itoa v).1) 10 = (v, []) := by
  have hbase : ((base.toNat : Nat) : Int) = base := Int.toNat_of_nonneg (by omega)
  have hten : (10 : Int) ≠ 0 := by decide
  constructor
  · have hplain := plain_numeral upper val.toNat (b := base.toNat) (by omega) (by omega)
    have hloop := numeral_loop upper val.toNat (b := base.toNat) (by omega) (by omega)
    rw [hbase] at hplain hloop
    rw [uitoa_eq hlo hhi, cString_numeral _ _ (by omega) (by omega),
      strtoul_plain (by omega) hplain, hloop, BitVec.ofNat_toNat, BitVec.setWidth_eq]
  · have hplain := plain_numeral false v.toInt.natAbs (b := 10) (by decide) (by decide)
    have hloop := numeral_loop false v.toInt.natAbs (b := 10) (by decide) (by decide)
    have hstring := cString_numeral false v.toInt.natAbs (b := 10) (by decide) (by decide)
    rw [itoa_eq]
    unfold strtol signedNumeral
    split
    case isTrue hneg =>
      have hsign : cString (ch '-' :: numeral false 10 v.toInt.natAbs ++ [0]) =
          ch '-' :: numeral false 10 v.toInt.natAbs := congrArg (ch '-' :: ·) hstring
      have habs : v.toInt = -(v.toInt.natAbs : Int) := by omega
      have hvalue : -BitVec.ofNat 32 v.toInt.natAbs = v := by
        rw [← BitVec.ofInt_natCast, ← BitVec.ofInt_neg, ← habs, BitVec.ofInt_toInt]
      have hminus := strtoul_minus hten hplain
      rw [hsign]
      refine hminus.trans ?_
      rw [show ((10 : Nat) : Int) = 10 from rfl] at hloop
      rw [hloop, hvalue]
    case isFalse hpos =>
      have habs : v.toInt = (v.toInt.natAbs : Int) := by omega
      have hvalue : BitVec.ofNat 32 v.toInt.natAbs = v := by
        rw [← BitVec.ofInt_natCast, ← habs, BitVec.ofInt_toInt]
      rw [show ((10 : Nat) : Int) = 10 from rfl] at hloop
      rw [hstring]
      refine (strtoul_plain hten hplain).trans ?_
      rw [hloop, hvalue]

/-- `zz` in the base 36, and the least signed number. -/
theorem strtoul_uitoa_zz :
    strtoul (cString (uitoa 1295 36 true).1) 36 = (1295, []) ∧
      strtol (cString (itoa (BitVec.intMin 32)).1) 10 = (BitVec.intMin 32, []) :=
  strtoul_uitoa (by decide) (by decide)

end PinguinOS.Klib
