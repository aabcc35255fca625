import PinguinOS.Klib.PrintfSafe

/-! How long the text of a format is: rules for its characters and its directives. -/
namespace PinguinOS.Klib

/-- The format is complete, and from the argument `ap` on its text has `n` characters. -/
def Prints (fmt : List Byte) (args : Args) (ap n : Nat) : Prop :=
  ∃ ps, pieces fmt = some ps ∧ (text args ps ap).length = n

variable {args : Args} {f : Flags} {fmt s rest : List Byte} {conv : Byte} {v : BitVec 32}
  {ap k n : Nat} {upper right : Bool} {pc : Byte}

theorem prints_nil : Prints [] args ap 0 := by
  refine ⟨[], ?_, rfl⟩
  rw [pieces]

theorem prints_chars (hs : ∀ c ∈ s, c ≠ ch '%') (h : Prints fmt args ap n) :
    Prints (s ++ fmt) args ap (s.length + n) := by
  induction s with
  | nil =>
    rw [List.length_nil, Nat.zero_add]
    exact h
  | cons c s ih =>
    obtain ⟨ps, hps, hlen⟩ := ih fun c hc => hs c (List.mem_cons_of_mem _ hc)
    refine ⟨.char c :: ps, ?_, ?_⟩
    · rw [List.cons_append, pieces_char (hs c List.mem_cons_self), hps]
      rfl
    · have hcons : text args (.char c :: ps) ap = c :: text args ps ap := rfl
      rw [hcons, List.length_cons, List.length_cons, hlen]
      omega

theorem prints_text (hs : ∀ c ∈ s, c ≠ ch '%') : Prints s args ap s.length := by
  have h : Prints (s ++ []) args ap (s.length + 0) := prints_chars hs prints_nil
  rwa [List.append_nil] at h

/-- The characters are one byte each, and none is a `%`. -/
def Ordinary (s : String) : Prop := ∀ c ∈ s.toList, c ≠ '%' ∧ c.toNat < 256

theorem Ordinary.of_all {s : String}
    (h : (s.toList.all fun c => c != '%' && c.toNat < 256) = true) : Ordinary s := by
  intro c hc
  obtain ⟨hne, hsmall⟩ := Bool.and_eq_true_iff.mp (List.all_eq_true.mp h c hc)
  exact ⟨bne_iff_ne.mp hne, of_decide_eq_true hsmall⟩

theorem Ordinary.str {s : String} (h : Ordinary s) : ∀ c ∈ str s, c ≠ ch '%' := by
  intro b hb
  obtain ⟨c, hc, rfl⟩ := List.mem_map.mp hb
  obtain ⟨hne, hsmall⟩ := h c hc
  intro heq
  refine hne (Char.toNat_inj.mp ?_)
  have hnat := congrArg BitVec.toNat heq
  unfold ch at hnat
  rwa [BitVec.toNat_ofNat, BitVec.toNat_ofNat, Nat.mod_eq_of_lt hsmall] at hnat

theorem prints_directive (f : Flags) (conv : Byte) (hread : readFlags fmt = (f, conv :: rest))
    (hlen : (directiveText args f conv (args.word ap)).length = k)
    (h : Prints rest args (ap + argCount conv) n) : Prints (ch '%' :: fmt) args ap (k + n) := by
  obtain ⟨ps, hps, hrest⟩ := h
  refine ⟨.directive f conv :: ps, ?_, ?_⟩
  · rw [pieces_directive hread, hps]
    rfl
  · have hcons : text args (.directive f conv :: ps) ap =
        directiveText args f conv (args.word ap) ++ text args ps (ap + argCount conv) :=
      List.flatMap_cons
    rw [hcons, List.length_append, hlen, hrest]

/-! The directives. -/

theorem padded_length : (padded f true pc s.length s).length = max f.w.toInt.toNat s.length := by
  unfold padded
  dsimp only
  rw [Bool.and_true]
  cases f.la with
  | true =>
    simp only [if_true, List.nil_append, List.length_append, List.length_replicate]
    omega
  | false =>
    simp only [Bool.false_eq_true, if_false, List.append_nil, List.length_append,
      List.length_replicate]
    omega

/-- A number of at most the width. -/
theorem padded_fits (hw : f.w.toInt = k) (hs : s.length ≤ k) :
    (padded f true pc s.length s).length = k := by
  rw [padded_length, hw]
  omega

/-- `%08x` -/
theorem prints_hex8 (h : Prints fmt args (ap + 1) n) :
    Prints (str "%08x" ++ fmt) args ap (8 + n) := by
  have hlt := (args.word ap).isLt
  refine prints_directive ⟨false, ch '0', 8, false⟩ (ch 'x') rfl ?_ h
  refine padded_fits (k := 8) rfl ?_
  have hdigits : (numeral false 16 (args.word ap).toNat).length ≤ 8 :=
    (numeral_length_le (by decide) (by decide)).mpr hlt
  exact hdigits

/-- The length of a number with at least `w` digits. -/
def decimalLength (w : Nat) (v : BitVec 32) : Nat := max w (numeral false 10 v.toNat).length

theorem decimalLength_le {w : Nat} (hw : w ≤ 10) : decimalLength w v ≤ 10 := by
  have hlt := v.isLt
  have hdigits : (numeral false 10 v.toNat).length ≤ 10 := by
    rw [numeral_length_le (by decide) (by decide)]
    omega
  exact Nat.max_le.mpr ⟨hw, hdigits⟩

/-- `%u`, and with a width -/
theorem prints_decimal (args : Args) (w : BitVec 32)
    (hread : readFlags fmt = (⟨false, pc, w, false⟩, ch 'u' :: rest)) (h : Prints rest args (ap + 1) n) :
    Prints (ch '%' :: fmt) args ap (decimalLength w.toInt.toNat (args.word ap) + n) :=
  prints_directive _ _ hread padded_length h

/-- `%2d` and a number of at most two digits -/
theorem prints_small (hv : (args.word ap).toInt = k) (hk : k < 100) (h : Prints fmt args (ap + 1) n) :
    Prints (str "%2d" ++ fmt) args ap (2 + n) := by
  refine prints_directive ⟨false, ch ' ', 2, false⟩ (ch 'd') rfl ?_ h
  refine padded_fits (k := 2) rfl ?_
  change (signedNumeral (args.word ap).toInt).length ≤ 2
  rw [hv]
  unfold signedNumeral
  rw [if_neg (by omega)]
  exact (numeral_length_le (by decide) (by decide)).mpr hk

/-- The length of a string of `n` characters in `%s`, the cast of `n` to `int` included. -/
def stringLength (n : Nat) : Nat := (0 - (BitVec.ofNat 32 n).toInt).toNat + n

theorem stringLength_of_lt (h : n < 2 ^ 31) : stringLength n = n := by
  unfold stringLength
  rw [toInt_ofNat_of_lt h]
  omega

/-- A string that is too long for an `int` is filled up. -/
theorem stringLength_of_ge (h : 2 ^ 31 ≤ n) : 2 ^ 32 ≤ stringLength n := by
  have hcast : (BitVec.ofNat 32 n).toInt = (n : Int).bmod (2 ^ 32) := BitVec.toInt_ofNat' n
  unfold stringLength
  rw [hcast]
  by_cases hlt : n < 2 ^ 32
  · have hneg : (n : Int).bmod (2 ^ 32) = n - 2 ^ 32 := by
      rw [Int.bmod_def]
      omega
    rw [hneg]
    omega
  · omega

/-- `%s` -/
theorem prints_string (args : Args) (hv : args.word ap ≠ 0) (h : Prints fmt args (ap + 1) n) :
    Prints (str "%s" ++ fmt) args ap (stringLength (args.string (args.word ap)).length + n) := by
  refine prints_directive ⟨false, ch ' ', 0, false⟩ (ch 's') rfl ?_ h
  have htext : stringText args (args.word ap) = args.string (args.word ap) := if_neg hv
  change (padded ⟨false, ch ' ', 0, false⟩ true (ch ' ')
    (BitVec.ofNat 32 (stringText args (args.word ap)).length).toInt
      (stringText args (args.word ap))).length = _
  rw [htext]
  unfold padded stringLength
  simp only [Bool.false_eq_true, if_false, Bool.false_and, List.append_nil, List.length_append,
    List.length_replicate]
  rfl

end PinguinOS.Klib
