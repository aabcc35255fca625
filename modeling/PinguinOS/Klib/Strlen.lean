import PinguinOS.Klib.Memory

/-! `strlen`, a word at a time. -/
namespace PinguinOS.Klib

open Bytes (ofBytes byteOf)

/-- What is read. -/
inductive Access
  | byte (a : Addr)
  | word (a : Addr)

/-- Whether a byte of `v` is zero. -/
def zeroByteTest (v : BitVec 32) : Bool := (v - 0x01010101) &&& ~~~v &&& 0x80808080 ≠ 0

/-- The loop up to an aligned address; `true`: the NUL was there before. -/
def strlenHead (m : Memory) : (fuel : Nat) → Addr → List Access →
    Option (Bool × Addr × List Access)
  | 0, _, _ => none
  | fuel + 1, p, log =>
    if p &&& 3 ≠ 0 then
      if m p = 0 then some (true, p, .byte p :: log)
      else strlenHead m fuel (p + 1) (.byte p :: log)
    else some (false, p, log)

def strlenWords (m : Memory) : (fuel : Nat) → Addr → List Access → Option (Addr × List Access)
  | 0, _, _ => none
  | fuel + 1, w, log =>
    if zeroByteTest (loadWord m w) then some (w, .word w :: log)
    else strlenWords m fuel (w + 4) (.word w :: log)

/-- `while (*p) p++;` -/
def strlenTail (m : Memory) : (fuel : Nat) → Addr → List Access → Option (Addr × List Access)
  | 0, _, _ => none
  | fuel + 1, p, log =>
    if m p ≠ 0 then strlenTail m fuel (p + 1) (.byte p :: log) else some (p, .byte p :: log)

/-- The result, and what was read, the last access first; without a result a loop has more rounds
than `fuel`. -/
def strlen (m : Memory) (fuel : Nat) (s : Addr) : Option (BitVec 32 × List Access) := do
  let (found, p, log) ← strlenHead m fuel s []
  if found then some (p - s, log)
  else
    let (w, log) ← strlenWords m fuel p log
    let (p, log) ← strlenTail m fuel w log
    some (p - s, log)

/-- The first NUL from `s` on has the index `len`. -/
structure IsString (m : Memory) (s : Addr) (len : Nat) : Prop where
  nul : m (s + BitVec.ofNat 32 len) = 0
  chars : ∀ i < len, m (s + BitVec.ofNat 32 i) ≠ 0

/-- A byte of the string or its NUL, or an aligned word with one of them. -/
def Access.OfString (s : Addr) (len : Nat) : Access → Prop
  | .byte a => ∃ i ≤ len, a = s + BitVec.ofNat 32 i
  | .word a => a.toNat % 4 = 0 ∧ ∃ i ≤ len, ∃ j < 4, a + BitVec.ofNat 32 j = s + BitVec.ofNat 32 i

variable {m : Memory} {s : Addr} {v : BitVec 32} {f : Nat → Byte} {c : Byte} {fuel i j len : Nat}
  {log : List Access}

/-! The test. -/

theorem byteOf_and {v w : BitVec 32} : byteOf (v &&& w) j = byteOf v j &&& byteOf w j :=
  BitVec.extractLsb'_and

theorem byteOf_not (hj : j < 4) : byteOf (~~~v) j = ~~~byteOf v j := by
  unfold byteOf
  apply BitVec.eq_of_getLsbD_eq
  intro k hk
  simp only [BitVec.getLsbD_extractLsb', BitVec.getLsbD_not, hk, show 8 * j + k < 32 by omega,
    decide_true, Bool.true_and]

theorem toNat_byteOf : (byteOf v j).toNat = v.toNat / 256 ^ j % 256 := by
  unfold byteOf
  rw [BitVec.extractLsb'_toNat, Nat.shiftRight_eq_div_pow, Nat.pow_mul]

theorem toNat_ofBytes : (ofBytes f).toNat =
    (f 0).toNat + 256 * (f 1).toNat + 65536 * (f 2).toNat + 16777216 * (f 3).toNat := by
  have hlt := (ofBytes f).isLt
  have hbyte (j : Nat) (hj : j < 4) : (ofBytes f).toNat / 256 ^ j % 256 = (f j).toNat := by
    rw [← toNat_byteOf, Bytes.byteOf_ofBytes hj]
  have hzero := hbyte 0 (by decide)
  have hone := hbyte 1 (by decide)
  have htwo := hbyte 2 (by decide)
  have hthree := hbyte 3 (by decide)
  norm_num at hzero hone htwo hthree
  omega

/-- As long as no lower byte is zero, nothing is borrowed from a byte. -/
theorem byteOf_sub (hj : j < 4) (hbelow : ∀ i < j, f i ≠ 0) :
    byteOf (ofBytes f - 0x01010101) j = f j - 1 := by
  have hsum := toNat_ofBytes (f := f)
  have hlt (i : Nat) : (f i).toNat < 256 := (f i).isLt
  have hpos (i : Nat) (hi : i < j) : 0 < (f i).toNat := by
    refine Nat.pos_of_ne_zero fun h => hbelow i hi ?_
    exact BitVec.eq_of_toNat_eq h
  have hdiff : (ofBytes f - 0x01010101).toNat = ((ofBytes f).toNat + 4278124287) % 4294967296 := by
    rw [BitVec.toNat_sub, Nat.add_comm]
    rfl
  have hbyte : (f j - 1).toNat = ((f j).toNat + 255) % 256 := by
    rw [BitVec.toNat_sub, Nat.add_comm]
    rfl
  apply BitVec.eq_of_toNat_eq
  rw [toNat_byteOf, hdiff, hbyte]
  have hcases : j = 0 ∨ j = 1 ∨ j = 2 ∨ j = 3 := by omega
  have h0 := hlt 0
  have h1 := hlt 1
  have h2 := hlt 2
  have h3 := hlt 3
  rcases hcases with rfl | rfl | rfl | rfl
  · norm_num
    omega
  · have hp0 := hpos 0 (by decide)
    norm_num
    omega
  · have hp0 := hpos 0 (by decide)
    have hp1 := hpos 1 (by decide)
    norm_num
    omega
  · have hp0 := hpos 0 (by decide)
    have hp1 := hpos 1 (by decide)
    have hp2 := hpos 2 (by decide)
    norm_num
    omega

/-- The byte of the test. -/
theorem byteOf_test (hj : j < 4) (hbelow : ∀ i < j, f i ≠ 0) :
    byteOf ((ofBytes f - 0x01010101) &&& ~~~ofBytes f &&& 0x80808080) j =
      (f j - 1) &&& ~~~f j &&& 0x80 := by
  have hmask : byteOf 0x80808080 j = 0x80 := by
    have hcases : j = 0 ∨ j = 1 ∨ j = 2 ∨ j = 3 := by omega
    rcases hcases with rfl | rfl | rfl | rfl <;> rfl
  rw [byteOf_and, byteOf_and, byteOf_not hj, byteOf_sub hj hbelow, Bytes.byteOf_ofBytes hj, hmask]

/-- A byte that is not zero does not set its bit of the test. -/
theorem test_nonzero (hc : c ≠ 0) : (c - 1) &&& ~~~c &&& 0x80 = 0 := by
  revert c
  decide

/-- The test has no false hits, and it finds the lowest zero byte. -/
theorem zeroByteTest_iff : zeroByteTest (ofBytes f) = true ↔ ∃ j < 4, f j = 0 := by
  unfold zeroByteTest
  rw [decide_eq_true_iff]
  constructor
  · intro htest
    by_contra hnone
    have hchars : ∀ j < 4, f j ≠ 0 := fun j hj h => hnone ⟨j, hj, h⟩
    refine htest ?_
    rw [← Bytes.ofBytes_byteOf (w := (ofBytes f - 0x01010101) &&& _ &&& _)]
    have hzero : ofBytes (fun _ => 0) = 0 := rfl
    refine (Bytes.ofBytes_congr fun j hj => ?_).trans hzero
    rw [byteOf_test hj fun i hi => hchars i (hi.trans hj)]
    exact test_nonzero (hchars j hj)
  · intro hex htest
    obtain ⟨hj, hzero⟩ := Nat.find_spec hex
    have hbelow : ∀ i < Nat.find hex, f i ≠ 0 := fun i hi h =>
      Nat.find_min hex hi ⟨hi.trans hj, h⟩
    have hbyte := byteOf_test hj hbelow
    rw [htest, hzero] at hbyte
    have hnone : byteOf 0 (Nat.find hex) = 0 := BitVec.extractLsb'_zero
    rw [hnone] at hbyte
    exact absurd hbyte (by decide)

/-! The loops. -/

theorem aligned_iff {a : Addr} : a &&& 3 = 0 ↔ a.toNat % 4 = 0 := by
  have hmask : (a &&& 3).toNat = a.toNat % 4 := by
    rw [BitVec.toNat_and]
    exact Nat.and_two_pow_sub_one_eq_mod a.toNat 2
  rw [← hmask]
  exact BitVec.toNat_inj.symm

theorem addr_add : s + BitVec.ofNat 32 i + BitVec.ofNat 32 j = s + BitVec.ofNat 32 (i + j) := by
  rw [BitVec.add_assoc, ← BitVec.ofNat_add]

/-- Every address has an index below `2 ^ 32`. -/
theorem IsString.short (h : IsString m s len) : len < 2 ^ 32 := by
  by_contra hlong
  have hwrap : BitVec.ofNat 32 (len - 2 ^ 32) = BitVec.ofNat 32 len := by
    refine BitVec.eq_of_toNat_eq ?_
    rw [BitVec.toNat_ofNat, BitVec.toNat_ofNat]
    omega
  have hchar := h.chars (len - 2 ^ 32) (by omega)
  rw [hwrap] at hchar
  exact hchar h.nul

/-- Before the NUL the index can be increased. -/
theorem IsString.lt (h : IsString m s len) (hi : i ≤ len) (hne : m (s + BitVec.ofNat 32 i) ≠ 0) :
    i < len := by
  refine Nat.lt_of_le_of_ne hi ?_
  rintro rfl
  exact hne h.nul

theorem IsString.eq (h : IsString m s len) (hi : i ≤ len) (heq : m (s + BitVec.ofNat 32 i) = 0) :
    i = len := by
  by_contra hne
  exact h.chars i (by omega) heq

theorem ofString_byte (hi : i ≤ len) (hlog : ∀ a ∈ log, a.OfString s len) :
    ∀ a ∈ .byte (s + BitVec.ofNat 32 i) :: log, Access.OfString s len a := by
  intro a ha
  rcases List.mem_cons.mp ha with rfl | ha
  · exact ⟨i, hi, rfl⟩
  · exact hlog a ha

theorem strlenHead_eq (h : IsString m s len) (hi : i ≤ len) (hfuel : len - i < fuel)
    (hlog : ∀ a ∈ log, a.OfString s len) :
    ∃ found i' log', strlenHead m fuel (s + BitVec.ofNat 32 i) log =
        some (found, s + BitVec.ofNat 32 i', log') ∧ i' ≤ len ∧ (found = true → i' = len) ∧
      (found = false → (s + BitVec.ofNat 32 i').toNat % 4 = 0) ∧
      ∀ a ∈ log', a.OfString s len := by
  induction fuel generalizing i log with
  | zero => exact absurd hfuel (Nat.not_lt_zero _)
  | succ fuel ih =>
    unfold strlenHead
    split
    case isTrue hodd =>
      split
      case isTrue hnul =>
        exact ⟨true, i, _, rfl, hi, fun _ => h.eq hi hnul, fun hf => absurd hf (by decide),
          ofString_byte hi hlog⟩
      case isFalse hchar =>
        have hlt := h.lt hi hchar
        have hrest := ih (i := i + 1) hlt (by omega) (ofString_byte hi hlog)
        rw [← addr_add] at hrest
        exact hrest
    case isFalse heven =>
      exact ⟨false, i, log, rfl, hi, fun hf => absurd hf (by decide),
        fun _ => aligned_iff.mp (not_not.mp heven), hlog⟩

theorem strlenWords_eq (h : IsString m s len) (hi : i ≤ len)
    (haligned : (s + BitVec.ofNat 32 i).toNat % 4 = 0) (hfuel : len - i < fuel)
    (hlog : ∀ a ∈ log, a.OfString s len) :
    ∃ i' log', strlenWords m fuel (s + BitVec.ofNat 32 i) log =
        some (s + BitVec.ofNat 32 i', log') ∧ i' ≤ len ∧ ∀ a ∈ log', a.OfString s len := by
  induction fuel generalizing i log with
  | zero => exact absurd hfuel (Nat.not_lt_zero _)
  | succ fuel ih =>
    have hread : ∀ a ∈ .word (s + BitVec.ofNat 32 i) :: log, Access.OfString s len a := by
      intro a ha
      rcases List.mem_cons.mp ha with rfl | ha
      · exact ⟨haligned, i, hi, 0, by decide, BitVec.add_zero _⟩
      · exact hlog a ha
    unfold strlenWords
    split
    case isTrue => exact ⟨i, _, rfl, hi, hread⟩
    case isFalse hnone =>
      have hchars : ∀ j < 4, m (s + BitVec.ofNat 32 (i + j)) ≠ 0 := by
        intro j hj hzero
        refine hnone (zeroByteTest_iff.mpr ⟨j, hj, ?_⟩)
        rwa [addr_add]
      have hlt : i + 4 ≤ len := by
        by_contra hshort
        refine hchars (len - i) (by omega) ?_
        rw [Nat.add_sub_cancel' hi]
        exact h.nul
      have hnext : (s + BitVec.ofNat 32 (i + 4)).toNat % 4 = 0 := by
        rw [← addr_add, BitVec.toNat_add, BitVec.toNat_ofNat]
        omega
      have hrest := ih (i := i + 4) hlt hnext (by omega) hread
      rw [← addr_add] at hrest
      exact hrest

theorem strlenTail_eq (h : IsString m s len) (hi : i ≤ len) (hfuel : len - i < fuel)
    (hlog : ∀ a ∈ log, a.OfString s len) :
    ∃ log', strlenTail m fuel (s + BitVec.ofNat 32 i) log =
        some (s + BitVec.ofNat 32 len, log') ∧ ∀ a ∈ log', a.OfString s len := by
  induction fuel generalizing i log with
  | zero => exact absurd hfuel (Nat.not_lt_zero _)
  | succ fuel ih =>
    unfold strlenTail
    split
    case isTrue hchar =>
      have hlt := h.lt hi hchar
      have hrest := ih (i := i + 1) hlt (by omega) (ofString_byte hi hlog)
      rw [← addr_add] at hrest
      exact hrest
    case isFalse hnul =>
      obtain rfl := h.eq hi (not_not.mp hnul)
      exact ⟨_, rfl, ofString_byte hi hlog⟩

/-- The index of the first NUL, read in bytes of the string and in aligned words with one. -/
theorem strlen_eq (h : IsString m s len) (hfuel : len < fuel) :
    ∃ log, strlen m fuel s = some (BitVec.ofNat 32 len, log) ∧
      ∀ a ∈ log, a.OfString s len := by
  have hdiff : s + BitVec.ofNat 32 len - s = BitVec.ofNat 32 len := add_sub_cancel_left _ _
  have hnil : ∀ a ∈ ([] : List Access), a.OfString s len := fun a ha => absurd ha List.not_mem_nil
  obtain ⟨found, i, log, hhead, hi, hfound, haligned, hlog⟩ :=
    strlenHead_eq (i := 0) h (Nat.zero_le _) hfuel hnil
  rw [add_zero_addr] at hhead
  cases found with
  | true =>
    refine ⟨log, Option.bind_eq_some_iff.mpr ⟨_, hhead, ?_⟩, hlog⟩
    rw [hfound rfl]
    exact congrArg (fun r => some (r, log)) hdiff
  | false =>
    obtain ⟨i', log', hwords, hi', hlog'⟩ :=
      strlenWords_eq h hi (haligned rfl) (by omega : len - i < fuel) hlog
    obtain ⟨log'', htail, hlog''⟩ := strlenTail_eq h hi' (by omega : len - i' < fuel) hlog'
    refine ⟨log'', Option.bind_eq_some_iff.mpr ⟨_, hhead, ?_⟩, hlog''⟩
    refine Option.bind_eq_some_iff.mpr ⟨_, hwords, ?_⟩
    refine Option.bind_eq_some_iff.mpr ⟨_, htail, ?_⟩
    exact congrArg (fun r => some (r, log'')) hdiff

/-- The regions have no byte in common. -/
def Apart (d s : Addr) (n : Nat) : Prop :=
  ∀ i < n, ∀ j < n, d + BitVec.ofNat 32 i ≠ s + BitVec.ofNat 32 j

/-- The routines for whole words do what loops over the bytes do. -/
theorem memory_routines :
    (∀ m s c n, memset m s c n = memsetBytes (c.setWidth 8) n m s) ∧
    (∀ m d s n, Apart d s n → memcpy m d s n = copyBytes n m d s) ∧
    (∀ m d s n, InSpace d n → InSpace s n → memmove m d s n = movedBytes m d s n) ∧
    ∀ m s len, IsString m s len → ∀ fuel > len, ∃ n log,
      strlen m fuel s = some (n, log) ∧ n.toNat = len ∧ ∀ a ∈ log, a.OfString s len := by
  refine ⟨fun m s c n => memset_eq, fun m d s n h => memcpy_eq fun i j hij hj => ?_,
    fun m d s n hd hs => memmove_eq hd hs, fun m s len h fuel hfuel => ?_⟩
  · exact h i (hij.trans hj) j hj
  · obtain ⟨log, hrun, hlog⟩ := strlen_eq h hfuel
    refine ⟨_, log, hrun, ?_, hlog⟩
    rw [BitVec.toNat_ofNat, Nat.mod_eq_of_lt h.short]

/-- A string of five characters from the address 1 on. -/
def fiveChars : Memory := fun a => if a = 6 then 0 else ch 'a'

theorem memory_routines_fiveChars :
    memset fiveChars 1 0x141 6 = memsetBytes 0x41 6 fiveChars 1 ∧
    memcpy fiveChars 9 1 6 = copyBytes 6 fiveChars 9 1 ∧
    memmove fiveChars 3 1 6 = movedBytes fiveChars 3 1 6 ∧
    ∃ n log, strlen fiveChars 6 1 = some (n, log) ∧ n.toNat = 5 ∧ ∀ a ∈ log, a.OfString 1 5 := by
  obtain ⟨hset, hcpy, hmove, hlen⟩ := memory_routines
  have hstring : IsString fiveChars 1 5 := ⟨by decide, by decide⟩
  have happart : Apart 9 1 6 := by
    unfold Apart
    decide
  exact ⟨hset _ _ _ _, hcpy _ _ _ _ happart, hmove _ _ _ _ (by unfold InSpace; decide)
    (by unfold InSpace; decide), hlen _ _ _ hstring _ (by decide)⟩

end PinguinOS.Klib
