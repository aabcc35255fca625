import Mathlib.Data.BitVec
import Mathlib.Tactic.Common

/-! Division of 64-bit numbers by shifts and subtractions: `__udivdi3` and its relatives. -/
namespace PinguinOS.Klib

def topBit : BitVec 64 := (1 : BitVec 64) <<< 63

/-- The first loop of `__udivdi3`: `d` is shifted up, and `sh` counts. -/
def normalise (n : BitVec 64) : (rounds : Nat) → BitVec 64 → Int → BitVec 64 × Int
  | 0, d, sh => (d, sh)
  | rounds + 1, d, sh =>
    if d ≤ n ∧ d &&& topBit = 0 then normalise n rounds (d <<< 1) (sh + 1) else (d, sh)

/-- The second loop, with `k` rounds to go: `i` is one less. -/
def subtractLoop : (k : Nat) → (n d q : BitVec 64) → BitVec 64
  | 0, _, _, q => q
  | i + 1, n, d, q =>
    if n ≥ d then subtractLoop i (n - d) (d >>> 1) (q ||| (1 : BitVec 64) <<< i)
    else subtractLoop i n (d >>> 1) q

/-- `__udivdi3`; 64 rounds are enough for the first loop. -/
def udivdi3 (n d : BitVec 64) : BitVec 64 :=
  if d = 0 ∨ d > n then
    if (d = 0 ∨ d > n) ∧ d ≠ 0 then 0 else 1
  else if d = n then 1
  else
    let (d, sh) := normalise n 64 d 0
    let (d, sh) := if d > n then (d >>> 1, sh - 1) else (d, sh)
    subtractLoop (sh + 1).toNat n d 0

def umoddi3 (n d : BitVec 64) : BitVec 64 := if d = 0 then 0 else n - d * udivdi3 n d

/-- `__divdi3`; a negation wraps. -/
def divdi3 (n d : BitVec 64) : BitVec 64 :=
  let neg := n.slt 0 != d.slt 0
  let q := udivdi3 (if n.slt 0 then -n else n) (if d.slt 0 then -d else d)
  if neg then -q else q

def moddi3 (n d : BitVec 64) : BitVec 64 := n - d * divdi3 n d

/-- The quotient and the remainder are right, for signed numbers where the quotient is one. The
first loop has ended after the rounds it has, `d` is shifted without loss, and no shift is as long
as a number: `i` is at most `sh`. -/
structure DividesRight (n d : BitVec 64) : Prop where
  quotient : n.toNat = (udivdi3 n d).toNat * d.toNat + (umoddi3 n d).toNat
  remainder : (umoddi3 n d).toNat < d.toNat
  ended : ¬ ((normalise n 64 d 0).1 ≤ n ∧ (normalise n 64 d 0).1 &&& topBit = 0)
  lossless : ((normalise n 64 d 0).1.toNat : Int) = d.toNat * 2 ^ (normalise n 64 d 0).2.toNat
  shifts : 0 ≤ (normalise n 64 d 0).2 ∧ (normalise n 64 d 0).2 < 64
  signed : ¬ (n = BitVec.intMin 64 ∧ d = -1) →
    (divdi3 n d).toInt = n.toInt.tdiv d.toInt ∧ (moddi3 n d).toInt = n.toInt.tmod d.toInt

variable {n d q : BitVec 64} {sh : Int} {k rounds D : Nat}

/-! The loops. -/

theorem and_topBit : d &&& topBit = 0 ↔ d.toNat < 2 ^ 63 := by
  have hbit : d &&& topBit = 0 ↔ d.msb = false := by
    show d &&& BitVec.twoPow 64 63 = 0 ↔ _
    rw [BitVec.and_twoPow]
    rw [BitVec.msb_eq_getLsbD_last]
    split
    case isTrue hset => exact iff_of_false (by decide) (Bool.not_eq_false _ ▸ hset)
    case isFalse hclear => exact iff_of_true rfl (Bool.not_eq_true _ ▸ hclear)
  rw [hbit, BitVec.msb_eq_decide, decide_eq_false_iff_not, Nat.not_le]

theorem toNat_double (h : d.toNat < 2 ^ 63) : (d <<< 1).toNat = d.toNat * 2 := by
  rw [BitVec.toNat_shiftLeft, Nat.shiftLeft_eq, Nat.mod_eq_of_lt (by omega)]

/-- The first loop shifts by some `k`, the last time from a number that is at most `n`. -/
theorem normalise_spec : ∃ k ≤ rounds, (normalise n rounds d sh).2 = sh + k ∧
    (normalise n rounds d sh).1.toNat = d.toNat * 2 ^ k ∧
    (∀ i < k, d.toNat * 2 ^ i ≤ n.toNat) ∧
    (k = rounds ∨ n.toNat < d.toNat * 2 ^ k ∨ 2 ^ 63 ≤ d.toNat * 2 ^ k) := by
  induction rounds generalizing d sh with
  | zero => exact ⟨0, Nat.le_refl _, (Int.add_zero _).symm, (Nat.mul_one _).symm,
      fun i hi => absurd hi (Nat.not_lt_zero i), Or.inl rfl⟩
  | succ rounds ih =>
    unfold normalise
    split
    case isTrue hmore =>
      obtain ⟨hle, htop⟩ := hmore
      have hdouble := toNat_double (and_topBit.mp htop)
      obtain ⟨k, hk, hcount, hvalue, hsmall, hend⟩ := @ih (d <<< 1) (sh + 1)
      have hpow : ∀ i, (d <<< 1).toNat * 2 ^ i = d.toNat * 2 ^ (i + 1) := by
        intro i
        rw [hdouble, Nat.pow_succ, Nat.mul_assoc, Nat.mul_comm 2]
      rw [hpow] at hvalue hend
      refine ⟨k + 1, Nat.succ_le_succ hk, ?_, hvalue, ?_, hend.imp_left fun heq => congrArg _ heq⟩
      · rw [hcount]
        push_cast
        omega
      · intro i hi
        cases i with
        | zero =>
          rw [Nat.pow_zero, Nat.mul_one]
          exact hle
        | succ i =>
          rw [← hpow]
          exact hsmall i (Nat.lt_of_succ_lt_succ hi)
    case isFalse hend =>
      refine ⟨0, Nat.zero_le _, (Int.add_zero _).symm, (Nat.mul_one _).symm,
        fun i hi => absurd hi (Nat.not_lt_zero i), Or.inr ?_⟩
      rw [and_topBit] at hend
      rw [Nat.pow_zero, Nat.mul_one]
      by_cases hle : d ≤ n
      · exact Or.inr (Nat.not_lt.mp fun hlt => hend ⟨hle, hlt⟩)
      · exact Or.inl (BitVec.not_le.mp hle)

theorem or_bit (hdvd : 2 ^ (k + 1) ∣ q.toNat) (hk : k < 64) :
    (q ||| (1 : BitVec 64) <<< k).toNat = q.toNat + 2 ^ k := by
  obtain ⟨m, hm⟩ := hdvd
  have hlt : 2 ^ k < 2 ^ 64 := Nat.pow_lt_pow_right (by decide) hk
  have hone : ((1 : BitVec 64) <<< k).toNat = 2 ^ k := by
    rw [BitVec.toNat_shiftLeft, Nat.shiftLeft_eq]
    show 1 * 2 ^ k % 2 ^ 64 = 2 ^ k
    rw [Nat.one_mul, Nat.mod_eq_of_lt hlt]
  have hsmall : 2 ^ k < 2 ^ (k + 1) := Nat.pow_lt_pow_right (by decide) (Nat.lt_succ_self k)
  rw [BitVec.toNat_or, hone, hm]
  exact (Nat.two_pow_add_eq_or_of_lt hsmall m).symm

/-- The second loop, where `d` is `D` shifted by one less than the rounds to go: the low bits of the
quotient are added. -/
theorem subtractLoop_spec (hk : k ≤ 64) (hn : n.toNat < D * 2 ^ k)
    (hd : ∀ i, k = i + 1 → d.toNat = D * 2 ^ i) (hq : 2 ^ k ∣ q.toNat) :
    (subtractLoop k n d q).toNat = q.toNat + n.toNat / D := by
  induction k generalizing n d q with
  | zero =>
    rw [Nat.pow_zero, Nat.mul_one] at hn
    rw [Nat.div_eq_of_lt hn]
    rfl
  | succ i ih =>
    have hvalue := hd i rfl
    have hdouble : D * 2 ^ (i + 1) = D * 2 ^ i + D * 2 ^ i := by
      rw [Nat.pow_succ, ← Nat.mul_assoc, Nat.mul_two]
    have hhalf : ∀ j, i = j + 1 → (d >>> 1).toNat = D * 2 ^ j := by
      rintro j rfl
      rw [BitVec.toNat_ushiftRight, Nat.shiftRight_eq_div_pow, hvalue, Nat.pow_succ,
        ← Nat.mul_assoc, Nat.pow_one, Nat.mul_div_cancel _ (by decide)]
    have hpow : 2 ^ i ∣ 2 ^ (i + 1) := Nat.pow_dvd_pow 2 (Nat.le_succ i)
    unfold subtractLoop
    split
    case isTrue hge =>
      have hle : D * 2 ^ i ≤ n.toNat := hvalue ▸ hge
      have hless : (n - d).toNat = n.toNat - D * 2 ^ i := by
        rw [BitVec.toNat_sub_of_le hge, hvalue]
      have hor := or_bit hq (by omega)
      have hpos : 0 < D := by
        rcases Nat.eq_zero_or_pos D with rfl | hpos
        · rw [Nat.zero_mul] at hn
          omega
        · exact hpos
      have hbit : 2 ^ i ≤ n.toNat / D := (Nat.le_div_iff_mul_le hpos).mpr (Nat.mul_comm D _ ▸ hle)
      have hdvd : 2 ^ i ∣ (q ||| (1 : BitVec 64) <<< i).toNat := by
        rw [hor]
        exact Nat.dvd_add (hpow.trans hq) (Nat.dvd_refl _)
      rw [ih (by omega) (by omega) hhalf hdvd, hor, hless, Nat.sub_mul_div]
      omega
    case isFalse hlt =>
      have hless : n.toNat < D * 2 ^ i := by
        rw [← hvalue]
        exact Nat.not_le.mp hlt
      exact ih (by omega) hless hhalf (hpow.trans hq)

/-- What the first loop leaves: it ends on its own, before `d` has been shifted out. -/
theorem normalise_ends (hd : d ≠ 0) : ∃ k : Nat, k < 64 ∧ (normalise n 64 d 0).2 = k ∧
    (normalise n 64 d 0).1.toNat = d.toNat * 2 ^ k ∧ (∀ i < k, d.toNat * 2 ^ i ≤ n.toNat) ∧
      (n.toNat < d.toNat * 2 ^ k ∨ 2 ^ 63 ≤ d.toNat * 2 ^ k) := by
  have hpos : 0 < d.toNat := Nat.pos_of_ne_zero fun h => hd (BitVec.eq_of_toNat_eq h)
  obtain ⟨k, -, hcount, hvalue, hsmall, hend⟩ := @normalise_spec n d 0 64
  have hbound := (normalise n 64 d 0).1.isLt
  have hk : k < 64 := by
    rw [hvalue] at hbound
    exact (Nat.pow_lt_pow_iff_right (by decide)).mp
      (Nat.lt_of_le_of_lt (Nat.le_mul_of_pos_left _ hpos) hbound)
  exact ⟨k, hk, hcount.trans (Int.zero_add _), hvalue, hsmall,
    hend.resolve_left (Nat.ne_of_lt hk)⟩

/-! The quotients and remainders. -/

theorem toNat_udivdi3 (hd : d ≠ 0) : (udivdi3 n d).toNat = n.toNat / d.toNat := by
  have hpos : 0 < d.toNat := Nat.pos_of_ne_zero fun h => hd (BitVec.eq_of_toNat_eq h)
  unfold udivdi3
  by_cases hlarge : d > n
  · rw [if_pos (Or.inr hlarge), if_pos ⟨Or.inr hlarge, hd⟩, Nat.div_eq_of_lt hlarge]
    rfl
  rw [if_neg (not_or.mpr ⟨hd, hlarge⟩)]
  by_cases heq : d = n
  · subst heq
    rw [if_pos rfl, Nat.div_self hpos]
    rfl
  rw [if_neg heq]
  obtain ⟨k, hk, hcount, hvalue, hsmall, hend⟩ := @normalise_ends n d hd
  generalize normalise n 64 d 0 = shifted at hcount hvalue ⊢
  obtain ⟨d', sh⟩ := shifted
  dsimp only at hcount hvalue ⊢
  have hzero : ∀ j, 2 ^ j ∣ (0 : BitVec 64).toNat := fun j => Nat.dvd_zero _
  have hquotient : ∀ j (e : BitVec 64), j < 64 → e.toNat = d.toNat * 2 ^ j →
      n.toNat < d.toNat * 2 ^ (j + 1) →
      (subtractLoop (j + 1) n e 0).toNat = n.toNat / d.toNat := by
    intro j e hj he hlt
    rw [subtractLoop_spec hj hlt ?_ (hzero _)]
    · exact Nat.zero_add _
    · rintro i hi
      cases hi
      exact he
  by_cases hover : d' > n
  · -- shifted once too often
    rw [if_pos hover]
    have hlt : n.toNat < d.toNat * 2 ^ k := hvalue ▸ hover
    cases k with
    | zero =>
      rw [Nat.pow_zero, Nat.mul_one] at hlt
      exact absurd hlt hlarge
    | succ j =>
      have hhalf : (d' >>> 1).toNat = d.toNat * 2 ^ j := by
        rw [BitVec.toNat_ushiftRight, Nat.shiftRight_eq_div_pow, hvalue, Nat.pow_succ,
          ← Nat.mul_assoc, Nat.pow_one, Nat.mul_div_cancel _ (by decide)]
      have hrounds : (sh - 1 + 1).toNat = j + 1 := by omega
      dsimp only
      rw [hrounds]
      exact hquotient j _ (by omega) hhalf hlt
  · -- the top bit is set
    rw [if_neg hover]
    have hle : d.toNat * 2 ^ k ≤ n.toNat := hvalue ▸ Nat.not_lt.mp hover
    have htop := hend.resolve_left (Nat.not_lt.mpr hle)
    have hrounds : (sh + 1).toNat = k + 1 := by omega
    have hbound := n.isLt
    dsimp only
    rw [hrounds]
    refine hquotient k _ hk hvalue ?_
    rw [Nat.pow_succ, ← Nat.mul_assoc]
    omega

theorem toNat_umoddi3 (hd : d ≠ 0) : (umoddi3 n d).toNat = n.toNat % d.toNat := by
  have hle := Nat.div_mul_le_self n.toNat d.toNat
  have hmod := Nat.mod_add_div n.toNat d.toNat
  have hlt := n.isLt
  have hproduct : (d * udivdi3 n d).toNat = d.toNat * (n.toNat / d.toNat) := by
    rw [BitVec.toNat_mul, toNat_udivdi3 hd, Nat.mod_eq_of_lt (by omega)]
  unfold umoddi3
  rw [if_neg hd, BitVec.toNat_sub_of_le, hproduct]
  · omega
  · rw [BitVec.le_def, hproduct]
    omega

theorem udivdi3_eq (hd : d ≠ 0) : udivdi3 n d = n.udiv d :=
  BitVec.eq_of_toNat_eq ((toNat_udivdi3 hd).trans BitVec.toNat_udiv.symm)

/-- The signs are taken off and put on as in a signed division. -/
theorem divdi3_eq (hd : d ≠ 0) : divdi3 n d = n.sdiv d := by
  have hneg : -d ≠ 0 := fun h => hd (BitVec.neg_eq_zero_iff.mp h)
  unfold divdi3
  rw [BitVec.sdiv_eq]
  have hn : n.slt 0 = n.msb := BitVec.slt_zero_eq_msb
  have hd' : d.slt 0 = d.msb := BitVec.slt_zero_eq_msb
  rw [hn, hd']
  cases n.msb with
  | false =>
    cases d.msb with
    | false => exact udivdi3_eq hd
    | true => exact congrArg (fun q => -q) (udivdi3_eq hneg)
  | true =>
    cases d.msb with
    | false => exact congrArg (fun q => -q) (udivdi3_eq hd)
    | true => exact udivdi3_eq hneg

theorem toInt_divdi3 (hd : d ≠ 0) (hover : ¬ (n = BitVec.intMin 64 ∧ d = -1)) :
    (divdi3 n d).toInt = n.toInt.tdiv d.toInt := by
  rw [divdi3_eq hd]
  exact BitVec.toInt_sdiv_of_ne_or_ne n d (not_and_or.mp hover)

theorem toInt_moddi3 (hd : d ≠ 0) (hover : ¬ (n = BitVec.intMin 64 ∧ d = -1)) :
    (moddi3 n d).toInt = n.toInt.tmod d.toInt := by
  have hmod : n.toInt - d.toInt * n.toInt.tdiv d.toInt = n.toInt.tmod d.toInt :=
    (Int.tmod_def _ _).symm
  have hzero : d.toInt ≠ 0 := fun h => hd (BitVec.toInt_inj.mp (h.trans BitVec.toInt_zero.symm))
  have hsmall : (n.toInt.tmod d.toInt).natAbs < d.toInt.natAbs := by
    rw [Int.natAbs_tmod]
    exact Nat.mod_lt _ (Int.natAbs_pos.mpr hzero)
  have hlo := @BitVec.le_toInt 64 d
  have hhi := @BitVec.toInt_lt 64 d
  unfold moddi3
  rw [BitVec.toInt_sub, BitVec.toInt_mul, toInt_divdi3 hd hover, Int.sub_bmod_bmod, hmod]
  exact Int.bmod_eq_of_le (by omega) (by omega)

/-- The helpers divide as they should. -/
theorem dividesRight (hd : d ≠ 0) : DividesRight n d := by
  have hpos : 0 < d.toNat := Nat.pos_of_ne_zero fun h => hd (BitVec.eq_of_toNat_eq h)
  obtain ⟨k, hk, hcount, hvalue, -, hend⟩ := @normalise_ends n d hd
  constructor
  case quotient =>
    rw [toNat_udivdi3 hd, toNat_umoddi3 hd]
    exact (Nat.div_add_mod' _ _).symm
  case remainder =>
    rw [toNat_umoddi3 hd]
    exact Nat.mod_lt _ hpos
  case ended =>
    rintro ⟨hle, htop⟩
    rw [and_topBit] at htop
    rw [BitVec.le_def] at hle
    omega
  case lossless =>
    rw [hcount, hvalue]
    push_cast
    rfl
  case shifts => omega
  case signed => exact fun hover => ⟨toInt_divdi3 hd hover, toInt_moddi3 hd hover⟩

theorem dividesRight_seven : DividesRight (-7) 2 := dividesRight (by decide)

end PinguinOS.Klib
