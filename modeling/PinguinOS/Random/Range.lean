import Mathlib.Data.FinEnum
import Mathlib.Data.Nat.Periodic
import PinguinOS.Random.Entropy

/-! Numbers below a bound, drawn with rejection: `rand_range`. -/
namespace PinguinOS.Random

def threshold (max : BitVec 32) : BitVec 32 := (~~~max + 1) % max

/-- The loop ends with `r`. -/
def Accepted (max r : BitVec 32) : Prop := ¬ r < threshold max

instance {max r : BitVec 32} : Decidable (Accepted max r) := inferInstanceAs (Decidable (¬ _))

/-- The loop of `rand_range`, for at most `n` rounds. -/
def rejectLoop (max : BitVec 32) : (n : Nat) → Entropy → Option (BitVec 32 × Entropy)
  | 0, _ => none
  | n + 1, e =>
    let (r, e) := randU32 e
    if r < threshold max then rejectLoop max n e else some (r, e)

def randRange (max : BitVec 32) (n : Nat) (e : Entropy) : Option (BitVec 32 × Entropy) :=
  if max ≤ 1 then some (0, e)
  else (rejectLoop max n e).map fun (r, e) => (r % max, e)

/-- How many of the accepted values come out as `k`. -/
def occurrences (max k : BitVec 32) : Nat :=
  (Finset.univ.filter fun r => Accepted max r ∧ r % max = k).card

/-- Some value is accepted, each residue comes from as many of them, and what a call returns is
the residue of an accepted output, which is below `max`; with an accepted output it does return. -/
structure Unbiased (max : BitVec 32) : Prop where
  nonempty : ∃ r, Accepted max r
  equal : ∀ j k, j < max → k < max → occurrences max j = occurrences max k
  below : ∀ n e v e', randRange max n e = some (v, e') → v < max
  drawn : ∀ n e v e', randRange max n e = some (v, e') →
    ∃ i < n, Accepted max (output e i) ∧ v = output e i % max
  returns : ∀ n e, Accepted max (output e n) → (randRange max (n + 1) e).isSome

variable {max r k : BitVec 32} {n m a q j : Nat} {e e' : Entropy}

/-! Counting. -/

/-- Among `q` runs of `m` numbers each residue is met `q` times. -/
theorem card_residue (hj : j < m) :
    ((Finset.Ico a (a + m * q)).filter fun x => x % m = j).card = q := by
  induction q with
  | zero => simp
  | succ q ih =>
    have hsplit : Finset.Ico a (a + m * (q + 1)) =
        Finset.Ico a (a + m * q) ∪ Finset.Ico (a + m * q) (a + m * q + m) := by
      rw [Nat.mul_succ, ← Nat.add_assoc]
      exact (Finset.Ico_union_Ico_eq_Ico (Nat.le_add_right _ _) (Nat.le_add_right _ _)).symm
    have hdisjoint := Finset.Ico_disjoint_Ico_consecutive a (a + m * q) (a + m * q + m)
    have hperiodic : Function.Periodic (fun x => x % m = j) m := by
      intro x
      dsimp only
      rw [Nat.add_mod_right]
    have hone : Nat.count (fun x => x % m = j) m = 1 := by
      rw [Nat.count_eq_card_filter_range, Finset.card_eq_one]
      refine ⟨j, ?_⟩
      ext x
      rw [Finset.mem_filter, Finset.mem_range, Finset.mem_singleton]
      constructor
      · rintro ⟨hx, hxj⟩
        rwa [Nat.mod_eq_of_lt hx] at hxj
      · rintro rfl
        exact ⟨hj, Nat.mod_eq_of_lt hj⟩
    rw [hsplit, Finset.filter_union, Finset.card_union_of_disjoint
      (Finset.disjoint_filter_filter hdisjoint), ih,
      Nat.filter_Ico_card_eq_of_periodic _ _ _ hperiodic, hone]

theorem toNat_threshold (hmax : 0 < max) : (threshold max).toNat = 2 ^ 32 % max.toNat := by
  have hlt := max.isLt
  have hpos : 0 < max.toNat := hmax
  have hneg : (~~~max + 1).toNat = 2 ^ 32 - max.toNat := by
    have hnot : ~~~max + 1 = -max := (BitVec.neg_eq_not_add max).symm
    rw [hnot, BitVec.toNat_neg]
    exact Nat.mod_eq_of_lt (by omega)
  unfold threshold
  rw [BitVec.toNat_umod, hneg]
  exact (Nat.mod_eq_sub_mod (Nat.le_of_lt hlt)).symm

/-- The accepted values that come out as `k`, as numbers. -/
theorem occurrences_eq (hk : k < max) : occurrences max k = 2 ^ 32 / max.toNat := by
  have hmax : 0 < max := Nat.lt_of_le_of_lt (Nat.zero_le _) hk
  have hthreshold := toNat_threshold hmax
  have hrun := Nat.mod_add_div (2 ^ 32) max.toNat
  have hcard := @card_residue max.toNat (2 ^ 32 % max.toNat) (2 ^ 32 / max.toNat) k.toNat hk
  rw [hrun] at hcard
  rw [← hcard]
  unfold occurrences
  refine Finset.card_bij (fun r _ => r.toNat) ?_ ?_ ?_
  · intro r hr
    obtain ⟨-, haccepted, hresidue⟩ := Finset.mem_filter.mp hr
    rw [Finset.mem_filter, Finset.mem_Ico, ← BitVec.toNat_umod, hresidue, ← hthreshold]
    exact ⟨⟨Nat.le_of_not_lt haccepted, r.isLt⟩, rfl⟩
  · intro r _ r' _ heq
    exact BitVec.eq_of_toNat_eq heq
  · intro x hx
    rw [Finset.mem_filter, Finset.mem_Ico, ← hthreshold] at hx
    obtain ⟨⟨hlo, hhi⟩, hresidue⟩ := hx
    have hvalue : (BitVec.ofNat 32 x).toNat = x := by
      rw [BitVec.toNat_ofNat, Nat.mod_eq_of_lt hhi]
    refine ⟨BitVec.ofNat 32 x, ?_, hvalue⟩
    refine Finset.mem_filter.mpr ⟨Finset.mem_univ _, ?_, BitVec.eq_of_toNat_eq ?_⟩
    · intro hlt
      have hsmall : (BitVec.ofNat 32 x).toNat < (threshold max).toNat := hlt
      omega
    · rw [BitVec.toNat_umod, hvalue, hresidue]

/-! The loop. -/

/-- What the loop returns is the first accepted output. -/
theorem rejectLoop_some (h : rejectLoop max n e = some (r, e')) :
    ∃ i < n, Accepted max (output e i) ∧ r = output e i := by
  induction n generalizing e with
  | zero => cases h
  | succ n ih =>
    unfold rejectLoop at h
    dsimp only at h
    split at h
    case isTrue =>
      obtain ⟨i, hi, haccepted, hr⟩ := ih h
      exact ⟨i + 1, Nat.succ_lt_succ hi, haccepted, hr⟩
    case isFalse haccepted =>
      cases h
      exact ⟨0, Nat.succ_pos _, haccepted, rfl⟩

theorem rejectLoop_isSome (h : Accepted max (output e n)) :
    (rejectLoop max (n + 1) e).isSome := by
  induction n generalizing e with
  | zero =>
    unfold rejectLoop
    dsimp only
    split
    case isTrue hrejected => exact absurd hrejected h
    case isFalse => rfl
  | succ n ih =>
    unfold rejectLoop
    dsimp only
    split
    case isTrue => exact ih h
    case isFalse => rfl

/-- No residue is more likely than another. -/
theorem randRange_unbiased (hmax : 1 < max) : Unbiased max := by
  have hrange : ∀ {n e}, randRange max n e =
      (rejectLoop max n e).map fun (r, e) => (r % max, e) :=
    fun {_ _} => if_neg (BitVec.not_le.mpr hmax)
  have hpos : 0 < max := Nat.lt_of_le_of_lt (Nat.zero_le _) hmax
  have hdrawn : ∀ n e v e', randRange max n e = some (v, e') →
      ∃ i < n, Accepted max (output e i) ∧ v = output e i % max := by
    intro n e v e' h
    rw [hrange] at h
    obtain ⟨⟨r, u⟩, hloop, heq⟩ := Option.map_eq_some_iff.mp h
    obtain ⟨i, hi, haccepted, rfl⟩ := rejectLoop_some hloop
    cases heq
    exact ⟨i, hi, haccepted, rfl⟩
  constructor
  case nonempty =>
    refine ⟨~~~0, fun hlt => ?_⟩
    have hlarge : 2 ^ 32 - 1 < (threshold max).toNat := hlt
    have hbound := (threshold max).isLt
    omega
  case equal =>
    intro j k hj hk
    rw [occurrences_eq hj, occurrences_eq hk]
  case below =>
    intro n e v e' h
    obtain ⟨i, -, -, rfl⟩ := hdrawn n e v e' h
    exact BitVec.umod_lt _ hpos
  case drawn => exact hdrawn
  case returns =>
    intro n e haccepted
    rw [hrange, Option.isSome_map]
    exact rejectLoop_isSome haccepted

/-- The rolls of a die. -/
theorem randRange_unbiased_six : Unbiased 6 := randRange_unbiased (by decide)

end PinguinOS.Random
