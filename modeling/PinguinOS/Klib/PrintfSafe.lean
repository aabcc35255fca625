import PinguinOS.Klib.Printf

/-! When `vsnprintf` keeps to its memory. -/
namespace PinguinOS.Klib

/-- The writes of a run are in `tmp` and in the buffer, and the last one is a NUL. -/
structure Confined (size : BitVec 32) (p : Printer) : Prop where
  tmp : ∀ s ∈ p.tmps, s.length ≤ 32
  buf : ∀ w ∈ p.out.writes, w.1 < size.toNat
  nul : 0 < size → ∃ i, p.out.writes.head? = some (i, 0)

/-- The run does not read behind the format, and keeps to its memory. -/
def Safe (size : BitVec 32) (fmt : List Byte) (args : Args) : Prop :=
  ∃ p n, vsnprintf size fmt args = some (p, n) ∧ Confined size p

/-- `%b`, and a number with 32 binary digits. -/
def WideBinary : Piece × BitVec 32 → Prop
  | (.char _, _) => False
  | (.directive _ conv, v) => conv = ch 'b' ∧ 2 ^ 31 ≤ v.toNat

/-- No directive is cut off, no `%b` has a number of 32 digits, and the text has fewer than `2 ^ 32`
characters if there is a buffer. -/
def Fits (size : BitVec 32) (fmt : List Byte) (args : Args) : Prop :=
  ∃ ps, pieces fmt = some ps ∧ (∀ a ∈ assigned args ps 0, ¬ WideBinary a) ∧
    (0 < size → (text args ps 0).length < 2 ^ 32)

variable {size v : BitVec 32} {args : Args} {fmt s : List Byte} {conv : Byte} {upper : Bool}
  {b k n : Nat} {p : Printer} {ps : List Piece} {a : Piece × BitVec 32}

/-! The scratch buffer. -/

theorem numeral_length_le (hb : 1 < b) (hk : 0 < k) :
    (numeral upper b n).length ≤ k ↔ n < b ^ k := by
  unfold numeral numeralDigits
  rw [List.length_map]
  split
  case isTrue hzero =>
    subst hzero
    have hpow : 0 < b ^ k := Nat.pow_pos (by omega)
    exact iff_of_true hk hpow
  case isFalse =>
    rw [List.length_reverse]
    exact Nat.digits_length_le_iff hb n

theorem signedNumeral_length_le : (signedNumeral v.toInt).length ≤ 31 := by
  have hlo : -2 ^ 31 ≤ v.toInt := BitVec.le_toInt v
  have hhi : v.toInt < 2 ^ 31 := BitVec.toInt_lt
  have hdigits : (numeral false 10 v.toInt.natAbs).length ≤ 30 := by
    rw [numeral_length_le (by decide) (by decide)]
    omega
  unfold signedNumeral
  split
  case isTrue => exact Nat.succ_le_succ hdigits
  case isFalse => exact Nat.le_succ_of_le hdigits

/-- Only `%b` writes more than 31 digits. -/
theorem numberText_length_le :
    (numberText conv v).length ≤ 31 ↔ ¬ (conv = ch 'b' ∧ 2 ^ 31 ≤ v.toNat) := by
  have hlt := v.isLt
  unfold numberText
  split
  case isTrue hd =>
    refine iff_of_true signedNumeral_length_le ?_
    rintro ⟨rfl, -⟩
    exact absurd hd (by decide)
  case isFalse hd =>
  split
  case isTrue hu =>
    refine iff_of_true ?_ ?_
    · rw [numeral_length_le (by decide) (by decide)]
      omega
    · rintro ⟨rfl, -⟩
      exact absurd hu (by decide)
  case isFalse hu =>
  split
  case isTrue hb =>
    rw [numeral_length_le (by decide) (by decide)]
    exact ⟨fun hless h => absurd h.2 (Nat.not_le.mpr hless),
      fun h => Nat.lt_of_not_le fun hle => h ⟨hb, hle⟩⟩
  case isFalse hb =>
    refine iff_of_true ?_ fun h => hb h.1
    rw [numeral_length_le (by decide) (by decide)]
    omega

/-- Each piece but a `%b` with 32 digits leaves room for the NUL in `tmp`. -/
theorem tmp_fits : (∀ s ∈ a.1.tmp a.2, s.length ≤ 32) ↔ ¬ WideBinary a := by
  obtain ⟨q, v⟩ := a
  cases q with
  | char c => exact iff_of_true (fun s hs => absurd hs List.not_mem_nil) id
  | directive f conv =>
    refine Iff.trans ?_ numberText_length_le
    change (∀ s ∈ directiveTmp conv v, s.length ≤ 32) ↔ _
    unfold directiveTmp
    split
    case isTrue =>
      rw [List.forall_mem_singleton, List.length_append, List.length_singleton]
      exact Nat.add_le_add_iff_right (n := 1)
    case isFalse hnone =>
      refine iff_of_true (fun s hs => absurd hs List.not_mem_nil) ?_
      refine numberText_length_le.mpr ?_
      rintro ⟨rfl, -⟩
      exact hnone (by decide)

theorem tmps_fit : (∀ s ∈ tmpsOf args ps n, s.length ≤ 32) ↔
    ∀ a ∈ assigned args ps n, ¬ WideBinary a := by
  unfold tmpsOf
  simp only [List.mem_reverse, List.mem_flatMap, ← tmp_fits]
  exact ⟨fun h a ha s hs => h s ⟨a, ha, hs⟩, fun h s ⟨a, ha, hs⟩ => h a ha s hs⟩

/-! The buffer. -/

/-- The writes of the pieces stay before the last place of the buffer, unless `pos` wraps. -/
theorem printed_bounds (hsize : 0 < size) :
    (∀ w ∈ (emits size ⟨0, []⟩ s).writes, w.1 < size.toNat) ↔ s.length < 2 ^ 32 := by
  have hstart : (⟨0, []⟩ : Output).pos.toNat + s.length = s.length := Nat.zero_add _
  constructor
  · intro h
    by_contra hlong
    obtain ⟨c, hc⟩ := emits_wraps hsize ((Nat.not_lt.mp hlong).trans_eq hstart.symm)
    have hlast := h _ hc
    have hlt := size.isLt
    omega
  · intro h w hw
    rcases emits_bounds (hstart.trans_lt h) hw with hnil | hin
    · exact absurd hnil List.not_mem_nil
    · omega

theorem terminate_index (hsize : 0 < size) :
    (if p.out.pos < size then p.out.pos else size - 1).toNat < size.toNat := by
  have hpos : 0 < size.toNat := hsize
  split
  case isTrue h => exact h
  case isFalse =>
    rw [BitVec.toNat_sub_of_le hsize]
    exact Nat.sub_lt hpos Nat.one_pos

/-- Without a buffer nothing is written. -/
theorem emits_none {o : Output} : (emits 0 o s).writes = o.writes := by
  induction s generalizing o with
  | nil => rfl
  | cons c s ih =>
    have hnone : (emit 0 o c).writes = o.writes := by
      have hlt : ¬ o.pos + 1 < 0 := BitVec.not_lt_zero
      unfold emit
      dsimp only
      rw [if_neg hlt]
    exact (ih (o := emit 0 o c)).trans hnone

/-- The writes of a run, the last NUL included. -/
theorem terminate_bounds :
    (∀ w ∈ (terminate size (printed size args ps ⟨⟨0, []⟩, 0, []⟩)).out.writes,
      w.1 < size.toNat) ↔ (0 < size → (text args ps 0).length < 2 ^ 32) := by
  unfold terminate
  by_cases hsize : size > 0
  · rw [if_pos hsize]
    constructor
    · intro h _
      exact (printed_bounds hsize).mp fun w hw => h w (List.mem_cons_of_mem _ hw)
    · intro hlen w hw
      rcases List.mem_cons.mp hw with rfl | hw
      · exact terminate_index hsize
      · exact (printed_bounds hsize).mpr (hlen hsize) w hw
  · have hzero : size = 0 := BitVec.le_zero_iff.mp (BitVec.not_lt.mp hsize)
    subst hzero
    rw [if_neg hsize]
    refine iff_of_true (fun w hw => ?_) (fun h => absurd h hsize)
    have hnone := emits_none (o := ⟨0, []⟩) (s := text args ps 0)
    rw [show (printed 0 args ps ⟨⟨0, []⟩, 0, []⟩).out.writes = [] from hnone] at hw
    exact absurd hw List.not_mem_nil

theorem mem_terminate {w : Nat × Byte} (h : w ∈ p.out.writes) :
    w ∈ (terminate size p).out.writes := by
  unfold terminate
  split
  case isTrue => exact List.mem_cons_of_mem _ h
  case isFalse => exact h

theorem terminate_tmps : (terminate size p).tmps = p.tmps := by
  unfold terminate
  split
  case isTrue => rfl
  case isFalse => rfl

theorem confined_iff : Confined size (terminate size (printed size args ps ⟨⟨0, []⟩, 0, []⟩)) ↔
    (∀ a ∈ assigned args ps 0, ¬ WideBinary a) ∧
      (0 < size → (text args ps 0).length < 2 ^ 32) := by
  have htmps : (terminate size (printed size args ps ⟨⟨0, []⟩, 0, []⟩)).tmps = tmpsOf args ps 0 :=
    terminate_tmps.trans (List.append_nil _)
  constructor
  · rintro ⟨htmp, hbuf, -⟩
    rw [htmps] at htmp
    exact ⟨tmps_fit.mp htmp, terminate_bounds.mp hbuf⟩
  · rintro ⟨hwide, hlen⟩
    refine ⟨?_, terminate_bounds.mpr hlen, fun hsize => ?_⟩
    · rw [htmps]
      exact tmps_fit.mpr hwide
    · unfold terminate
      rw [if_pos (show size > 0 from hsize)]
      exact ⟨_, rfl⟩

end PinguinOS.Klib
