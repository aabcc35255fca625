import PinguinOS.Net.Stack

/-! `ip_checksum` and `klib_checksum16`, and the checksum of RFC 1071. -/
namespace PinguinOS.Net

open Mm (u32)

/-- The loop of `klib_checksum16`, from the byte `i` on with `len` bytes to go. -/
def klibSum (data : Packet) : (len i s : Nat) → Nat
  | 0, _, s => s
  | 1, i, s => u32 (s + (data.getD i 0).toNat)
  | len + 2, i, s =>
    klibSum data len (i + 2) (u32 (s + (data.getD (i + 1) 0 ++ data.getD i 0).toNat))

def klibChecksum16 (data : Packet) (len : Nat) : BitVec 16 :=
  let s := klibSum data len 0 0
  let s := u32 (s >>> 16 + (s &&& 0xFFFF))
  let s := u32 (s + s >>> 16)
  ~~~ BitVec.ofNat 16 s

/-- The ones' complement of the ones' complement sum of the words, as they are in memory. -/
def rfc1071 (data : Packet) : BitVec 16 :=
  ~~~ BitVec.ofNat 16 (OnesComplement.sum 0xFFFF (memWords data))

variable {data front back : Packet} {i s off len : Nat} {x : BitVec 16} {b0 b1 : BitVec 8}

theorem memWords_le : ∀ w ∈ memWords data, w ≤ 0xFFFF := by
  induction data using memWords.induct with
  | case1 =>
    intro w hw
    cases hw
  | case2 b0 =>
    intro w hw
    have hlow := b0.isLt
    cases List.mem_singleton.mp hw
    omega
  | case3 b0 b1 p ih =>
    intro w hw
    rcases List.mem_cons.mp hw with rfl | hw
    · exact Nat.le_of_lt_succ (b1 ++ b0).isLt
    · exact ih w hw

/-! Two folds are enough. -/

/-- The sum with its carries added twice. -/
def folded (s : Nat) : Nat := (s / 65536 + s % 65536 + (s / 65536 + s % 65536) / 65536) % 65536

theorem foldSum_eq (hs : s < 2 ^ 32) : foldSum s = ~~~ BitVec.ofNat 16 (folded s) := by
  rw [foldSum_carries hs]
  unfold folded
  refine congrArg _ (BitVec.eq_of_toNat_eq ?_)
  rw [BitVec.toNat_ofNat, BitVec.toNat_ofNat, Nat.mod_mod]

theorem folded_spec (hs : s < 2 ^ 32) :
    folded s ≤ 0xFFFF ∧ folded s ≡ s [MOD 0xFFFF] ∧ (folded s = 0 ↔ s = 0) := by
  unfold folded Nat.ModEq
  by_cases hcarry : s / 65536 + s % 65536 < 65536
  · rw [Nat.div_eq_of_lt hcarry, Nat.add_zero, Nat.mod_eq_of_lt hcarry]
    exact ⟨by omega, by omega, by omega⟩
  · have hone : (s / 65536 + s % 65536) / 65536 = 1 := by omega
    have hfold : (s / 65536 + s % 65536 + 1) % 65536 = s / 65536 + s % 65536 - 65535 := by omega
    rw [hone, hfold]
    exact ⟨by omega, by omega, by omega⟩

theorem memWords_sum_lt (hlen : data.length ≤ 65535) : (memWords data).sum < 2 ^ 32 := by
  have hle := @memWords_sum_le data
  omega

theorem ipChecksum_eq (hlen : data.length ≤ 65535) : ipChecksum data = rfc1071 data := by
  have hlt := memWords_sum_lt hlen
  obtain ⟨hle, hmod, hzero⟩ := folded_spec hlt
  have hsum := @sumWords_eq data 0 (by omega)
  rw [Nat.zero_add] at hsum
  unfold ipChecksum rfc1071
  rw [hsum, foldSum_eq hlt]
  have hword : folded (memWords data).sum = OnesComplement.sum 0xFFFF (memWords data) := by
    refine OnesComplement.eq_of_modEq hle (OnesComplement.sum_le memWords_le) ?_ ?_
    · exact hmod.trans OnesComplement.sum_modEq.symm
    · exact hzero.trans (OnesComplement.sum_eq_zero (by decide)).symm
  rw [hword]

/-! The checksum in its place. -/

theorem load16_zero (hload : load16 data off = some 0) :
    ∃ front back : Packet, front.length = off ∧ data = front ++ (bytes16 0 ++ back) := by
  unfold load16 at hload
  obtain ⟨b0, h0, hload⟩ := Option.bind_eq_some_iff.mp hload
  obtain ⟨b1, h1, hword⟩ := Option.bind_eq_some_iff.mp hload
  obtain ⟨hlt, hb0⟩ := List.getElem?_eq_some_iff.mp h0
  obtain ⟨hlt', hb1⟩ := List.getElem?_eq_some_iff.mp h1
  have hword : b1 ++ b0 = (0 : BitVec 16) := Option.some.inj hword
  have hbytes : bytes16 (b1 ++ b0) = [b0, b1] := by
    unfold bytes16
    rw [BitVec.extractLsb'_append_eq_right, BitVec.extractLsb'_append_eq_left]
  refine ⟨data.take off, data.drop (off + 2), List.length_take_of_le (by omega), ?_⟩
  rw [← hword, hbytes]
  conv_lhs => rw [← List.take_append_drop off data, List.drop_eq_getElem_cons hlt,
    List.drop_eq_getElem_cons hlt', hb0, hb1]
  rfl

theorem store16_append (hfront : front.length = off) :
    store16 (front ++ ([b0, b1] ++ back)) off x = front ++ (bytes16 x ++ back) := by
  subst hfront
  unfold store16
  rw [List.set_append_right _ _ (Nat.le_refl _), Nat.sub_self,
    List.set_append_right _ _ (by omega), Nat.add_sub_cancel_left]
  rfl

/-- The sum with the checksum in it is all ones. -/
theorem ipChecksum_stored (hlen : (front ++ (bytes16 0 ++ back)).length ≤ 65535)
    (hfront : front.length % 2 = 0) (hx : x = ipChecksum (front ++ (bytes16 0 ++ back))) :
    ipChecksum (front ++ (bytes16 x ++ back)) = 0 := by
  have hlt := memWords_sum_lt hlen
  have hdvd := @checksum_dvd x front back 0 hfront (by omega) hx
  have hlen' : (front ++ (bytes16 x ++ back)).length ≤ 65535 := by
    rw [List.length_append, List.length_append] at hlen ⊢
    exact hlen
  have hne : (memWords (front ++ (bytes16 x ++ back))).sum ≠ 0 := by
    intro hzero
    rw [memWords_field hfront] at hzero
    have hall : (memWords (front ++ (bytes16 0 ++ back))).sum = 0 := by
      rw [memWords_field hfront]
      have hnone : (0 : BitVec 16).toNat = 0 := rfl
      omega
    have hsum := @sumWords_eq (front ++ (bytes16 0 ++ back)) 0 (by omega)
    unfold ipChecksum at hx
    rw [hsum, hall] at hx
    have hones : x.toNat = 0xFFFF := congrArg BitVec.toNat hx
    omega
  rw [Nat.zero_add] at hdvd
  have hones := (OnesComplement.sum_eq_iff (by decide) memWords_le).mpr ⟨hdvd, hne⟩
  rw [ipChecksum_eq hlen', rfc1071, hones]
  decide

theorem netWords_sum_eq_zero : (netWords data).sum = 0 ↔ (memWords data).sum = 0 := by
  induction data using netWords.induct with
  | case1 => exact Iff.rfl
  | case2 b0 =>
    unfold netWords memWords
    rw [List.sum_singleton, List.sum_singleton]
    omega
  | case3 b0 b1 p ih =>
    unfold netWords memWords
    rw [List.sum_cons, List.sum_cons, toNat_append, toNat_append]
    omega

/-- A string whose checksum is zero is one that a receiver accepts. -/
theorem verifies_of_ipChecksum (hlen : data.length ≤ 65535) (hzero : ipChecksum data = 0) :
    Verifies data := by
  rw [ipChecksum_eq hlen, rfc1071] at hzero
  have hle : OnesComplement.sum 0xFFFF (memWords data) ≤ 0xFFFF := OnesComplement.sum_le memWords_le
  have hones : OnesComplement.sum 0xFFFF (memWords data) = 0xFFFF := by
    have hnat := congrArg BitVec.toNat hzero
    have hnone : (0 : BitVec 16).toNat = 0 := rfl
    rw [BitVec.toNat_not, BitVec.toNat_ofNat, hnone] at hnat
    omega
  obtain ⟨hdvd, hne⟩ := (OnesComplement.sum_eq_iff (by decide) memWords_le).mp hones
  refine verifies_iff.mpr ⟨?_, fun hnone => hne (netWords_sum_eq_zero.mp hnone)⟩
  exact (netWords_modEq.dvd_iff (Nat.dvd_refl _)).mpr (hdvd.mul_left 256)

/-! Both copies add the same words. -/

theorem klibSum_eq (hlen : i + len = data.length) (hs : s + (memWords (data.drop i)).sum < 2 ^ 32) :
    klibSum data len i s = s + (memWords (data.drop i)).sum := by
  induction len, i, s using klibSum.induct data with
  | case1 i s =>
    rw [List.drop_eq_nil_of_le (by omega)]
    rfl
  | case2 i s =>
    have hi : i < data.length := by omega
    rw [List.drop_eq_getElem_cons hi, List.drop_eq_nil_of_le (by omega)] at hs ⊢
    unfold klibSum
    rw [List.getD_eq_getElem _ _ hi]
    exact Mm.u32_of_lt hs
  | case3 len i s ih =>
    have hi : i < data.length := by omega
    have hi' : i + 1 < data.length := by omega
    have htwo : i + 1 + 1 = i + 2 := rfl
    rw [List.drop_eq_getElem_cons hi, List.drop_eq_getElem_cons hi', htwo] at hs ⊢
    unfold memWords at hs ⊢
    unfold klibSum
    rw [List.sum_cons] at hs ⊢
    rw [List.getD_eq_getElem _ _ hi, List.getD_eq_getElem _ _ hi'] at ih ⊢
    rw [Mm.u32_of_lt (by omega)] at ih ⊢
    rw [ih (by omega) (by omega)]
    omega

theorem klibChecksum16_eq (hlen : data.length ≤ 65535) :
    klibChecksum16 data data.length = ipChecksum data := by
  have hlt := memWords_sum_lt hlen
  have hsum := @sumWords_eq data 0 (by omega)
  have hklib := @klibSum_eq data 0 0 data.length (Nat.zero_add _)
    (by rw [List.drop_zero]; omega)
  rw [List.drop_zero] at hklib
  have hmask : (memWords data).sum &&& 0xFFFF = (memWords data).sum % 2 ^ 16 :=
    Nat.and_two_pow_sub_one_eq_mod _ 16
  have hfold : u32 ((memWords data).sum >>> 16 + ((memWords data).sum &&& 0xFFFF)) =
      (memWords data).sum >>> 16 + ((memWords data).sum &&& 0xFFFF) := by
    rw [hmask, Nat.shiftRight_eq_div_pow]
    exact Mm.u32_of_lt (by omega)
  unfold klibChecksum16 ipChecksum foldSum
  dsimp only
  rw [hklib, hsum, Nat.zero_add, hfold]

/-- The checksum of a string verifies itself in a field of zeros, is that of RFC 1071 and the one
of `klib.c`. -/
theorem ip_checksum_verifies (hlen : data.length ≤ 65535) :
    (∀ off, off % 2 = 0 → load16 data off = some 0 →
      ipChecksum (store16 data off (ipChecksum data)) = 0) ∧
    ipChecksum data = rfc1071 data ∧ klibChecksum16 data data.length = ipChecksum data := by
  refine ⟨?_, ipChecksum_eq hlen, klibChecksum16_eq hlen⟩
  intro off heven hload
  obtain ⟨front, back, hfront, rfl⟩ := load16_zero hload
  have hstore := @store16_append front back off
    (ipChecksum (front ++ (bytes16 0 ++ back))) 0 0 hfront
  have hzero : bytes16 0 = [0, 0] := rfl
  rw [hzero] at hlen ⊢
  rw [hzero] at hstore
  rw [hstore]
  exact ipChecksum_stored hlen (hfront ▸ heven) rfl

theorem ip_checksum_verifies_odd :
    (∀ off, off % 2 = 0 → load16 [0xFF, 0xFE, 0, 0, 0x80] off = some 0 →
      ipChecksum (store16 [0xFF, 0xFE, 0, 0, 0x80] off (ipChecksum [0xFF, 0xFE, 0, 0, 0x80])) =
        0) ∧
    ipChecksum [0xFF, 0xFE, 0, 0, 0x80] = rfc1071 [0xFF, 0xFE, 0, 0, 0x80] ∧
    klibChecksum16 [0xFF, 0xFE, 0, 0, 0x80] 5 = ipChecksum [0xFF, 0xFE, 0, 0, 0x80] :=
  @ip_checksum_verifies [0xFF, 0xFE, 0, 0, 0x80] (by decide)

end PinguinOS.Net
