import Mathlib.Data.BitVec
import Mathlib.Tactic.IntervalCases
import PinguinOS.Lib.OnesComplement
import PinguinOS.Mm.Types

/-! The fields of a packet in memory, their byte order, and the checksum over them. -/
namespace PinguinOS.Net

open Mm (u32)

abbrev Ip4Addr := BitVec 32

abbrev MacAddr := Vector (BitVec 8) 6

/-- Bytes in memory, from a pointer on. -/
abbrev Packet := List (BitVec 8)

/-- `HTONS` and `NTOHS` -/
def htons (x : BitVec 16) : BitVec 16 := x >>> 8 ||| x <<< 8

/-- `HTONL` and `NTOHL` -/
def htonl (x : BitVec 32) : BitVec 32 :=
  (x &&& 0xFF000000) >>> 24 ||| (x &&& 0x00FF0000) >>> 8 |||
    (x &&& 0x0000FF00) <<< 8 ||| (x &&& 0x000000FF) <<< 24

/-! The processor is little-endian: the lowest byte of a field comes first. -/

def bytes16 (x : BitVec 16) : Packet := [x.extractLsb' 0 8, x.extractLsb' 8 8]

def bytes32 (x : BitVec 32) : Packet :=
  [x.extractLsb' 0 8, x.extractLsb' 8 8, x.extractLsb' 16 8, x.extractLsb' 24 8]

def load16 (p : Packet) (off : Nat) : Option (BitVec 16) := do
  let b0 ← p[off]?
  let b1 ← p[off + 1]?
  return b1 ++ b0

def load32 (p : Packet) (off : Nat) : Option (BitVec 32) := do
  let b0 ← p[off]?
  let b1 ← p[off + 1]?
  let b2 ← p[off + 2]?
  let b3 ← p[off + 3]?
  return b3 ++ b2 ++ b1 ++ b0

def loadMac (p : Packet) (off : Nat) : Option MacAddr :=
  if h : off + 6 ≤ p.length then
    some ⟨((p.drop off).take 6).toArray, by simp; omega⟩
  else none

/-- `memcpy` out of `p` -/
def copyBytes (p : Packet) (n : Nat) : Option Packet :=
  if n ≤ p.length then some (p.take n) else none

/-- The loop of `ip_checksum` and `tcp_checksum`, on a sum of type `uint32_t`. -/
def sumWords (sum : Nat) : Packet → Nat
  | [] => sum
  | [b0] => u32 (sum + b0.toNat)
  | b0 :: b1 :: p => sumWords (u32 (sum + (b1 ++ b0).toNat)) p

/-- The carries are added, and the sum is inverted. -/
def foldSum (sum : Nat) : BitVec 16 :=
  let sum := sum >>> 16 + (sum &&& 0xFFFF)
  let sum := u32 (sum + sum >>> 16)
  ~~~ BitVec.ofNat 16 sum

def ipChecksum (data : Packet) : BitVec 16 := foldSum (sumWords 0 data)

/-! What is on the wire is in network order, and that is how a receiver adds it up. -/

/-- The 16-bit words of a packet, as a little-endian processor loads them. -/
def memWords : Packet → List Nat
  | [] => []
  | [b0] => [b0.toNat]
  | b0 :: b1 :: p => (b1 ++ b0).toNat :: memWords p

/-- The same words in network order; a last odd byte is padded with zeros. -/
def netWords : Packet → List Nat
  | [] => []
  | [b0] => [256 * b0.toNat]
  | b0 :: b1 :: p => (b0 ++ b1).toNat :: netWords p

/-- The receiver's check: the ones' complement sum is all ones. -/
def Verifies (p : Packet) : Prop := OnesComplement.sum 0xFFFF (netWords p) = 0xFFFF

variable {b0 b1 b2 b3 : BitVec 8} {p q : Packet} {s n off : Nat} {x : BitVec 16}

theorem htons_append : htons (b1 ++ b0) = b0 ++ b1 := by
  unfold htons
  apply BitVec.eq_of_getLsbD_eq
  intro i hi
  simp only [BitVec.getLsbD_or, BitVec.getLsbD_ushiftRight, BitVec.getLsbD_shiftLeft,
    BitVec.getLsbD_append]
  by_cases hlow : i < 8
  · have hhigh : ¬ 8 + i < 8 := by omega
    simp [hlow]
  · have hhigh : b1.getLsbD i = false := BitVec.getLsbD_of_ge b1 i (by omega)
    have hback : i - 8 < 8 := by omega
    simp [hlow, hhigh, hi, hback]

theorem htonl_append : htonl (b3 ++ b2 ++ b1 ++ b0) = b0 ++ b1 ++ b2 ++ b3 := by
  unfold htonl
  apply BitVec.eq_of_getLsbD_eq
  intro i hi
  simp only [BitVec.getLsbD_or, BitVec.getLsbD_ushiftRight, BitVec.getLsbD_shiftLeft,
    BitVec.getLsbD_append, BitVec.getLsbD_and]
  interval_cases i <;> simp

theorem bytes16_htons : bytes16 (htons x) = (bytes16 x).reverse := by
  have hsplit : x.extractLsb' 8 8 ++ x.extractLsb' 0 8 = x := BitVec.extractLsb'_append_extractLsb'
  have hswap := congrArg bytes16 (@htons_append (x.extractLsb' 0 8) (x.extractLsb' 8 8))
  rw [hsplit] at hswap
  rw [hswap]
  unfold bytes16
  rw [BitVec.extractLsb'_append_eq_right, BitVec.extractLsb'_append_eq_left]
  rfl

theorem bytes32_append : bytes32 (b3 ++ b2 ++ b1 ++ b0) = [b0, b1, b2, b3] := by
  unfold bytes32
  congr 1
  · exact BitVec.extractLsb'_append_eq_right
  congr 1
  · rw [BitVec.extractLsb'_append_eq_of_le (by decide)]
    exact BitVec.extractLsb'_append_eq_right
  congr 1
  · rw [BitVec.extractLsb'_append_eq_of_le (by decide)]
    rw [BitVec.extractLsb'_append_eq_of_le (by decide)]
    exact BitVec.extractLsb'_append_eq_right
  · rw [BitVec.extractLsb'_append_eq_of_le (by decide)]
    rw [BitVec.extractLsb'_append_eq_of_le (by decide)]
    rw [BitVec.extractLsb'_append_eq_left]

theorem exists_bytes32 (x : BitVec 32) : ∃ b0 b1 b2 b3 : BitVec 8, x = b3 ++ b2 ++ b1 ++ b0 := by
  refine ⟨x.extractLsb' 0 8, x.extractLsb' 8 8, x.extractLsb' 16 8, x.extractLsb' 24 8, ?_⟩
  have h3 : x.extractLsb' 24 8 ++ x.extractLsb' 16 8 = x.extractLsb' 16 16 :=
    BitVec.extractLsb'_append_extractLsb'_eq_extractLsb' rfl
  have h2 : x.extractLsb' 16 16 ++ x.extractLsb' 8 8 = x.extractLsb' 8 24 :=
    BitVec.extractLsb'_append_extractLsb'_eq_extractLsb' rfl
  have h1 : x.extractLsb' 8 24 ++ x.extractLsb' 0 8 = x :=
    BitVec.extractLsb'_append_extractLsb'
  rw [h3, h2, h1]

theorem bytes32_htonl (x : BitVec 32) : bytes32 (htonl x) = (bytes32 x).reverse := by
  obtain ⟨b0, b1, b2, b3, rfl⟩ := exists_bytes32 x
  rw [htonl_append, bytes32_append, bytes32_append]
  rfl

theorem toNat_append {hi : BitVec n} : (hi ++ b0).toNat = 256 * hi.toNat + b0.toNat := by
  have hlow : b0.toNat < 2 ^ 8 := b0.isLt
  rw [BitVec.toNat_append, ← Nat.shiftLeft_add_eq_or_of_lt hlow, Nat.shiftLeft_eq]
  omega

/-! A field is loaded when all of its bytes are there. -/

theorem load16_some (h : off + 2 ≤ p.length) : ∃ x, load16 p off = some x := by
  unfold load16
  rw [List.getElem?_eq_getElem (by omega), List.getElem?_eq_getElem (by omega)]
  exact ⟨_, rfl⟩

theorem load16_none (h : p.length < off + 2) : load16 p off = none := by
  unfold load16
  have hlast : p[off + 1]? = none := List.getElem?_eq_none (by omega)
  rw [hlast]
  cases p[off]? with
  | none => rfl
  | some b0 => rfl

theorem load32_some (h : off + 4 ≤ p.length) : ∃ x, load32 p off = some x := by
  unfold load32
  rw [List.getElem?_eq_getElem (by omega), List.getElem?_eq_getElem (by omega),
    List.getElem?_eq_getElem (by omega), List.getElem?_eq_getElem (by omega)]
  exact ⟨_, rfl⟩

theorem loadMac_some (h : off + 6 ≤ p.length) : ∃ mac, loadMac p off = some mac :=
  ⟨_, dif_pos h⟩

/-! Two orders of the same words. -/

theorem memWords_append (h : p.length % 2 = 0) : memWords (p ++ q) = memWords p ++ memWords q := by
  induction p using memWords.induct with
  | case1 => rfl
  | case2 b0 =>
    rw [List.length_singleton] at h
    omega
  | case3 b0 b1 p ih =>
    rw [List.length_cons, List.length_cons] at h
    have hrest := ih (by omega)
    exact congrArg ((b1 ++ b0).toNat :: ·) hrest

theorem netWords_le : ∀ w ∈ netWords p, w ≤ 0xFFFF := by
  induction p using netWords.induct with
  | case1 => exact fun w hw => (nomatch hw)
  | case2 b0 =>
    intro w hw
    have hlow := b0.isLt
    cases List.mem_singleton.mp hw
    omega
  | case3 b0 b1 p ih =>
    intro w hw
    rcases List.mem_cons.mp hw with rfl | hw
    · exact Nat.le_of_lt_succ (b0 ++ b1).isLt
    · exact ih w hw

theorem netWords_modEq : (netWords p).sum ≡ 256 * (memWords p).sum [MOD 0xFFFF] := by
  induction p using netWords.induct with
  | case1 => exact Nat.ModEq.refl _
  | case2 b0 => exact Nat.ModEq.refl _
  | case3 b0 b1 p ih =>
    unfold netWords memWords
    rw [List.sum_cons, List.sum_cons, toNat_append, toNat_append, Nat.mul_add,
      Nat.add_comm _ b0.toNat]
    exact OnesComplement.swap_modEq.add ih

theorem memWords_sum_le : (memWords p).sum ≤ 0xFFFF * ((p.length + 1) / 2) := by
  induction p using memWords.induct with
  | case1 => exact Nat.zero_le _
  | case2 b0 =>
    have hlow := b0.isLt
    unfold memWords
    rw [List.sum_singleton, List.length_singleton]
    omega
  | case3 b0 b1 p ih =>
    have hword := (b1 ++ b0).isLt
    unfold memWords
    rw [List.sum_cons, List.length_cons, List.length_cons]
    omega

/-! The checksum of the code, on the words in memory. -/

theorem sumWords_eq (h : s + (memWords p).sum < 2 ^ 32) : sumWords s p = s + (memWords p).sum := by
  induction p using memWords.induct generalizing s with
  | case1 => rfl
  | case2 b0 => exact Mm.u32_of_lt h
  | case3 b0 b1 p ih =>
    unfold memWords at h ⊢
    unfold sumWords
    rw [List.sum_cons] at h ⊢
    rw [Mm.u32_of_lt (by omega), ih (by omega), Nat.add_assoc]

/-- The carries are added twice. -/
theorem foldSum_carries (h : s < 2 ^ 32) : foldSum s = ~~~ BitVec.ofNat 16
    (s / 65536 + s % 65536 + (s / 65536 + s % 65536) / 65536) := by
  have hmask : s &&& 0xFFFF = s % 2 ^ 16 := Nat.and_two_pow_sub_one_eq_mod s 16
  have hcarry : u32 (s >>> 16 + s % 2 ^ 16 + (s >>> 16 + s % 2 ^ 16) >>> 16) =
      s / 65536 + s % 65536 + (s / 65536 + s % 65536) / 65536 := by
    rw [Nat.shiftRight_eq_div_pow, Nat.shiftRight_eq_div_pow]
    exact Mm.u32_of_lt (by omega)
  unfold foldSum
  dsimp only
  rw [hmask, hcarry]

/-- The inverted sum fills the sum up to a multiple of all ones. -/
theorem foldSum_dvd (h : s < 2 ^ 32) : 0xFFFF ∣ s + (foldSum s).toNat := by
  rw [foldSum_carries h, BitVec.toNat_not, BitVec.toNat_ofNat]
  by_cases hover : s / 65536 + s % 65536 < 65536
  · refine ⟨s / 65536 + 1, ?_⟩
    rw [Nat.div_eq_of_lt hover, Nat.add_zero, Nat.mod_eq_of_lt hover]
    omega
  · have hone : (s / 65536 + s % 65536) / 65536 = 1 := by omega
    refine ⟨s / 65536 + 2, ?_⟩
    rw [hone]
    omega

variable {front back : Packet} {pseudo : Nat}

theorem memWords_field (hfront : front.length % 2 = 0) :
    (memWords (front ++ (bytes16 x ++ back))).sum =
      (memWords front).sum + x.toNat + (memWords back).sum := by
  have hsplit : x.extractLsb' 8 8 ++ x.extractLsb' 0 8 = x := BitVec.extractLsb'_append_extractLsb'
  have hfield : memWords (bytes16 x ++ back) = x.toNat :: memWords back :=
    congrArg (fun y : BitVec 16 => y.toNat :: memWords back) hsplit
  rw [memWords_append hfront, hfield, List.sum_append, List.sum_cons, Nat.add_assoc]

/-- A checksum is computed with zero in its field, and is then put there. -/
theorem checksum_dvd (hfront : front.length % 2 = 0)
    (hs : pseudo + (memWords (front ++ (bytes16 0 ++ back))).sum < 2 ^ 32)
    (hx : x = foldSum (sumWords pseudo (front ++ (bytes16 0 ++ back)))) :
    0xFFFF ∣ pseudo + (memWords (front ++ (bytes16 x ++ back))).sum := by
  have hdvd := foldSum_dvd hs
  rw [sumWords_eq hs] at hx
  have hzero : (0 : BitVec 16).toNat = 0 := rfl
  rw [← hx, memWords_field hfront, hzero] at hdvd
  rw [memWords_field hfront]
  have hsum : pseudo + ((memWords front).sum + x.toNat + (memWords back).sum) =
      pseudo + ((memWords front).sum + 0 + (memWords back).sum) + x.toNat := by omega
  rwa [hsum]

theorem verifies_iff : Verifies p ↔ 0xFFFF ∣ (netWords p).sum ∧ (netWords p).sum ≠ 0 :=
  OnesComplement.sum_eq_iff (by decide) netWords_le

end PinguinOS.Net
