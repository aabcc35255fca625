import PinguinOS.Klib.Numbers
import PinguinOS.Lib.Bytes
import PinguinOS.Lib.Copy

/-! `memset`, `memcpy` and `memmove`: the loops over words are loops over bytes. -/
namespace PinguinOS.Klib

open Bytes (ofBytes byteOf)
open Copy (stores copies)

abbrev Addr := BitVec 32

abbrev Memory := Addr → Byte

/-- A little-endian word, at any address. -/
def loadWord (m : Memory) (a : Addr) : BitVec 32 := ofBytes fun j => m (a + BitVec.ofNat 32 j)

def storeByte (m : Memory) (a : Addr) (c : Byte) : Memory := Function.update m a c

def storeWord (m : Memory) (a : Addr) (v : BitVec 32) : Memory :=
  let m := storeByte m a (byteOf v 0)
  let m := storeByte m (a + 1) (byteOf v 1)
  let m := storeByte m (a + 2) (byteOf v 2)
  storeByte m (a + 3) (byteOf v 3)

/-! `memset` -/

/-- `while (n && (p8 & 3)) { *p8++ = c; n--; }` -/
def memsetHead (c : Byte) : (n : Nat) → Memory → Addr → Memory × Addr × Nat
  | 0, m, p => (m, p, 0)
  | n + 1, m, p =>
    if p &&& 3 ≠ 0 then memsetHead c n (storeByte m p c) (p + 1) else (m, p, n + 1)

/-- `while (w--) *p32++ = val;` -/
def memsetWords (val : BitVec 32) : (w : Nat) → Memory → Addr → Memory × Addr
  | 0, m, p => (m, p)
  | w + 1, m, p => memsetWords val w (storeWord m p val) (p + 4)

/-- `while (n--) *p8++ = c;` -/
def memsetBytes (c : Byte) : (n : Nat) → Memory → Addr → Memory
  | 0, m, _ => m
  | n + 1, m, p => memsetBytes c n (storeByte m p c) (p + 1)

def memset (m : Memory) (s : Addr) (c : BitVec 32) (n : Nat) : Memory :=
  let c8 : Byte := c.setWidth 8
  let val : BitVec 32 := c8.setWidth 32
  let val := val ||| val <<< 8
  let val := val ||| val <<< 16
  let (m, p, n) := memsetHead c8 n m s
  let (m, p) := memsetWords val (n / 4) m p
  memsetBytes c8 (n % 4) m p

/-! `memcpy` -/

/-- `while (n && (d8 & 3)) { *d8++ = *s8++; n--; }` -/
def memcpyHead : (n : Nat) → Memory → (d s : Addr) → Memory × Addr × Addr × Nat
  | 0, m, d, s => (m, d, s, 0)
  | n + 1, m, d, s =>
    if d &&& 3 ≠ 0 then memcpyHead n (storeByte m d (m s)) (d + 1) (s + 1) else (m, d, s, n + 1)

/-- `while (w--) *d32++ = *s32++;` -/
def copyWords : (w : Nat) → Memory → (d s : Addr) → Memory × Addr × Addr
  | 0, m, d, s => (m, d, s)
  | w + 1, m, d, s => copyWords w (storeWord m d (loadWord m s)) (d + 4) (s + 4)

/-- `while (n--) *d++ = *s++;` -/
def copyBytes : (n : Nat) → Memory → (d s : Addr) → Memory
  | 0, m, _, _ => m
  | n + 1, m, d, s => copyBytes n (storeByte m d (m s)) (d + 1) (s + 1)

def memcpy (m : Memory) (d s : Addr) (n : Nat) : Memory :=
  if d &&& 3 = s &&& 3 then
    let (m, d, s, n) := memcpyHead n m d s
    let (m, d, s) := copyWords (n / 4) m d s
    copyBytes (n % 4) m d s
  else copyBytes n m d s

/-! `memmove` -/

/-- `while (n--) *--d = *--s;` -/
def copyBack : (n : Nat) → Memory → (d s : Addr) → Memory
  | 0, m, _, _ => m
  | n + 1, m, d, s => copyBack n (storeByte m (d - 1) (m (s - 1))) (d - 1) (s - 1)

def memmove (m : Memory) (d s : Addr) (n : Nat) : Memory :=
  if d = s ∨ n = 0 then m
  else if d < s then
    if n ≥ 4 ∧ d &&& 3 = 0 ∧ s &&& 3 = 0 then
      let (m, d, s) := copyWords (n / 4) m d s
      copyBytes (n % 4) m d s
    else copyBytes n m d s
  else copyBack n m (d + BitVec.ofNat 32 n) (s + BitVec.ofNat 32 n)

/-- What `memmove` is for: every byte gets what its source was before. -/
def movedBytes (m : Memory) (d s : Addr) (n : Nat) : Memory := fun a =>
  if (a - d).toNat < n then m (s + (a - d)) else m a

variable {m : Memory} {c : Byte} {val : BitVec 32} {a b d p s : Addr} {i j k n w : Nat}

/-! The loops as lists of stores and copies. -/

/-- The addresses from `p` on. -/
def span (p : Addr) : Nat → List Addr
  | 0 => []
  | n + 1 => p :: span (p + 1) n

/-- The targets from `d` on, each with its source. -/
def pairs (d s : Addr) : Nat → List (Addr × Addr)
  | 0 => []
  | n + 1 => (d, s) :: pairs (d + 1) (s + 1) n

theorem add_succ : p + BitVec.ofNat 32 (n + 1) = p + 1 + BitVec.ofNat 32 n := by
  rw [Nat.add_comm, BitVec.ofNat_add, ← BitVec.add_assoc]
  rfl

theorem add_zero_addr : p + BitVec.ofNat 32 0 = p := BitVec.add_zero p

theorem pairs_append :
    pairs d s (n + k) =
      pairs d s n ++ pairs (d + BitVec.ofNat 32 n) (s + BitVec.ofNat 32 n) k := by
  induction n generalizing d s with
  | zero => rw [Nat.zero_add, add_zero_addr, add_zero_addr, pairs, List.nil_append]
  | succ n ih =>
    rw [Nat.succ_add, pairs, ih, pairs, List.cons_append, add_succ, add_succ]

theorem span_append : span p (n + k) = span p n ++ span (p + BitVec.ofNat 32 n) k := by
  induction n generalizing p with
  | zero => rw [Nat.zero_add, add_zero_addr, span, List.nil_append]
  | succ n ih => rw [Nat.succ_add, span, ih, span, List.cons_append, add_succ]

/-- The bytes from `p` on get the value `c`. -/
def filled (c : Byte) (m : Memory) (p : Addr) (n : Nat) : Memory :=
  stores m ((span p n).map fun a => (a, c))

theorem filled_append :
    filled c m p (n + k) = filled c (filled c m p n) (p + BitVec.ofNat 32 n) k := by
  unfold filled
  rw [span_append, List.map_append, Copy.stores_append]

theorem memsetBytes_eq : memsetBytes c n m p = filled c m p n := by
  induction n generalizing m p with
  | zero => rfl
  | succ n ih => exact ih

/-- What the first loop leaves to be done is done by any loop that fills. -/
theorem memsetHead_eq : ∃ k, k ≤ n ∧
    memsetHead c n m p = (filled c m p k, p + BitVec.ofNat 32 k, n - k) := by
  induction n generalizing m p with
  | zero => exact ⟨0, Nat.le_refl 0, by rw [add_zero_addr]; rfl⟩
  | succ n ih =>
    unfold memsetHead
    split
    case isTrue =>
      obtain ⟨k, hk, heq⟩ := ih (m := storeByte m p c) (p := p + 1)
      refine ⟨k + 1, Nat.succ_le_succ hk, ?_⟩
      rw [heq, add_succ, Nat.add_sub_add_right]
      rfl
    case isFalse => exact ⟨0, Nat.zero_le _, by rw [add_zero_addr]; rfl⟩

theorem storeWord_filled (hval : ∀ j < 4, byteOf val j = c) :
    storeWord m p val = filled c m p 4 := by
  unfold storeWord
  rw [hval 0 (by decide), hval 1 (by decide), hval 2 (by decide), hval 3 (by decide)]
  have htwo : p + 1 + 1 = p + 2 := by rw [BitVec.add_assoc]; rfl
  have hthree : p + 1 + 1 + 1 = p + 3 := by rw [BitVec.add_assoc, BitVec.add_assoc]; rfl
  unfold filled span span span span
  rw [hthree, htwo]
  rfl

theorem memsetWords_eq (hval : ∀ j < 4, byteOf val j = c) :
    memsetWords val w m p = (filled c m p (4 * w), p + BitVec.ofNat 32 (4 * w)) := by
  induction w generalizing m p with
  | zero => exact Prod.ext rfl add_zero_addr.symm
  | succ w ih =>
    unfold memsetWords
    rw [ih, storeWord_filled hval, show 4 * (w + 1) = 4 + 4 * w by omega, filled_append,
      BitVec.ofNat_add, ← BitVec.add_assoc]
    rfl

theorem byteOf_repeated (hj : j < 4) :
    byteOf (c.setWidth 32 ||| c.setWidth 32 <<< 8 |||
      (c.setWidth 32 ||| c.setWidth 32 <<< 8) <<< 16) j = c := by
  have hcases : j = 0 ∨ j = 1 ∨ j = 2 ∨ j = 3 := by omega
  have hbeyond (i : Nat) (hi : 8 ≤ i) : c.getLsbD i = false := BitVec.getLsbD_of_ge c i hi
  unfold byteOf
  apply BitVec.eq_of_getLsbD_eq
  intro k hk
  simp only [BitVec.getLsbD_extractLsb', BitVec.getLsbD_or, BitVec.getLsbD_shiftLeft,
    BitVec.getLsbD_setWidth]
  rcases hcases with rfl | rfl | rfl | rfl
  · simp [hk, show k < 16 by omega, show k < 32 by omega]
  · simp [hk, show 8 + k < 16 by omega, show 8 + k < 32 by omega, show k < 32 by omega]
  · simp [hk, hbeyond (16 + k) (by omega), hbeyond (16 + k - 8) (by omega),
      show 16 + k < 32 by omega, show k < 32 by omega]
  · simp [hk, hbeyond (24 + k) (by omega), hbeyond (24 + k - 8) (by omega),
      hbeyond (24 + k - 16) (by omega), show 24 + k < 32 by omega, show ¬ 24 + k < 16 by omega,
      show ¬ 24 + k - 16 < 8 by omega, show 24 + k - 16 - 8 = k by omega,
      show 24 + k - 16 < 32 by omega, show k < 32 by omega]

/-- The loops of `memset` fill the bytes in their order. -/
theorem memset_eq {v : BitVec 32} : memset m s v n = memsetBytes (v.setWidth 8) n m s := by
  obtain ⟨k, hk, hhead⟩ := memsetHead_eq (c := v.setWidth 8) (n := n) (m := m) (p := s)
  unfold memset
  dsimp only
  rw [hhead]
  dsimp only
  rw [memsetWords_eq fun j hj => byteOf_repeated hj]
  dsimp only
  rw [memsetBytes_eq, memsetBytes_eq, ← filled_append, Nat.div_add_mod, ← filled_append,
    Nat.add_sub_cancel' hk]

/-! Copies. -/

/-- Copying upwards, no byte is overwritten before it is read. -/
def Forward (d s : Addr) (n : Nat) : Prop :=
  ∀ i j, i < j → j < n → d + BitVec.ofNat 32 i ≠ s + BitVec.ofNat 32 j

theorem Forward.mono (h : Forward d s n) (hk : k ≤ n) : Forward d s k :=
  fun i j hij hj => h i j hij (Nat.lt_of_lt_of_le hj hk)

theorem Forward.shift (h : Forward d s (k + n)) :
    Forward (d + BitVec.ofNat 32 k) (s + BitVec.ofNat 32 k) n := by
  intro i j hij hj
  rw [BitVec.add_assoc, BitVec.add_assoc, ← BitVec.ofNat_add, ← BitVec.ofNat_add]
  exact h (k + i) (k + j) (by omega) (by omega)

theorem mem_pairs {q : Addr × Addr} (hq : q ∈ pairs d s n) :
    ∃ j < n, q = (d + BitVec.ofNat 32 j, s + BitVec.ofNat 32 j) := by
  induction n generalizing d s with
  | zero => exact absurd hq List.not_mem_nil
  | succ n ih =>
    rcases List.mem_cons.mp hq with rfl | hq
    · exact ⟨0, Nat.succ_pos n, by rw [add_zero_addr, add_zero_addr]⟩
    · obtain ⟨j, hj, rfl⟩ := ih hq
      exact ⟨j + 1, Nat.succ_lt_succ hj, by rw [add_succ, add_succ]⟩

/-- The pair with the number `i` -/
def pairAt (d s : Addr) (i : Nat) : Addr × Addr := (d + BitVec.ofNat 32 i, s + BitVec.ofNat 32 i)

theorem pairs_pairwise {R : Addr × Addr → Addr × Addr → Prop}
    (h : ∀ i j, i < j → j < n → R (pairAt d s i) (pairAt d s j)) : (pairs d s n).Pairwise R := by
  induction n generalizing d s with
  | zero => exact List.Pairwise.nil
  | succ n ih =>
    have hnext (i : Nat) : pairAt (d + 1) (s + 1) i = pairAt d s (i + 1) := by
      unfold pairAt
      rw [add_succ, add_succ]
    refine List.pairwise_cons.mpr ⟨fun q hq => ?_, ih fun i j hij hj => ?_⟩
    · obtain ⟨j, hj, rfl⟩ := mem_pairs hq
      have hfirst := h 0 (j + 1) (Nat.succ_pos j) (Nat.succ_lt_succ hj)
      rw [← hnext] at hfirst
      unfold pairAt at hfirst
      rwa [add_zero_addr, add_zero_addr] at hfirst
    · rw [hnext, hnext]
      exact h (i + 1) (j + 1) (Nat.succ_lt_succ hij) (Nat.succ_lt_succ hj)

theorem Forward.pairwise (h : Forward d s n) : (pairs d s n).Pairwise fun p q => p.1 ≠ q.2 :=
  pairs_pairwise h

theorem copyBytes_eq : copyBytes n m d s = copies m (pairs d s n) := by
  induction n generalizing m d s with
  | zero => rfl
  | succ n ih => exact ih

theorem copyBytes_append : copyBytes (n + k) m d s =
    copyBytes k (copyBytes n m d s) (d + BitVec.ofNat 32 n) (s + BitVec.ofNat 32 n) := by
  rw [copyBytes_eq, copyBytes_eq, copyBytes_eq, pairs_append, Copy.copies_append]

theorem memcpyHead_eq : ∃ k, k ≤ n ∧ memcpyHead n m d s =
    (copyBytes k m d s, d + BitVec.ofNat 32 k, s + BitVec.ofNat 32 k, n - k) := by
  induction n generalizing m d s with
  | zero => exact ⟨0, Nat.le_refl 0, by rw [add_zero_addr, add_zero_addr]; rfl⟩
  | succ n ih =>
    unfold memcpyHead
    split
    case isTrue =>
      obtain ⟨k, hk, heq⟩ := ih (m := storeByte m d (m s)) (d := d + 1) (s := s + 1)
      refine ⟨k + 1, Nat.succ_le_succ hk, ?_⟩
      rw [heq, add_succ, add_succ, Nat.add_sub_add_right]
      rfl
    case isFalse =>
      exact ⟨0, Nat.zero_le _, by rw [add_zero_addr, add_zero_addr]; rfl⟩

/-- A word is read before it is written, as the bytes are when none of them is overwritten. -/
theorem storeWord_loadWord (h : Forward d s 4) :
    storeWord m d (loadWord m s) = copyBytes 4 m d s := by
  have hbyte : ∀ j < 4, byteOf (loadWord m s) j = m (s + BitVec.ofNat 32 j) :=
    fun j hj => Bytes.byteOf_ofBytes hj
  have htwo (p : Addr) : p + 1 + 1 = p + 2 := by rw [BitVec.add_assoc]; rfl
  have hthree (p : Addr) : p + 1 + 1 + 1 = p + 3 := by
    rw [BitVec.add_assoc, BitVec.add_assoc]
    rfl
  rw [copyBytes_eq, Copy.copies_eq_stores h.pairwise]
  unfold storeWord
  rw [hbyte 0 (by decide), hbyte 1 (by decide), hbyte 2 (by decide), hbyte 3 (by decide),
    add_zero_addr]
  unfold pairs pairs pairs pairs
  rw [hthree, hthree, htwo, htwo]
  rfl

theorem copyWords_eq (h : Forward d s (4 * w)) : copyWords w m d s =
    (copyBytes (4 * w) m d s, d + BitVec.ofNat 32 (4 * w), s + BitVec.ofNat 32 (4 * w)) := by
  induction w generalizing m d s with
  | zero => rw [Nat.mul_zero, add_zero_addr, add_zero_addr]; rfl
  | succ w ih =>
    have hsplit : 4 * (w + 1) = 4 + 4 * w := by omega
    rw [hsplit] at h ⊢
    unfold copyWords
    rw [storeWord_loadWord (h.mono (by omega))]
    refine (ih h.shift).trans ?_
    rw [copyBytes_append, BitVec.ofNat_add, ← BitVec.add_assoc, ← BitVec.add_assoc]

/-- The loops over words and the rest are one loop over bytes. -/
theorem copyWords_rest (h : Forward d s n) :
    copyBytes (n % 4) (copyWords (n / 4) m d s).1 (copyWords (n / 4) m d s).2.1
      (copyWords (n / 4) m d s).2.2 = copyBytes n m d s := by
  rw [copyWords_eq (h.mono (Nat.mul_div_le n 4))]
  dsimp only
  rw [← copyBytes_append, Nat.div_add_mod]

theorem memcpy_eq (h : Forward d s n) : memcpy m d s n = copyBytes n m d s := by
  unfold memcpy
  split
  case isTrue =>
    obtain ⟨k, hk, hhead⟩ := memcpyHead_eq (n := n) (m := m) (d := d) (s := s)
    have hrest := copyWords_rest (m := copyBytes k m d s) (n := n - k)
      (d := d + BitVec.ofNat 32 k) (s := s + BitVec.ofNat 32 k) (Forward.shift (by
        rw [Nat.add_sub_cancel' hk]
        exact h))
    rw [← copyBytes_append, Nat.add_sub_cancel' hk] at hrest
    rw [hhead]
    exact hrest
  case isFalse => rfl

/-! `memmove` -/

/-- The bytes do not go over the end of the address space. -/
def InSpace (p : Addr) (n : Nat) : Prop := p.toNat + n ≤ 2 ^ 32

theorem toNat_add_ofNat (h : InSpace p n) (hi : i < n) :
    (p + BitVec.ofNat 32 i).toNat = p.toNat + i := by
  unfold InSpace at h
  rw [BitVec.toNat_add, BitVec.toNat_ofNat]
  omega

theorem forward_of_lt (hd : InSpace d n) (hs : InSpace s n) (hlt : d < s) : Forward d s n := by
  intro i j hij hj heq
  have hnat := congrArg BitVec.toNat heq
  rw [toNat_add_ofNat hd (by omega), toNat_add_ofNat hs hj] at hnat
  have hless : d.toNat < s.toNat := hlt
  omega

theorem pairAt_mem (hi : i < n) : pairAt d s i ∈ pairs d s n := by
  have hsplit : pairs d s n = pairs d s i ++ pairs (d + BitVec.ofNat 32 i) (s + BitVec.ofNat 32 i)
      (n - i - 1 + 1) := by
    rw [← pairs_append]
    congr 1
    omega
  rw [hsplit]
  exact List.mem_append_right _ List.mem_cons_self

/-- The targets are different cells. -/
theorem targets_pairwise (hn : n ≤ 2 ^ 32) : (pairs d s n).Pairwise fun p q => p.1 ≠ q.1 := by
  refine pairs_pairwise fun i j hij hj heq => ?_
  have hcancel : BitVec.ofNat 32 i = BitVec.ofNat 32 j := add_left_cancel heq
  have hnat := congrArg BitVec.toNat hcancel
  rw [BitVec.toNat_ofNat, BitVec.toNat_ofNat] at hnat
  omega

/-- What the sources were, stored in the targets. -/
theorem stores_pairs (hn : n ≤ 2 ^ 32) :
    stores m ((pairs d s n).map fun p => (p.1, m p.2)) = movedBytes m d s n := by
  have hdistinct : ((pairs d s n).map fun p => (p.1, m p.2)).Pairwise fun v w => v.1 ≠ w.1 :=
    List.pairwise_map.mpr (targets_pairwise hn)
  funext a
  unfold movedBytes
  split
  case isTrue hin =>
    have haddr (p : Addr) : p + BitVec.ofNat 32 (a - d).toNat = p + (a - d) := by
      rw [BitVec.ofNat_toNat, BitVec.setWidth_eq]
    have hcancel : d + (a - d) = a := add_sub_cancel d a
    have hmem := List.mem_map_of_mem (f := fun p => (p.1, m p.2)) (pairAt_mem (d := d) (s := s) hin)
    have hfound := Copy.stores_mem (m := m) hdistinct hmem
    unfold pairAt at hfound
    dsimp only at hfound
    rwa [haddr, haddr, hcancel] at hfound
  case isFalse hout =>
    refine Copy.stores_other fun w hw => ?_
    obtain ⟨q, hq, rfl⟩ := List.mem_map.mp hw
    obtain ⟨j, hj, rfl⟩ := mem_pairs hq
    rintro rfl
    refine hout ?_
    have hdiff : d + BitVec.ofNat 32 j - d = BitVec.ofNat 32 j := add_sub_cancel_left _ _
    rw [hdiff, BitVec.toNat_ofNat]
    exact (Nat.mod_le _ _).trans_lt hj

theorem copyBack_eq : copyBack n m (d + BitVec.ofNat 32 n) (s + BitVec.ofNat 32 n) =
    copies m (pairs d s n).reverse := by
  induction n generalizing m with
  | zero => rfl
  | succ n ih =>
    have hback (p : Addr) : p + BitVec.ofNat 32 (n + 1) - 1 = p + BitVec.ofNat 32 n := by
      rw [BitVec.ofNat_add, ← BitVec.add_assoc]
      exact BitVec.add_sub_cancel _ _
    unfold copyBack
    rw [hback, hback, ih, pairs_append, List.reverse_append]
    rfl

theorem memmove_eq (hd : InSpace d n) (hs : InSpace s n) :
    memmove m d s n = movedBytes m d s n := by
  have hn : n ≤ 2 ^ 32 := by
    unfold InSpace at hd
    omega
  have hforward (hlt : d < s) : copyBytes n m d s = movedBytes m d s n := by
    rw [copyBytes_eq, Copy.copies_eq_stores (forward_of_lt hd hs hlt).pairwise, stores_pairs hn]
  unfold memmove
  split
  case isTrue hsame =>
    funext a
    unfold movedBytes
    rcases hsame with rfl | rfl
    · split
      case isTrue => exact congrArg m (add_sub_cancel d a).symm
      case isFalse => rfl
    · exact (if_neg (Nat.not_lt_zero _)).symm
  case isFalse hdiff =>
  split
  case isTrue hlt =>
    split
    case isTrue => exact (copyWords_rest (forward_of_lt hd hs hlt)).trans (hforward hlt)
    case isFalse => exact hforward hlt
  case isFalse hge =>
    have hlt : s.toNat < d.toNat := by
      obtain ⟨hne, -⟩ := not_or.mp hdiff
      have hnat : d.toNat ≠ s.toNat := fun h => hne (BitVec.eq_of_toNat_eq h)
      rw [BitVec.lt_def] at hge
      omega
    have hback : (pairs d s n).reverse.Pairwise fun p q => p.1 ≠ q.2 := by
      refine List.pairwise_reverse.mpr (pairs_pairwise fun i j hij hj heq => ?_)
      have hnat := congrArg BitVec.toNat heq
      unfold pairAt at hnat
      rw [toNat_add_ofNat hd hj, toNat_add_ofNat hs (by omega)] at hnat
      omega
    have hdistinct : ((pairs d s n).map fun p => (p.1, m p.2)).Pairwise fun v w => v.1 ≠ w.1 :=
      List.pairwise_map.mpr (targets_pairwise hn)
    rw [copyBack_eq, Copy.copies_eq_stores hback, List.map_reverse, Copy.stores_reverse hdistinct,
      stores_pairs hn]

end PinguinOS.Klib
