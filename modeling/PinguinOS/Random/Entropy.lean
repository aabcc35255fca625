import Mathlib.Data.BitVec
import Mathlib.Logic.Function.Basic
import Mathlib.Tactic.Common

/-! The entropy pool and the generator that folds it: `entropy.c`. -/
namespace PinguinOS.Random

def poolWords : Nat := 32
def lfsrPoly : BitVec 32 := 0xB4BCD35C

structure Entropy where
  pool : Nat → BitVec 32
  poolPos : BitVec 32
  lfsrState : BitVec 32

/-- `lfsr_next` -/
def lfsrNext (state : BitVec 32) : BitVec 32 :=
  if state &&& 1 ≠ 0 then state >>> 1 ^^^ lfsrPoly else state >>> 1

/-- `pool_pos % POOL_WORDS` -/
def Entropy.slot (e : Entropy) : Nat := e.poolPos.toNat % poolWords

/-- `t` is what `sched_uptime_ms` returns. -/
def entropyAdd (e : Entropy) (t value : BitVec 32) : Entropy :=
  let lfsr := lfsrNext e.lfsrState
  let value := value ^^^ (t ^^^ lfsr)
  let idx := e.slot
  let pool := Function.update e.pool idx (e.pool idx ^^^ value)
  let nextIdx := (idx + 1) % poolWords
  let pool := Function.update pool nextIdx (pool nextIdx ^^^ (value <<< 7 ||| value >>> 25))
  { pool := pool, poolPos := e.poolPos + 1, lfsrState := lfsr }

/-- The loop of `rand_u32` over the words `i` to `i + n` of the pool. -/
def foldPool (pool : Nat → BitVec 32) : (n i : Nat) → (result : BitVec 32) → BitVec 32
  | 0, _, result => result
  | n + 1, i, result => foldPool pool n (i + 1) (result ^^^ pool i)

/-- The final mixing of `rand_u32`. -/
def mix (result : BitVec 32) : BitVec 32 :=
  let result := result ^^^ result >>> 16
  let result := result * 0x45D9F3B
  result ^^^ result >>> 16

def randU32 (e : Entropy) : BitVec 32 × Entropy :=
  let lfsr := lfsrNext e.lfsrState
  let result := foldPool e.pool poolWords 0 lfsr
  (mix result,
    { pool := Function.update e.pool e.slot (e.pool e.slot ^^^ result)
      poolPos := e.poolPos + 1
      lfsrState := lfsr })

/-- What call `n` of `rand_u32` returns, counted from 0. -/
def output (e : Entropy) : Nat → BitVec 32
  | 0 => (randU32 e).1
  | n + 1 => output (randU32 e).2 n

/-- The XOR of the words of the pool. -/
def Entropy.xor (e : Entropy) : BitVec 32 := foldPool e.pool poolWords 0 0

/-- One of the calls after the first returns something else. -/
def Influences (e e' : Entropy) : Prop := ∃ n, 1 ≤ n ∧ output e n ≠ output e' n

variable {pool : Nat → BitVec 32} {n i k : Nat} {x r : BitVec 32} {e e' : Entropy}

theorem foldPool_start : foldPool pool n i r = r ^^^ foldPool pool n i 0 := by
  induction n generalizing i r with
  | zero => exact BitVec.xor_zero.symm
  | succ n ih =>
    have hzero : (0 : BitVec 32) ^^^ pool i = pool i := BitVec.zero_xor
    unfold foldPool
    rw [ih, @ih (i + 1) (0 ^^^ pool i), hzero, BitVec.xor_assoc]

theorem foldPool_update_out (h : k < i ∨ i + n ≤ k) :
    foldPool (Function.update pool k x) n i r = foldPool pool n i r := by
  induction n generalizing i r with
  | zero => rfl
  | succ n ih =>
    unfold foldPool
    rw [Function.update_of_ne (by omega), ih (by omega)]

/-- A word that is changed by `x` changes the fold by `x`. -/
theorem foldPool_update (hlo : i ≤ k) (hhi : k < i + n) :
    foldPool (Function.update pool k (pool k ^^^ x)) n i r = x ^^^ foldPool pool n i r := by
  induction n generalizing i r with
  | zero => omega
  | succ n ih =>
    unfold foldPool
    by_cases hki : k = i
    · subst hki
      rw [Function.update_self, foldPool_update_out (by omega), foldPool_start,
        @foldPool_start _ _ _ (r ^^^ pool k)]
      simp only [BitVec.xor_assoc]
      rw [← BitVec.xor_assoc x, BitVec.xor_comm x r, BitVec.xor_assoc, ← BitVec.xor_assoc (pool k),
        BitVec.xor_comm (pool k), BitVec.xor_assoc]
    · rw [Function.update_of_ne (Ne.symm hki)]
      exact ih (by omega) (by omega)

/-- What `entropy_add` leaves in the pool: the value, and the value rotated. -/
theorem entropyAdd_xor {t value : BitVec 32} :
    (entropyAdd e t value).xor =
      (let w := value ^^^ (t ^^^ lfsrNext e.lfsrState)
       (w <<< 7 ||| w >>> 25) ^^^ (w ^^^ e.xor)) := by
  have hslot : e.slot < poolWords := Nat.mod_lt _ (by decide)
  have hnext : (e.slot + 1) % poolWords < poolWords := Nat.mod_lt _ (by decide)
  unfold entropyAdd Entropy.xor
  dsimp only
  rw [foldPool_update (Nat.zero_le _) (by omega), foldPool_update (Nat.zero_le _) (by omega)]

theorem randU32_fst : (randU32 e).1 = mix (lfsrNext e.lfsrState ^^^ e.xor) := by
  unfold randU32 Entropy.xor
  dsimp only
  rw [foldPool_start]

/-- What is fed back cancels the pool: its XOR is the state of the register. -/
theorem randU32_xor : (randU32 e).2.xor = lfsrNext e.lfsrState := by
  have hslot : e.slot < poolWords := Nat.mod_lt _ (by decide)
  unfold randU32 Entropy.xor
  dsimp only
  rw [foldPool_update (Nat.zero_le _) (by omega), foldPool_start, BitVec.xor_assoc,
    BitVec.xor_self, BitVec.xor_zero]

theorem randU32_lfsr : (randU32 e).2.lfsrState = lfsrNext e.lfsrState := rfl

/-- What the register alone says about the outputs after a call that leaves it in `state`. -/
def predicted (state : BitVec 32) : Nat → BitVec 32
  | 0 => mix (lfsrNext state ^^^ state)
  | n + 1 => predicted (lfsrNext state) n

theorem output_of_xor (h : e.xor = e.lfsrState) : output e n = predicted e.lfsrState n := by
  induction n generalizing e with
  | zero =>
    unfold output predicted
    rw [randU32_fst, h]
  | succ n ih =>
    unfold output predicted
    rw [ih (randU32_xor.trans randU32_lfsr.symm), randU32_lfsr]

/-- Every output after the first is known from the register. -/
theorem output_predicted : output e (n + 1) = predicted (lfsrNext e.lfsrState) n := by
  unfold output
  rw [output_of_xor (randU32_xor.trans randU32_lfsr.symm), randU32_lfsr]

/-- Whatever the pools hold, the outputs agree from the second call on. -/
theorem not_influences (hlfsr : e.lfsrState = e'.lfsrState) : ¬ Influences e e' := by
  rintro ⟨n, hn, hne⟩
  cases n with
  | zero => omega
  | succ n =>
    rw [output_predicted, output_predicted, hlfsr] at hne
    exact hne rfl

/-- The state after `static` initialisation, with `x` in the first word. -/
def seeded (x : BitVec 32) : Entropy := ⟨fun i => if i = 0 then x else 0, 0, 0xDEAD1337⟩

theorem not_influences_seeded : ¬ Influences (seeded 0xCAFEBABE) (seeded 0) :=
  not_influences rfl

theorem not_forall_influences :
    ¬ ∀ e e' : Entropy, e.lfsrState = e'.lfsrState → e.poolPos = e'.poolPos → e.xor ≠ e'.xor →
      Influences e e' := by
  intro hall
  obtain ⟨n, hn, hne⟩ := hall (seeded 1) (seeded 2) rfl rfl (by decide)
  cases n with
  | zero => omega
  | succ n =>
    rw [output_predicted, output_predicted] at hne
    exact hne rfl

end PinguinOS.Random
