import Mathlib.Logic.Function.Basic
import Mathlib.Logic.Relation
import PinguinOS.Mm.Types

/-! Mutexes and condition variables: one owner at a time, whatever the tasks do. -/
namespace PinguinOS.Sync

open Mm (u32)

def semMaxWaiters : Nat := 16

/-- `mutex_t`; its spinlock makes each round below one step. -/
structure Mutex where
  ownerTid : Nat
  depth : Nat
  waiters : Nat → Nat
  waiterCount : Nat

/-- `condvar_t` -/
structure Condvar where
  waiters : Nat → Nat
  waiterCount : Nat

def mutexInit : Mutex where
  ownerTid := 0
  depth := 0
  waiters := fun _ => 0
  waiterCount := 0

def condvarInit : Condvar where
  waiters := fun _ => 0
  waiterCount := 0

/-- One round of the loop of `mutex_lock`; without success the task yields and tries again. -/
def mutexLockRound (m : Mutex) (myId : Nat) : Bool × Mutex :=
  if m.ownerTid = myId then (true, { m with depth := u32 (m.depth + 1) })
  else if m.ownerTid = 0 then (true, { m with ownerTid := myId, depth := 1 })
  else if m.waiterCount < semMaxWaiters ∧ myId ≠ 0 then
    (false,
      { m with
        waiters := Function.update m.waiters m.waiterCount myId
        waiterCount := m.waiterCount + 1 })
  else (false, m)

def mutexTrylock (m : Mutex) (myId : Nat) : Bool × Mutex :=
  if m.ownerTid = 0 ∨ m.ownerTid = myId then
    (true, { m with ownerTid := myId, depth := u32 (m.depth + 1) })
  else (false, m)

def mutexUnlock (m : Mutex) : Mutex :=
  if m.depth > 1 then { m with depth := m.depth - 1 }
  else
    { m with
      ownerTid := 0
      depth := 0
      waiterCount := if m.waiterCount > 0 then m.waiterCount - 1 else m.waiterCount }

/-- The first section of `condvar_wait`, which goes on with `mutex_unlock`, a sleep and
`mutex_lock`. -/
def condvarEnter (cv : Condvar) (id : Nat) : Condvar :=
  if cv.waiterCount < semMaxWaiters then
    { waiters := Function.update cv.waiters cv.waiterCount id, waiterCount := cv.waiterCount + 1 }
  else cv

def condvarSignal (cv : Condvar) : Condvar :=
  { cv with waiterCount := if cv.waiterCount > 0 then cv.waiterCount - 1 else cv.waiterCount }

def condvarBroadcast (cv : Condvar) : Condvar := { cv with waiterCount := 0 }

/-! Any tasks, in any order. -/

/-- Where a task is: in no call, in `mutex_lock`, or in `condvar_wait` before its `mutex_unlock`. -/
inductive Pc
  | idle
  | locking
  | waiting
  deriving DecidableEq

structure State where
  mutex : Mutex
  cv : Nat → Condvar
  pc : Nat → Pc
  /-- The acquisitions of each task that it has not released. -/
  held : Nat → Nat

def initial : State where
  mutex := mutexInit
  cv := fun _ => condvarInit
  pc := fun _ => .idle
  held := fun _ => 0

def State.setPc (s : State) (t : Nat) (pc : Pc) : State :=
  { s with pc := Function.update s.pc t pc }

/-- The mutex after an acquisition by `t`. -/
def State.acquired (s : State) (t : Nat) (m : Mutex) : State :=
  { s with mutex := m, held := Function.update s.held t (s.held t + 1) }

/-- The mutex after a release by `t`. -/
def State.released (s : State) (t : Nat) : State :=
  { s with mutex := mutexUnlock s.mutex, held := Function.update s.held t (s.held t - 1) }

/-- The steps of task `t`, which unlocks, and waits with, only a mutex it holds. -/
inductive Step (s : State) (t : Nat) : State → Prop
  | lock (hpc : s.pc t = .idle) : Step s t (s.setPc t .locking)
  | lockRound (hpc : s.pc t = .locking) (hok : (mutexLockRound s.mutex t).1 = true) :
    Step s t ((s.acquired t (mutexLockRound s.mutex t).2).setPc t .idle)
  | lockAgain (hpc : s.pc t = .locking) (hno : (mutexLockRound s.mutex t).1 = false) :
    Step s t { s with mutex := (mutexLockRound s.mutex t).2 }
  | trylock (hpc : s.pc t = .idle) (hok : (mutexTrylock s.mutex t).1 = true) :
    Step s t (s.acquired t (mutexTrylock s.mutex t).2)
  | trylockFailed (hpc : s.pc t = .idle) (hno : (mutexTrylock s.mutex t).1 = false) :
    Step s t { s with mutex := (mutexTrylock s.mutex t).2 }
  | unlock (hpc : s.pc t = .idle) (hheld : 0 < s.held t) : Step s t (s.released t)
  | wait (hpc : s.pc t = .idle) (hheld : 0 < s.held t) (i : Nat) :
    Step s t ({ s with cv := Function.update s.cv i (condvarEnter (s.cv i) t) }.setPc t .waiting)
  | waitUnlock (hpc : s.pc t = .waiting) : Step s t ((s.released t).setPc t .locking)
  | signal (hpc : s.pc t = .idle) (i : Nat) :
    Step s t { s with cv := Function.update s.cv i (condvarSignal (s.cv i)) }
  | broadcast (hpc : s.pc t = .idle) (i : Nat) :
    Step s t { s with cv := Function.update s.cv i (condvarBroadcast (s.cv i)) }

/-- Some task with a nonzero id takes a step. -/
def Next (s s' : State) : Prop := ∃ t, t ≠ 0 ∧ Step s t s'

def Reachable (s : State) : Prop := Relation.ReflTransGen Next initial s

/-- The mutex says who holds it, and how often. -/
structure Exclusive (s : State) : Prop where
  one : ∀ t t', 0 < s.held t → 0 < s.held t' → t = t'
  owner : ∀ t, 0 < s.held t → s.mutex.ownerTid = t ∧ s.mutex.depth = s.held t
  free : (∀ t, s.held t = 0) ↔ s.mutex.ownerTid = 0 ∧ s.mutex.depth = 0
  waiters : s.mutex.waiterCount ≤ semMaxWaiters

/-- No task holds the mutex more often than `depth` can count. -/
def Countable (s : State) : Prop := ∀ t, s.held t < 2 ^ 32

variable {s s' : State} {t n : Nat} {m : Mutex}

/-! The mutex on its own: what it says of its holder. -/

/-- `t` holds the mutex `n` times; nobody does if `n` is 0. -/
structure HeldBy (m : Mutex) (t n : Nat) : Prop where
  owner : m.ownerTid = if n = 0 then 0 else t
  depth : m.depth = n
  waiters : m.waiterCount ≤ semMaxWaiters

theorem heldBy_mutexInit : HeldBy mutexInit t 0 := ⟨rfl, rfl, Nat.zero_le _⟩

/-- Nobody holds the mutex, and so not some other task either. -/
theorem HeldBy.free (h : HeldBy m t 0) (t' : Nat) : HeldBy m t' 0 := ⟨h.owner, h.depth, h.waiters⟩

/-- The holder, or anybody if there is none, gets the mutex. -/
theorem HeldBy.lockRound (h : HeldBy m t n) (ht : t ≠ 0) (hn : n + 1 < 2 ^ 32) :
    (mutexLockRound m t).1 = true ∧ HeldBy (mutexLockRound m t).2 t (n + 1) := by
  have howner := h.owner
  have hdepth := h.depth
  unfold mutexLockRound
  by_cases hzero : n = 0
  · rw [if_pos hzero] at howner
    rw [howner, if_neg ht.symm, if_pos rfl, hzero]
    exact ⟨rfl, rfl, rfl, h.waiters⟩
  · rw [if_neg hzero] at howner
    rw [if_pos howner]
    refine ⟨rfl, ?_, ?_, h.waiters⟩
    · rw [if_neg (Nat.succ_ne_zero n)]
      exact howner
    · rw [hdepth]
      exact Mm.u32_of_lt hn

/-- Another task does not get it. -/
theorem HeldBy.lockRound_other {t' : Nat} (h : HeldBy m t n) (ht : t ≠ 0) (hn : 0 < n)
    (hne : t' ≠ t) :
    (mutexLockRound m t').1 = false ∧ HeldBy (mutexLockRound m t').2 t n := by
  have howner := h.owner
  have hwaiters := h.waiters
  rw [if_neg (Nat.ne_of_gt hn)] at howner
  unfold mutexLockRound
  rw [howner, if_neg hne.symm, if_neg ht]
  split_ifs with hroom
  · exact ⟨rfl, (if_neg (Nat.ne_of_gt hn)).symm, h.depth, hroom.1⟩
  · exact ⟨rfl, h⟩

theorem HeldBy.trylock (h : HeldBy m t n) (hn : n + 1 < 2 ^ 32) :
    (mutexTrylock m t).1 = true ∧ HeldBy (mutexTrylock m t).2 t (n + 1) := by
  have howner := h.owner
  have hmine : m.ownerTid = 0 ∨ m.ownerTid = t := by
    split_ifs at howner
    · exact Or.inl howner
    · exact Or.inr howner
  unfold mutexTrylock
  rw [if_pos hmine, h.depth]
  exact ⟨rfl, (if_neg (Nat.succ_ne_zero n)).symm, Mm.u32_of_lt hn, h.waiters⟩

theorem HeldBy.trylock_other {t' : Nat} (h : HeldBy m t n) (ht : t ≠ 0) (hn : 0 < n)
    (hne : t' ≠ t) : mutexTrylock m t' = (false, m) := by
  have howner := h.owner
  rw [if_neg (Nat.ne_of_gt hn)] at howner
  unfold mutexTrylock
  rw [howner]
  refine if_neg ?_
  rintro (hzero | hsame)
  · exact ht hzero
  · exact hne hsame.symm

theorem HeldBy.unlock (h : HeldBy m t n) (hn : 0 < n) : HeldBy (mutexUnlock m) t (n - 1) := by
  have howner := h.owner
  have hdepth := h.depth
  have hwaiters := h.waiters
  rw [if_neg (Nat.ne_of_gt hn)] at howner
  unfold mutexUnlock
  split_ifs with hdeep hsome
  · refine ⟨?_, by rw [← hdepth], hwaiters⟩
    rw [if_neg (by omega)]
    exact howner
  · have hlast : n = 1 := by omega
    subst hlast
    refine ⟨rfl, rfl, ?_⟩
    dsimp only
    omega
  · have hlast : n = 1 := by omega
    subst hlast
    exact ⟨rfl, rfl, hwaiters⟩

/-! The invariant. -/

/-- `t` holds the mutex, or nobody does. -/
structure Holder (m : Mutex) (held : Nat → Nat) (t : Nat) : Prop where
  nonzero : t ≠ 0
  heldBy : HeldBy m t (held t)
  others : ∀ t', t' ≠ t → held t' = 0

structure Inv (s : State) : Prop where
  holder : ∃ t, Holder s.mutex s.held t
  waiting : ∀ t, s.pc t = .waiting → 0 < s.held t

theorem inv_initial : Inv initial where
  holder := ⟨1, by decide, heldBy_mutexInit, fun _ _ => rfl⟩
  waiting := fun _ hpc => nomatch hpc

/-- Seen from task `t`: it is the holder, or there is another one. -/
theorem holder_cases {held : Nat → Nat} (h : ∃ t, Holder m held t) (ht : t ≠ 0) :
    Holder m held t ∨ ∃ t', t ≠ t' ∧ 0 < held t' ∧ Holder m held t' := by
  obtain ⟨t', hholder⟩ := h
  by_cases hsame : t = t'
  · exact Or.inl (hsame ▸ hholder)
  by_cases hzero : held t' = 0
  · have hall : ∀ u, held u = 0 := by
      intro u
      by_cases hu : u = t'
      · rw [hu, hzero]
      · exact hholder.others u hu
    have hfree := hholder.heldBy
    rw [hzero] at hfree
    refine Or.inl ⟨ht, ?_, fun u _ => hall u⟩
    rw [hall t]
    exact hfree.free t
  · exact Or.inr ⟨t', hsame, Nat.pos_of_ne_zero hzero, hholder⟩

/-- The counts of the other tasks stay. -/
theorem Holder.update {held : Nat → Nat} {m' : Mutex} (h : Holder m held t) (hm : HeldBy m' t n) :
    Holder m' (Function.update held t n) t := by
  refine ⟨h.nonzero, ?_, fun t' hne => ?_⟩
  · rw [Function.update_self]
    exact hm
  · rw [Function.update_of_ne hne]
    exact h.others t' hne

/-- A task that holds the mutex is the holder. -/
theorem holder_of_held {held : Nat → Nat} (h : ∃ t, Holder m held t) (hheld : 0 < held t) :
    Holder m held t := by
  obtain ⟨t', hholder⟩ := h
  by_cases hsame : t = t'
  · exact hsame ▸ hholder
  · rw [hholder.others t hsame] at hheld
    exact absurd hheld (Nat.lt_irrefl 0)

theorem waiting_update {pc : Nat → Pc} {p : Pc} {held : Nat → Nat}
    (h : ∀ u, u ≠ t → pc u = .waiting → 0 < held u) (hp : p = .waiting → 0 < held t) :
    ∀ u, Function.update pc t p u = .waiting → 0 < held u := by
  intro u hu
  by_cases hut : u = t
  · subst hut
    rw [Function.update_self] at hu
    exact hp hu
  · rw [Function.update_of_ne hut] at hu
    exact h u hut hu

theorem Inv.step (h : Inv s) (ht : t ≠ 0) (hstep : Step s t s') (hcount : Countable s') : Inv s' := by
  have hwaiting : ∀ k u, u ≠ t → s.pc u = .waiting → 0 < Function.update s.held t k u := by
    intro k u hne hu
    rw [Function.update_of_ne hne]
    exact h.waiting u hu
  cases hstep with
  | lock hpc =>
    exact ⟨h.holder, waiting_update (fun u _ hu => h.waiting u hu) fun hp => nomatch hp⟩
  | lockRound hpc hok =>
    rcases holder_cases h.holder ht with hholder | ⟨t', hne, hpos, hholder⟩
    · have hlt := hcount t
      simp only [State.setPc, State.acquired, Function.update_self] at hlt
      have hnow := (hholder.heldBy.lockRound ht hlt).2
      refine ⟨⟨t, hholder.update hnow⟩, ?_⟩
      exact waiting_update (hwaiting _) fun hp => nomatch hp
    · have hno := (hholder.heldBy.lockRound_other hholder.nonzero hpos hne).1
      rw [hok] at hno
      cases hno
  | lockAgain hpc hno =>
    rcases holder_cases h.holder ht with hholder | ⟨t', hne, hpos, hholder⟩
    · refine ⟨⟨t, ?_⟩, h.waiting⟩
      by_cases hzero : s.held t = 0
      · have hfree := hholder.heldBy
        rw [hzero] at hfree
        have hok := (hfree.lockRound ht (by decide)).1
        rw [hno] at hok
        cases hok
      · have howner := hholder.heldBy.owner
        rw [if_neg hzero] at howner
        have hok : (mutexLockRound s.mutex t).1 = true := by
          unfold mutexLockRound
          rw [if_pos howner]
        rw [hno] at hok
        cases hok
    · have hnow := (hholder.heldBy.lockRound_other hholder.nonzero hpos hne).2
      exact ⟨⟨t', hholder.nonzero, hnow, hholder.others⟩, h.waiting⟩
  | trylock hpc hok =>
    rcases holder_cases h.holder ht with hholder | ⟨t', hne, hpos, hholder⟩
    · have hlt := hcount t
      simp only [State.acquired, Function.update_self] at hlt
      have hnow := (hholder.heldBy.trylock hlt).2
      refine ⟨⟨t, hholder.update hnow⟩, fun u hu => ?_⟩
      refine hwaiting _ u ?_ hu
      rintro rfl
      exact absurd (hpc.symm.trans hu) (by decide)
    · rw [hholder.heldBy.trylock_other hholder.nonzero hpos hne] at hok
      cases hok
  | trylockFailed hpc hno =>
    have hsame : (mutexTrylock s.mutex t).2 = s.mutex := by
      unfold mutexTrylock at hno ⊢
      split_ifs at hno ⊢
      rfl
    rw [hsame]
    exact h
  | unlock hpc hheld =>
    have hholder := holder_of_held h.holder hheld
    refine ⟨⟨t, hholder.update (hholder.heldBy.unlock hheld)⟩, fun u hu => ?_⟩
    refine hwaiting _ u ?_ hu
    rintro rfl
    exact absurd (hpc.symm.trans hu) (by decide)
  | wait hpc hheld i =>
    exact ⟨h.holder, waiting_update (fun u _ hu => h.waiting u hu) fun _ => hheld⟩
  | waitUnlock hpc =>
    have hheld := h.waiting t hpc
    have hholder := holder_of_held h.holder hheld
    refine ⟨⟨t, hholder.update (hholder.heldBy.unlock hheld)⟩, ?_⟩
    exact waiting_update (hwaiting _) fun hp => nomatch hp
  | signal hpc i => exact ⟨h.holder, h.waiting⟩
  | broadcast hpc i => exact ⟨h.holder, h.waiting⟩

theorem Inv.exclusive (h : Inv s) : Exclusive s := by
  obtain ⟨t, hholder⟩ := h.holder
  have hmine : ∀ u, 0 < s.held u → u = t := by
    intro u hu
    by_contra hne
    rw [hholder.others u hne] at hu
    exact Nat.lt_irrefl 0 hu
  refine ⟨fun u u' hu hu' => (hmine u hu).trans (hmine u' hu').symm, fun u hu => ?_, ?_,
    hholder.heldBy.waiters⟩
  · have howner := hholder.heldBy.owner
    obtain rfl := hmine u hu
    rw [if_neg (Nat.ne_of_gt hu)] at howner
    exact ⟨howner, hholder.heldBy.depth⟩
  · constructor
    · intro hall
      have howner := hholder.heldBy.owner
      rw [if_pos (hall t)] at howner
      exact ⟨howner, hholder.heldBy.depth.trans (hall t)⟩
    · rintro ⟨-, hdepth⟩ u
      by_cases hu : u = t
      · rw [hu, ← hholder.heldBy.depth, hdepth]
      · exact hholder.others u hu

/-- A task that has taken the mutex `n` times in a row. -/
theorem reachable_nested (n : Nat) : ∃ s, Reachable s ∧ s.held 1 = n ∧ s.mutex.depth = u32 n ∧
    (s.mutex.ownerTid = 0 ∨ s.mutex.ownerTid = 1) ∧ s.pc 1 = .idle := by
  induction n with
  | zero => exact ⟨initial, .refl, rfl, rfl, Or.inl rfl, rfl⟩
  | succ n ih =>
    obtain ⟨s, hreach, hheld, hdepth, howner, hpc⟩ := ih
    have htry : mutexTrylock s.mutex 1 =
        (true, { s.mutex with ownerTid := 1, depth := u32 (s.mutex.depth + 1) }) := if_pos howner
    have hok : (mutexTrylock s.mutex 1).1 = true := by rw [htry]
    refine ⟨_, hreach.tail ⟨1, by decide, .trylock hpc hok⟩, ?_, ?_, ?_, hpc⟩
    · simp only [State.acquired, Function.update_self, hheld]
    · simp only [State.acquired, htry, hdepth, u32]
      omega
    · simp [State.acquired, htry]

end PinguinOS.Sync
