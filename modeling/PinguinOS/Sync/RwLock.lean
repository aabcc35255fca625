import Mathlib.Algebra.BigOperators.Group.Finset.Piecewise
import Mathlib.Algebra.Order.BigOperators.Group.Finset
import Mathlib.Data.Fintype.Basic
import PinguinOS.Sync.Mutex

/-! Semaphores, and the reader/writer lock made of one: writers exclude everybody. -/
namespace PinguinOS.Sync

/-- `semaphore_t`; its spinlock makes each round below one step. -/
structure Semaphore where
  value : Int
  waiters : Nat → Nat
  waiterCount : Nat

def semInit (value : Int) : Semaphore where
  value := value
  waiters := fun _ => 0
  waiterCount := 0

/-- One round of the loop of `sem_wait`; without success the task sleeps and tries again. -/
def semWaitRound (sem : Semaphore) (id : Nat) : Bool × Semaphore :=
  if sem.value > 0 then (true, { sem with value := sem.value - 1 })
  else if sem.waiterCount < semMaxWaiters then
    (false,
      { sem with
        waiters := Function.update sem.waiters sem.waiterCount id
        waiterCount := sem.waiterCount + 1 })
  else (false, sem)

def semPost (sem : Semaphore) : Semaphore :=
  { sem with
    value := sem.value + 1
    waiterCount := if sem.waiterCount > 0 then sem.waiterCount - 1 else sem.waiterCount }

/-- `rwlock_t` without `read_sem`, which nothing uses. -/
structure RwLock where
  locked : Bool
  readers : Int
  writeSem : Semaphore

def rwlockInit : RwLock where
  locked := false
  readers := 0
  writeSem := semInit 1

/-- Where a task is: in no call; spinning in `rwlock_read_lock`, or there in `sem_wait` with the
spinlock; spinning in `rwlock_read_unlock`, or there before `sem_post`; in `rwlock_write_lock`. -/
inductive RwPc
  | idle
  | readLock
  | readWait
  | readUnlock
  | readPost
  | writeLock
  deriving DecidableEq

/-! What one round of a semaphore does. -/

section Semaphore

variable {sem : Semaphore} {n : Nat}

theorem semWaitRound_ok (h : (semWaitRound sem n).1 = true) :
    0 < sem.value ∧ (semWaitRound sem n).2.value = sem.value - 1 := by
  unfold semWaitRound at h ⊢
  split_ifs at h ⊢ with hpos
  exact ⟨hpos, rfl⟩

theorem semWaitRound_no (h : (semWaitRound sem n).1 = false) :
    (semWaitRound sem n).2.value = sem.value := by
  unfold semWaitRound at h ⊢
  split_ifs at h ⊢
  · rfl
  · rfl

end Semaphore

/-! The places of the tasks. -/

/-- Who has the spinlock: the first reader in `sem_wait`, or the last before `sem_post`. -/
inductive RwHolder (ι : Type*)
  | free
  | wait (t : ι)
  | post (t : ι)

def RwHolder.waits : RwHolder ι → Nat
  | .wait _ => 1
  | _ => 0

def RwHolder.posts : RwHolder ι → Nat
  | .post _ => 1
  | _ => 0

/-- A task that is at `p` has the spinlock as `h` says. -/
def RwHolder.Fits (h : RwHolder ι) (t : ι) (p : RwPc) : Prop :=
  (p = .readWait ↔ h = .wait t) ∧ (p = .readPost ↔ h = .post t)

section Fits

variable {ι : Type*} {t u : ι} {f : ι → Nat} {h : RwHolder ι} {p q : RwPc} {pc : ι → RwPc}
  {reads : ι → Nat}

theorem fits_free {p : RwPc} (hwait : p ≠ .readWait) (hpost : p ≠ .readPost) :
    (RwHolder.free : RwHolder ι).Fits t p :=
  ⟨⟨fun h => absurd h hwait, fun h => (nomatch h)⟩, ⟨fun h => absurd h hpost, fun h => (nomatch h)⟩⟩

/-- Neither place has the spinlock. -/
theorem RwHolder.Fits.move (hp : h.Fits t p) (hwait : p ≠ .readWait)
    (hpost : p ≠ .readPost) (hwait' : q ≠ .readWait) (hpost' : q ≠ .readPost) : h.Fits t q :=
  ⟨⟨fun heq => absurd heq hwait', fun heq => absurd (hp.1.mpr heq) hwait⟩,
    ⟨fun heq => absurd heq hpost', fun heq => absurd (hp.2.mpr heq) hpost⟩⟩

/-- The spinlock is free before: the others do not have it when `t` takes it. -/
theorem fits_taken (hfree : (RwHolder.free : RwHolder ι).Fits u p) (hne : u ≠ t)
    (hh : h = .wait t ∨ h = .post t) : h.Fits u p := by
  refine ⟨⟨fun hpc => (nomatch hfree.1.mp hpc), ?_⟩, ⟨fun hpc => (nomatch hfree.2.mp hpc), ?_⟩⟩
  · rintro rfl
    rcases hh with heq | heq
    · exact absurd (RwHolder.wait.inj heq) hne
    · cases heq
  · rintro rfl
    rcases hh with heq | heq
    · cases heq
    · exact absurd (RwHolder.post.inj heq) hne

/-- The holder gives the spinlock back: the others do not have it. -/
theorem fits_given (hold : h.Fits u p) (hne : u ≠ t) (hh : h = .wait t ∨ h = .post t) :
    (RwHolder.free : RwHolder ι).Fits u p := by
  refine fits_free (fun hpc => ?_) fun hpc => ?_
  · rcases hh with rfl | rfl
    · exact absurd (RwHolder.wait.inj (hold.1.mp hpc)).symm hne
    · cases hold.1.mp hpc
  · rcases hh with rfl | rfl
    · cases hold.2.mp hpc
    · exact absurd (RwHolder.post.inj (hold.2.mp hpc)).symm hne

variable [DecidableEq ι]

theorem fits_update (hothers : ∀ u, u ≠ t → h.Fits u (pc u))
    (ht : h.Fits t p) : ∀ u, h.Fits u (Function.update pc t p u) := by
  intro u
  by_cases hu : u = t
  · subst hu
    rwa [Function.update_self]
  · rw [Function.update_of_ne hu]
    exact hothers u hu

theorem unlocking_update 
    (hothers : ∀ u, u ≠ t → pc u = .readUnlock → 0 < reads u)
    (ht : p = .readUnlock → 0 < reads t) :
    ∀ u, Function.update pc t p u = .readUnlock → 0 < reads u := by
  intro u hu
  by_cases hut : u = t
  · subst hut
    rw [Function.update_self] at hu
    exact ht hu
  · rw [Function.update_of_ne hut] at hu
    exact hothers u hut hu

end Fits

/-! The lock. -/

variable {ι : Type*} [DecidableEq ι]

/-- Tasks `ι` with the lock, and how often each has locked it for reading and for writing. -/
structure RwState (ι : Type*) where
  rw : RwLock
  pc : ι → RwPc
  reads : ι → Nat
  writes : ι → Nat

def rwInitial : RwState ι where
  rw := rwlockInit
  pc := fun _ => .idle
  reads := fun _ => 0
  writes := fun _ => 0

def RwState.setPc (s : RwState ι) (t : ι) (pc : RwPc) : RwState ι :=
  { s with pc := Function.update s.pc t pc }

/-- `t` is in for reading, once more. -/
def RwState.addRead (s : RwState ι) (t : ι) : RwState ι :=
  { s with reads := Function.update s.reads t (s.reads t + 1) }

def RwState.addWrite (s : RwState ι) (t : ι) : RwState ι :=
  { s with writes := Function.update s.writes t (s.writes t + 1) }

/-- The steps of task `t` with the id `id t`. Counting past the range of `readers`, an `int32_t`,
has no meaning in C, and so no step here. -/
inductive RwStep (id : ι → Nat) (s : RwState ι) (t : ι) : RwState ι → Prop
  | readLock (hpc : s.pc t = .idle) : RwStep id s t (s.setPc t .readLock)
  /-- `readers++` of the first reader, which goes on to `sem_wait`. -/
  | readFirst (hpc : s.pc t = .readLock) (hfree : s.rw.locked = false)
    (hrange : s.rw.readers + 1 < 2 ^ 31) (hfirst : s.rw.readers + 1 = 1) :
    RwStep id s t
      ({ s with rw := { s.rw with locked := true, readers := s.rw.readers + 1 } }.setPc t .readWait)
  /-- `readers++` of any other. -/
  | readNext (hpc : s.pc t = .readLock) (hfree : s.rw.locked = false)
    (hrange : s.rw.readers + 1 < 2 ^ 31) (hnext : s.rw.readers + 1 ≠ 1) :
    RwStep id s t
      (({ s with rw := { s.rw with readers := s.rw.readers + 1 } }.addRead t).setPc t .idle)
  | readWait (hpc : s.pc t = .readWait) (hok : (semWaitRound s.rw.writeSem (id t)).1 = true) :
    RwStep id s t
      (({ s with rw := { s.rw with
            locked := false
            writeSem := (semWaitRound s.rw.writeSem (id t)).2 } }.addRead t).setPc t .idle)
  | readAgain (hpc : s.pc t = .readWait) (hno : (semWaitRound s.rw.writeSem (id t)).1 = false) :
    RwStep id s t { s with rw := { s.rw with writeSem := (semWaitRound s.rw.writeSem (id t)).2 } }
  | readUnlock (hpc : s.pc t = .idle) (hin : 0 < s.reads t) : RwStep id s t (s.setPc t .readUnlock)
  /-- `readers--` of the last reader, which goes on to `sem_post`. -/
  | readLast (hpc : s.pc t = .readUnlock) (hfree : s.rw.locked = false)
    (hlast : s.rw.readers - 1 = 0) :
    RwStep id s t
      ({ s with
          rw := { s.rw with locked := true, readers := s.rw.readers - 1 }
          reads := Function.update s.reads t (s.reads t - 1) }.setPc t .readPost)
  | readLeave (hpc : s.pc t = .readUnlock) (hfree : s.rw.locked = false)
    (hmore : s.rw.readers - 1 ≠ 0) :
    RwStep id s t
      ({ s with
          rw := { s.rw with readers := s.rw.readers - 1 }
          reads := Function.update s.reads t (s.reads t - 1) }.setPc t .idle)
  | readPost (hpc : s.pc t = .readPost) :
    RwStep id s t
      ({ s with rw := { s.rw with locked := false, writeSem := semPost s.rw.writeSem } }.setPc t
        .idle)
  | writeLock (hpc : s.pc t = .idle) : RwStep id s t (s.setPc t .writeLock)
  | writeWait (hpc : s.pc t = .writeLock) (hok : (semWaitRound s.rw.writeSem (id t)).1 = true) :
    RwStep id s t
      (({ s with rw := { s.rw with
            writeSem := (semWaitRound s.rw.writeSem (id t)).2 } }.addWrite t).setPc t .idle)
  | writeAgain (hpc : s.pc t = .writeLock) (hno : (semWaitRound s.rw.writeSem (id t)).1 = false) :
    RwStep id s t { s with rw := { s.rw with writeSem := (semWaitRound s.rw.writeSem (id t)).2 } }
  | writeUnlock (hpc : s.pc t = .idle) (hin : 0 < s.writes t) :
    RwStep id s t
      { s with
        rw := { s.rw with writeSem := semPost s.rw.writeSem }
        writes := Function.update s.writes t (s.writes t - 1) }

def RwReachable (id : ι → Nat) (s : RwState ι) : Prop :=
  Relation.ReflTransGen (fun s s' => ∃ t, RwStep id s t s') rwInitial s

variable [Fintype ι]

/-- The readers that have counted themselves in `rwlock_read_lock` and not out again. -/
def RwState.entered (s : RwState ι) : Nat :=
  ∑ t, (s.reads t + if s.pc t = .readWait then 1 else 0)

structure RwExclusive (s : RwState ι) : Prop where
  writer : ∀ t t', 0 < s.writes t → s.reads t' = 0 ∧ (0 < s.writes t' → t' = t ∧ s.writes t = 1)
  readers : s.rw.readers = s.entered
  value : s.rw.writeSem.value = 0 ∨ s.rw.writeSem.value = 1

variable {id : ι → Nat} {s s' : RwState ι} {t u : ι} {n : Nat}

/-! Counting. -/

theorem sum_update (f : ι → Nat) (t : ι) (n : Nat) :
    (∑ u, Function.update f t n u) + f t = (∑ u, f u) + n := by
  have hrest := Finset.sum_update_of_mem (Finset.mem_univ t) f n
  have hsplit := Finset.add_sum_erase Finset.univ f (Finset.mem_univ t)
  rw [Finset.sdiff_singleton_eq_erase] at hrest
  omega

omit [DecidableEq ι] in
theorem le_sum (f : ι → Nat) (t : ι) : f t ≤ ∑ u, f u :=
  Finset.single_le_sum (fun u _ => Nat.zero_le (f u)) (Finset.mem_univ t)

/-! The invariant. -/

/-- Readers and writers together use up the write semaphore, whatever the holder is at. -/
structure RwInv (s : RwState ι) (h : RwHolder ι) : Prop where
  fits : ∀ t, h.Fits t (s.pc t)
  locked : s.rw.locked = false ↔ h = .free
  unlocking : ∀ t, s.pc t = .readUnlock → 0 < s.reads t
  readers : s.rw.readers = (∑ t, s.reads t) + h.waits
  value : 0 ≤ s.rw.writeSem.value
  spent : s.rw.writeSem.value + (∑ t, s.writes t) + min 1 ((∑ t, s.reads t) + h.posts) = 1
  alone : h ≠ .free → ∑ t, s.reads t = 0

omit [DecidableEq ι] in
theorem rwInv_initial : RwInv (rwInitial : RwState ι) .free where
  fits := fun _ => fits_free (fun hpc => (nomatch hpc)) (fun hpc => (nomatch hpc))
  locked := ⟨fun _ => rfl, fun _ => rfl⟩
  unlocking := fun _ hpc => (nomatch hpc)
  readers := by simp [rwInitial, rwlockInit, RwHolder.waits]
  value := Int.one_nonneg
  spent := by simp [rwInitial, rwlockInit, semInit, RwHolder.posts]
  alone := fun hne => absurd rfl hne

/-- A task moves between places without the spinlock. -/
theorem RwInv.move {h : RwHolder ι} {p : RwPc} (hs : RwInv s h) (hfrom : h.Fits t p)
    (hp : p = .readUnlock → 0 < s.reads t) : RwInv (s.setPc t p) h :=
  ⟨fits_update (fun u _ => hs.fits u) hfrom, hs.locked,
    unlocking_update (fun u _ hu => hs.unlocking u hu) hp, hs.readers, hs.value, hs.spent, hs.alone⟩

omit [DecidableEq ι] in
/-- Another round of a semaphore that is used up. -/
theorem RwInv.retry {h : RwHolder ι} {sem : Semaphore} (hs : RwInv s h)
    (hval : sem.value = s.rw.writeSem.value) :
    RwInv { s with rw := { s.rw with writeSem := sem } } h := by
  refine ⟨hs.fits, hs.locked, hs.unlocking, hs.readers, ?_, ?_, hs.alone⟩
  · exact hval.symm ▸ hs.value
  · have hspent := hs.spent
    rw [← hval] at hspent
    exact hspent

/-- `t` takes the free spinlock along to `p`, and nobody is in for reading. -/
theorem RwInv.taken {h : RwHolder ι} {p : RwPc} {rw : RwLock} {reads : ι → Nat}
    (hs : RwInv s .free) (hh : h = .wait t ∨ h = .post t) (hp : h.Fits t p)
    (hunlock : p ≠ .readUnlock) (hkeep : ∀ u, u ≠ t → reads u = s.reads u)
    (hlocked : rw.locked = true) (hreaders : rw.readers = h.waits)
    (hsem : rw.writeSem = s.rw.writeSem) (hnone : ∑ u, reads u = 0)
    (hposts : h.posts = min 1 (∑ u, s.reads u)) :
    RwInv ({ s with rw := rw, reads := reads }.setPc t p) h := by
  have hheld : h ≠ .free := by
    rintro rfl
    rcases hh with heq | heq
    · cases heq
    · cases heq
  constructor
  case fits => exact fits_update (fun u hne => fits_taken (hs.fits u) hne hh) hp
  case locked => exact iff_of_false (Bool.eq_false_iff.not_left.mpr hlocked) hheld
  case unlocking =>
    refine unlocking_update (fun u hne hu => ?_) fun heq => absurd heq hunlock
    have hin := hs.unlocking u hu
    rwa [← hkeep u hne] at hin
  case readers =>
    show rw.readers = ((∑ u, reads u : Nat) : Int) + h.waits
    rw [hnone, hreaders]
    exact (Int.zero_add _).symm
  case value => exact hsem ▸ hs.value
  case spent =>
    have hspent := hs.spent
    simp only [RwHolder.posts] at hspent
    simp only [RwState.setPc, hsem]
    omega
  case alone => exact fun _ => hnone

/-- `t` is back from its place, and the spinlock is free. -/
theorem RwInv.given {h : RwHolder ι} {rw : RwLock} {reads : ι → Nat}
    (hs : RwInv s h) (hh : h = .free ∨ h = .wait t ∨ h = .post t)
    (hkeep : ∀ u, u ≠ t → reads u = s.reads u) (hlocked : rw.locked = false)
    (hreaders : rw.readers = (∑ u, reads u : Nat)) (hvalue : 0 ≤ rw.writeSem.value)
    (hspent : rw.writeSem.value + (∑ u, s.writes u) + min 1 (∑ u, reads u : Nat) = 1) :
    RwInv ({ s with rw := rw, reads := reads }.setPc t .idle) .free := by
  constructor
  case fits =>
    refine fits_update (fun u hne => ?_) (fits_free (by decide) (by decide))
    rcases hh with rfl | hh
    · exact hs.fits u
    · exact fits_given (hs.fits u) hne hh
  case locked => exact iff_of_true hlocked rfl
  case unlocking =>
    refine unlocking_update (fun u hne hu => ?_) fun heq => (nomatch heq)
    have hin := hs.unlocking u hu
    rwa [← hkeep u hne] at hin
  case readers => exact hreaders.trans (Int.add_zero _).symm
  case value => exact hvalue
  case spent => exact hspent
  case alone => exact fun hne => absurd rfl hne

/-- One step keeps the invariant, and may hand the spinlock on. -/
theorem RwInv.step {h : RwHolder ι} (hs : RwInv s h) (hstep : RwStep id s t s') :
    ∃ h', RwInv s' h' := by
  have hcopy := hs
  obtain ⟨hfits, hlocked, hunlocking, hreaders, hvalue, hspent, halone⟩ := hcopy
  have hfit := hfits t
  have hreads := sum_update s.reads t
  have hwrites := sum_update s.writes t
  have hkeep : ∀ {n} u, u ≠ t → Function.update s.reads t n u = s.reads u :=
    fun u hne => Function.update_of_ne hne _ _
  cases hstep with
  | readLock hpc =>
    rw [hpc] at hfit
    exact ⟨h, hs.move (hfit.move (by decide) (by decide) (by decide) (by decide)) fun hp => (nomatch hp)⟩
  | writeLock hpc =>
    rw [hpc] at hfit
    exact ⟨h, hs.move (hfit.move (by decide) (by decide) (by decide) (by decide)) fun hp => (nomatch hp)⟩
  | readUnlock hpc hin =>
    rw [hpc] at hfit
    exact ⟨h, hs.move (hfit.move (by decide) (by decide) (by decide) (by decide)) fun _ => hin⟩
  | readFirst hpc hfree hrange hfirst =>
    obtain rfl := hlocked.mp hfree
    have hnone : ∑ u, s.reads u = 0 := by
      simp only [RwHolder.waits] at hreaders
      omega
    refine ⟨.wait t, hs.taken (Or.inl rfl) ⟨iff_of_true rfl rfl, ?_⟩ (by decide)
      (fun u _ => rfl) rfl hfirst rfl hnone (hnone ▸ rfl)⟩
    exact ⟨fun hp => (nomatch hp), fun hp => (nomatch hp)⟩
  | readNext hpc hfree hrange hnext =>
    obtain rfl := hlocked.mp hfree
    have hsum := hreads (s.reads t + 1)
    simp only [RwHolder.waits, RwHolder.posts] at hreaders hspent
    refine ⟨.free, hs.given (Or.inl rfl) hkeep hfree ?_ hvalue ?_⟩
    · dsimp only
      omega
    · dsimp only
      omega
  | readWait hpc hok =>
    obtain ⟨hpos, hval⟩ := semWaitRound_ok hok
    obtain rfl := hfit.1.mp hpc
    have hzero := halone fun hne => (nomatch hne)
    have hsum := hreads (s.reads t + 1)
    simp only [RwHolder.waits, RwHolder.posts] at hreaders hspent
    refine ⟨.free, hs.given (Or.inr (Or.inl rfl)) hkeep rfl ?_ ?_ ?_⟩
    · dsimp only
      omega
    · dsimp only
      omega
    · dsimp only
      omega
  | readAgain hpc hno => exact ⟨h, hs.retry (semWaitRound_no hno)⟩
  | readLast hpc hfree hlast =>
    obtain rfl := hlocked.mp hfree
    have hin := hunlocking t hpc
    have hsum := hreads (s.reads t - 1)
    have hle := le_sum s.reads t
    simp only [RwHolder.waits] at hreaders
    refine ⟨.post t, hs.taken (Or.inr rfl) ⟨?_, iff_of_true rfl rfl⟩ (by decide)
      hkeep rfl hlast rfl ?_ ?_⟩
    · exact ⟨fun hp => (nomatch hp), fun hp => (nomatch hp)⟩
    · omega
    · show 1 = _
      omega
  | readLeave hpc hfree hmore =>
    obtain rfl := hlocked.mp hfree
    have hin := hunlocking t hpc
    have hsum := hreads (s.reads t - 1)
    have hle := le_sum s.reads t
    simp only [RwHolder.waits, RwHolder.posts] at hreaders hspent
    refine ⟨.free, hs.given (Or.inl rfl) hkeep hfree ?_ hvalue ?_⟩
    · dsimp only
      omega
    · dsimp only
      omega
  | readPost hpc =>
    obtain rfl := hfit.2.mp hpc
    have hzero := halone fun hne => (nomatch hne)
    simp only [RwHolder.waits, RwHolder.posts] at hreaders hspent
    refine ⟨.free, hs.given (Or.inr (Or.inr rfl)) (fun u _ => rfl) rfl hreaders ?_ ?_⟩
    · exact Int.add_nonneg hvalue Int.one_nonneg
    · show s.rw.writeSem.value + 1 + _ + _ = 1
      omega
  | writeWait hpc hok =>
    obtain ⟨hpos, hval⟩ := semWaitRound_ok hok
    have hsum := hwrites (s.writes t + 1)
    rw [hpc] at hfit
    have hmoved : h.Fits t .idle := hfit.move (by decide) (by decide) (by decide) (by decide)
    refine ⟨h, fits_update (fun u _ => hfits u) hmoved, hlocked,
      unlocking_update (fun u _ hu => hunlocking u hu) fun hp => (nomatch hp), hreaders, ?_, ?_, halone⟩
    all_goals
      simp only [RwState.setPc, RwState.addWrite, hval] at hspent ⊢
      omega
  | writeAgain hpc hno => exact ⟨h, hs.retry (semWaitRound_no hno)⟩
  | writeUnlock hpc hin =>
    have hsum := hwrites (s.writes t - 1)
    refine ⟨h, hfits, hlocked, hunlocking, hreaders, ?_, ?_, halone⟩
    all_goals
      simp only [semPost] at hspent ⊢
      omega

theorem RwInv.exclusive {h : RwHolder ι} (hs : RwInv s h) : RwExclusive s := by
  obtain ⟨hfits, -, -, hreaders, hvalue, hspent, -⟩ := hs
  refine ⟨fun t t' hin => ?_, ?_, by omega⟩
  · have hone := le_sum s.writes t
    have hread := le_sum s.reads t'
    refine ⟨by omega, fun hin' => ?_⟩
    by_cases hne : t' = t
    · subst hne
      exact ⟨rfl, by omega⟩
    · -- two writers would use the semaphore up twice
      have htwo := sum_update s.writes t 0
      have hother := le_sum (Function.update s.writes t 0) t'
      rw [Function.update_of_ne hne] at hother
      omega
  · have hwaits : (∑ t, if s.pc t = .readWait then 1 else 0) = h.waits := by
      cases h with
      | free =>
        refine Finset.sum_eq_zero fun u _ => if_neg fun hu => ?_
        cases (hfits u).1.mp hu
      | post t =>
        refine Finset.sum_eq_zero fun u _ => if_neg fun hu => ?_
        cases (hfits u).1.mp hu
      | wait t =>
        rw [Finset.sum_eq_single t]
        · exact if_pos ((hfits t).1.mpr rfl)
        · intro u _ hne
          refine if_neg fun hu => hne ?_
          exact (RwHolder.wait.inj ((hfits u).1.mp hu)).symm
        · exact fun hmem => absurd (Finset.mem_univ t) hmem
    unfold RwState.entered
    rw [Finset.sum_add_distrib, hwaits, hreaders]
    rfl

end PinguinOS.Sync
