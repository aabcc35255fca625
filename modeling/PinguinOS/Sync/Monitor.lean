import PinguinOS.Sync.Mutex

/-! Data behind a mutex: tasks in calls that work on it, and wait in `condvar_wait`. -/
namespace PinguinOS.Sync

/-- What a task does next with the data it has locked: `condvar_wait` and the same again, go on at
`k`, or unlock and return. -/
inductive Section (δ κ : Type*)
  | wait
  | again (k : κ) (d : δ)
  | leave (d : δ)

/-- Where a task is: in no call, in `mutex_lock`, with the mutex, in `condvar_wait` before its
`mutex_unlock`, or before the last `mutex_unlock`. -/
inductive CallPc (κ : Type*)
  | idle
  | locking (k : κ)
  | inside (k : κ)
  | waiting (k : κ)
  | leaving

structure Monitor (δ κ : Type*) where
  mutex : Mutex
  data : δ
  pc : Nat → CallPc κ

variable {δ κ : Type*}

def Monitor.start (d : δ) : Monitor δ κ where
  mutex := mutexInit
  data := d
  pc := fun _ => .idle

def Monitor.setPc (s : Monitor δ κ) (t : Nat) (pc : CallPc κ) : Monitor δ κ :=
  { s with pc := Function.update s.pc t pc }

/-- The steps of task `t`, when calls start at `entry` and run `body`. Between its locking and its
unlocking no other task works on the data, and so each round of `body` is one step. -/
inductive MonitorStep (entry : Nat → κ → Prop) (body : Nat → κ → δ → Section δ κ)
    (s : Monitor δ κ) (t : Nat) : Monitor δ κ → Prop
  | call (hpc : s.pc t = .idle) (k : κ) (hentry : entry t k) :
    MonitorStep entry body s t (s.setPc t (.locking k))
  | lockRound (k : κ) (hpc : s.pc t = .locking k) (hok : (mutexLockRound s.mutex t).1 = true) :
    MonitorStep entry body s t
      ({ s with mutex := (mutexLockRound s.mutex t).2 }.setPc t (.inside k))
  | lockAgain (k : κ) (hpc : s.pc t = .locking k) (hno : (mutexLockRound s.mutex t).1 = false) :
    MonitorStep entry body s t { s with mutex := (mutexLockRound s.mutex t).2 }
  | wait (k : κ) (hpc : s.pc t = .inside k) (hbody : body t k s.data = .wait) :
    MonitorStep entry body s t (s.setPc t (.waiting k))
  | again (k : κ) (hpc : s.pc t = .inside k) (k' : κ) (d : δ)
    (hbody : body t k s.data = .again k' d) :
    MonitorStep entry body s t ({ s with data := d }.setPc t (.inside k'))
  | leave (k : κ) (hpc : s.pc t = .inside k) (d : δ) (hbody : body t k s.data = .leave d) :
    MonitorStep entry body s t ({ s with data := d }.setPc t .leaving)
  | waitUnlock (k : κ) (hpc : s.pc t = .waiting k) :
    MonitorStep entry body s t ({ s with mutex := mutexUnlock s.mutex }.setPc t (.locking k))
  | unlock (hpc : s.pc t = .leaving) :
    MonitorStep entry body s t ({ s with mutex := mutexUnlock s.mutex }.setPc t .idle)

/-- Some task with a nonzero id takes a step. -/
def MonitorNext (entry : Nat → κ → Prop) (body : Nat → κ → δ → Section δ κ)
    (s s' : Monitor δ κ) : Prop := ∃ t, t ≠ 0 ∧ MonitorStep entry body s t s'

def MonitorReachable (entry : Nat → κ → Prop) (body : Nat → κ → δ → Section δ κ) (d : δ)
    (s : Monitor δ κ) : Prop := Relation.ReflTransGen (MonitorNext entry body) (.start d) s

variable {entry : Nat → κ → Prop} {body : Nat → κ → δ → Section δ κ} {s s' : Monitor δ κ}
  {t u : Nat} {d d' : δ} {k : κ}

/-- The step that a task in a call can take, which is the only one. -/
def Monitor.next (s : Monitor δ κ) (body : Nat → κ → δ → Section δ κ) (t : Nat) :
    Option (Monitor δ κ) :=
  match s.pc t with
  | .idle => none
  | .locking k =>
    let (ok, mutex) := mutexLockRound s.mutex t
    if ok then some ({ s with mutex := mutex }.setPc t (.inside k))
    else some { s with mutex := mutex }
  | .inside k =>
    match body t k s.data with
    | .wait => some (s.setPc t (.waiting k))
    | .again k' d => some ({ s with data := d }.setPc t (.inside k'))
    | .leave d => some ({ s with data := d }.setPc t .leaving)
  | .waiting k => some ({ s with mutex := mutexUnlock s.mutex }.setPc t (.locking k))
  | .leaving => some ({ s with mutex := mutexUnlock s.mutex }.setPc t .idle)

theorem monitorStep_of_next (h : s.next body t = some s') : MonitorStep entry body s t s' := by
  unfold Monitor.next at h
  cases hpc : s.pc t with
  | idle =>
    rw [hpc] at h
    cases h
  | locking k =>
    rw [hpc] at h
    dsimp only at h
    split at h
    case isTrue hok =>
      cases h
      exact .lockRound k hpc hok
    case isFalse hno =>
      cases h
      exact .lockAgain k hpc (Bool.eq_false_of_not_eq_true hno)
  | inside k =>
    rw [hpc] at h
    dsimp only at h
    split at h
    case h_1 hbody =>
      cases h
      exact .wait k hpc hbody
    case h_2 k' d hbody =>
      cases h
      exact .again k hpc k' d hbody
    case h_3 d hbody =>
      cases h
      exact .leave k hpc d hbody
  | waiting k =>
    rw [hpc] at h
    cases h
    exact .waitUnlock k hpc
  | leaving =>
    rw [hpc] at h
    cases h
    exact .unlock hpc

/-- A call that no other one meets does its round and returns. -/
theorem call_alone (ht : t ≠ 0) (hentry : entry t k) (hbody : body t k d = .leave d') :
    Relation.ReflTransGen (MonitorNext entry body) (.start d) (.start d') := by
  have hok : (mutexLockRound mutexInit t).1 = true ∧
      mutexUnlock (mutexLockRound mutexInit t).2 = mutexInit := by
    unfold mutexLockRound
    rw [if_neg fun heq : mutexInit.ownerTid = t => ht heq.symm]
    exact ⟨rfl, rfl⟩
  let called : Monitor δ κ := (Monitor.start d).setPc t (.locking k)
  let locked := { called with mutex := (mutexLockRound mutexInit t).2 }.setPc t (.inside k)
  let left := { locked with data := d' }.setPc t .leaving
  have hcall : MonitorStep entry body (.start d) t called := .call rfl k hentry
  have hround : MonitorStep entry body called t locked :=
    .lockRound k (Function.update_self _ _ _) hok.1
  have hleave : MonitorStep entry body locked t left :=
    .leave k (Function.update_self _ _ _) d' hbody
  have hunlock : MonitorStep entry body left t _ := .unlock (Function.update_self _ _ _)
  have hend : { left with mutex := mutexUnlock left.mutex }.setPc t .idle = .start d' := by
    simp only [left, locked, called, Monitor.setPc, Monitor.start, hok.2, Function.update_idem,
      Function.update_eq_self t (fun _ : Nat => (CallPc.idle : CallPc κ))]
  rw [hend] at hunlock
  exact .tail (.tail (.tail (.single ⟨t, ht, hcall⟩) ⟨t, ht, hround⟩) ⟨t, ht, hleave⟩)
    ⟨t, ht, hunlock⟩

/-! The mutex excludes. -/

/-- How often a task at this place has the mutex. -/
def CallPc.holds : CallPc κ → Nat
  | .idle => 0
  | .locking _ => 0
  | .inside _ => 1
  | .waiting _ => 1
  | .leaving => 1

/-- Some task has the mutex, or none has, as the places of the tasks say. -/
def Monitor.Owned (s : Monitor δ κ) : Prop := ∃ t, Holder s.mutex (CallPc.holds ∘ s.pc) t

theorem owned_start : (Monitor.start d : Monitor δ κ).Owned :=
  ⟨1, by decide, heldBy_mutexInit, fun _ _ => rfl⟩

theorem owned_step (h : s.Owned) (ht : t ≠ 0) (hstep : MonitorStep entry body s t s') : s'.Owned := by
  -- a step that takes or gives back nothing
  have hkeep : ∀ (d : δ) (p : CallPc κ), p.holds = (s.pc t).holds →
      ({ s with data := d }.setPc t p : Monitor δ κ).Owned := by
    intro d p hp
    obtain ⟨v, hv⟩ := h
    refine ⟨v, ?_⟩
    unfold Monitor.setPc
    rw [Function.comp_update, hp]
    have hsame : Function.update (CallPc.holds ∘ s.pc) t (s.pc t).holds = CallPc.holds ∘ s.pc :=
      Function.update_eq_self t _
    rw [hsame]
    exact hv
  have hunlock : ∀ p : CallPc κ, p.holds = 0 → (s.pc t).holds = 1 →
      ({ s with mutex := mutexUnlock s.mutex }.setPc t p : Monitor δ κ).Owned := by
    intro p hp hone
    have hheld : 0 < (CallPc.holds ∘ s.pc) t := by
      simp only [Function.comp_apply, hone]
      decide
    have hholder := holder_of_held h hheld
    have hnow := hholder.heldBy.unlock hheld
    refine ⟨t, ?_⟩
    unfold Monitor.setPc
    rw [Function.comp_update]
    refine hholder.update ?_
    simp only [Function.comp_apply, hone] at hnow
    rw [hp]
    exact hnow
  cases hstep with
  | call hpc k _ => exact hkeep s.data _ (by rw [hpc]; rfl)
  | wait k hpc _ => exact hkeep s.data _ (by rw [hpc]; rfl)
  | again k hpc k' d _ => exact hkeep d _ (by rw [hpc]; rfl)
  | leave k hpc d _ => exact hkeep d _ (by rw [hpc]; rfl)
  | waitUnlock k hpc => exact hunlock _ rfl (by rw [hpc]; rfl)
  | unlock hpc => exact hunlock _ rfl (by rw [hpc]; rfl)
  | lockRound k hpc hok =>
    rcases holder_cases h ht with hholder | ⟨v, hne, hpos, hholder⟩
    · have hzero : (CallPc.holds ∘ s.pc) t = 0 := by
        simp only [Function.comp_apply, hpc]
        rfl
      have hfree := hholder.heldBy
      rw [hzero] at hfree
      refine ⟨t, ?_⟩
      unfold Monitor.setPc
      rw [Function.comp_update]
      exact hholder.update (hfree.lockRound ht (by decide)).2
    · have hno := (hholder.heldBy.lockRound_other hholder.nonzero hpos hne).1
      rw [hok] at hno
      cases hno
  | lockAgain k hpc hno =>
    rcases holder_cases h ht with hholder | ⟨v, hne, hpos, hholder⟩
    · have hzero : (CallPc.holds ∘ s.pc) t = 0 := by
        simp only [Function.comp_apply, hpc]
        rfl
      have hfree := hholder.heldBy
      rw [hzero] at hfree
      have hok := (hfree.lockRound ht (by decide)).1
      rw [hno] at hok
      cases hok
    · exact ⟨v, hholder.nonzero, (hholder.heldBy.lockRound_other hholder.nonzero hpos hne).2,
        hholder.others⟩

theorem owned_of_reachable (h : MonitorReachable entry body d s) : s.Owned := by
  induction h with
  | refl => exact owned_start
  | tail _ hnext ih =>
    obtain ⟨v, hv, hstep⟩ := hnext
    exact owned_step ih hv hstep

/-- No two tasks have the mutex. -/
theorem monitor_exclusive (h : MonitorReachable entry body d s) (ht : (s.pc t).holds = 1)
    (hu : (s.pc u).holds = 1) : t = u := by
  obtain ⟨v, hholder⟩ := owned_of_reachable h
  have hmine : ∀ w, (s.pc w).holds = 1 → w = v := by
    intro w hw
    by_contra hne
    have hzero : (s.pc w).holds = 0 := hholder.others w hne
    omega
  exact (hmine t ht).trans (hmine u hu).symm

/-! The proof rule: what one round keeps, every run keeps. -/

/-- Rounds that start with `C` keep `J` of the data, `L` of each task in a call, and `R` of each
task between calls. -/
structure Rule (entry : Nat → κ → Prop) (body : Nat → κ → δ → Section δ κ) (C : κ → δ → Prop)
    (J : δ → Prop) (L : Nat → κ → δ → Prop) (R : Nat → δ → Prop) : Prop where
  call : ∀ t k d, entry t k → R t d → L t k d
  again : ∀ t k k' d d', C k d → J d → L t k d → body t k d = .again k' d' →
    J d' ∧ L t k' d' ∧ ∀ u, u ≠ t → (∀ j, L u j d → L u j d') ∧ (R u d → R u d')
  leave : ∀ t k d d', C k d → J d → L t k d → body t k d = .leave d' →
    J d' ∧ R t d' ∧ ∀ u, u ≠ t → (∀ j, L u j d → L u j d') ∧ (R u d → R u d')

/-- If the task starts a round, it starts it with `C`. -/
def Monitor.Starts (C : κ → δ → Prop) (s : Monitor δ κ) (t : Nat) : Prop :=
  ∀ k, s.pc t = .inside k → C k s.data

/-- What holds of a task at its place. -/
def CallPc.Meets (L : Nat → κ → δ → Prop) (R : Nat → δ → Prop) (t : Nat) (d : δ) :
    CallPc κ → Prop
  | .idle => R t d
  | .locking k => L t k d
  | .inside k => L t k d
  | .waiting k => L t k d
  | .leaving => R t d

variable {C : κ → δ → Prop} {J : δ → Prop} {L : Nat → κ → δ → Prop} {R : Nat → δ → Prop}

/-- The data, and every task at its place, as the rule wants them. -/
def Monitor.Meets (J : δ → Prop) (L : Nat → κ → δ → Prop) (R : Nat → δ → Prop)
    (s : Monitor δ κ) : Prop := J s.data ∧ ∀ t, (s.pc t).Meets L R t s.data

theorem CallPc.Meets.stable {p : CallPc κ} (h : p.Meets L R u d)
    (hu : (∀ j, L u j d → L u j d') ∧ (R u d → R u d')) : p.Meets L R u d' := by
  cases p with
  | idle => exact hu.2 h
  | locking k => exact hu.1 k h
  | inside k => exact hu.1 k h
  | waiting k => exact hu.1 k h
  | leaving => exact hu.2 h

theorem meets_update {pc : Nat → CallPc κ} {p : CallPc κ} (ht : p.Meets L R t d')
    (hothers : ∀ u, u ≠ t → (pc u).Meets L R u d') :
    ∀ u, (Function.update pc t p u).Meets L R u d' := by
  intro u
  by_cases hu : u = t
  · subst hu
    rwa [Function.update_self]
  · rw [Function.update_of_ne hu]
    exact hothers u hu

theorem meets_step (hrule : Rule entry body C J L R) (h : s.Meets J L R)
    (hstep : MonitorStep entry body s t s') (hstarts : s.Starts C t) : s'.Meets J L R := by
  obtain ⟨hdata, hpcs⟩ := h
  have hmine := hpcs t
  have hothers : ∀ u, u ≠ t → (s.pc u).Meets L R u s.data := fun u _ => hpcs u
  cases hstep with
  | call hpc k hentry =>
    rw [hpc] at hmine
    exact ⟨hdata, meets_update (hrule.call t k s.data hentry hmine) hothers⟩
  | lockRound k hpc hok =>
    rw [hpc] at hmine
    exact ⟨hdata, meets_update hmine hothers⟩
  | lockAgain k hpc hno => exact ⟨hdata, hpcs⟩
  | wait k hpc hbody =>
    rw [hpc] at hmine
    exact ⟨hdata, meets_update hmine hothers⟩
  | again k hpc k' d hbody =>
    rw [hpc] at hmine
    obtain ⟨hj, hl, hrest⟩ := hrule.again t k k' s.data d (hstarts k hpc) hdata hmine hbody
    exact ⟨hj, meets_update hl fun u hu => (hpcs u).stable (hrest u hu)⟩
  | leave k hpc d hbody =>
    rw [hpc] at hmine
    obtain ⟨hj, hr, hrest⟩ := hrule.leave t k s.data d (hstarts k hpc) hdata hmine hbody
    exact ⟨hj, meets_update hr fun u hu => (hpcs u).stable (hrest u hu)⟩
  | waitUnlock k hpc =>
    rw [hpc] at hmine
    exact ⟨hdata, meets_update hmine hothers⟩
  | unlock hpc =>
    rw [hpc] at hmine
    exact ⟨hdata, meets_update hmine hothers⟩

/-- A run whose rounds start with `C`. -/
def MonitorReachableUnder (entry : Nat → κ → Prop) (body : Nat → κ → δ → Section δ κ)
    (C : κ → δ → Prop) (d : δ) (s : Monitor δ κ) : Prop :=
  Relation.ReflTransGen (fun s s' => ∃ t, t ≠ 0 ∧ MonitorStep entry body s t s' ∧ s.Starts C t)
    (.start d) s

theorem monitor_meets_under (hrule : Rule entry body C J L R) (hdata : J d) (hidle : ∀ t, R t d)
    (h : MonitorReachableUnder entry body C d s) : s.Meets J L R := by
  induction h with
  | refl => exact ⟨hdata, hidle⟩
  | tail _ hnext ih =>
    obtain ⟨t, -, hstep, hstarts⟩ := hnext
    exact meets_step hrule ih hstep hstarts

theorem monitor_meets (hrule : Rule entry body (fun _ _ => True) J L R) (hdata : J d)
    (hidle : ∀ t, R t d) (h : MonitorReachable entry body d s) : s.Meets J L R := by
  apply monitor_meets_under hrule hdata hidle
  refine Relation.ReflTransGen.mono ?_ _ _ h
  rintro s s' ⟨t, ht, hstep⟩
  exact ⟨t, ht, hstep, fun _ _ => trivial⟩

end PinguinOS.Sync
