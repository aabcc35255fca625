import Mathlib.Data.List.Basic

/-! Runs of a partial step function, and the two inductions every safety result goes through. -/
namespace Run

variable {σ α : Type*} {step : σ → α → Option σ}

/-- The state after a list of actions, when every action is possible. -/
def run (step : σ → α → Option σ) (s : σ) (actions : List α) : Option σ :=
  actions.foldlM step s

/-- `P` holds in the first state of a run and in every state it reaches. -/
def EveryState (step : σ → α → Option σ) (P : σ → Prop) : σ → List α → Prop
  | s, [] => P s
  | s, a :: actions => P s ∧ ∀ t, step s a = some t → EveryState step P t actions

/-- `Q` holds of every step a run takes: the state before, the action, the state after. -/
def EveryStep (step : σ → α → Option σ) (Q : σ → α → σ → Prop) : σ → List α → Prop
  | _, [] => True
  | s, a :: actions => ∀ t, step s a = some t → Q s a t ∧ EveryStep step Q t actions

variable {s t : σ} {a : α} {actions : List α} {P I : σ → Prop} {Q R : σ → α → σ → Prop}

@[simp] theorem run_nil : run step s [] = some s := rfl

@[simp] theorem run_cons :
    run step s (a :: actions) = (step s a).bind fun t => run step t actions := rfl

theorem run_append {later : List α} :
    run step s (actions ++ later) = (run step s actions).bind fun t => run step t later :=
  List.foldlM_append

theorem EveryState.first (h : EveryState step P s actions) : P s := by
  cases actions with
  | nil => exact h
  | cons a actions => exact h.1

theorem EveryState.last (h : EveryState step P s actions) (ht : run step s actions = some t) :
    P t := by
  induction actions generalizing s with
  | nil =>
    cases ht
    exact h
  | cons a actions ih =>
    obtain ⟨u, hu, hrest⟩ := Option.bind_eq_some_iff.mp (run_cons ▸ ht)
    exact ih (h.2 u hu) hrest

/-- Two properties that agree while `I` holds. -/
theorem EveryState.congr (h : EveryState step I s actions) {J : σ → Prop}
    (hiff : ∀ s, I s → (P s ↔ J s)) :
    EveryState step P s actions ↔ EveryState step J s actions := by
  induction actions generalizing s with
  | nil => exact hiff s h
  | cons a actions ih =>
    refine and_congr (hiff s h.1) ?_
    refine forall_congr' fun t => forall_congr' fun ht => ?_
    exact ih (h.2 t ht)

/-- A condition on the actions alone is a condition on the steps. -/
theorem everyStep_of_forall {A : α → Prop} (h : ∀ a ∈ actions, A a) :
    EveryStep step (fun _ a _ => A a) s actions := by
  induction actions generalizing s with
  | nil => trivial
  | cons a actions ih =>
    intro t _
    refine ⟨h a (by simp), ih ?_⟩
    intro b hb
    exact h b (List.mem_cons_of_mem a hb)

theorem everyStep_append {later : List α} : EveryStep step Q s (actions ++ later) ↔
    EveryStep step Q s actions ∧ ∀ t, run step s actions = some t → EveryStep step Q t later := by
  induction actions generalizing s with
  | nil => simp [EveryStep]
  | cons a actions ih =>
    constructor
    · intro h
      refine ⟨fun t ht => ⟨(h t ht).1, (ih.mp (h t ht).2).1⟩, fun u hu => ?_⟩
      obtain ⟨t, ht, hrest⟩ := Option.bind_eq_some_iff.mp (run_cons ▸ hu)
      exact (ih.mp (h t ht).2).2 u hrest
    · rintro ⟨h, hlater⟩ t ht
      refine ⟨(h t ht).1, ih.mpr ⟨(h t ht).2, fun u hu => hlater u ?_⟩⟩
      exact run_cons ▸ Option.bind_eq_some_iff.mpr ⟨t, ht, hu⟩

theorem EveryStep.and (hq : EveryStep step Q s actions) (hr : EveryStep step R s actions) :
    EveryStep step (fun s a t => Q s a t ∧ R s a t) s actions := by
  induction actions generalizing s with
  | nil => trivial
  | cons a actions ih =>
    intro t ht
    exact ⟨⟨(hq t ht).1, (hr t ht).1⟩, ih (hq t ht).2 (hr t ht).2⟩

/-- A run that meets a step condition keeps every invariant the condition preserves. -/
theorem EveryStep.everyState (hI : ∀ s a t, I s → step s a = some t → Q s a t → I t)
    (hP : ∀ s, I s → P s) (hs : I s) (h : EveryStep step Q s actions) :
    EveryState step P s actions := by
  induction actions generalizing s with
  | nil => exact hP s hs
  | cons a actions ih =>
    refine ⟨hP s hs, ?_⟩
    intro t ht
    obtain ⟨hq, hrest⟩ := h t ht
    exact ih (hI s a t hs ht hq) hrest

/-- The same for a property of the steps themselves. -/
theorem EveryStep.mono (hI : ∀ s a t, I s → step s a = some t → Q s a t → I t ∧ R s a t)
    (hs : I s) (h : EveryStep step Q s actions) : EveryStep step R s actions := by
  induction actions generalizing s with
  | nil => trivial
  | cons a actions ih =>
    intro t ht
    obtain ⟨hq, hrest⟩ := h t ht
    obtain ⟨hi, hr⟩ := hI s a t hs ht hq
    exact ⟨hr, ih hi hrest⟩

/-- Two step properties that agree while `I` holds, and that keep it, hold of the same runs of
actions that meet `A`. -/
theorem everyStep_iff_of_forall {A : α → Prop} (hA : ∀ a ∈ actions, A a)
    (h : ∀ s a t, A a → I s → step s a = some t → (R s a t ↔ Q s a t) ∧ (Q s a t → I t))
    (hs : I s) : EveryStep step R s actions ↔ EveryStep step Q s actions := by
  induction actions generalizing s with
  | nil => exact Iff.rfl
  | cons a actions ih =>
    have hrestA : ∀ b ∈ actions, A b := fun b hb => hA b (List.mem_cons_of_mem a hb)
    refine forall_congr' fun t => forall_congr' fun ht => ?_
    obtain ⟨hiff, hkeep⟩ := h s a t (hA a (by simp)) hs ht
    rw [hiff]
    exact and_congr_right fun hq => ih hrestA (hkeep hq)

theorem everyStep_iff
    (h : ∀ s a t, I s → step s a = some t → (R s a t ↔ Q s a t) ∧ (Q s a t → I t)) (hs : I s) :
    EveryStep step R s actions ↔ EveryStep step Q s actions :=
  everyStep_iff_of_forall (A := fun _ => True) (fun _ _ => trivial) (fun s a t _ => h s a t) hs

/-- A step property holds of the step at the end of a run. -/
theorem EveryStep.last {earlier : List α} (h : EveryStep step Q s (earlier ++ [a]))
    {u : σ} (hu : run step s earlier = some u) (ht : step u a = some t) : Q u a t := by
  induction earlier generalizing s with
  | nil =>
    cases hu
    exact (h t ht).1
  | cons b earlier ih =>
    obtain ⟨v, hv, hrest⟩ := Option.bind_eq_some_iff.mp (run_cons ▸ hu)
    exact ih (h v hv).2 hrest

/-- An invariant of the step function holds at the end of every run. -/
theorem run_invariant (hI : ∀ s a t, I s → step s a = some t → I t)
    (hs : I s) (h : run step s actions = some t) : I t := by
  induction actions generalizing s with
  | nil =>
    simp only [run_nil, Option.some.injEq] at h
    exact h ▸ hs
  | cons a actions ih =>
    obtain ⟨u, hu, hrest⟩ := Option.bind_eq_some_iff.mp (run_cons ▸ h)
    exact ih (hI s a u hs hu) hrest

/-- Where one step keeps `P` exactly when it meets `Q`, a run stays inside `P` exactly when
all of its steps meet `Q`. -/
theorem everyState_iff {A : α → Prop} (hA : ∀ a ∈ actions, A a)
    (hstep : ∀ s a t, A a → I s → P s → step s a = some t → I t ∧ (Q s a t ↔ P t))
    (hi : I s) (hs : P s) :
    EveryState step P s actions ↔ EveryStep step Q s actions := by
  induction actions generalizing s with
  | nil => simp [EveryState, EveryStep, hs]
  | cons a actions ih =>
    have ha := hA a (by simp)
    have hrestA : ∀ b ∈ actions, A b := fun b hb => hA b (List.mem_cons_of_mem a hb)
    constructor
    · rintro ⟨_, h⟩ t ht
      obtain ⟨hit, hiff⟩ := hstep s a t ha hi hs ht
      have hrest := h t ht
      exact ⟨hiff.mpr hrest.first, (ih hrestA hit hrest.first).mp hrest⟩
    · intro h
      refine ⟨hs, ?_⟩
      intro t ht
      obtain ⟨hq, hrest⟩ := h t ht
      obtain ⟨hit, hiff⟩ := hstep s a t ha hi hs ht
      exact (ih hrestA hit (hiff.mp hq)).mpr hrest

/-- The same with an invariant of its own. -/
theorem everyState_iff_everyStep {A : α → Prop} (hA : ∀ a ∈ actions, A a)
    (hstep : ∀ s a t, A a → I s → P s → step s a = some t → (Q s a t ↔ P t))
    (hI : ∀ s a t, A a → I s → step s a = some t → I t) (hi : I s) (hs : P s) :
    EveryState step P s actions ↔ EveryStep step Q s actions :=
  everyState_iff hA
    (fun s a t ha hi hs ht => ⟨hI s a t ha hi ht, hstep s a t ha hi hs ht⟩) hi hs

/-- Actions that meet `A` lead to a state with `P`. -/
def Reaches (step : σ → α → Option σ) (A : α → Prop) (P : σ → Prop) (s : σ) : Prop :=
  ∃ actions, (∀ a ∈ actions, A a) ∧ ∃ t, run step s actions = some t ∧ P t

variable {A : α → Prop}

theorem reaches_self (h : P s) : Reaches step A P s :=
  ⟨[], fun _ h => absurd h List.not_mem_nil, s, rfl, h⟩

theorem reaches_step (ha : A a) (ht : step s a = some t) (h : Reaches step A P t) :
    Reaches step A P s := by
  obtain ⟨actions, hA, u, hrun, hu⟩ := h
  refine ⟨a :: actions, ?_, u, ?_, hu⟩
  · intro b hb
    rcases List.mem_cons.mp hb with rfl | hb
    · exact ha
    · exact hA b hb
  · rw [run_cons, ht]
    exact hrun

theorem Reaches.trans (h : Reaches step A I s) (hP : ∀ t, I t → Reaches step A P t) :
    Reaches step A P s := by
  obtain ⟨actions, hA, t, hrun, ht⟩ := h
  induction actions generalizing s with
  | nil =>
    cases hrun
    exact hP _ ht
  | cons a actions ih =>
    obtain ⟨u, hu, hrest⟩ := Option.bind_eq_some_iff.mp hrun
    exact reaches_step (hA a (by simp)) hu (ih (fun b hb => hA b (List.mem_cons_of_mem a hb)) hrest)

/-- What can always be made smaller can be brought to 0. -/
theorem reaches_zero (size : σ → Nat)
    (h : ∀ s, I s → 0 < size s → Reaches step A (fun t => I t ∧ size t < size s) s) (hs : I s) :
    Reaches step A (fun t => I t ∧ size t = 0) s := by
  induction hn : size s using Nat.strongRecOn generalizing s with
  | ind n ih =>
    rcases Nat.eq_zero_or_pos (size s) with hzero | hpos
    · exact reaches_self ⟨hs, hzero⟩
    · refine (h s hs hpos).trans ?_
      rintro t ⟨ht, hlt⟩
      exact ih (size t) (hn ▸ hlt) ht rfl

/-- Where the next item can always be handled, all of them can, in their order. -/
theorem reaches_all {β : Type*} (items done : σ → List β)
    (horder : ∀ s, I s → done s <+: items s)
    (hnext : ∀ s, I s → (done s).length < (items s).length → Reaches step A
      (fun t => I t ∧ items t = items s ∧ (done t).length = (done s).length + 1) s)
    (hs : I s) : Reaches step A (fun t => done t = items s) s := by
  have hzero := @reaches_zero _ _ step s (fun t => I t ∧ items t = items s) A
    (fun t => (items t).length - (done t).length) ?_ ⟨hs, rfl⟩
  · refine hzero.trans ?_
    rintro t ⟨⟨ht, hitems⟩, hsize⟩
    refine reaches_self ?_
    rw [← hitems]
    exact (horder t ht).eq_of_length_le (Nat.le_of_sub_eq_zero hsize)
  · rintro t ⟨ht, hitems⟩ hpos
    refine (hnext t ht (Nat.lt_of_sub_pos hpos)).trans ?_
    rintro u ⟨hu, hsame, hlength⟩
    exact reaches_self ⟨⟨hu, hsame.trans hitems⟩, by rw [hsame, hlength]; omega⟩

end Run

/-! Systems that answer calls: what they answer over a run, and when two of them answer alike. -/
namespace Replies

variable {σ τ α β : Type*} {step : σ → α → β × σ} {step' : τ → α → β × τ} {s : σ} {t : τ}
  {calls later : List α} {a : α}

/-- The answers to a list of calls, and the last state. -/
def run (step : σ → α → β × σ) (s : σ) : List α → List β × σ
  | [] => ([], s)
  | a :: calls =>
    let (reply, s) := step s a
    let (replies, s) := run step s calls
    (reply :: replies, s)

theorem run_cons : run step s (a :: calls) =
    ((step s a).1 :: (run step (step s a).2 calls).1, (run step (step s a).2 calls).2) := rfl

theorem run_append : run step s (calls ++ later) =
    ((run step s calls).1 ++ (run step (run step s calls).2 later).1,
      (run step (run step s calls).2 later).2) := by
  induction calls generalizing s with
  | nil => rfl
  | cons a calls ih =>
    rw [List.cons_append, run_cons, ih, run_cons]
    rfl

/-- One call is answered alike by related states, and they stay related. -/
def Alike (step : σ → α → β × σ) (step' : τ → α → β × τ) (A : α → Prop) (R : σ → τ → Prop) : Prop :=
  ∀ s t a, A a → R s t → (step s a).1 = (step' t a).1 ∧ R (step s a).2 (step' t a).2

/-- Then so are all. -/
theorem Alike.run {A : α → Prop} {R : σ → τ → Prop} (h : Alike step step' A R)
    (hA : ∀ a ∈ calls, A a) (hR : R s t) :
    (run step s calls).1 = (Replies.run step' t calls).1 ∧
      R (Replies.run step s calls).2 (Replies.run step' t calls).2 := by
  induction calls generalizing s t with
  | nil => exact ⟨rfl, hR⟩
  | cons a calls ih =>
    obtain ⟨hreply, hnext⟩ := h s t a (hA a List.mem_cons_self) hR
    obtain ⟨hreplies, hlast⟩ := ih (fun b hb => hA b (List.mem_cons_of_mem a hb)) hnext
    rw [run_cons, run_cons, hreply, hreplies]
    exact ⟨rfl, hlast⟩

end Replies
