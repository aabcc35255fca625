import PinguinOS.Ipc.MsgQueue
import PinguinOS.Sync.Monitor

/-! The table of message queues: whose queue a task works on after it has waited. -/
namespace PinguinOS.Ipc

open Mm (u32 int32)
open Sync (Mutex Section Monitor MonitorStep CallPc mutexInit)

def mqMaxQueues : Nat := 16

/-- An entry of `queues`; `serial` numbers the queues that were made in it. -/
structure MqSlot where
  queue : MqQueue
  lock : Mutex
  serial : Nat

/-- A task in a call: the slot that it found under `qid`, and the queue that was in it. -/
structure MqPlace where
  slot : Nat
  qid : Int
  serial : Nat
  pc : CallPc MqCall

structure MqTable where
  slots : Nat → MqSlot
  nextQid : Nat
  tasks : Nat → Option MqPlace

def mqInit : MqTable where
  slots := fun _ => ⟨{ mqCreate [] 0 with used := false }, mutexInit, 0⟩
  nextQid := 1
  tasks := fun _ => none

namespace MqTable

def findName (s : MqTable) (name : List Char) : Option Nat :=
  (List.range mqMaxQueues).find? fun i => (s.slots i).queue.used ∧
    (s.slots i).queue.name.take (mqNameLen - 1) = name.take (mqNameLen - 1)

def findFree (s : MqTable) : Option Nat :=
  (List.range mqMaxQueues).find? fun i => ¬ (s.slots i).queue.used

def findQid (s : MqTable) (qid : Int) : Option Nat :=
  (List.range mqMaxQueues).find? fun i => (s.slots i).queue.used ∧
    int32 (s.slots i).queue.id = qid

def mqOpen (s : MqTable) (name : List Char) : MqTable × Int :=
  match s.findName name with
  | some i => (s, int32 (s.slots i).queue.id)
  | none =>
    match s.findFree with
    | some i =>
      let slot := ⟨mqCreate name s.nextQid, mutexInit, (s.slots i).serial + 1⟩
      ({ s with slots := Function.update s.slots i slot, nextQid := u32 (s.nextQid + 1) },
        int32 s.nextQid)
    | none => (s, -1)

def mqClose (s : MqTable) (qid : Int) : MqTable :=
  match s.findQid qid with
  | some i =>
    let slot := s.slots i
    { s with
      slots := Function.update s.slots i { slot with queue := { slot.queue with used := false } } }
  | none => s

/-- The start of `mq_send`, `mq_recv` and `mq_tryrecv`, up to `mutex_lock`. -/
def mqFind (s : MqTable) (t : Nat) (qid : Int) (call : MqCall) : MqTable :=
  match s.findQid qid with
  | some i =>
    let place := ⟨i, qid, (s.slots i).serial, .locking call⟩
    { s with tasks := Function.update s.tasks t (some place) }
  | none => s

/-- One slot, and the tasks in calls on it. -/
def monitor (s : MqTable) (i : Nat) : Monitor MqQueue MqCall where
  mutex := (s.slots i).lock
  data := (s.slots i).queue
  pc := fun t =>
    match s.tasks t with
    | some place => if place.slot = i then place.pc else .idle
    | none => .idle

/-- Task `t` has taken a step in the monitor of its slot. -/
def put (s : MqTable) (t : Nat) (place : MqPlace) (m : Monitor MqQueue MqCall) : MqTable :=
  let slot := { s.slots place.slot with queue := m.data, lock := m.mutex }
  let task :=
    match m.pc t with
    | .idle => none
    | pc => some { place with pc := pc }
  { s with
    slots := Function.update s.slots place.slot slot
    tasks := Function.update s.tasks t task }

end MqTable

/-- The calls with the lock. -/
def mqBody (_ : Nat) (call : MqCall) (q : MqQueue) : Section MqQueue MqCall :=
  match mqRound q call with
  | .wait => .wait
  | .returns _ _ q => .leave q

inductive MqAction
  | opens (name : List Char)
  | close (qid : Int)
  | find (qid : Int) (call : MqCall)
  | goOn

/-- The steps of task `t`. What `mq_open`, `mq_close` and the search of the other calls do is one
step each; the calls then go on in the slot that they found. -/
inductive TableStep (s : MqTable) (t : Nat) : MqAction → MqTable → Prop
  | opens (htask : s.tasks t = none) (name : List Char) :
    TableStep s t (.opens name) (s.mqOpen name).1
  | close (htask : s.tasks t = none) (qid : Int) : TableStep s t (.close qid) (s.mqClose qid)
  | find (htask : s.tasks t = none) (qid : Int) (call : MqCall) :
    TableStep s t (.find qid call) (s.mqFind t qid call)
  | goOn (place : MqPlace) (htask : s.tasks t = some place) (m : Monitor MqQueue MqCall)
    (hstep : MonitorStep (fun _ _ => False) mqBody (s.monitor place.slot) t m) :
    TableStep s t .goOn (s.put t place m)

/-- Some task with a nonzero id takes a step. -/
def TableNext (s s' : MqTable) : Prop := ∃ t a, t ≠ 0 ∧ TableStep s t a s'

/-- A queue is not made in a slot that a task is in a call on. -/
def Vacant (s : MqTable) : MqAction → Prop
  | .opens name => s.findName name = none → ∀ i, s.findFree = some i →
    ∀ t place, s.tasks t = some place → place.slot ≠ i
  | _ => True

def MqQueue.stored (q : MqQueue) : (Nat → MqMsg) × Nat := (q.msgs, q.msgCount)

/-- Messages are put into a queue, or taken from it, by calls made with its id when it was there;
and one task at a time is in the critical section of a slot. -/
structure MqIsolated (s : MqTable) : Prop where
  own : ∀ t a s', TableStep s t a s' → ∀ i, (s'.slots i).serial = (s.slots i).serial →
    (s'.slots i).queue.stored ≠ (s.slots i).queue.stored →
    ∃ place, s.tasks t = some place ∧ place.slot = i ∧ place.serial = (s.slots i).serial ∧
      place.qid = int32 (s.slots i).queue.id
  alone : ∀ t u i, ((s.monitor i).pc t).holds = 1 → ((s.monitor i).pc u).holds = 1 → t = u

/-! The tasks stay with the queues they found. -/

variable {s s' : MqTable} {t u i : Nat} {a : MqAction} {m m' : Monitor MqQueue MqCall}
  {place : MqPlace}

structure MqTable.Inv (s : MqTable) : Prop where
  own : ∀ t place, s.tasks t = some place → place.serial = (s.slots place.slot).serial ∧
    place.qid = int32 (s.slots place.slot).queue.id
  owned : ∀ i, (s.monitor i).Owned

theorem inv_mqInit : mqInit.Inv :=
  ⟨fun _ _ htask => (nomatch htask), fun _ => Sync.owned_start⟩

/-- What the table does with a slot that no task is in a call on. -/
theorem monitor_idle (hvacant : ∀ t place, s.tasks t = some place → place.slot ≠ i) :
    (s.monitor i).pc = fun _ => .idle := by
  funext t
  unfold MqTable.monitor
  dsimp only
  cases htask : s.tasks t with
  | none => rfl
  | some place => exact if_neg (hvacant t place htask)

/-- A task's step leaves the places of the others. -/
theorem monitorStep_others {entry : Nat → MqCall → Prop}
    (hstep : MonitorStep entry mqBody m t m') (hu : u ≠ t) : m'.pc u = m.pc u := by
  cases hstep with
  | lockAgain => rfl
  | call => exact Function.update_of_ne hu _ _
  | lockRound => exact Function.update_of_ne hu _ _
  | wait => exact Function.update_of_ne hu _ _
  | again => exact Function.update_of_ne hu _ _
  | leave => exact Function.update_of_ne hu _ _
  | waitUnlock => exact Function.update_of_ne hu _ _
  | unlock => exact Function.update_of_ne hu _ _

/-- What a step keeps of the queue. -/
theorem mqBody_id {call : MqCall} {q q' : MqQueue} (hbody : mqBody t call q = .leave q') :
    q'.id = q.id := by
  unfold mqBody at hbody
  split at hbody
  case h_1 => cases hbody
  case h_2 hround =>
    cases hbody
    have htake : ∀ maxlen result out, mqTakeHead q maxlen = .returns result out q' →
        q'.id = q.id := by
      intro maxlen result out htake
      unfold mqTakeHead at htake
      cases htake
      rfl
    cases call with
    | send data priority =>
      unfold mqRound mqSendRound at hround
      dsimp only at hround
      split at hround
      · cases hround
      · cases hround
        rfl
    | recv maxlen =>
      unfold mqRound mqRecvRound at hround
      dsimp only at hround
      split at hround
      · cases hround
      · exact htake _ _ _ hround
    | tryrecv maxlen =>
      unfold mqRound mqTryrecvRound at hround
      dsimp only at hround
      split at hround
      · cases hround
        rfl
      · exact htake _ _ _ hround

theorem monitorStep_id {entry : Nat → MqCall → Prop} (hstep : MonitorStep entry mqBody m t m') :
    m'.data.id = m.data.id := by
  cases hstep with
  | lockAgain => rfl
  | call => rfl
  | lockRound => rfl
  | wait => rfl
  | again k hpc k' d hbody =>
    unfold mqBody at hbody
    split at hbody <;> cases hbody
  | leave k hpc d hbody => exact mqBody_id hbody
  | waitUnlock => rfl
  | unlock => rfl

/-- The slot of a task that goes on is as the monitor left it. -/
theorem monitor_put
    (hothers : ∀ u, u ≠ t → m.pc u = (s.monitor place.slot).pc u) :
    (s.put t place m).monitor place.slot = m := by
  have hpc : ((s.put t place m).monitor place.slot).pc = m.pc := by
    funext u
    unfold MqTable.monitor MqTable.put
    dsimp only
    by_cases hu : u = t
    · subst hu
      rw [Function.update_self]
      cases m.pc u <;> first | rfl | exact if_pos rfl
    · rw [Function.update_of_ne hu, hothers u hu]
      rfl
  have hslot : (s.put t place m).slots place.slot =
      { s.slots place.slot with queue := m.data, lock := m.mutex } := Function.update_self _ _ _
  unfold MqTable.monitor at hpc ⊢
  dsimp only at hpc
  rw [hpc, hslot]

/-- The other slots do not change. -/
theorem monitor_put_of_ne (htask : s.tasks t = some place) (hi : i ≠ place.slot) :
    (s.put t place m).monitor i = s.monitor i := by
  have hslot : (s.put t place m).slots i = s.slots i := Function.update_of_ne hi _ _
  have hpc : ((s.put t place m).monitor i).pc = (s.monitor i).pc := by
    funext u
    unfold MqTable.monitor MqTable.put
    dsimp only
    by_cases hu : u = t
    · subst hu
      rw [Function.update_self, htask]
      dsimp only
      rw [if_neg (Ne.symm hi)]
      cases m.pc u <;> first | rfl | exact if_neg (Ne.symm hi)
    · rw [Function.update_of_ne hu]
  unfold MqTable.monitor at hpc ⊢
  dsimp only at hpc
  rw [hpc, hslot]

theorem monitor_congr (hslot : s'.slots i = s.slots i) (htasks : s'.tasks = s.tasks) :
    s'.monitor i = s.monitor i := by
  unfold MqTable.monitor
  rw [hslot, htasks]

/-- Who has the lock depends on the lock and on the places of the tasks only. -/
theorem owned_congr (hmutex : m'.mutex = m.mutex) (hpc : ∀ u, (m'.pc u).holds = (m.pc u).holds)
    (h : m.Owned) : m'.Owned := by
  have hsame : CallPc.holds ∘ m'.pc = CallPc.holds ∘ m.pc := funext hpc
  unfold Monitor.Owned at h ⊢
  rw [hmutex, hsame]
  exact h

/-- `mq_open` makes a queue in a free slot, or leaves the table as it is. -/
theorem mqOpen_cases (s : MqTable) (name : List Char) :
    (s.mqOpen name).1 = s ∨ ∃ i slot, s.findName name = none ∧ s.findFree = some i ∧
      slot.lock = mutexInit ∧ slot.serial = (s.slots i).serial + 1 ∧
      (s.mqOpen name).1 =
        { s with slots := Function.update s.slots i slot, nextQid := u32 (s.nextQid + 1) } := by
  unfold MqTable.mqOpen
  cases hname : s.findName name with
  | some i => exact .inl rfl
  | none =>
    cases hfree : s.findFree with
    | none => exact .inl rfl
    | some i => exact .inr ⟨i, _, rfl, rfl, rfl, rfl, rfl⟩

/-- `mq_close` changes only whether a slot is in use. -/
theorem mqClose_cases (s : MqTable) (qid : Int) :
    (s.mqClose qid).tasks = s.tasks ∧ ∀ i, ((s.mqClose qid).slots i).lock = (s.slots i).lock ∧
      ((s.mqClose qid).slots i).serial = (s.slots i).serial ∧
      ((s.mqClose qid).slots i).queue.id = (s.slots i).queue.id ∧
      ((s.mqClose qid).slots i).queue.stored = (s.slots i).queue.stored := by
  unfold MqTable.mqClose
  cases s.findQid qid with
  | none => exact ⟨rfl, fun i => ⟨rfl, rfl, rfl, rfl⟩⟩
  | some j =>
    refine ⟨rfl, fun i => ?_⟩
    dsimp only
    by_cases hi : i = j
    · rw [hi, Function.update_self]
      exact ⟨rfl, rfl, rfl, rfl⟩
    · rw [Function.update_of_ne hi]
      exact ⟨rfl, rfl, rfl, rfl⟩

/-- A call finds the slot of its queue, or returns. -/
theorem mqFind_cases (s : MqTable) (t : Nat) (qid : Int) (call : MqCall) :
    s.mqFind t qid call = s ∨ ∃ place, place.serial = (s.slots place.slot).serial ∧
      place.qid = int32 (s.slots place.slot).queue.id ∧ place.pc = .locking call ∧
      s.mqFind t qid call = { s with tasks := Function.update s.tasks t (some place) } := by
  unfold MqTable.mqFind
  cases hfound : s.findQid qid with
  | none => exact .inl rfl
  | some i =>
    unfold MqTable.findQid at hfound
    have hhere := (List.find?_range_eq_some.mp hfound).1
    exact .inr ⟨⟨i, qid, (s.slots i).serial, .locking call⟩, rfl, (of_decide_eq_true hhere).2.symm,
      rfl, rfl⟩

namespace MqTable.Inv

theorem opens (hs : s.Inv) {name : List Char} (hvacant : Vacant s (.opens name)) :
    (s.mqOpen name).1.Inv := by
  rcases mqOpen_cases s name with hsame | ⟨i, slot, hname, hfree, hlock, -, hopen⟩
  · rw [hsame]
    exact hs
  · have hempty := hvacant hname i hfree
    rw [hopen]
    constructor
    case own =>
      intro u place hplace
      dsimp only
      rw [Function.update_of_ne (hempty u place hplace)]
      exact hs.own u place hplace
    case owned =>
      intro j
      by_cases hj : j = i
      · subst hj
        refine owned_congr ?_ ?_ (Sync.owned_start (d := mqCreate name s.nextQid))
        · unfold MqTable.monitor
          dsimp only
          rw [Function.update_self, hlock]
          rfl
        · intro u
          exact congrArg CallPc.holds (congrFun (monitor_idle hempty) u)
      · have hsame : MqTable.monitor
            { s with slots := Function.update s.slots i slot, nextQid := u32 (s.nextQid + 1) } j =
            s.monitor j := monitor_congr (Function.update_of_ne hj _ _) rfl
        rw [hsame]
        exact hs.owned j

theorem close (hs : s.Inv) (qid : Int) : (s.mqClose qid).Inv := by
  obtain ⟨htasks, hslots⟩ := mqClose_cases s qid
  constructor
  case own =>
    intro u place hplace
    rw [htasks] at hplace
    obtain ⟨-, hserial, hid, -⟩ := hslots place.slot
    rw [hserial, hid]
    exact hs.own u place hplace
  case owned =>
    intro j
    refine owned_congr (m := s.monitor j) (hslots j).1 (fun u => ?_) (hs.owned j)
    unfold MqTable.monitor
    rw [htasks]

theorem find (hs : s.Inv) (htask : s.tasks t = none) (qid : Int) (call : MqCall) :
    (s.mqFind t qid call).Inv := by
  rcases mqFind_cases s t qid call with hsame | ⟨place, hserial, hqid, hpc, hfind⟩
  · rw [hsame]
    exact hs
  · rw [hfind]
    constructor
    case own =>
      intro u other hplace
      dsimp only at hplace ⊢
      by_cases hu : u = t
      · rw [hu, Function.update_self] at hplace
        cases hplace
        exact ⟨hserial, hqid⟩
      · rw [Function.update_of_ne hu] at hplace
        exact hs.own u other hplace
    case owned =>
      intro j
      refine owned_congr (m := s.monitor j) rfl (fun u => ?_) (hs.owned j)
      unfold MqTable.monitor
      dsimp only
      by_cases hu : u = t
      · rw [hu, Function.update_self, htask]
        dsimp only
        split
        · rw [hpc]
          rfl
        · rfl
      · rw [Function.update_of_ne hu]

theorem goOn (hs : s.Inv) (ht : t ≠ 0) (htask : s.tasks t = some place)
    (hstep : MonitorStep (fun _ _ => False) mqBody (s.monitor place.slot) t m) :
    (s.put t place m).Inv := by
  constructor
  case own =>
    intro u place' hplace
    have hplaces : place'.serial = (s.slots place'.slot).serial ∧
        place'.qid = int32 (s.slots place'.slot).queue.id := by
      unfold MqTable.put at hplace
      dsimp only at hplace
      by_cases hu : u = t
      · rw [hu, Function.update_self] at hplace
        have hmine := hs.own t place htask
        split at hplace
        case h_1 => cases hplace
        case h_2 =>
          cases hplace
          exact hmine
      · rw [Function.update_of_ne hu] at hplace
        exact hs.own u place' hplace
    unfold MqTable.put
    dsimp only
    by_cases hi : place'.slot = place.slot
    · rw [hi, Function.update_self]
      dsimp only
      rw [monitorStep_id hstep]
      rw [hi] at hplaces
      exact hplaces
    · rw [Function.update_of_ne hi]
      exact hplaces
  case owned =>
    intro i
    by_cases hi : i = place.slot
    · rw [hi, monitor_put fun u hu => monitorStep_others hstep hu]
      exact Sync.owned_step (hs.owned place.slot) ht hstep
    · rw [monitor_put_of_ne htask hi]
      exact hs.owned i

theorem step (hs : s.Inv) (ht : t ≠ 0) (hstep : TableStep s t a s') (hvacant : Vacant s a) :
    s'.Inv := by
  cases hstep with
  | opens _ name => exact hs.opens hvacant
  | close _ qid => exact hs.close qid
  | find htask qid call => exact hs.find htask qid call
  | goOn place htask m hstep => exact hs.goOn ht htask hstep

/-- Only a task that goes on puts messages in or takes them. -/
theorem isolated (hs : s.Inv) : MqIsolated s := by
  constructor
  case own =>
    intro t a s' hstep i hserial hstored
    cases hstep with
    | opens _ name =>
      rcases mqOpen_cases s name with hsame | ⟨j, slot, -, -, -, hnew, hopen⟩
      · rw [hsame] at hstored
        exact absurd rfl hstored
      · rw [hopen] at hserial hstored
        dsimp only at hserial hstored
        by_cases hj : i = j
        · rw [hj, Function.update_self, hnew] at hserial
          omega
        · rw [Function.update_of_ne hj] at hstored
          exact absurd rfl hstored
    | close _ qid => exact absurd ((mqClose_cases s qid).2 i).2.2.2 hstored
    | find _ qid call =>
      rcases mqFind_cases s t qid call with hsame | ⟨place, -, -, -, hfind⟩
      · rw [hsame] at hstored
        exact absurd rfl hstored
      · rw [hfind] at hstored
        exact absurd rfl hstored
    | goOn place htask m hstep =>
      have hi : i = place.slot := by
        by_contra hne
        unfold MqTable.put at hstored
        dsimp only at hstored
        rw [Function.update_of_ne hne] at hstored
        exact hstored rfl
      subst hi
      obtain ⟨hplace, hqid⟩ := hs.own t place htask
      exact ⟨place, htask, rfl, hplace, hqid⟩
  case alone =>
    intro t u i ht hu
    obtain ⟨v, hholder⟩ := hs.owned i
    have hmine : ∀ w, ((s.monitor i).pc w).holds = 1 → w = v := by
      intro w hw
      by_contra hne
      have hzero : ((s.monitor i).pc w).holds = 0 := hholder.others w hne
      omega
    exact (hmine t ht).trans (hmine u hu).symm

end MqTable.Inv

theorem mq_isolated (hrun : Relation.ReflTransGen
    (fun s s' => ∃ t a, t ≠ 0 ∧ TableStep s t a s' ∧ Vacant s a) mqInit s) : MqIsolated s := by
  have hinv : s.Inv := by
    induction hrun with
    | refl => exact inv_mqInit
    | tail _ hnext ih =>
      obtain ⟨t, a, ht, hstep, hvacant⟩ := hnext
      exact ih.step ht hstep hvacant
  exact hinv.isolated

/-! A queue that is closed while a task waits on it. -/

/-- What a task does next, as a function. -/
def MqTable.act (s : MqTable) (t : Nat) : MqAction → Option MqTable
  | .opens name => if (s.tasks t).isNone then some (s.mqOpen name).1 else none
  | .close qid => if (s.tasks t).isNone then some (s.mqClose qid) else none
  | .find qid call => if (s.tasks t).isNone then some (s.mqFind t qid call) else none
  | .goOn => do
    let place ← s.tasks t
    let m ← (s.monitor place.slot).next mqBody t
    some (s.put t place m)

theorem tableStep_of_act (h : s.act t a = some s') : TableStep s t a s' := by
  cases a with
  | opens name =>
    obtain ⟨htask, hs⟩ := Option.ite_none_right_eq_some.mp h
    cases hs
    exact .opens (Option.isNone_iff_eq_none.mp htask) name
  | close qid =>
    obtain ⟨htask, hs⟩ := Option.ite_none_right_eq_some.mp h
    cases hs
    exact .close (Option.isNone_iff_eq_none.mp htask) qid
  | find qid call =>
    obtain ⟨htask, hs⟩ := Option.ite_none_right_eq_some.mp h
    cases hs
    exact .find (Option.isNone_iff_eq_none.mp htask) qid call
  | goOn =>
    obtain ⟨place, htask, hnext⟩ := Option.bind_eq_some_iff.mp h
    obtain ⟨m, hm, hput⟩ := Option.bind_eq_some_iff.mp hnext
    cases hput
    exact .goOn place htask m (Sync.monitorStep_of_next hm)

def TableReachable (s : MqTable) : Prop := Relation.ReflTransGen TableNext mqInit s

theorem reachable_of_run {acts : List (Nat × MqAction)} (hids : ∀ act ∈ acts, act.1 ≠ 0)
    (hs : TableReachable s)
    (hrun : Run.run (fun s act => MqTable.act s act.1 act.2) s acts = some s') :
    TableReachable s' := by
  induction acts generalizing s with
  | nil =>
    cases hrun
    exact hs
  | cons act acts ih =>
    obtain ⟨u, hu, hrest⟩ := Option.bind_eq_some_iff.mp (Run.run_cons ▸ hrun)
    refine ih (fun b hb => hids b (List.mem_cons_of_mem act hb)) ?_ hrest
    exact hs.tail ⟨act.1, act.2, hids act (by simp), tableStep_of_act hu⟩

theorem mq_isolated_reader : MqIsolated
    ((mqInit.mqOpen ['a']).1.mqFind 1 1 (.recv 8)) := by
  refine mq_isolated (.tail (.single ⟨1, _, by decide, .opens rfl ['a'], ?_⟩)
    ⟨1, _, by decide, .find rfl 1 (.recv 8), trivial⟩)
  exact fun _ _ _ _ _ htask => (nomatch htask)

/-- Task 1 waits for a message in queue 1, which task 2 closes; task 2 makes queue 2 in the slot
and sends; task 1 has the lock again. -/
def reused : List (Nat × MqAction) :=
  [(1, .opens ['a']), (1, .find 1 (.recv 8)), (1, .goOn), (1, .goOn), (1, .goOn),
    (2, .close 1), (2, .opens ['b']), (2, .find 2 (.send [7] 0)), (2, .goOn), (2, .goOn),
    (2, .goOn), (1, .goOn)]

/-- Task 1 takes the message of queue 2. -/
theorem not_mq_isolated_reused : ¬ ∀ s, TableReachable s → MqIsolated s := by
  intro hall
  have hlast : ((Run.run (fun s act => MqTable.act s act.1 act.2) mqInit reused).bind fun s =>
      (s.act 1 .goOn).map fun s' => ((s.tasks 1).map MqPlace.serial, (s.slots 0).serial,
        (s'.slots 0).serial, (s.slots 0).queue.msgCount, (s'.slots 0).queue.msgCount)) =
      some (some 1, 2, 2, 1, 0) := by
    decide +kernel
  obtain ⟨s, hrun, hstep⟩ := Option.bind_eq_some_iff.mp hlast
  obtain ⟨s', hact, hvalues⟩ := Option.map_eq_some_iff.mp hstep
  injection hvalues with htask hvalues
  injection hvalues with hserial hvalues
  injection hvalues with hserial' hvalues
  injection hvalues with hcount hcount'
  have hreach : TableReachable s := reachable_of_run (by decide) .refl hrun
  have hstored : (s'.slots 0).queue.stored ≠ (s.slots 0).queue.stored := by
    intro heq
    have hsame := congrArg Prod.snd heq
    unfold MqQueue.stored at hsame
    dsimp only at hsame
    omega
  obtain ⟨place, hplace, -, hown, -⟩ :=
    (hall s hreach).own 1 .goOn s' (tableStep_of_act hact) 0 (hserial'.trans hserial.symm) hstored
  rw [hplace] at htask
  injection htask with htask
  omega

end PinguinOS.Ipc
