import Mathlib.Data.List.Nodup
import PinguinOS.Lib.Run
import PinguinOS.Lib.Slots
import PinguinOS.Mm.Types

/-! Message queues: what comes out is the first message of the highest priority. -/
namespace PinguinOS.Ipc

open Mm (int32)

def mqMaxMsgs : Nat := 32
def mqMaxMsgSize : Nat := 512
def mqNameLen : Nat := 32

/-- `mq_msg_t` -/
structure MqMsg where
  data : Nat → BitVec 8
  len : Nat
  priority : Nat
  used : Bool

/-- `mq_queue_t`, without its lock and its condition variables. -/
structure MqQueue where
  name : List Char
  msgs : Nat → MqMsg
  msgCount : Nat
  used : Bool
  id : Nat

/-- The queue that `mq_open` makes of a free slot. -/
def mqCreate (name : List Char) (id : Nat) : MqQueue where
  name := name.take (mqNameLen - 1)
  msgs := fun _ => { data := fun _ => 0, len := 0, priority := 0, used := false }
  msgCount := 0
  used := true
  id := id

/-- `memcpy` to the start of an array -/
def copyIn (old : Nat → BitVec 8) (bytes : List (BitVec 8)) (i : Nat) : BitVec 8 :=
  bytes[i]?.getD (old i)

/-- How a call goes on once it has the lock: it waits, or it returns. -/
inductive MqOutcome
  | wait
  | returns (result : Int) (out : List (BitVec 8)) (q : MqQueue)

/-- The place of a new message: before the first one of a lower priority. -/
def mqInsertAt (q : MqQueue) (priority : Nat) : Nat :=
  ((List.range q.msgCount).find? fun i => (q.msgs i).priority < priority).getD q.msgCount

/-- `mq_send` with the lock -/
def mqSendRound (q : MqQueue) (data : List (BitVec 8)) (priority : Nat) : MqOutcome :=
  let len := if data.length > mqMaxMsgSize then mqMaxMsgSize else data.length
  if q.msgCount ≥ mqMaxMsgs then .wait
  else
    let ins := mqInsertAt q priority
    let msgs := Slots.shiftUp q.msgs ins q.msgCount
    let m : MqMsg :=
      { data := copyIn (msgs ins).data (data.take len), len := len, priority := priority,
        used := true }
    .returns 0 [] { q with msgs := Function.update msgs ins m, msgCount := q.msgCount + 1 }

/-- The head is copied out, and the others move to the front. -/
def mqTakeHead (q : MqQueue) (maxlen : Nat) : MqOutcome :=
  let m := q.msgs 0
  let n := if m.len < maxlen then m.len else maxlen
  .returns (int32 n) ((List.range n).map m.data)
    { q with
      msgs := Slots.shiftDown q.msgs q.msgCount 1 q.msgCount
      msgCount := q.msgCount - 1 }

/-- `mq_recv` with the lock -/
def mqRecvRound (q : MqQueue) (maxlen : Nat) : MqOutcome :=
  if q.msgCount = 0 then .wait else mqTakeHead q maxlen

/-- `mq_tryrecv` with the lock -/
def mqTryrecvRound (q : MqQueue) (maxlen : Nat) : MqOutcome :=
  if q.msgCount = 0 then .returns 0 [] q else mqTakeHead q maxlen

inductive MqCall
  | send (data : List (BitVec 8)) (priority : Nat)
  | recv (maxlen : Nat)
  | tryrecv (maxlen : Nat)

def mqRound (q : MqQueue) : MqCall → MqOutcome
  | .send data priority => mqSendRound q data priority
  | .recv maxlen => mqRecvRound q maxlen
  | .tryrecv maxlen => mqTryrecvRound q maxlen

/-- What a call returned, and what it put into the buffer of the caller. -/
structure MqReply where
  result : Int
  out : List (BitVec 8)

/-- A queue, and the calls on it so far. -/
structure MqLog where
  queue : MqQueue
  calls : List (MqCall × MqReply)

/-- A call that does not block. -/
def mqStep (s : MqLog) (call : MqCall) : Option MqLog :=
  match mqRound s.queue call with
  | .wait => none
  | .returns result out q => some ⟨q, s.calls ++ [(call, ⟨result, out⟩)]⟩

/-! What the queue is for: messages, numbered as they are sent, and the numbers received. -/

structure Message where
  data : List (BitVec 8)
  priority : Nat

structure History where
  sent : List Message
  received : List Nat

namespace History

def Present (h : History) (n : Nat) : Prop := n < h.sent.length ∧ n ∉ h.received

def priority (h : History) (n : Nat) : Nat := h.sent[n]?.elim 0 Message.priority

/-- Of two messages the one of higher priority, and of equal ones the earlier, goes first. -/
def Before (h : History) (m n : Nat) : Prop :=
  h.priority n < h.priority m ∨ h.priority m = h.priority n ∧ m < n

def Next (h : History) (m : Nat) : Prop := h.Present m ∧ ∀ n, h.Present n → n ≠ m → h.Before m n

end History

/-- The first bytes of a message: as many as a queue takes, and as fit in the buffer. -/
def Message.cut (m : Message) (maxlen : Nat) : List (BitVec 8) :=
  (m.data.take mqMaxMsgSize).take maxlen

/-- The call and its reply are those of a queue with this history, which they change. -/
inductive Serves (h : History) : MqCall → MqReply → History → Prop
  | send (data : List (BitVec 8)) (priority : Nat) :
    Serves h (.send data priority) ⟨0, []⟩ { h with sent := h.sent ++ [⟨data, priority⟩] }
  | recv (n maxlen : Nat) (hnext : h.Next n) (m : Message) (hm : h.sent[n]? = some m) :
    Serves h (.recv maxlen) ⟨(m.cut maxlen).length, m.cut maxlen⟩
      { h with received := h.received ++ [n] }
  | tryrecv (n maxlen : Nat) (hnext : h.Next n) (m : Message) (hm : h.sent[n]? = some m) :
    Serves h (.tryrecv maxlen) ⟨(m.cut maxlen).length, m.cut maxlen⟩
      { h with received := h.received ++ [n] }
  | empty (maxlen : Nat) (hnone : ∀ n, ¬ h.Present n) : Serves h (.tryrecv maxlen) ⟨0, []⟩ h

inductive Served : History → List (MqCall × MqReply) → Prop
  | start : Served ⟨[], []⟩ []
  | next {h h' : History} {log : List (MqCall × MqReply)} {call : MqCall} {reply : MqReply}
    (hlog : Served h log) (hserves : Serves h call reply h') : Served h' (log ++ [(call, reply)])

/-- The queue in one state of a run: its calls have a history, in which no message is received
twice, and every message sent is received or stored. -/
structure QueueOk (s : MqLog) : Prop where
  count : s.queue.msgCount ≤ mqMaxMsgs
  sorted : ∀ i, i + 1 < s.queue.msgCount →
    (s.queue.msgs (i + 1)).priority ≤ (s.queue.msgs i).priority
  served : ∃ h, Served h s.calls ∧ h.received.Nodup ∧
    h.sent.length = h.received.length + s.queue.msgCount

/-! What one round does to the array. -/

variable {q q' : MqQueue} {h h' : History} {data out bytes : List (BitVec 8)} {old : Nat → BitVec 8}
  {order : Nat → Nat} {result : Int} {m n priority maxlen : Nat} {msg : MqMsg} {message : Message}
  {call : MqCall} {s t : MqLog}

theorem range_map_copyIn : (List.range bytes.length).map (copyIn old bytes) = bytes := by
  apply List.ext_getElem
  · rw [List.length_map, List.length_range]
  · intro i hi hbytes
    rw [List.getElem_map, List.getElem_range]
    unfold copyIn
    rw [List.getElem?_eq_getElem hbytes, Option.getD_some]

/-- Below the place nothing has a lower priority, and what is at the place has. -/
theorem mqInsertAt_spec :
    mqInsertAt q priority ≤ q.msgCount ∧
    (∀ i < mqInsertAt q priority, priority ≤ (q.msgs i).priority) ∧
    (mqInsertAt q priority < q.msgCount →
      (q.msgs (mqInsertAt q priority)).priority < priority) := by
  unfold mqInsertAt
  cases hfind : (List.range q.msgCount).find? fun i => (q.msgs i).priority < priority with
  | none =>
    rw [List.find?_range_eq_none] at hfind
    rw [Option.getD_none]
    refine ⟨Nat.le_refl _, fun i hi => ?_, fun habs => absurd habs (Nat.lt_irrefl _)⟩
    simpa using hfind i hi
  | some ins =>
    rw [List.find?_range_eq_some] at hfind
    obtain ⟨hless, hmem, hbelow⟩ := hfind
    rw [Option.getD_some]
    refine ⟨Nat.le_of_lt (List.mem_range.mp hmem), fun i hi => ?_, fun _ => of_decide_eq_true hless⟩
    simpa using hbelow i hi

/-- A slot holds a message that was sent. -/
structure Holds (msg : MqMsg) (message : Message) : Prop where
  len : msg.len = (message.data.take mqMaxMsgSize).length
  data : (List.range msg.len).map msg.data = message.data.take mqMaxMsgSize
  priority : msg.priority = message.priority

theorem holds_sent :
    let len := if data.length > mqMaxMsgSize then mqMaxMsgSize else data.length
    Holds { data := copyIn old (data.take len), len := len, priority := priority, used := true }
      ⟨data, priority⟩ := by
  intro len
  have htake : data.take len = data.take mqMaxMsgSize := by
    by_cases hlong : data.length > mqMaxMsgSize
    · exact congrArg (data.take ·) (if_pos hlong)
    · rw [List.take_of_length_le (Nat.le_of_not_lt hlong)]
      have hlen : len = data.length := if_neg hlong
      rw [hlen, List.take_length]
  have hlen : len = (data.take mqMaxMsgSize).length := by
    rw [List.length_take]
    simp only [len]
    split <;> omega
  refine ⟨hlen, ?_, rfl⟩
  dsimp only
  rw [htake]
  conv_lhs => rw [hlen]
  exact range_map_copyIn

theorem Holds.length_le (hholds : Holds msg message) : msg.len ≤ mqMaxMsgSize := by
  rw [hholds.len, List.length_take]
  exact Nat.min_le_left _ _

/-- What is copied out of the slot are the first bytes of the message. -/
theorem Holds.cut (hholds : Holds msg message) :
    (List.range (if msg.len < maxlen then msg.len else maxlen)).map msg.data =
      message.cut maxlen := by
  have hmin : (if msg.len < maxlen then msg.len else maxlen) = min maxlen msg.len := by
    split <;> omega
  unfold Message.cut
  rw [hmin, ← List.take_range, List.map_take, hholds.data]

theorem Holds.length_cut (hholds : Holds msg message) :
    int32 (if msg.len < maxlen then msg.len else maxlen) = (message.cut maxlen).length := by
  have hlength := congrArg List.length (@Holds.cut maxlen _ _ hholds)
  rw [List.length_map, List.length_range] at hlength
  have hle := hholds.length_le
  unfold mqMaxMsgSize at hle
  rw [← hlength]
  apply Mm.int32_of_lt
  split <;> omega

/-! The numbers of the stored messages, slot by slot. -/

/-- The slot holds the message of this number. -/
def Filed (sent : List Message) (n : Nat) (msg : MqMsg) : Prop :=
  ∃ message, sent[n]? = some message ∧ Holds msg message

/-- `order` numbers the messages that the queue has stored. -/
structure Stores (q : MqQueue) (h : History) (order : Nat → Nat) : Prop where
  count : q.msgCount ≤ mqMaxMsgs
  holds : ∀ k < q.msgCount, Filed h.sent (order k) (q.msgs k)
  ordered : ∀ j k, j < k → k < q.msgCount → h.Before (order j) (order k)
  present : ∀ n, h.Present n ↔ ∃ k < q.msgCount, order k = n
  nodup : h.received.Nodup
  total : h.sent.length = h.received.length + q.msgCount
  below : ∀ n ∈ h.received, n < h.sent.length

namespace Stores

theorem priority_eq (hq : Stores q h order) {k : Nat} (hk : k < q.msgCount) :
    h.priority (order k) = (q.msgs k).priority := by
  obtain ⟨message, hsent, hholds⟩ := hq.holds k hk
  unfold History.priority
  rw [hsent, hholds.priority]
  rfl

theorem sorted (hq : Stores q h order) {j k : Nat} (hjk : j < k) (hk : k < q.msgCount) :
    (q.msgs k).priority ≤ (q.msgs j).priority := by
  have hbefore := hq.ordered j k hjk hk
  unfold History.Before at hbefore
  rw [hq.priority_eq hk, hq.priority_eq (hjk.trans hk)] at hbefore
  omega

theorem lt_sent (hq : Stores q h order) {k : Nat} (hk : k < q.msgCount) :
    order k < h.sent.length := ((hq.present (order k)).mpr ⟨k, hk, rfl⟩).1

/-- No message is at two places. -/
theorem first (hq : Stores q h order) : ∀ k < q.msgCount, order k = order 0 → k = 0 := by
  intro k hk heq
  by_contra hne
  have hbefore := hq.ordered 0 k (Nat.pos_of_ne_zero hne) hk
  unfold History.Before at hbefore
  rw [heq] at hbefore
  omega

end Stores

theorem getElem?_sent_append (hn : n < h.sent.length) :
    (h.sent ++ [message])[n]? = h.sent[n]? := List.getElem?_append_left hn

theorem before_append (hm : m < h.sent.length) (hn : n < h.sent.length) :
    History.Before { h with sent := h.sent ++ [message] } m n ↔ h.Before m n := by
  unfold History.Before History.priority
  dsimp only
  rw [getElem?_sent_append hm, getElem?_sent_append hn]

theorem priority_append :
    History.priority { h with sent := h.sent ++ [message] } h.sent.length = message.priority := by
  unfold History.priority
  dsimp only
  rw [List.getElem?_concat_length]
  rfl

theorem Stores.priority_sent (hq : Stores q h order) {k : Nat} (hk : k < q.msgCount) :
    History.priority { h with sent := h.sent ++ [message] } (order k) = (q.msgs k).priority := by
  rw [← hq.priority_eq hk]
  unfold History.priority
  dsimp only
  rw [getElem?_sent_append (hq.lt_sent hk)]

theorem present_append (hbelow : ∀ n ∈ h.received, n < h.sent.length) :
    History.Present { h with sent := h.sent ++ [message] } n ↔
      n = h.sent.length ∨ h.Present n := by
  unfold History.Present
  dsimp only
  rw [List.length_append, List.length_singleton]
  constructor
  · rintro ⟨hn, hnot⟩
    rcases Nat.lt_succ_iff_lt_or_eq.mp hn with hlt | rfl
    · exact .inr ⟨hlt, hnot⟩
    · exact .inl rfl
  · rintro (rfl | ⟨hn, hnot⟩)
    · exact ⟨Nat.lt_succ_self _, fun hmem => absurd (hbelow _ hmem) (Nat.lt_irrefl _)⟩
    · exact ⟨Nat.lt_succ_of_lt hn, hnot⟩

/-- A send stores its message, in order. -/
theorem Stores.send (hq : Stores q h order)
    (hround : mqSendRound q data priority = .returns result out q') :
    result = 0 ∧ out = [] ∧
      ∃ order', Stores q' { h with sent := h.sent ++ [⟨data, priority⟩] } order' := by
  unfold mqSendRound at hround
  dsimp only at hround
  split at hround
  case isTrue => cases hround
  case isFalse hroom =>
    cases hround
    refine ⟨rfl, rfl, Slots.insertAt order q.msgCount (mqInsertAt q priority) h.sent.length, ?_⟩
    obtain ⟨hins, hbelow, hat⟩ := @mqInsertAt_spec q priority
    have hnew : (h.sent ++ [⟨data, priority⟩])[h.sent.length]? = some ⟨data, priority⟩ :=
      List.getElem?_concat_length
    constructor
    case count => exact Nat.lt_of_not_le hroom
    case holds =>
      dsimp only
      rw [Slots.update_shiftUp]
      refine Slots.insertAt_forall (R := Filed (h.sent ++ [⟨data, priority⟩])) hins ?_ ?_
      · intro k hk
        unfold Filed
        rw [getElem?_sent_append (hq.lt_sent hk)]
        exact hq.holds k hk
      · exact ⟨_, hnew, holds_sent⟩
    case ordered =>
      refine Slots.insertAt_pairwise
        (R := History.Before { h with sent := h.sent ++ [⟨data, priority⟩] }) hins ?_ ?_ ?_
      · intro j k hjk hk
        rw [before_append (hq.lt_sent (hjk.trans hk)) (hq.lt_sent hk)]
        exact hq.ordered j k hjk hk
      · intro j hj
        have hprio := hbelow j hj
        have hsent := hq.lt_sent (Nat.lt_of_lt_of_le hj hins)
        unfold History.Before
        rw [hq.priority_sent (Nat.lt_of_lt_of_le hj hins), priority_append]
        dsimp only
        omega
      · intro k hins' hk
        have hle : (q.msgs k).priority ≤ (q.msgs (mqInsertAt q priority)).priority := by
          rcases Nat.lt_or_eq_of_le hins' with hlt | heq
          · exact hq.sorted hlt hk
          · rw [heq]
        have hless := hat (Nat.lt_of_le_of_lt hins' hk)
        unfold History.Before
        rw [hq.priority_sent hk, priority_append]
        exact .inl (Nat.lt_of_le_of_lt hle hless)
    case present =>
      intro n
      rw [present_append hq.below, hq.present, ← Slots.exists_insertAt hins]
    case nodup => exact hq.nodup
    case total =>
      rw [List.length_append, List.length_singleton, hq.total]
      rfl
    case below =>
      intro n hn
      have hlt := hq.below n hn
      rw [List.length_append, List.length_singleton]
      omega

/-- The first slot holds the next message, and the others stay in order. -/
theorem Stores.takeHead (hq : Stores q h order) (hsome : q.msgCount ≠ 0)
    (hround : mqTakeHead q maxlen = .returns result out q') :
    ∃ n message, h.Next n ∧ h.sent[n]? = some message ∧ out = message.cut maxlen ∧
      result = (message.cut maxlen).length ∧
      ∃ order', Stores q' { h with received := h.received ++ [n] } order' := by
  have hpos : 0 < q.msgCount := Nat.pos_of_ne_zero hsome
  obtain ⟨message, hsent, hholds⟩ := hq.holds 0 hpos
  have hpresent : h.Present (order 0) := (hq.present _).mpr ⟨0, hpos, rfl⟩
  unfold mqTakeHead at hround
  cases hround
  refine ⟨order 0, message, ⟨hpresent, ?_⟩, hsent, hholds.cut, hholds.length_cut,
    Slots.removeHead order q.msgCount, ?_⟩
  · intro n hn hne
    obtain ⟨k, hk, rfl⟩ := (hq.present n).mp hn
    apply hq.ordered 0 k ?_ hk
    apply Nat.pos_of_ne_zero
    rintro rfl
    exact hne rfl
  · constructor
    case count => exact (Nat.sub_le _ _).trans hq.count
    case holds =>
      dsimp only
      rw [Slots.shiftDown_one]
      exact Slots.removeHead_forall (R := Filed h.sent) hq.holds
    case ordered => exact Slots.removeHead_pairwise hq.ordered
    case present =>
      intro n
      rw [Slots.exists_removeHead hpos hq.first, ← hq.present]
      unfold History.Present
      dsimp only
      rw [List.mem_append, List.mem_singleton, not_or]
      tauto
    case nodup =>
      rw [← List.concat_eq_append]
      exact hq.nodup.concat hpresent.2
    case total =>
      have htotal := hq.total
      dsimp only
      rw [List.length_append, List.length_singleton]
      omega
    case below =>
      intro n hn
      rcases List.mem_append.mp hn with hold | hnew
      · exact hq.below n hold
      · rw [List.mem_singleton.mp hnew]
        exact hpresent.1

/-- What a call that does not block returns, an abstract queue returns too. -/
theorem Stores.round (hq : Stores q h order) (hround : mqRound q call = .returns result out q') :
    ∃ h' order', Serves h call ⟨result, out⟩ h' ∧ Stores q' h' order' := by
  cases call with
  | send data priority =>
    obtain ⟨rfl, rfl, order', hq'⟩ := hq.send hround
    exact ⟨_, order', .send data priority, hq'⟩
  | recv maxlen =>
    unfold mqRound mqRecvRound at hround
    dsimp only at hround
    split at hround
    case isTrue => cases hround
    case isFalse hsome =>
      obtain ⟨n, message, hnext, hsent, rfl, rfl, order', hq'⟩ := hq.takeHead hsome hround
      exact ⟨_, order', .recv n maxlen hnext message hsent, hq'⟩
  | tryrecv maxlen =>
    unfold mqRound mqTryrecvRound at hround
    dsimp only at hround
    split at hround
    case isTrue hnone =>
      cases hround
      refine ⟨h, order, .empty maxlen fun n hn => ?_, hq⟩
      obtain ⟨k, hk, -⟩ := (hq.present n).mp hn
      omega
    case isFalse hsome =>
      obtain ⟨n, message, hnext, hsent, rfl, rfl, order', hq'⟩ := hq.takeHead hsome hround
      exact ⟨_, order', .tryrecv n maxlen hnext message hsent, hq'⟩

/-- Invariant of the runs. -/
def MqLog.Inv (s : MqLog) : Prop := ∃ h order, Served h s.calls ∧ Stores s.queue h order

theorem MqLog.Inv.step (hs : s.Inv) (hstep : mqStep s call = some t) : t.Inv := by
  obtain ⟨h, order, hserved, hq⟩ := hs
  unfold mqStep at hstep
  split at hstep
  case h_1 => cases hstep
  case h_2 hround =>
    cases hstep
    obtain ⟨h', order', hserves, hq'⟩ := hq.round hround
    exact ⟨h', order', .next hserved hserves, hq'⟩

theorem stores_mqCreate {name : List Char} {id : Nat} :
    Stores (mqCreate name id) ⟨[], []⟩ fun k => k := by
  refine ⟨Nat.zero_le _, fun k hk => ?_, fun j k _ hk => ?_, fun n => ?_, List.nodup_nil, rfl,
    fun n hn => ?_⟩
  · cases hk
  · cases hk
  · constructor
    · rintro ⟨hn, -⟩
      cases hn
    · rintro ⟨k, hk, -⟩
      cases hk
  · cases hn

theorem MqLog.Inv.queueOk (hs : s.Inv) : QueueOk s := by
  obtain ⟨h, order, hserved, hq⟩ := hs
  exact ⟨hq.count, fun i hi => hq.sorted (Nat.lt_succ_self i) hi, h, hserved, hq.nodup, hq.total⟩

theorem mq_order (name : List Char) (id : Nat) (calls : List MqCall) :
    Run.EveryState mqStep QueueOk ⟨mqCreate name id, []⟩ calls := by
  have hinv : MqLog.Inv ⟨mqCreate name id, []⟩ := ⟨_, _, .start, stores_mqCreate⟩
  have hany : Run.EveryStep mqStep (fun _ _ _ => True) ⟨mqCreate name id, []⟩ calls :=
    Run.everyStep_of_forall (A := fun _ => True) fun _ _ => trivial
  exact hany.everyState (fun _ _ _ hs hstep _ => hs.step hstep) (fun _ hs => hs.queueOk) hinv

end PinguinOS.Ipc
