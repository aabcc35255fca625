import PinguinOS.Lib.Ring
import PinguinOS.Sync.Monitor

/-! Pipes: what is read is what was written, in order, for any readers and writers. -/
namespace PinguinOS.Ipc

open Mm (u32 sub32 int32)
open Sync (Section Monitor MonitorReachable CallPc)

def pipeBufSize : Nat := 4096

/-- `pipe_t`; its lock and its condition variables are those of the monitor. -/
structure Pipe where
  buf : Nat → BitVec 8
  readPos : Nat
  writePos : Nat
  count : Nat
  refRead : Nat
  refWrite : Nat

/-- The pipe as `pipe_create` leaves it. -/
def pipeCreate : Pipe where
  buf := fun _ => 0
  readPos := 0
  writePos := 0
  count := 0
  refRead := 1
  refWrite := 1

/-- The copying loop of `pipe_read`. -/
def takeBytes (p : Pipe) : (n : Nat) → List (BitVec 8) × Pipe
  | 0 => ([], p)
  | n + 1 =>
    let byte := p.buf (p.readPos % pipeBufSize)
    let (bytes, p) := takeBytes { p with readPos := u32 (p.readPos + 1) } n
    (byte :: bytes, p)

/-- The copying loop of `pipe_write`. -/
def putBytes (p : Pipe) : List (BitVec 8) → Pipe
  | [] => p
  | byte :: bytes =>
    putBytes
      { p with
        buf := Function.update p.buf (p.writePos % pipeBufSize) byte
        writePos := u32 (p.writePos + 1) } bytes

/-- How a call goes on: it waits, it has `written` bytes so far, or it returns. -/
inductive PipeOutcome
  | wait
  | more (written : Nat) (chunk : List (BitVec 8)) (p : Pipe)
  | returns (result : Int) (out : List (BitVec 8)) (p : Pipe)

/-- `pipe_read` from the test of the waiting loop on. -/
def pipeReadRound (p : Pipe) (len : Nat) : PipeOutcome :=
  if p.count = 0 then
    if p.refWrite = 0 then .returns 0 [] p else .wait
  else
    let n := if len < p.count then len else p.count
    let (out, p) := takeBytes p n
    .returns (int32 n) out { p with count := p.count - n }

/-- `pipe_write` up to its loop. -/
def pipeWriteStart (p : Pipe) : PipeOutcome :=
  if p.refRead = 0 then .returns (-1) [] p else .more 0 [] p

/-- One round of the loop of `pipe_write`. -/
def pipeWriteRound (p : Pipe) (buf : List (BitVec 8)) (written : Nat) : PipeOutcome :=
  if written < buf.length then
    if p.count = pipeBufSize then
      if p.refRead = 0 then .returns (-1) [] p else .wait
    else
      let space := pipeBufSize - p.count
      let chunk := if buf.length - written < space then buf.length - written else space
      let bytes := (buf.drop written).take chunk
      let p := putBytes p bytes
      .more (written + chunk) bytes { p with count := p.count + chunk }
  else .returns (int32 written) [] p

/-! Tasks that read and write. -/

inductive PipeCall
  | read (len : Nat)
  | writeStart (buf : List (BitVec 8))
  | write (buf : List (BitVec 8)) (written : Nat)

/-- A pipe, and what went through it: the bytes stored, with their writers, the bytes returned,
and for each task the bytes of the writes that it has finished. -/
structure PipeLog where
  pipe : Pipe
  stored : List (Nat × BitVec 8)
  returned : List (BitVec 8)
  done : Nat → List (BitVec 8)

def PipeLog.start : PipeLog where
  pipe := pipeCreate
  stored := []
  returned := []
  done := fun _ => []

/-- Calls start with a length that is a `uint32_t`. -/
def pipeEntry (_ : Nat) : PipeCall → Prop
  | .read len => len < 2 ^ 32
  | .writeStart buf => buf.length < 2 ^ 32
  | .write _ _ => False

/-- The rounds of `pipe_read` and `pipe_write`. -/
def pipeBody (t : Nat) (call : PipeCall) (d : PipeLog) : Section PipeLog PipeCall :=
  match call with
  | .read len =>
    match pipeReadRound d.pipe len with
    | .returns _ out p => .leave { d with pipe := p, returned := d.returned ++ out }
    | _ => .wait
  | .writeStart buf =>
    match pipeWriteStart d.pipe with
    | .more written _ p => .again (.write buf written) { d with pipe := p }
    | .returns _ _ p => .leave { d with pipe := p }
    | .wait => .wait
  | .write buf written =>
    match pipeWriteRound d.pipe buf written with
    | .more written chunk p =>
      .again (.write buf written)
        { d with pipe := p, stored := d.stored ++ chunk.map fun byte => (t, byte) }
    | .returns _ _ p =>
      .leave { d with pipe := p, done := Function.update d.done t (d.done t ++ buf) }
    | .wait => .wait

/-- The bytes that a task has stored. -/
def PipeLog.own (d : PipeLog) (t : Nat) : List (BitVec 8) :=
  (d.stored.filter fun entry => entry.1 = t).map Prod.snd

/-- The bytes of the call at this place that have been stored. -/
def PipeCall.progress : PipeCall → List (BitVec 8)
  | .write buf written => buf.take written
  | _ => []

def progressAt : CallPc PipeCall → List (BitVec 8)
  | .locking call => call.progress
  | .inside call => call.progress
  | .waiting call => call.progress
  | _ => []

/-- The stream in one state of the tasks. -/
structure StreamOk (s : Monitor PipeLog PipeCall) : Prop where
  count : s.data.pipe.count = sub32 s.data.pipe.writePos s.data.pipe.readPos
  bound : s.data.pipe.count ≤ pipeBufSize
  inOrder : s.data.returned <+: s.data.stored.map Prod.snd
  kept : s.data.stored.map Prod.snd = s.data.returned ++
    Ring.contents s.data.pipe.buf pipeBufSize s.data.pipe.readPos s.data.pipe.count
  own : ∀ t, s.data.own t = s.data.done t ++ progressAt (s.pc t)

/-! The copying loops work on the ring. -/

variable {p p' : Pipe} {d d' : PipeLog} {n len written t u : Nat}
  {bytes buf out chunk : List (BitVec 8)} {result : Int} {call call' : PipeCall}

theorem mod_pipeBufSize_u32 (n : Nat) : u32 n % pipeBufSize = n % pipeBufSize :=
  Nat.mod_mod_of_dvd n (by decide)

theorem takeBytes_eq (h : p.readPos < 2 ^ 32) :
    takeBytes p n = (Ring.contents p.buf pipeBufSize p.readPos n,
      { p with readPos := u32 (p.readPos + n) }) := by
  induction n generalizing p with
  | zero =>
    unfold takeBytes
    rw [Nat.add_zero, Mm.u32_of_lt h]
    rfl
  | succ n ih =>
    have hrest := @ih { p with readPos := u32 (p.readPos + 1) } Mm.u32_lt
    have hpos : u32 (u32 (p.readPos + 1) + n) = u32 (p.readPos + (n + 1)) := by
      unfold u32
      omega
    have hcontents : Ring.contents p.buf pipeBufSize p.readPos (n + 1) =
        p.buf (p.readPos % pipeBufSize) ::
          Ring.contents p.buf pipeBufSize (u32 (p.readPos + 1)) n := by
      rw [Nat.add_comm n 1, Ring.contents_add, Ring.contents_congr (mod_pipeBufSize_u32 _)]
      rfl
    unfold takeBytes
    rw [hrest, hcontents]
    dsimp only
    rw [hpos]

theorem putBytes_eq (h : p.writePos < 2 ^ 32) :
    putBytes p bytes =
      { p with
        buf := Ring.pushAll p.buf pipeBufSize p.writePos bytes
        writePos := u32 (p.writePos + bytes.length) } := by
  induction bytes generalizing p with
  | nil =>
    unfold putBytes
    rw [List.length_nil, Nat.add_zero, Mm.u32_of_lt h]
    rfl
  | cons byte bytes ih =>
    have hrest := @ih
      { p with
        buf := Function.update p.buf (p.writePos % pipeBufSize) byte
        writePos := u32 (p.writePos + 1) } Mm.u32_lt
    have hpos : u32 (u32 (p.writePos + 1) + bytes.length) =
        u32 (p.writePos + (bytes.length + 1)) := by
      unfold u32
      omega
    unfold putBytes
    rw [hrest]
    dsimp only
    rw [hpos, Ring.pushAll_congr (mod_pipeBufSize_u32 _)]
    rfl

/-! What the data keep, whoever reads and writes. -/

/-- The bytes in the pipe. -/
def Pipe.stream (p : Pipe) : List (BitVec 8) := Ring.contents p.buf pipeBufSize p.readPos p.count

structure Pipe.Ok (p : Pipe) : Prop where
  readPos : p.readPos < 2 ^ 32
  writePos : p.writePos = u32 (p.readPos + p.count)
  count : p.count ≤ pipeBufSize
  open_ : p.refRead = 1 ∧ p.refWrite = 1

theorem pipeCreate_ok : pipeCreate.Ok := ⟨by decide, rfl, by decide, rfl, rfl⟩

/-- A read returns the first bytes and leaves the others. -/
theorem pipeReadRound_spec (h : p.Ok)
    (hround : pipeReadRound p len = .returns result out p') : p'.Ok ∧ p.stream = out ++ p'.stream := by
  unfold pipeReadRound at hround
  split at hround
  · rw [h.open_.2] at hround
    cases hround
  · obtain ⟨n, hn, hmin⟩ : ∃ n, n ≤ p.count ∧ n = if len < p.count then len else p.count := by
      refine ⟨_, ?_, rfl⟩
      split <;> omega
    dsimp only at hround
    rw [← hmin, takeBytes_eq h.readPos] at hround
    cases hround
    constructor
    · refine ⟨Mm.u32_lt, ?_, (Nat.sub_le _ _).trans h.count, h.open_⟩
      have hwrite := h.writePos
      dsimp only
      unfold u32 at hwrite ⊢
      omega
    · unfold Pipe.stream
      dsimp only
      have hsplit : p.count = n + (p.count - n) := by omega
      rw [Ring.contents_congr (mod_pipeBufSize_u32 _), ← Ring.contents_add, ← hsplit]

/-- A round of a write puts the next bytes of the buffer behind those in the pipe. -/
theorem pipeWriteRound_more (h : p.Ok)
    (hround : pipeWriteRound p buf written = .more len chunk p') :
    p'.Ok ∧ p'.stream = p.stream ++ chunk ∧ buf.take len = buf.take written ++ chunk := by
  have hcount := h.count
  unfold pipeWriteRound at hround
  split at hround
  case isTrue hless =>
    split at hround
    case isTrue =>
      rw [h.open_.1] at hround
      cases hround
    case isFalse hroom =>
      obtain ⟨n, hn, hfit, hmin⟩ : ∃ n, n ≤ pipeBufSize - p.count ∧ n ≤ buf.length - written ∧
          n = if buf.length - written < pipeBufSize - p.count then buf.length - written
            else pipeBufSize - p.count := by
        refine ⟨_, ?_, ?_, rfl⟩ <;> split <;> omega
      have hpos : p.writePos < 2 ^ 32 := by
        rw [h.writePos]
        exact Mm.u32_lt
      have hlength : ((buf.drop written).take n).length = n := by
        rw [List.length_take, List.length_drop]
        omega
      dsimp only at hround
      rw [← hmin, putBytes_eq hpos, hlength] at hround
      cases hround
      refine ⟨⟨h.readPos, ?_, ?_, h.open_⟩, ?_, List.take_add⟩
      · have hwrite := h.writePos
        dsimp only
        unfold u32 at hwrite ⊢
        omega
      · dsimp only
        omega
      · have hpush := @Ring.contents_pushAll _ p.buf pipeBufSize p.count p.readPos
          ((buf.drop written).take n) (by omega)
        have hplace : Ring.pushAll p.buf pipeBufSize p.writePos ((buf.drop written).take n) =
            Ring.pushAll p.buf pipeBufSize (p.readPos + p.count) ((buf.drop written).take n) := by
          apply Ring.pushAll_congr
          rw [h.writePos, mod_pipeBufSize_u32]
        rw [hlength] at hpush
        unfold Pipe.stream
        dsimp only
        rw [hplace, hpush]
  case isFalse => cases hround

/-- A write returns when all of its bytes are in. -/
theorem pipeWriteRound_returns (h : p.Ok)
    (hround : pipeWriteRound p buf written = .returns result out p') :
    p' = p ∧ buf.take written = buf := by
  unfold pipeWriteRound at hround
  split at hround
  case isTrue =>
    split at hround
    · rw [h.open_.1] at hround
      cases hround
    · cases hround
  case isFalse hall =>
    cases hround
    exact ⟨rfl, List.take_of_length_le (by omega)⟩

structure PipeLog.Ok (d : PipeLog) : Prop where
  pipe : d.pipe.Ok
  kept : d.stored.map Prod.snd = d.returned ++ d.pipe.stream

/-- The bytes of a task are those of its writes so far, the one it is in included. -/
def OwnIn (t : Nat) (call : PipeCall) (d : PipeLog) : Prop := d.own t = d.done t ++ call.progress

def OwnDone (t : Nat) (d : PipeLog) : Prop := d.own t = d.done t

theorem own_append (hd : d'.stored = d.stored ++ chunk.map fun byte => (t, byte)) :
    d'.own u = d.own u ++ if u = t then chunk else [] := by
  unfold PipeLog.own
  rw [hd, List.filter_append, List.map_append]
  congr 1
  split
  case isTrue h =>
    have hall : ∀ entry ∈ chunk.map fun byte => (t, byte), decide (entry.1 = u) = true := by
      intro entry hentry
      obtain ⟨byte, -, rfl⟩ := List.mem_map.mp hentry
      exact decide_eq_true h.symm
    rw [List.filter_eq_self.mpr hall, List.map_map]
    exact List.map_id _
  case isFalse h =>
    have hnone : ∀ entry ∈ chunk.map fun byte => (t, byte), ¬ decide (entry.1 = u) = true := by
      intro entry hentry heq
      obtain ⟨byte, -, rfl⟩ := List.mem_map.mp hentry
      exact h (of_decide_eq_true heq).symm
    rw [List.filter_eq_nil_iff.mpr hnone]
    rfl

/-- What a task does leaves the bytes and the finished writes of the others as they are. -/
theorem others_same (hown : d'.own u = d.own u) (hdone : d'.done u = d.done u) :
    (∀ j, OwnIn u j d → OwnIn u j d') ∧ (OwnDone u d → OwnDone u d') := by
  unfold OwnIn OwnDone
  rw [hown, hdone]
  exact ⟨fun _ h => h, fun h => h⟩

theorem pipeRule : Sync.Rule pipeEntry pipeBody (fun _ _ => True) PipeLog.Ok OwnIn OwnDone := by
  constructor
  case call =>
    intro t call d hentry hdone
    cases call with
    | read len => exact hdone.trans (List.append_nil _).symm
    | writeStart buf => exact hdone.trans (List.append_nil _).symm
    | write buf written => cases hentry
  case again =>
    intro t call call' d d' _ hok hown hbody
    cases call with
    | read len =>
      unfold pipeBody at hbody
      dsimp only at hbody
      split at hbody <;> cases hbody
    | writeStart buf =>
      unfold pipeBody pipeWriteStart at hbody
      rw [hok.pipe.open_.1] at hbody
      cases hbody
      exact ⟨⟨hok.pipe, hok.kept⟩, hown, fun u _ => others_same rfl rfl⟩
    | write buf written =>
      unfold pipeBody at hbody
      dsimp only at hbody
      split at hbody
      case h_1 hround =>
        cases hbody
        obtain ⟨hpipe, hbytes, htake⟩ := pipeWriteRound_more hok.pipe hround
        refine ⟨⟨hpipe, ?_⟩, ?_, fun u hu => others_same ?_ rfl⟩
        · dsimp only
          rw [List.map_append, hok.kept, hbytes, List.append_assoc, List.map_map]
          congr 2
          exact List.map_id _
        · refine (own_append rfl).trans ?_
          rw [if_pos rfl, hown, List.append_assoc]
          exact congrArg _ htake.symm
        · rw [own_append rfl, if_neg hu, List.append_nil]
      case h_2 => cases hbody
      case h_3 => cases hbody
  case leave =>
    intro t call d d' _ hok hown hbody
    cases call with
    | read len =>
      unfold pipeBody at hbody
      dsimp only at hbody
      split at hbody
      case h_1 hround =>
        cases hbody
        obtain ⟨hpipe, hbytes⟩ := pipeReadRound_spec hok.pipe hround
        refine ⟨⟨hpipe, ?_⟩, hown.trans (List.append_nil _), fun u _ => others_same rfl rfl⟩
        dsimp only
        rw [hok.kept, hbytes, List.append_assoc]
      case h_2 => cases hbody
    | writeStart buf =>
      unfold pipeBody pipeWriteStart at hbody
      rw [hok.pipe.open_.1] at hbody
      cases hbody
    | write buf written =>
      unfold pipeBody at hbody
      dsimp only at hbody
      split at hbody
      case h_1 => cases hbody
      case h_2 hround =>
        cases hbody
        obtain ⟨rfl, hall⟩ := pipeWriteRound_returns hok.pipe hround
        refine ⟨⟨hok.pipe, hok.kept⟩, ?_, fun u hu => others_same rfl ?_⟩
        · unfold OwnDone
          dsimp only
          rw [Function.update_self, ← hall]
          exact hown
        · exact Function.update_of_ne hu _ _
      case h_3 => cases hbody

end PinguinOS.Ipc
