import PinguinOS.Ipc.Pipe

/-! Pipes whose ends are closed while tasks read and write: what a read that returns nothing, and
a write that fails, say about the other end. -/
namespace PinguinOS.Ipc

open Mm (u32 int32)
open Sync (Section Monitor MonitorStep MonitorNext MonitorReachable CallPc)

/-- `pipe_close_read` with the lock. -/
def pipeCloseRead (p : Pipe) : Pipe :=
  { p with refRead := if p.refRead ≠ 0 then p.refRead - 1 else p.refRead }

/-- `pipe_close_write` with the lock. -/
def pipeCloseWrite (p : Pipe) : Pipe :=
  { p with refWrite := if p.refWrite ≠ 0 then p.refWrite - 1 else p.refWrite }

inductive PipeEndCall
  | stream (call : PipeCall)
  | closeRead
  | closeWrite

/-- A `pipe_read` that returned: the bytes returned and stored before it, and the write ends. -/
structure PipeRead where
  len : Nat
  result : Int
  out : List (BitVec 8)
  position : Nat
  stored : Nat
  writers : Nat

/-- A `pipe_write` that returned, the bytes it stored, and the read ends. -/
structure PipeWritten where
  buf : List (BitVec 8)
  written : Nat
  result : Int
  readers : Nat

structure PipeHistory where
  log : PipeLog
  reads : List PipeRead
  writes : List PipeWritten

def PipeHistory.start : PipeHistory where
  log := .start
  reads := []
  writes := []

def PipeHistory.addRead (d : PipeHistory) (len : Nat) (result : Int) (out : List (BitVec 8))
    (p : Pipe) : PipeHistory where
  log := { d.log with pipe := p, returned := d.log.returned ++ out }
  reads := d.reads ++
    [⟨len, result, out, d.log.returned.length, d.log.stored.length, d.log.pipe.refWrite⟩]
  writes := d.writes

def PipeHistory.addWrite (d : PipeHistory) (t : Nat) (buf : List (BitVec 8)) (written : Nat)
    (result : Int) (p : Pipe) : PipeHistory where
  log :=
    { d.log with
      pipe := p
      done := Function.update d.log.done t (d.log.done t ++ buf.take written) }
  reads := d.reads
  writes := d.writes ++ [⟨buf, written, result, d.log.pipe.refRead⟩]

def endsEntry (t : Nat) : PipeEndCall → Prop
  | .stream call => pipeEntry t call
  | .closeRead => True
  | .closeWrite => True

/-- The rounds of the calls. -/
def endsBody (t : Nat) (call : PipeEndCall) (d : PipeHistory) :
    Section PipeHistory PipeEndCall :=
  match call with
  | .stream (.read len) =>
    match pipeReadRound d.log.pipe len with
    | .returns result out p => .leave (d.addRead len result out p)
    | _ => .wait
  | .stream (.writeStart buf) =>
    match pipeWriteStart d.log.pipe with
    | .more written _ p =>
      .again (.stream (.write buf written)) { d with log := { d.log with pipe := p } }
    | .returns result _ p => .leave (d.addWrite t buf 0 result p)
    | .wait => .wait
  | .stream (.write buf written) =>
    match pipeWriteRound d.log.pipe buf written with
    | .more written chunk p =>
      .again (.stream (.write buf written))
        { d with
          log :=
            { d.log with
              pipe := p
              stored := d.log.stored ++ chunk.map fun byte => (t, byte) } }
    | .returns result _ p => .leave (d.addWrite t buf written result p)
    | .wait => .wait
  | .closeRead => .leave { d with log := { d.log with pipe := pipeCloseRead d.log.pipe } }
  | .closeWrite => .leave { d with log := { d.log with pipe := pipeCloseWrite d.log.pipe } }

/-- All bytes that were stored. -/
def PipeHistory.bytes (d : PipeHistory) : List (BitVec 8) := d.log.stored.map Prod.snd

/-- What a read returned is what was stored behind the bytes returned before it, as much as there
was, and nothing only when the write end was closed. -/
structure PipeRead.Ok (r : PipeRead) (bytes : List (BitVec 8)) : Prop where
  result : r.result = int32 r.out.length
  position : r.position ≤ r.stored
  stored : r.stored ≤ bytes.length
  length : r.out.length = min r.len (r.stored - r.position)
  out : r.out <+: bytes.drop r.position
  endOfFile : r.position = r.stored → r.writers = 0

/-- A write stored all of its bytes, or failed because the read end was closed. -/
def PipeWritten.Ok (w : PipeWritten) : Prop :=
  w.result = int32 w.buf.length ∧ w.written = w.buf.length ∨
    w.result = -1 ∧ w.readers = 0 ∧ w.written ≤ w.buf.length

def PipeEndCall.progress : PipeEndCall → List (BitVec 8)
  | .stream call => call.progress
  | _ => []

def endsProgressAt : CallPc PipeEndCall → List (BitVec 8)
  | .locking call => call.progress
  | .inside call => call.progress
  | .waiting call => call.progress
  | _ => []

/-- A pipe whose ends may be closed, in one state of the tasks. -/
structure PipeEndsOk (s : Monitor PipeHistory PipeEndCall) : Prop where
  bound : s.data.log.pipe.count ≤ pipeBufSize
  kept : s.data.bytes = s.data.log.returned ++ s.data.log.pipe.stream
  returned : s.data.log.returned = (s.data.reads.map PipeRead.out).flatten
  reads : ∀ r ∈ s.data.reads, r.Ok s.data.bytes
  writes : ∀ w ∈ s.data.writes, w.Ok
  own : ∀ t, s.data.log.own t = s.data.log.done t ++ endsProgressAt (s.pc t)
  readersEnd : s.data.log.pipe.refWrite = 0 →
    ∀ t len, endsBody t (.stream (.read len)) s.data ≠ .wait
  writersEnd : s.data.log.pipe.refRead = 0 →
    ∀ t buf written, endsBody t (.stream (.write buf written)) s.data ≠ .wait

variable {p p' : Pipe} {d d' : PipeHistory} {t u n len written : Nat} {result : Int}
  {bytes buf out chunk : List (BitVec 8)} {call : PipeEndCall} {r : PipeRead}

/-! The ring, whichever ends are open. -/

structure Pipe.Sound (p : Pipe) : Prop where
  readPos : p.readPos < 2 ^ 32
  writePos : p.writePos = u32 (p.readPos + p.count)
  count : p.count ≤ pipeBufSize

theorem length_stream : p.stream.length = p.count := Ring.length_contents

theorem Pipe.Sound.take (h : p.Sound) (hn : n ≤ p.count) :
    Pipe.Sound { p with readPos := u32 (p.readPos + n), count := p.count - n } ∧
      p.stream = Ring.contents p.buf pipeBufSize p.readPos n ++
        Pipe.stream { p with readPos := u32 (p.readPos + n), count := p.count - n } := by
  have hwrite := h.writePos
  have hcount := h.count
  refine ⟨⟨Mm.u32_lt, ?_, ?_⟩, ?_⟩
  · dsimp only
    unfold u32 at hwrite ⊢
    omega
  · dsimp only
    omega
  · unfold Pipe.stream
    dsimp only
    have hsplit : p.count = n + (p.count - n) := by omega
    rw [Ring.contents_congr (mod_pipeBufSize_u32 _), ← Ring.contents_add, ← hsplit]

theorem Pipe.Sound.put (h : p.Sound) (hfit : p.count + bytes.length ≤ pipeBufSize) :
    Pipe.Sound { putBytes p bytes with count := p.count + bytes.length } ∧
      Pipe.stream { putBytes p bytes with count := p.count + bytes.length } =
        p.stream ++ bytes := by
  have hwrite := h.writePos
  have hpos : p.writePos < 2 ^ 32 := hwrite ▸ Mm.u32_lt
  rw [putBytes_eq hpos]
  refine ⟨⟨h.readPos, ?_, hfit⟩, ?_⟩
  · dsimp only
    unfold u32 at hwrite ⊢
    omega
  · have hplace : Ring.pushAll p.buf pipeBufSize p.writePos bytes =
        Ring.pushAll p.buf pipeBufSize (p.readPos + p.count) bytes := by
      apply Ring.pushAll_congr
      rw [hwrite, mod_pipeBufSize_u32]
    unfold Pipe.stream
    dsimp only
    rw [hplace, Ring.contents_pushAll hfit]

/-- A read leaves the bytes it does not return, and the ends. -/
structure PipeTaken (p p' : Pipe) (len : Nat) (result : Int) (out : List (BitVec 8)) : Prop where
  sound : p'.Sound
  ends : p'.refRead = p.refRead ∧ p'.refWrite = p.refWrite
  stream : p.stream = out ++ p'.stream
  result : result = int32 out.length
  length : out.length = min len p.count
  closed : p.count = 0 → p.refWrite = 0

theorem pipeReadRound_taken (h : p.Sound)
    (hround : pipeReadRound p len = .returns result out p') : PipeTaken p p' len result out := by
  unfold pipeReadRound at hround
  split at hround
  case isTrue hempty =>
    split_ifs at hround with hclosed
    cases hround
    refine ⟨h, ⟨rfl, rfl⟩, rfl, by decide, ?_, fun _ => hclosed⟩
    rw [hempty, Nat.min_zero]
    rfl
  case isFalse hempty =>
    obtain ⟨n, hn, hmin⟩ : ∃ n, n = min len p.count ∧ (if len < p.count then len else p.count) = n :=
      ⟨_, rfl, by split_ifs <;> omega⟩
    dsimp only at hround
    rw [hmin, takeBytes_eq h.readPos] at hround
    cases hround
    obtain ⟨hsound, hstream⟩ := @Pipe.Sound.take p n h (by omega)
    have hlength : (Ring.contents p.buf pipeBufSize p.readPos n).length = n := Ring.length_contents
    exact ⟨hsound, ⟨rfl, rfl⟩, hstream, by rw [hlength], hlength.trans hn,
      fun hzero => absurd hzero hempty⟩

/-- A round of a write puts its next bytes behind the others. -/
structure PipePut (p p' : Pipe) (buf : List (BitVec 8)) (written n : Nat)
    (chunk : List (BitVec 8)) : Prop where
  sound : p'.Sound
  ends : p'.refRead = p.refRead ∧ p'.refWrite = p.refWrite
  stream : p'.stream = p.stream ++ chunk
  taken : buf.take n = buf.take written ++ chunk

theorem pipeWriteRound_put (h : p.Sound)
    (hround : pipeWriteRound p buf written = .more n chunk p') : PipePut p p' buf written n chunk := by
  unfold pipeWriteRound at hround
  split at hround
  case isFalse => cases hround
  split at hround
  case isTrue => split_ifs at hround
  obtain ⟨m, hroom, hleft, hmin⟩ : ∃ m, m ≤ pipeBufSize - p.count ∧ m ≤ buf.length - written ∧
      (if buf.length - written < pipeBufSize - p.count then buf.length - written
        else pipeBufSize - p.count) = m := by
    refine ⟨_, ?_, ?_, rfl⟩ <;> split_ifs <;> omega
  have hlength : ((buf.drop written).take m).length = m := by
    rw [List.length_take, List.length_drop]
    omega
  have hcount := h.count
  obtain ⟨hsound, hstream⟩ := @Pipe.Sound.put p ((buf.drop written).take m) h (by omega)
  have hpos : p.writePos < 2 ^ 32 := h.writePos ▸ Mm.u32_lt
  rw [putBytes_eq hpos, hlength] at hsound hstream
  dsimp only at hround
  rw [hmin, putBytes_eq hpos, hlength] at hround
  cases hround
  exact ⟨hsound, ⟨rfl, rfl⟩, hstream, List.take_add⟩

theorem pipeWriteRound_ended (hround : pipeWriteRound p buf written = .returns result out p') :
    p' = p ∧ (result = int32 written ∧ buf.length ≤ written ∨
      result = -1 ∧ p.refRead = 0 ∧ written < buf.length) := by
  unfold pipeWriteRound at hround
  split at hround
  case isTrue hless =>
    split at hround
    case isTrue =>
      split_ifs at hround with hclosed
      cases hround
      exact ⟨rfl, Or.inr ⟨rfl, hclosed, hless⟩⟩
    case isFalse => cases hround
  case isFalse hall =>
    cases hround
    exact ⟨rfl, Or.inl ⟨rfl, by omega⟩⟩

theorem pipeReadRound_closed (h : p.refWrite = 0) : pipeReadRound p len ≠ .wait := by
  unfold pipeReadRound
  split
  · exact nofun
  · exact nofun

theorem pipeWriteRound_closed (h : p.refRead = 0) : pipeWriteRound p buf written ≠ .wait := by
  unfold pipeWriteRound
  split
  · split
    · exact nofun
    · exact nofun
  · exact nofun

theorem pipeReadRound_not_more : pipeReadRound p len ≠ .more n chunk p' := by
  unfold pipeReadRound
  split
  · split_ifs
    · exact nofun
    · exact nofun
  · exact nofun

theorem pipeWriteRound_le (hround : pipeWriteRound p buf written = .more n chunk p') :
    n ≤ buf.length := by
  unfold pipeWriteRound at hround
  split at hround
  case isTrue hless =>
    split at hround
    case isTrue => split_ifs at hround
    case isFalse =>
      cases hround
      split_ifs <;> omega
  case isFalse => cases hround

/-! What the calls keep. -/

structure PipeHistory.Ok (d : PipeHistory) : Prop where
  pipe : d.log.pipe.Sound
  kept : d.bytes = d.log.returned ++ d.log.pipe.stream
  returned : d.log.returned = (d.reads.map PipeRead.out).flatten
  reads : ∀ r ∈ d.reads, r.Ok d.bytes
  before : ∀ r ∈ d.reads, r.position + r.out.length ≤ d.log.returned.length
  order : d.reads.Pairwise fun r r' => r.position + r.out.length ≤ r'.position
  writes : ∀ w ∈ d.writes, w.Ok

theorem ok_start : PipeHistory.start.Ok where
  pipe := ⟨by decide, rfl, by decide⟩
  kept := rfl
  returned := rfl
  reads := nofun
  before := nofun
  order := .nil
  writes := nofun

theorem length_bytes : d.bytes.length = d.log.stored.length := List.length_map _

theorem PipeRead.Ok.append (h : r.Ok bytes) : r.Ok (bytes ++ chunk) where
  result := h.result
  position := h.position
  stored := by
    rw [List.length_append]
    have hstored := h.stored
    omega
  length := h.length
  out := by
    rw [List.drop_append]
    exact h.out.trans (List.prefix_append _ _)
  endOfFile := h.endOfFile

/-- A round that changes the ends only. -/
theorem PipeHistory.Ok.ends (h : d.Ok) (hsound : p.Sound) (hstream : p.stream = d.log.pipe.stream) :
    PipeHistory.Ok { d with log := { d.log with pipe := p } } where
  pipe := hsound
  kept := by
    rw [hstream]
    exact h.kept
  returned := h.returned
  reads := h.reads
  before := h.before
  order := h.order
  writes := h.writes

theorem PipeHistory.Ok.addRead (h : d.Ok) (htaken : PipeTaken d.log.pipe p len result out) :
    (d.addRead len result out p).Ok := by
  have hlength : d.log.stored.length = d.log.returned.length + d.log.pipe.count := by
    rw [← length_bytes, h.kept, List.length_append, length_stream]
  have hmem : ∀ r ∈ (d.addRead len result out p).reads, r ∈ d.reads ∨ r =
      ⟨len, result, out, d.log.returned.length, d.log.stored.length, d.log.pipe.refWrite⟩ := by
    intro r hr
    exact (List.mem_append.mp hr).imp_right List.mem_singleton.mp
  constructor
  case pipe => exact htaken.sound
  case kept =>
    change d.bytes = d.log.returned ++ out ++ p.stream
    rw [h.kept, htaken.stream, List.append_assoc]
  case returned =>
    change d.log.returned ++ out = (List.map PipeRead.out (d.reads ++ [_])).flatten
    rw [List.map_append, List.flatten_append, ← h.returned]
    exact congrArg _ (List.append_nil _).symm
  case reads =>
    intro r hr
    rcases hmem r hr with hold | rfl
    · exact h.reads r hold
    · constructor
      case result => exact htaken.result
      case position =>
        dsimp only
        omega
      case stored => exact length_bytes.ge
      case length =>
        dsimp only
        rw [htaken.length, hlength, Nat.add_sub_cancel_left]
      case out =>
        change out <+: d.bytes.drop d.log.returned.length
        rw [h.kept, List.drop_left, htaken.stream]
        exact List.prefix_append _ _
      case endOfFile =>
        intro hend
        dsimp only at hend
        exact htaken.closed (by omega)
  case before =>
    intro r hr
    change _ ≤ (d.log.returned ++ out).length
    rw [List.length_append]
    rcases hmem r hr with hold | rfl
    · have hbefore := h.before r hold
      omega
    · exact le_rfl
  case order =>
    refine List.pairwise_append.mpr ⟨h.order, List.pairwise_singleton _ _, ?_⟩
    intro r hr r' hr'
    rw [List.mem_singleton.mp hr']
    exact h.before r hr
  case writes => exact h.writes

theorem PipeHistory.Ok.addWrite (h : d.Ok)
    (hw : PipeWritten.Ok ⟨buf, written, result, d.log.pipe.refRead⟩) :
    (d.addWrite t buf written result d.log.pipe).Ok where
  pipe := h.pipe
  kept := h.kept
  returned := h.returned
  reads := h.reads
  before := h.before
  order := h.order
  writes := by
    intro w hmem
    rcases List.mem_append.mp hmem with hold | hnew
    · exact h.writes w hold
    · rw [List.mem_singleton.mp hnew]
      exact hw

theorem PipeHistory.Ok.store (h : d.Ok) (hput : PipePut d.log.pipe p buf written n chunk) :
    PipeHistory.Ok
      { d with
        log :=
          { d.log with
            pipe := p
            stored := d.log.stored ++ chunk.map fun byte => (t, byte) } } := by
  have hbytes : (d.log.stored ++ chunk.map fun byte => (t, byte)).map Prod.snd =
      d.bytes ++ chunk := by
    rw [List.map_append, List.map_map]
    exact congrArg _ (List.map_id _)
  constructor
  case pipe => exact hput.sound
  case kept =>
    refine hbytes.trans ?_
    rw [h.kept, hput.stream, List.append_assoc]
  case returned => exact h.returned
  case reads =>
    intro r hr
    change r.Ok (List.map Prod.snd _)
    rw [hbytes]
    exact (h.reads r hr).append
  case before => exact h.before
  case order => exact h.order
  case writes => exact h.writes

/-- The bytes of a task are those of its writes so far, the one it is in included. -/
def EndsIn (t : Nat) (call : PipeEndCall) (d : PipeHistory) : Prop :=
  d.log.own t = d.log.done t ++ call.progress ∧
    ∀ buf written, call = .stream (.write buf written) → written ≤ buf.length

def EndsDone (t : Nat) (d : PipeHistory) : Prop := d.log.own t = d.log.done t

theorem ends_others (hown : d'.log.own u = d.log.own u) (hdone : d'.log.done u = d.log.done u) :
    (∀ j, EndsIn u j d → EndsIn u j d') ∧ (EndsDone u d → EndsDone u d') := by
  unfold EndsIn EndsDone
  rw [hown, hdone]
  exact ⟨fun _ h => h, fun h => h⟩

theorem EndsDone.enters (h : EndsDone t d) (hprogress : call.progress = [])
    (hwrite : ∀ buf written, call ≠ .stream (.write buf written)) : EndsIn t call d := by
  refine ⟨?_, fun buf written heq => absurd heq (hwrite buf written)⟩
  rw [hprogress, List.append_nil]
  exact h

/-- A write that returned leaves its bytes to the task. -/
theorem ends_done {p : Pipe} (h : d.log.own t = d.log.done t ++ buf.take written) :
    EndsDone t (d.addWrite t buf written result p) :=
  h.trans (Function.update_self t (d.log.done t ++ buf.take written) d.log.done).symm

theorem own_other (hu : u ≠ t) (hd : d'.log.stored = d.log.stored ++ chunk.map fun byte => (t, byte)) :
    d'.log.own u = d.log.own u := by
  rw [own_append hd, if_neg hu, List.append_nil]

theorem endsRule :
    Sync.Rule endsEntry endsBody (fun _ _ => True) PipeHistory.Ok EndsIn EndsDone := by
  constructor
  case call =>
    intro t call d hentry hdone
    cases call with
    | stream call =>
      cases call with
      | read len => exact EndsDone.enters hdone rfl nofun
      | writeStart buf => exact EndsDone.enters hdone rfl nofun
      | write buf written => cases hentry
    | closeRead => exact EndsDone.enters hdone rfl nofun
    | closeWrite => exact EndsDone.enters hdone rfl nofun
  case again =>
    intro t call call' d d' _ hok hin hbody
    cases call with
    | stream call =>
      cases call with
      | read len =>
        unfold endsBody at hbody
        dsimp only at hbody
        split at hbody <;> cases hbody
      | writeStart buf =>
        unfold endsBody pipeWriteStart at hbody
        split_ifs at hbody
        cases hbody
        refine ⟨hok.ends hok.pipe rfl, ⟨hin.1, ?_⟩, fun u _ => ends_others rfl rfl⟩
        intro buf' written heq
        cases heq
        exact Nat.zero_le _
      | write buf written =>
        unfold endsBody at hbody
        dsimp only at hbody
        split at hbody
        case h_1 hround =>
          cases hbody
          have hput := pipeWriteRound_put hok.pipe hround
          refine ⟨hok.store hput, ⟨?_, ?_⟩, fun u hu => ends_others (own_other hu rfl) rfl⟩
          · refine (own_append rfl).trans ?_
            rw [if_pos rfl, hin.1, List.append_assoc]
            exact congrArg _ hput.taken.symm
          · intro buf' written' heq
            cases heq
            exact pipeWriteRound_le hround
        case h_2 => cases hbody
        case h_3 => cases hbody
    | closeRead => cases hbody
    | closeWrite => cases hbody
  case leave =>
    intro t call d d' _ hok hin hbody
    cases call with
    | stream call =>
      cases call with
      | read len =>
        unfold endsBody at hbody
        dsimp only at hbody
        split at hbody
        case h_1 hround =>
          cases hbody
          exact ⟨hok.addRead (pipeReadRound_taken hok.pipe hround),
            hin.1.trans (List.append_nil _), fun u _ => ends_others rfl rfl⟩
        case h_2 => cases hbody
      | writeStart buf =>
        unfold endsBody pipeWriteStart at hbody
        split_ifs at hbody with hclosed
        cases hbody
        exact ⟨hok.addWrite (Or.inr ⟨rfl, hclosed, Nat.zero_le _⟩), ends_done hin.1,
          fun u hu => ends_others rfl (Function.update_of_ne hu _ _)⟩
      | write buf written =>
        unfold endsBody at hbody
        dsimp only at hbody
        split at hbody
        case h_1 => cases hbody
        case h_2 hround =>
          cases hbody
          obtain ⟨rfl, hresult⟩ := pipeWriteRound_ended hround
          refine ⟨hok.addWrite ?_, ends_done hin.1,
            fun u hu => ends_others rfl (Function.update_of_ne hu _ _)⟩
          have hle := hin.2 buf written rfl
          rcases hresult with ⟨hresult, hall⟩ | ⟨hresult, hclosed, hless⟩
          · have heq : written = buf.length := by omega
            exact Or.inl ⟨heq ▸ hresult, heq⟩
          · exact Or.inr ⟨hresult, hclosed, hle⟩
        case h_3 => cases hbody
    | closeRead =>
      cases hbody
      exact ⟨hok.ends ⟨hok.pipe.readPos, hok.pipe.writePos, hok.pipe.count⟩ rfl,
        hin.1.trans (List.append_nil _), fun u _ => ends_others rfl rfl⟩
    | closeWrite =>
      cases hbody
      exact ⟨hok.ends ⟨hok.pipe.readPos, hok.pipe.writePos, hok.pipe.count⟩ rfl,
        hin.1.trans (List.append_nil _), fun u _ => ends_others rfl rfl⟩

theorem ends_ok {s : Monitor PipeHistory PipeEndCall}
    (h : MonitorReachable endsEntry endsBody .start s) : s.data.Ok :=
  (Sync.monitor_meets endsRule ok_start (fun _ => rfl) h).1

/-- Whoever reads, writes and closes: what is read is what was written, in order; a read of at
least one byte returns nothing only when the write end is closed and everything was read, a write
fails only when the read end is closed, and nobody waits for an end that is closed. -/
theorem pipe_ends {s : Monitor PipeHistory PipeEndCall}
    (h : MonitorReachable endsEntry endsBody .start s) : PipeEndsOk s := by
  obtain ⟨hok, hin⟩ := Sync.monitor_meets endsRule ok_start (fun _ => rfl) h
  constructor
  case bound => exact hok.pipe.count
  case kept => exact hok.kept
  case returned => exact hok.returned
  case reads => exact hok.reads
  case writes => exact hok.writes
  case own =>
    intro t
    have hmine := hin t
    cases hpc : s.pc t with
    | idle =>
      rw [hpc] at hmine
      exact Eq.trans hmine (List.append_nil _).symm
    | locking k =>
      rw [hpc] at hmine
      exact hmine.1
    | inside k =>
      rw [hpc] at hmine
      exact hmine.1
    | waiting k =>
      rw [hpc] at hmine
      exact hmine.1
    | leaving =>
      rw [hpc] at hmine
      exact Eq.trans hmine (List.append_nil _).symm
  case readersEnd =>
    intro hclosed t len hwait
    unfold endsBody at hwait
    dsimp only at hwait
    split at hwait
    case h_1 => cases hwait
    case h_2 hround =>
      have hreturns := @pipeReadRound_closed s.data.log.pipe len hclosed
      cases hresult : pipeReadRound s.data.log.pipe len with
      | wait => exact hreturns hresult
      | more n chunk p => exact pipeReadRound_not_more hresult
      | returns result out p => exact hround result out p hresult
  case writersEnd =>
    intro hclosed t buf written hwait
    unfold endsBody at hwait
    dsimp only at hwait
    split at hwait
    case h_1 => cases hwait
    case h_2 => cases hwait
    case h_3 hround => exact pipeWriteRound_closed hclosed hround

/-- Task 1 closes the write end of a new pipe. -/
def closedPipe : PipeHistory :=
  { PipeHistory.start with log := { PipeLog.start with pipe := pipeCloseWrite pipeCreate } }

/-- Task 2 then asks for five bytes. -/
def endRead : PipeHistory := closedPipe.addRead 5 0 [] (pipeCloseWrite pipeCreate)

theorem closedPipe_reachable : MonitorReachable endsEntry endsBody .start (.start closedPipe) :=
  @Sync.call_alone _ _ endsEntry endsBody 1 _ _ .closeWrite (by decide) trivial rfl

theorem pipe_ends_read : PipeEndsOk (.start endRead) := by
  have hentry : endsEntry 2 (.stream (.read 5)) := (by decide : 5 < 2 ^ 32)
  have hread : Relation.ReflTransGen (MonitorNext endsEntry endsBody) _ (.start endRead) :=
    @Sync.call_alone _ _ endsEntry endsBody 2 closedPipe _ (.stream (.read 5)) (by decide) hentry rfl
  exact pipe_ends (closedPipe_reachable.trans hread)

/-! After the last write. -/

/-- Calls that do not write. -/
def readersEntry (t : Nat) : PipeEndCall → Prop
  | .stream (.read len) => pipeEntry t (.read len)
  | .stream _ => False
  | .closeRead => True
  | .closeWrite => True

def PipeEndCall.Writes : PipeEndCall → Prop
  | .stream (.read _) => False
  | .stream _ => True
  | .closeRead => False
  | .closeWrite => False

/-- The task is in a `pipe_write`. -/
def Writing : CallPc PipeEndCall → Prop
  | .locking call => call.Writes
  | .inside call => call.Writes
  | .waiting call => call.Writes
  | _ => False

/-- The write end is closed, and since `d` nothing was written. -/
structure WriteEnded (d : PipeHistory) (s : Monitor PipeHistory PipeEndCall) : Prop where
  closed : s.data.log.pipe.refWrite = 0
  quiet : ∀ t, ¬ Writing (s.pc t)
  stored : s.data.log.stored = d.log.stored
  reads : ∃ later, s.data.reads = d.reads ++ later ∧ ∀ r ∈ later, r.stored = d.log.stored.length

section
variable {s s' : Monitor PipeHistory PipeEndCall} {call' : PipeEndCall}

theorem readersEntry_quiet (h : readersEntry t call) : ¬ call.Writes := by
  cases call with
  | stream call =>
    cases call with
    | read len => exact id
    | writeStart buf => cases h
    | write buf written => cases h
  | closeRead => exact id
  | closeWrite => exact id

theorem endsEntry_of_readers (h : readersEntry t call) : endsEntry t call := by
  cases call with
  | stream call =>
    cases call with
    | read len => exact h
    | writeStart buf => cases h
    | write buf written => cases h
  | closeRead => trivial
  | closeWrite => trivial

theorem step_of_readers (h : MonitorStep readersEntry endsBody s t s') :
    MonitorStep endsEntry endsBody s t s' := by
  cases h with
  | call hpc k hentry => exact .call hpc k (endsEntry_of_readers hentry)
  | lockRound k hpc hok => exact .lockRound k hpc hok
  | lockAgain k hpc hno => exact .lockAgain k hpc hno
  | wait k hpc hbody => exact .wait k hpc hbody
  | again k hpc k' d hbody => exact .again k hpc k' d hbody
  | leave k hpc d hbody => exact .leave k hpc d hbody
  | waitUnlock k hpc => exact .waitUnlock k hpc
  | unlock hpc => exact .unlock hpc

/-- A call that is neither a read nor a write leaves the bytes and the reads. -/
theorem endsBody_quiet (hcall : ¬ call.Writes) (hok : d.Ok)
    (hbody : endsBody t call d = .leave d') (hclosed : d.log.pipe.refWrite = 0) :
    d'.log.pipe.refWrite = 0 ∧ d'.log.stored = d.log.stored ∧
      ∃ later, d'.reads = d.reads ++ later ∧ ∀ r ∈ later, r.stored = d.log.stored.length := by
  cases call with
  | stream call =>
    cases call with
    | read len =>
      unfold endsBody at hbody
      dsimp only at hbody
      split at hbody
      case h_1 hround =>
        cases hbody
        have htaken := pipeReadRound_taken hok.pipe hround
        refine ⟨htaken.ends.2.trans hclosed, rfl, _, rfl, ?_⟩
        intro r hr
        rw [List.mem_singleton.mp hr]
      case h_2 => cases hbody
    | writeStart buf => exact absurd trivial hcall
    | write buf written => exact absurd trivial hcall
  | closeRead =>
    cases hbody
    exact ⟨hclosed, rfl, [], (List.append_nil _).symm, nofun⟩
  | closeWrite =>
    cases hbody
    refine ⟨?_, rfl, [], (List.append_nil _).symm, nofun⟩
    change (if d.log.pipe.refWrite ≠ 0 then _ else _) = 0
    rw [if_neg (not_not.mpr hclosed), hclosed]

theorem endsBody_again (hbody : endsBody t call d = .again call' d') : call.Writes := by
  cases call with
  | stream call =>
    cases call with
    | read len =>
      unfold endsBody at hbody
      dsimp only at hbody
      split at hbody <;> cases hbody
    | writeStart buf => trivial
    | write buf written => trivial
  | closeRead => cases hbody
  | closeWrite => cases hbody

theorem quiet_update {pc : Nat → CallPc PipeEndCall} {p : CallPc PipeEndCall}
    (hquiet : ∀ u, ¬ Writing (pc u)) (hp : ¬ Writing p) :
    ∀ u, ¬ Writing (Function.update pc t p u) :=
  (Function.forall_update_iff pc fun _ p => ¬ Writing p).mpr ⟨hp, fun u _ => hquiet u⟩

theorem WriteEnded.step (h : WriteEnded d s) (hok : s.data.Ok)
    (hstep : MonitorStep readersEntry endsBody s t s') : WriteEnded d s' := by
  have hmine := h.quiet t
  cases hstep with
  | call hpc k hentry =>
    exact ⟨h.closed, quiet_update h.quiet (readersEntry_quiet hentry), h.stored, h.reads⟩
  | lockRound k hpc _ =>
    rw [hpc] at hmine
    exact ⟨h.closed, quiet_update h.quiet hmine, h.stored, h.reads⟩
  | lockAgain k _ _ => exact ⟨h.closed, h.quiet, h.stored, h.reads⟩
  | wait k hpc _ =>
    rw [hpc] at hmine
    exact ⟨h.closed, quiet_update h.quiet hmine, h.stored, h.reads⟩
  | again k hpc k' d' hbody =>
    rw [hpc] at hmine
    exact absurd (endsBody_again hbody) hmine
  | leave k hpc d' hbody =>
    rw [hpc] at hmine
    obtain ⟨hclosed, hstored, new, hnew, hlengths⟩ := endsBody_quiet hmine hok hbody h.closed
    obtain ⟨later, hlater, hall⟩ := h.reads
    refine ⟨hclosed, quiet_update h.quiet id, hstored.trans h.stored, later ++ new, ?_, ?_⟩
    · rw [← List.append_assoc, ← hlater]
      exact hnew
    · intro r hr
      rcases List.mem_append.mp hr with hold | hr
      · exact hall r hold
      · rw [hlengths r hr, h.stored]
  | waitUnlock k hpc =>
    rw [hpc] at hmine
    exact ⟨h.closed, quiet_update h.quiet hmine, h.stored, h.reads⟩
  | unlock hpc => exact ⟨h.closed, quiet_update h.quiet id, h.stored, h.reads⟩

theorem PipeRead.Ok.out_nil_iff (h : r.Ok bytes) (hlen : r.len ≠ 0) :
    r.out = [] ↔ r.position = r.stored := by
  have hlength := h.length
  have hposition := h.position
  rw [← List.length_eq_zero_iff]
  omega

/-- Once the write end is closed with no write going on, and none comes, end of file is final:
a read that finds nothing has all bytes behind it, and so have the reads after it. -/
theorem end_of_file_final {u : Monitor PipeHistory PipeEndCall}
    (hs : MonitorReachable endsEntry endsBody .start s) (hclosed : s.data.log.pipe.refWrite = 0)
    (hquiet : ∀ t, ¬ Writing (s.pc t))
    (hrun : Relation.ReflTransGen (MonitorNext readersEntry endsBody) s u) :
    u.data.bytes = s.data.bytes ∧ ∃ later, u.data.reads = s.data.reads ++ later ∧
      (∀ r ∈ later, r.len ≠ 0 → (r.out = [] ↔ r.position = s.data.bytes.length)) ∧
      later.Pairwise fun r r' => r.len ≠ 0 → r.out = [] → r'.out = [] := by
  have hended : MonitorReachable endsEntry endsBody .start u ∧ WriteEnded s.data u := by
    induction hrun with
    | refl => exact ⟨hs, hclosed, hquiet, rfl, [], (List.append_nil _).symm, nofun⟩
    | tail _ hnext ih =>
      obtain ⟨t, ht, hstep⟩ := hnext
      exact ⟨ih.1.tail ⟨t, ht, step_of_readers hstep⟩, ih.2.step (ends_ok ih.1) hstep⟩
  obtain ⟨hu, hended⟩ := hended
  obtain ⟨later, hlater, hall⟩ := hended.reads
  have hok := ends_ok hu
  have horder := hok.order
  rw [hlater] at horder
  have hmem : ∀ r ∈ later, r.Ok u.data.bytes := by
    intro r hr
    apply hok.reads
    rw [hlater]
    exact List.mem_append_right _ hr
  refine ⟨congrArg (List.map Prod.snd) hended.stored, later, hlater, ?_, ?_⟩
  · intro r hr hlen
    rw [(hmem r hr).out_nil_iff hlen, hall r hr, length_bytes]
  · refine (List.pairwise_append.mp horder).2.1.imp_of_mem ?_
    intro r r' hr hr' hle hlen hnil
    have hend := ((hmem r hr).out_nil_iff hlen).mp hnil
    have hlength := (hmem r' hr').length
    rw [hall r hr] at hend
    rw [hall r' hr'] at hlength
    rw [← List.length_eq_zero_iff]
    omega

theorem end_of_file_final_read : endRead.bytes = closedPipe.bytes ∧
    ∃ later, endRead.reads = closedPipe.reads ++ later ∧
      (∀ r ∈ later, r.len ≠ 0 → (r.out = [] ↔ r.position = closedPipe.bytes.length)) ∧
      later.Pairwise fun r r' => r.len ≠ 0 → r.out = [] → r'.out = [] := by
  have hentry : readersEntry 2 (.stream (.read 5)) := (by decide : 5 < 2 ^ 32)
  exact end_of_file_final closedPipe_reachable rfl (fun _ => id)
    (@Sync.call_alone _ _ readersEntry endsBody 2 closedPipe endRead (.stream (.read 5)) (by decide)
      hentry rfl)

end

end PinguinOS.Ipc
