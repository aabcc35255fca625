import PinguinOS.Lib.Ring
import PinguinOS.Sync.Monitor

/-! The two streams of a connected pair of Unix sockets. -/
namespace PinguinOS.Ipc

open Mm (u32 int32)
open Sync (Section Monitor MonitorStep)

def unixSockBufSize : Nat := 4096

/-- `ringpuffer_t`; its lock and its condition variables are those of the monitor. -/
structure Ringpuffer where
  daten : Nat → BitVec 8
  lesen : Nat
  schreiben : Nat
  count : Nat

def pufferAllozieren : Ringpuffer where
  daten := fun _ => 0
  lesen := 0
  schreiben := 0
  count := 0

/-- The copying loop of `puffer_schreiben`. -/
def schreibBytes (p : Ringpuffer) : List (BitVec 8) → Ringpuffer
  | [] => p
  | byte :: src =>
    schreibBytes
      { p with
        daten := Function.update p.daten p.schreiben byte
        schreiben := u32 (p.schreiben + 1) % unixSockBufSize
        count := u32 (p.count + 1) } src

/-- The copying loop of `puffer_lesen`. -/
def leseBytes (p : Ringpuffer) : (n : Nat) → List (BitVec 8) × Ringpuffer
  | 0 => ([], p)
  | n + 1 =>
    let byte := p.daten p.lesen
    let (dst, p) := leseBytes
      { p with lesen := u32 (p.lesen + 1) % unixSockBufSize, count := p.count - 1 } n
    (byte :: dst, p)

/-- How a call goes on once it has the lock: it waits, or it returns. -/
inductive PufferOutcome
  | wait
  | returns (result : Int) (dst : List (BitVec 8)) (p : Ringpuffer)

/-- `puffer_schreiben` from the test of the waiting loop on; the sum wraps. -/
def pufferSchreiben (p : Ringpuffer) (src : List (BitVec 8)) : PufferOutcome :=
  if u32 (p.count + src.length) > unixSockBufSize then .wait
  else .returns (int32 src.length) [] (schreibBytes p src)

/-- `puffer_lesen` from the test of the waiting loop on. -/
def pufferLesen (p : Ringpuffer) (maxlen : Nat) : PufferOutcome :=
  if p.count = 0 then .wait
  else
    let kopieren := if p.count < maxlen then p.count else maxlen
    let (dst, p) := leseBytes p kopieren
    .returns (int32 kopieren) dst p

/-! Two sockets, each with its end of two buffers. -/

inductive SockCall
  | send (src : List (BitVec 8))
  | recv (maxlen : Nat)

/-- A buffer, the messages that were sent into it, and the bytes that came out. -/
structure SockLog where
  puffer : Ringpuffer
  sent : List (List (BitVec 8))
  received : List (BitVec 8)

def SockLog.start : SockLog where
  puffer := pufferAllozieren
  sent := []
  received := []

/-- Calls start with a length that is a `uint32_t`. -/
def sockEntry (_ : Nat) : SockCall → Prop
  | .send src => src.length < 2 ^ 32
  | .recv maxlen => maxlen < 2 ^ 32

def sockBody (_ : Nat) (call : SockCall) (d : SockLog) : Section SockLog SockCall :=
  match call with
  | .send src =>
    match pufferSchreiben d.puffer src with
    | .wait => .wait
    | .returns _ _ p => .leave { d with puffer := p, sent := d.sent ++ [src] }
  | .recv maxlen =>
    match pufferLesen d.puffer maxlen with
    | .wait => .wait
    | .returns _ dst p => .leave { d with puffer := p, received := d.received ++ dst }

inductive SockEnd
  | server
  | client
  deriving DecidableEq

/-- The two buffers: `rx` of each socket, which is `tx` of the other one. -/
structure SockPair where
  rx : SockEnd → Monitor SockLog SockCall

/-- As `unix_sock_connect` leaves the pair. -/
def SockPair.connected : SockPair := ⟨fun _ => .start .start⟩

/-- Some task takes a step in a call on one of the buffers, and a round of it starts with `C`. -/
def PairNext (C : SockCall → SockLog → Prop) (s s' : SockPair) : Prop :=
  ∃ t e m, t ≠ 0 ∧ MonitorStep sockEntry sockBody (s.rx e) t m ∧ (s.rx e).Starts C t ∧
    s' = ⟨Function.update s.rx e m⟩

def PairReachable (C : SockCall → SockLog → Prop) (s : SockPair) : Prop :=
  Relation.ReflTransGen (PairNext C) .connected s

/-- One direction: what was sent came out, or is in the buffer, in order. -/
structure SockStreamOk (d : SockLog) : Prop where
  bound : d.puffer.count ≤ unixSockBufSize
  count : d.sent.flatten.length = d.received.length + d.puffer.count
  kept : d.sent.flatten = d.received ++
    Ring.contents d.puffer.daten unixSockBufSize d.puffer.lesen d.puffer.count

/-- The sum in the space check does not wrap. -/
def NoWrap : SockCall → SockLog → Prop
  | .send src, d => d.puffer.count + src.length < 2 ^ 32
  | .recv _, _ => True

/-! The copying loops work on the ring. -/

variable {p p' : Ringpuffer} {d d' : SockLog} {n maxlen : Nat} {src dst : List (BitVec 8)}
  {result : Int}

theorem schreibBytes_eq (hpos : p.schreiben < unixSockBufSize) (hcount : p.count < 2 ^ 32) :
    schreibBytes p src =
      { p with
        daten := Ring.pushAll p.daten unixSockBufSize p.schreiben src
        schreiben := (p.schreiben + src.length) % unixSockBufSize
        count := u32 (p.count + src.length) } := by
  induction src generalizing p with
  | nil =>
    unfold schreibBytes
    rw [List.length_nil, Nat.add_zero, Nat.add_zero, Nat.mod_eq_of_lt hpos, Mm.u32_of_lt hcount]
    rfl
  | cons byte src ih =>
    have hrest := @ih
      { p with
        daten := Function.update p.daten p.schreiben byte
        schreiben := u32 (p.schreiben + 1) % unixSockBufSize
        count := u32 (p.count + 1) } (Nat.mod_lt _ (by decide)) Mm.u32_lt
    have hnext : u32 (p.schreiben + 1) % unixSockBufSize % unixSockBufSize =
        (p.schreiben + 1) % unixSockBufSize := by
      unfold u32 unixSockBufSize
      omega
    have hend : (u32 (p.schreiben + 1) % unixSockBufSize + src.length) % unixSockBufSize =
        (p.schreiben + (src.length + 1)) % unixSockBufSize := by
      unfold u32 unixSockBufSize
      omega
    have hsum : u32 (u32 (p.count + 1) + src.length) = u32 (p.count + (src.length + 1)) := by
      unfold u32
      omega
    unfold schreibBytes
    rw [hrest]
    dsimp only
    rw [hend, hsum, Ring.pushAll_congr hnext, List.length_cons]
    conv_rhs => unfold Ring.pushAll
    rw [Nat.mod_eq_of_lt hpos]

theorem leseBytes_eq (hpos : p.lesen < unixSockBufSize) :
    leseBytes p n = (Ring.contents p.daten unixSockBufSize p.lesen n,
      { p with lesen := (p.lesen + n) % unixSockBufSize, count := p.count - n }) := by
  induction n generalizing p with
  | zero =>
    unfold leseBytes
    rw [Nat.add_zero, Nat.mod_eq_of_lt hpos]
    rfl
  | succ n ih =>
    have hrest := @ih
      { p with lesen := u32 (p.lesen + 1) % unixSockBufSize, count := p.count - 1 }
      (Nat.mod_lt _ (by decide))
    have hnext : u32 (p.lesen + 1) % unixSockBufSize % unixSockBufSize =
        (p.lesen + 1) % unixSockBufSize := by
      unfold u32 unixSockBufSize
      omega
    have hend : (u32 (p.lesen + 1) % unixSockBufSize + n) % unixSockBufSize =
        (p.lesen + (n + 1)) % unixSockBufSize := by
      unfold u32 unixSockBufSize
      omega
    have hcontents : Ring.contents p.daten unixSockBufSize p.lesen (n + 1) =
        p.daten p.lesen ::
          Ring.contents p.daten unixSockBufSize (u32 (p.lesen + 1) % unixSockBufSize) n := by
      rw [Nat.add_comm n 1, Ring.contents_add, Ring.contents_congr hnext]
      unfold Ring.contents
      rw [List.range_one, List.map_singleton, Nat.add_zero, Nat.mod_eq_of_lt hpos]
      rfl
    unfold leseBytes
    rw [hrest, hcontents]
    dsimp only
    rw [hend, Nat.sub_sub, Nat.add_comm 1 n]

/-! What the data keep. -/

/-- The bytes in the buffer. -/
def Ringpuffer.stream (p : Ringpuffer) : List (BitVec 8) :=
  Ring.contents p.daten unixSockBufSize p.lesen p.count

structure Ringpuffer.Ok (p : Ringpuffer) : Prop where
  lesen : p.lesen < unixSockBufSize
  schreiben : p.schreiben = (p.lesen + p.count) % unixSockBufSize
  count : p.count ≤ unixSockBufSize

theorem pufferAllozieren_ok : pufferAllozieren.Ok := ⟨by decide, rfl, by decide⟩

/-- A send that does not wrap appends its bytes. -/
theorem pufferSchreiben_spec (hp : p.Ok) (hsum : p.count + src.length < 2 ^ 32)
    (hround : pufferSchreiben p src = .returns result dst p') :
    p'.Ok ∧ p'.stream = p.stream ++ src := by
  have hcount := hp.count
  unfold pufferSchreiben at hround
  rw [Mm.u32_of_lt hsum] at hround
  split at hround
  case isTrue => cases hround
  case isFalse hroom =>
    have hpos : p.schreiben < unixSockBufSize := by
      rw [hp.schreiben]
      exact Nat.mod_lt _ (by decide)
    rw [schreibBytes_eq hpos (by omega), Mm.u32_of_lt hsum] at hround
    cases hround
    constructor
    · refine ⟨hp.lesen, ?_, by dsimp only; omega⟩
      dsimp only
      rw [hp.schreiben, Nat.mod_add_mod, Nat.add_assoc]
    · have hpush := @Ring.contents_pushAll _ p.daten unixSockBufSize p.count p.lesen src (by omega)
      have hplace : Ring.pushAll p.daten unixSockBufSize p.schreiben src =
          Ring.pushAll p.daten unixSockBufSize (p.lesen + p.count) src := by
        apply Ring.pushAll_congr
        rw [hp.schreiben, Nat.mod_mod]
      unfold Ringpuffer.stream
      dsimp only
      rw [hplace, hpush]

/-- A receive returns the first bytes and leaves the others. -/
theorem pufferLesen_spec (hp : p.Ok) (hround : pufferLesen p maxlen = .returns result dst p') :
    p'.Ok ∧ p.stream = dst ++ p'.stream := by
  unfold pufferLesen at hround
  split at hround
  case isTrue => cases hround
  case isFalse hsome =>
    obtain ⟨n, hn, hmin⟩ : ∃ n, n ≤ p.count ∧ n = if p.count < maxlen then p.count else maxlen := by
      refine ⟨_, ?_, rfl⟩
      split <;> omega
    dsimp only at hround
    rw [← hmin, leseBytes_eq hp.lesen] at hround
    cases hround
    constructor
    · refine ⟨Nat.mod_lt _ (by decide), ?_, (Nat.sub_le _ _).trans hp.count⟩
      dsimp only
      rw [hp.schreiben, Nat.mod_add_mod]
      congr 1
      omega
    · have hsplit : p.count = n + (p.count - n) := by omega
      have hmod : (p.lesen + n) % unixSockBufSize % unixSockBufSize =
          (p.lesen + n) % unixSockBufSize := Nat.mod_mod _ _
      unfold Ringpuffer.stream
      dsimp only
      rw [Ring.contents_congr hmod, ← Ring.contents_add, ← hsplit]

structure SockLog.Ok (d : SockLog) : Prop where
  puffer : d.puffer.Ok
  kept : d.sent.flatten = d.received ++ d.puffer.stream

theorem sockRule :
    Sync.Rule sockEntry sockBody NoWrap SockLog.Ok (fun _ _ _ => True) fun _ _ => True := by
  constructor
  case call => exact fun _ _ _ _ _ => trivial
  case again =>
    intro t call call' d d' _ _ _ hbody
    cases call with
    | send src =>
      unfold sockBody at hbody
      dsimp only at hbody
      split at hbody <;> cases hbody
    | recv maxlen =>
      unfold sockBody at hbody
      dsimp only at hbody
      split at hbody <;> cases hbody
  case leave =>
    intro t call d d' hsum hok _ hbody
    refine ⟨?_, trivial, fun _ _ => ⟨fun _ h => h, fun h => h⟩⟩
    cases call with
    | send src =>
      unfold sockBody at hbody
      dsimp only at hbody
      split at hbody
      case h_1 => cases hbody
      case h_2 hround =>
        cases hbody
        obtain ⟨hpuffer, hstream⟩ := pufferSchreiben_spec hok.puffer hsum hround
        refine ⟨hpuffer, ?_⟩
        dsimp only
        rw [List.flatten_append, hok.kept, hstream, List.append_assoc]
        simp
    | recv maxlen =>
      unfold sockBody at hbody
      dsimp only at hbody
      split at hbody
      case h_1 => cases hbody
      case h_2 hround =>
        cases hbody
        obtain ⟨hpuffer, hstream⟩ := pufferLesen_spec hok.puffer hround
        refine ⟨hpuffer, ?_⟩
        dsimp only
        rw [hok.kept, hstream, List.append_assoc]

theorem SockLog.Ok.streamOk (hok : d.Ok) : SockStreamOk d := by
  refine ⟨hok.puffer.count, ?_, hok.kept⟩
  rw [hok.kept, List.length_append]
  unfold Ringpuffer.stream
  rw [Ring.length_contents]

/-- Each direction of a run of the pair is a run of its own. -/
theorem rx_reachable {C : SockCall → SockLog → Prop} {s : SockPair} (h : PairReachable C s)
    (e : SockEnd) : Sync.MonitorReachableUnder sockEntry sockBody C .start (s.rx e) := by
  induction h with
  | refl => exact .refl
  | tail _ hnext ih =>
    obtain ⟨t, e', m, ht, hstep, hstarts, rfl⟩ := hnext
    dsimp only
    by_cases he : e = e'
    · subst he
      rw [Function.update_self]
      exact ih.tail ⟨t, ht, hstep, hstarts⟩
    · rw [Function.update_of_ne he]
      exact ih

/-- A run in one direction is one of the pair. -/
theorem pairReachable_of_rx {s : SockPair} (hs : PairReachable (fun _ _ => True) s) (e : SockEnd)
    {m : Monitor SockLog SockCall}
    (hrun : Relation.ReflTransGen (Sync.MonitorNext sockEntry sockBody) (s.rx e) m) :
    PairReachable (fun _ _ => True) ⟨Function.update s.rx e m⟩ := by
  induction hrun with
  | refl =>
    rw [Function.update_eq_self]
    exact hs
  | @tail _ m _ hnext ih =>
    obtain ⟨t, ht, hstep⟩ := hnext
    refine ih.tail ⟨t, e, m, ht, ?_, fun _ _ => trivial, ?_⟩
    · dsimp only
      rw [Function.update_self]
      exact hstep
    · dsimp only
      rw [Function.update_idem]

/-- The buffer with one byte in it. -/
def oneByte : SockLog where
  puffer := schreibBytes pufferAllozieren [0]
  sent := [[0]]
  received := []

/-- With one byte in the buffer a length of `2 ^ 32 - 1` makes the sum wrap to 0: all the bytes are
written. -/
theorem sockBody_wrap (hsrc : src.length = 2 ^ 32 - 1) :
    sockBody 1 (.send src) oneByte =
      .leave { oneByte with
        puffer := schreibBytes oneByte.puffer src
        sent := oneByte.sent ++ [src] } := by
  have hone : oneByte.puffer.count = 1 := by decide
  have hwrap : ¬ u32 (oneByte.puffer.count + src.length) > unixSockBufSize := by
    rw [hone, hsrc]
    decide
  unfold sockBody pufferSchreiben
  dsimp only
  rw [if_neg hwrap]

theorem count_wrap (hsrc : src.length = 2 ^ 32 - 1) :
    (schreibBytes oneByte.puffer src).count = 0 := by
  have hone : oneByte.puffer.schreiben = 1 ∧ oneByte.puffer.count = 1 := by decide
  rw [schreibBytes_eq (by rw [hone.1]; decide) (by rw [hone.2]; decide)]
  dsimp only
  rw [hone.2, hsrc]
  decide

theorem not_streamOk_wrap (hsrc : src.length = 2 ^ 32 - 1) :
    ∃ s, PairReachable (fun _ _ => True) s ∧ ¬ SockStreamOk (s.rx .server).data := by
  have hbyte : sockEntry 1 (.send [0]) := (by decide : 1 < 2 ^ 32)
  have hlong : src.length < 2 ^ 32 := by omega
  have hfirst : sockBody 1 (.send [0]) .start = .leave oneByte := rfl
  have hrun := (Sync.call_alone (by decide) hbyte hfirst).trans
    (Sync.call_alone (by decide) (k := .send src) hlong (sockBody_wrap hsrc))
  refine ⟨_, pairReachable_of_rx .refl .server hrun, fun hok => ?_⟩
  have hcount := hok.count
  dsimp only at hcount
  rw [Function.update_self] at hcount
  unfold Monitor.start at hcount
  dsimp only at hcount
  have hsent : (oneByte.sent ++ [src]).flatten.length = 1 + src.length := by
    rw [List.flatten_append, List.length_append, List.flatten_singleton]
    rfl
  have hnone : oneByte.received.length = 0 := rfl
  rw [hsent, count_wrap hsrc, hnone] at hcount
  omega

end PinguinOS.Ipc
