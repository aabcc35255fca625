import PinguinOS.Net.TcpTable

/-! What segments and calls do to the state and the sequence numbers of a connection. -/
namespace PinguinOS.Net

open Mm (u32)

/-- A connection without its buffer. -/
structure TcpNumbers where
  used : Bool
  state : TcpState
  sndUna : Nat
  sndNxt : Nat
  sndWnd : Nat
  rcvNxt : Nat
  iss : Nat
  deriving DecidableEq

def TcpConn.numbers (c : TcpConn) : TcpNumbers :=
  ⟨c.used, c.state, c.sndUna, c.sndNxt, c.sndWnd, c.rcvNxt, c.iss⟩

namespace TcpNumbers

/-- A segment of which `taken` bytes are stored. -/
def receive (q : TcpNumbers) (seg : TcpSegment) (taken : Nat) : TcpNumbers :=
  if ¬ q.used then q
  else
    let q := { q with sndWnd := seg.window }
    match q.state with
    | .synSent =>
      if seg.flags &&& (tcpSyn ||| tcpAck) = tcpSyn ||| tcpAck then
        { q with rcvNxt := u32 (seg.seq + 1), sndUna := seg.ack, state := .established }
      else q
    | .established =>
      let q := { q with
        sndUna := if seg.flags &&& tcpAck ≠ 0 then seg.ack else q.sndUna
        rcvNxt := if taken = 0 then q.rcvNxt else u32 (q.rcvNxt + taken) }
      if seg.flags &&& tcpFin ≠ 0 then
        { q with rcvNxt := u32 (q.rcvNxt + 1), sndNxt := u32 (q.sndNxt + 1), state := .lastAck }
      else q
    | .lastAck =>
      if seg.flags &&& tcpAck ≠ 0 then { q with state := .closed, used := false } else q
    | .finWait1 => if seg.flags &&& tcpAck ≠ 0 then { q with state := .finWait2 } else q
    | .finWait2 =>
      if seg.flags &&& tcpFin ≠ 0 then
        { q with rcvNxt := u32 (q.rcvNxt + 1), state := .closed, used := false }
      else q
    | _ => q

end TcpNumbers

variable {c c' : TcpConn} {seg : TcpSegment} {bytes : List (BitVec 8)} {flags : BitVec 8} {iss : Nat}

theorem numbers_storeBytes : (storeBytes c bytes).numbers = c.numbers := by
  induction bytes generalizing c with
  | nil => rfl
  | cons byte bytes ih =>
    unfold storeBytes
    exact ih

/-- No bytes are stored that were not taken. -/
theorem numbers_deliverData (hnxt : c.rcvNxt < 2 ^ 32) : (deliverData c seg).numbers =
    { c.numbers with
      rcvNxt := if (acceptedBytes c seg).length = 0 then c.rcvNxt
        else u32 (c.rcvNxt + (acceptedBytes c seg).length) } := by
  unfold deliverData
  split
  case isTrue =>
    have hstored := @numbers_storeBytes c (acceptedBytes c seg)
    have hsame : (storeBytes c (acceptedBytes c seg)).rcvNxt = c.rcvNxt :=
      congrArg TcpNumbers.rcvNxt hstored
    have hcount : u32 (c.rcvNxt + (acceptedBytes c seg).length) =
        if (acceptedBytes c seg).length = 0 then c.rcvNxt
        else u32 (c.rcvNxt + (acceptedBytes c seg).length) := by
      split
      case isTrue hnone => rw [hnone, Nat.add_zero, Mm.u32_of_lt hnxt]
      case isFalse => rfl
    calc (tcpSendSegment (setRcvWnd { storeBytes c (acceptedBytes c seg) with
            rcvNxt := u32 ((storeBytes c (acceptedBytes c seg)).rcvNxt +
              (acceptedBytes c seg).length) }) tcpAck).numbers
        = { (storeBytes c (acceptedBytes c seg)).numbers with
            rcvNxt := u32 ((storeBytes c (acceptedBytes c seg)).rcvNxt +
              (acceptedBytes c seg).length) } := rfl
      _ = _ := by rw [hstored, hsame, ← hcount]
  case isFalse hno =>
    have hnone : acceptedBytes c seg = [] := if_neg hno
    rw [hnone]
    rfl

theorem acceptedBytes_congr (hring : c'.ring = c.ring) (hnxt : c'.rcvNxt = c.rcvNxt) :
    acceptedBytes c' seg = acceptedBytes c seg := by
  unfold acceptedBytes TcpConn.rxFree rbFree
  rw [hnxt, rxHead_congr hring, rxTail_congr hring]

theorem numbers_receiveEstablished (hnxt : c.rcvNxt < 2 ^ 32) :
    (receiveEstablished c seg).numbers =
      let q := { c.numbers with
        sndUna := if seg.flags &&& tcpAck ≠ 0 then seg.ack else c.sndUna
        rcvNxt := if (acceptedBytes c seg).length = 0 then c.rcvNxt
          else u32 (c.rcvNxt + (acceptedBytes c seg).length) }
      if seg.flags &&& tcpFin ≠ 0 then
        { q with rcvNxt := u32 (q.rcvNxt + 1), sndNxt := u32 (q.sndNxt + 1), state := .lastAck }
      else q := by
  have hdata : ∀ una, (deliverData { c with sndUna := una } seg).numbers =
      { c.numbers with
        sndUna := una
        rcvNxt := if (acceptedBytes c seg).length = 0 then c.rcvNxt
          else u32 (c.rcvNxt + (acceptedBytes c seg).length) } := by
    intro una
    have hsame : acceptedBytes { c with sndUna := una } seg = acceptedBytes c seg :=
      acceptedBytes_congr rfl rfl
    have hdeliver := @numbers_deliverData { c with sndUna := una } seg hnxt
    rw [hsame] at hdeliver
    exact hdeliver
  have hacked : (if seg.flags &&& tcpAck ≠ 0 then { c with sndUna := seg.ack } else c) =
      { c with sndUna := if seg.flags &&& tcpAck ≠ 0 then seg.ack else c.sndUna } := by
    split <;> rfl
  unfold receiveEstablished
  dsimp only
  rw [hacked]
  generalize hd : deliverData _ seg = d
  have hnumbers : d.numbers = _ := hd ▸ hdata _
  split
  case isTrue =>
    exact congrArg
      (fun q : TcpNumbers => { q with
        rcvNxt := u32 (q.rcvNxt + 1), sndNxt := u32 (q.sndNxt + 1), state := .lastAck }) hnumbers
  case isFalse => exact hnumbers

/-- The numbers do not depend on the bytes in the buffer, only on how many are taken. -/
theorem numbers_tcpReceive (hnxt : c.rcvNxt < 2 ^ 32) :
    (tcpReceive c seg).numbers = c.numbers.receive seg (newBytes c seg).length := by
  have hstate : ∀ {state : TcpState}, c.state = state → c.numbers.state = state := fun h => h
  unfold tcpReceive TcpNumbers.receive
  by_cases hused : c.used
  · have hused' : c.numbers.used = true := hused
    rw [if_neg (not_not_intro hused), if_neg (not_not_intro hused')]
    dsimp only
    cases h : c.state with
    | established =>
      have hnew : newBytes c seg = acceptedBytes c seg := if_pos ⟨hused, h⟩
      have hrest := @numbers_receiveEstablished { c with sndWnd := seg.window } seg hnxt
      have hsame : acceptedBytes { c with sndWnd := seg.window } seg = acceptedBytes c seg :=
        acceptedBytes_congr rfl rfl
      rw [hsame, h] at hrest
      rw [hstate h, hnew]
      exact hrest
    | synSent =>
      rw [hstate h]
      dsimp only
      split <;> rfl
    | lastAck =>
      rw [hstate h]
      dsimp only
      split <;> rfl
    | finWait1 =>
      rw [hstate h]
      dsimp only
      split <;> rfl
    | finWait2 =>
      rw [hstate h]
      dsimp only
      split <;> rfl
    | closed => rw [hstate h]; rfl
    | listen => rw [hstate h]; rfl
    | synReceived => rw [hstate h]; rfl
    | closeWait => rw [hstate h]; rfl
    | closing => rw [hstate h]; rfl
    | timeWait => rw [hstate h]; rfl
  · have hused' : ¬ c.numbers.used = true := hused
    rw [if_pos hused, if_pos hused']

/-! One equation for each state that a connection gets into. -/

namespace TcpNumbers

variable {q : TcpNumbers} {n : Nat}

theorem receive_unused (hused : ¬ q.used) : q.receive seg n = q := if_pos hused

theorem receive_closed (hused : q.used) (hstate : q.state = .closed) :
    q.receive seg n = { q with sndWnd := seg.window } := by
  unfold receive
  rw [if_neg (not_not_intro hused)]
  dsimp only
  rw [hstate]

theorem receive_synSent (hused : q.used) (hstate : q.state = .synSent) :
    q.receive seg n = if seg.flags &&& (tcpSyn ||| tcpAck) = tcpSyn ||| tcpAck then
      { q with
        sndWnd := seg.window
        rcvNxt := u32 (seg.seq + 1)
        sndUna := seg.ack
        state := .established }
      else { q with sndWnd := seg.window } := by
  unfold receive
  rw [if_neg (not_not_intro hused)]
  dsimp only
  rw [hstate]

theorem receive_established (hused : q.used) (hstate : q.state = .established) :
    q.receive seg n =
      let q := { q with
        sndWnd := seg.window
        sndUna := if seg.flags &&& tcpAck ≠ 0 then seg.ack else q.sndUna
        rcvNxt := if n = 0 then q.rcvNxt else u32 (q.rcvNxt + n) }
      if seg.flags &&& tcpFin ≠ 0 then
        { q with rcvNxt := u32 (q.rcvNxt + 1), sndNxt := u32 (q.sndNxt + 1), state := .lastAck }
      else q := by
  unfold receive
  rw [if_neg (not_not_intro hused)]
  dsimp only
  rw [hstate]

theorem receive_lastAck (hused : q.used) (hstate : q.state = .lastAck) :
    q.receive seg n = if seg.flags &&& tcpAck ≠ 0 then
      { q with sndWnd := seg.window, state := .closed, used := false }
      else { q with sndWnd := seg.window } := by
  unfold receive
  rw [if_neg (not_not_intro hused)]
  dsimp only
  rw [hstate]

end TcpNumbers

end PinguinOS.Net
