import PinguinOS.Net.TcpLink

/-! Hosts that all run this stack, with a network between them. -/
namespace PinguinOS.Net

/-- What a host sends in a step. -/
inductive Emits (s : TcpSystem) : TcpSystemEvent → TcpSegment → Prop
  | connect {sock : Int} {i : Nat} {localIp remoteIp : Ip4Addr} {remotePort : BitVec 16}
      {rand iss : Nat} {seg : TcpSegment} (hsock : s.conns.opened sock = some i)
      (hseg : seg ∈ tcpConnectSends (s.conns i).conn iss) :
      Emits s (.connect sock (some localIp) remoteIp remotePort rand iss) seg
  | round {call i left : Nat} {data : List (BitVec 8)} {seg : TcpSegment}
      (hcall : s.sends[call]? = some (i, left))
      (hlength : data.length = sendChunk (s.conns i).conn left)
      (hseg : seg ∈ tcpRoundSends (s.conns i).conn data) : Emits s (.round call) seg
  | close {sock : Int} {i : Nat} {seg : TcpSegment} (hsock : s.conns.opened sock = some i)
      (hseg : seg ∈ tcpCloseSends (s.conns i).conn) : Emits s (.close sock) seg
  | segment {srcIp : Ip4Addr} {srcPort dstPort : BitVec 16} {got seg : TcpSegment} {i : Nat}
      (hlookup : s.conns.lookup srcIp srcPort dstPort = some i)
      (hseg : seg ∈ tcpReceiveSends (s.conns i).conn got) :
      Emits s (.segment srcIp srcPort dstPort got) seg

/-- The hosts, and every segment that one of them has sent. -/
structure TcpHosts (ι : Type*) where
  host : ι → TcpSystem
  wire : Set TcpSegment

variable {ι : Type*} [DecidableEq ι]

/-- One host takes a step; a segment that it gets has been sent by some host, to whomever. -/
inductive HostsStep (s : TcpHosts ι) : TcpHosts ι → Prop
  | step {x : ι} {event : TcpSystemEvent} {t : TcpSystem}
      (hstep : tcpSystemStep (s.host x) event = some t)
      (hfrom : ∀ srcIp srcPort dstPort seg, event = .segment srcIp srcPort dstPort seg →
        seg ∈ s.wire) :
      HostsStep s ⟨Function.update s.host x t, s.wire ∪ {seg | Emits (s.host x) event seg}⟩

def hostsStart : TcpHosts ι := ⟨fun _ => tcpSystemStart, ∅⟩

def HostsReachable (s : TcpHosts ι) : Prop := Relation.ReflTransGen HostsStep hostsStart s

/-- A connection that has got no answer. -/
def Unanswered (c : TcpConn) : Prop := c.state = .closed ∨ c.state = .synSent

structure NoAnswer (s : TcpHosts ι) : Prop where
  conns : ∀ x i, Unanswered ((s.host x).conns i).conn
  wire : ∀ seg ∈ s.wire, seg.flags = tcpSyn

/-- On a host without a connection nothing is being sent. -/
structure Alone (s : TcpSystem) : Prop where
  conns : ∀ i, Unanswered (s.conns i).conn
  sends : s.sends = []

variable {s t : TcpSystem} {event : TcpSystemEvent} {c c' : TcpConn} {marks marks' : FinMarks}
  {cause : TcpCause} {seg : TcpSegment} {i n : Nat} {q : TcpNumbers}

theorem tcpReceive_syn (h : Unanswered c) (hflags : seg.flags = tcpSyn) :
    (tcpReceive c seg).state = c.state := by
  have hno : ¬ tcpSyn &&& (tcpSyn ||| tcpAck) = tcpSyn ||| tcpAck := by decide
  unfold tcpReceive
  split
  · rfl
  · dsimp only
    rcases h with h | h
    · rw [h]
    · rw [h]
      dsimp only
      rw [hflags, if_neg hno]

theorem tcpReceiveSends_syn (h : Unanswered c) (hflags : seg.flags = tcpSyn) :
    tcpReceiveSends c seg = [] := by
  have hno : ¬ tcpSyn &&& (tcpSyn ||| tcpAck) = tcpSyn ||| tcpAck := by decide
  unfold tcpReceiveSends
  split
  · rfl
  · dsimp only
    rcases h with h | h
    · rw [h]
    · rw [h]
      dsimp only
      rw [hflags, if_neg hno]

/-- Nothing but an answer opens a connection. -/
theorem Unanswered.slotStep (h : Unanswered c)
    (hflags : ∀ seg, cause = .segment seg → seg.flags = tcpSyn)
    (hstep : SlotStep c marks cause c' marks') : Unanswered c' := by
  cases hstep with
  | connect iss hused => exact .inr tcpSendSegment_same.2.1
  | close hused => exact .inl (tcpClose_state hused)
  | timeout => exact .inl rfl
  | segment seg hused =>
    unfold Unanswered
    rw [tcpReceive_syn h (hflags seg rfl)]
    exact h
  | socket hfree => exact .inl rfl
  | other hused hstate hrcv =>
    unfold Unanswered
    rw [hstate]
    exact h

theorem cause_segment (h : s.cause event i = .segment seg) :
    ∃ srcIp srcPort dstPort, event = .segment srcIp srcPort dstPort seg := by
  unfold TcpSystem.cause at h
  cases event with
  | segment srcIp srcPort dstPort got =>
    dsimp only at h
    split at h
    · cases h
      exact ⟨srcIp, srcPort, dstPort, rfl⟩
    · cases h
  | connect =>
    dsimp only at h
    split at h <;> cases h
  | deadline =>
    dsimp only at h
    split at h <;> cases h
  | close =>
    dsimp only at h
    split at h <;> cases h
  | socket => cases h
  | poll => cases h
  | send => cases h
  | round => cases h
  | recv => cases h

/-- `tcp_send` needs an established connection. -/
theorem Alone.sends_step (h : Alone s) (hstep : tcpSystemStep s event = some t) : t.sends = [] := by
  have hsends := h.sends
  unfold tcpSystemStep at hstep
  cases event with
  | send sock len =>
    dsimp only at hstep
    split at hstep
    · split at hstep
      case isTrue i _ hstate =>
        rcases h.conns i with hclosed | hclosed
        · exact absurd (hclosed.symm.trans hstate) (by decide)
        · exact absurd (hclosed.symm.trans hstate) (by decide)
      case isFalse =>
        cases hstep
        exact hsends
    · cases hstep
      exact hsends
  | round call =>
    dsimp only at hstep
    rw [hsends] at hstep
    cases hstep
  | socket =>
    dsimp only at hstep
    split at hstep <;> cases hstep <;> exact hsends
  | connect =>
    dsimp only at hstep
    split at hstep <;> cases hstep <;> exact hsends
  | poll =>
    dsimp only at hstep
    split at hstep
    · cases hstep
    · split at hstep <;> cases hstep <;> exact hsends
  | deadline =>
    dsimp only at hstep
    split at hstep <;> cases hstep
    exact hsends
  | recv =>
    dsimp only at hstep
    split at hstep <;> cases hstep <;> exact hsends
  | close =>
    dsimp only at hstep
    split at hstep <;> cases hstep <;> exact hsends
  | segment =>
    dsimp only at hstep
    split at hstep <;> cases hstep <;> exact hsends

theorem Alone.step (h : Alone s) (hstep : tcpSystemStep s event = some t)
    (hflags : ∀ srcIp srcPort dstPort seg, event = .segment srcIp srcPort dstPort seg →
      seg.flags = tcpSyn) : Alone t := by
  refine ⟨fun i => ?_, h.sends_step hstep⟩
  refine (h.conns i).slotStep (fun seg hcause => ?_) (tcpSystemStep_slot hstep i)
  obtain ⟨srcIp, srcPort, dstPort, hevent⟩ := cause_segment hcause
  exact hflags srcIp srcPort dstPort seg hevent

/-- All that such a host sends is the `SYN` of `tcp_connect`. -/
theorem Alone.emits (h : Alone s) (hemits : Emits s event seg)
    (hflags : ∀ srcIp srcPort dstPort seg, event = .segment srcIp srcPort dstPort seg →
      seg.flags = tcpSyn) : seg.flags = tcpSyn := by
  cases hemits with
  | connect hsock hseg =>
    rw [List.mem_singleton.mp hseg]
    rfl
  | round hcall hlength hseg =>
    rw [h.sends] at hcall
    cases hcall
  | @close sock i _ hsock hseg =>
    have hno : ¬ ((s.conns i).conn.used ∧
        ((s.conns i).conn.state = .established ∨ (s.conns i).conn.state = .closeWait)) := by
      rintro ⟨-, hopen⟩
      rcases h.conns i with hstate | hstate
      · rw [hstate] at hopen
        exact absurd hopen (by decide)
      · rw [hstate] at hopen
        exact absurd hopen (by decide)
    unfold tcpCloseSends at hseg
    rw [if_neg hno] at hseg
    cases hseg
  | segment hlookup hseg =>
    rw [tcpReceiveSends_syn (h.conns _) (hflags _ _ _ _ rfl)] at hseg
    cases hseg

/-! Any number of hosts. -/

theorem alone_start : Alone tcpSystemStart := ⟨fun _ => .inl rfl, rfl⟩

theorem hosts_inv {s : TcpHosts ι} (h : HostsReachable s) :
    (∀ x, Alone (s.host x)) ∧ ∀ seg ∈ s.wire, seg.flags = tcpSyn := by
  induction h with
  | refl => exact ⟨fun _ => alone_start, fun _ h => h.elim⟩
  | tail _ hstep ih =>
    obtain ⟨halone, hwire⟩ := ih
    cases hstep with
    | @step x event t hstep hfrom =>
      have hflags : ∀ srcIp srcPort dstPort seg, event = .segment srcIp srcPort dstPort seg →
          seg.flags = tcpSyn := fun srcIp srcPort dstPort seg hevent =>
        hwire seg (hfrom srcIp srcPort dstPort seg hevent)
      constructor
      · intro y
        by_cases hxy : y = x
        · subst hxy
          dsimp only
          rw [Function.update_self]
          exact (halone y).step hstep hflags
        · dsimp only
          rw [Function.update_of_ne hxy]
          exact halone y
      · intro seg hseg
        rcases hseg with hold | hnew
        · exact hwire seg hold
        · exact (halone x).emits hnew hflags

/-- No two hosts that run this stack get a connection to each other: nobody answers a `SYN`. -/
theorem hosts_never_connect {s : TcpHosts ι} (h : HostsReachable s) : NoAnswer s :=
  ⟨fun x => ((hosts_inv h).1 x).conns, (hosts_inv h).2⟩

/-- One of two hosts opens a socket and sends its `SYN`. -/
theorem hosts_never_connect_syn : ∃ s : TcpHosts Bool,
    ⟨7, 0, tcpSyn, tcpDefaultWin, []⟩ ∈ s.wire ∧ NoAnswer s := by
  have hsocket : HostsStep (hostsStart : TcpHosts Bool) _ :=
    @HostsStep.step _ _ _ true .socket _ rfl fun _ _ _ _ h => (by cases h)
  refine ⟨_, ?_, hosts_never_connect (.tail (.single hsocket)
    (@HostsStep.step Bool _ _ true (.connect 0 (some 1) 2 80 0 7) _ rfl ?_))⟩
  · exact .inr (.connect rfl (List.mem_singleton.mpr rfl))
  · exact fun _ _ _ _ h => (by cases h)

end PinguinOS.Net
