import PinguinOS.Net.Socket

/-! Datagrams and reads on one socket: which bytes, and which datagrams, the reads return. -/
namespace PinguinOS.Net

/-- A datagram that is delivered with a consistent length, or a call of `sock_recvfrom`. -/
inductive SockEvent
  | datagram (udata : Packet)
  | recvfrom (len : Nat)

/-! The bytes. -/

/-- A socket, the bytes that had a cell when they came, and the bytes that were returned. -/
structure QueueLog where
  socket : Socket
  accepted : Packet
  returned : Packet

def queueStep (s : QueueLog) : SockEvent → Option QueueLog
  | .datagram udata =>
    (deliver s.socket udata 0 udata.length).map fun socket =>
      { s with socket := socket, accepted := s.accepted ++ udata.take s.socket.room }
  | .recvfrom len =>
    let read := sockRead s.socket len
    some { s with socket := read.2, returned := s.returned ++ read.1 }

/-- A socket that has just been opened and bound. -/
def queueStart (port : BitVec 16) : QueueLog where
  socket := { openSocket ipProtoUdp with localPort := port }
  accepted := []
  returned := []

/-- What was accepted is returned in order, and the rest of it is in the ring. -/
structure QueueOk (s : QueueLog) : Prop where
  inOrder : s.returned <+: s.accepted
  kept : s.accepted.drop s.returned.length = s.socket.queued

/-- The datagram fits into the free part of the ring. -/
def Fits (s : QueueLog) (event : SockEvent) (_ : QueueLog) : Prop :=
  ∀ udata, event = .datagram udata → udata.length ≤ s.socket.room

variable {s t : QueueLog} {event : SockEvent} {udata : Packet} {len : Nat} {port : BitVec 16}

theorem QueueOk.fill (h : QueueOk s) : s.accepted.length = s.returned.length + s.socket.fill := by
  have hlength := congrArg List.length h.kept
  have hle := h.inOrder.length_le
  rw [List.length_drop, length_queued] at hlength
  omega

theorem queueStep_datagram {socket : Socket}
    (h : deliver s.socket udata 0 udata.length = some socket) :
    queueStep s (.datagram udata) =
      some { s with socket := socket, accepted := s.accepted ++ udata.take s.socket.room } :=
  congrArg (Option.map _) h

theorem queueInv_step (hs : s.socket.Inv) (hstep : queueStep s event = some t) : t.socket.Inv := by
  cases event with
  | datagram udata =>
    obtain ⟨socket, hdeliver, rfl⟩ := Option.map_eq_some_iff.mp hstep
    exact (deliver_fill hs hdeliver).1
  | recvfrom len =>
    cases hstep
    exact (sockRead_spec hs).1

theorem queueOk_fits (hs : s.socket.Inv) (h : QueueOk s) (hfit : udata.length ≤ s.socket.room)
    (hstep : queueStep s (.datagram udata) = some t) : QueueOk t := by
  obtain ⟨socket, hdeliver, rfl⟩ := Option.map_eq_some_iff.mp hstep
  obtain ⟨socket', hsame, -, hqueued⟩ := @deliver_fits _ udata 0 _ hs hfit (by omega)
  cases hsame.symm.trans hdeliver
  rw [List.drop_zero, List.take_length] at hqueued
  constructor
  case inOrder => exact h.inOrder.trans (List.prefix_append _ _)
  case kept =>
    dsimp only
    rw [List.take_of_length_le hfit, List.drop_append_of_le_length h.inOrder.length_le, h.kept,
      hqueued]

theorem queueOk_recvfrom (hs : s.socket.Inv) (h : QueueOk s)
    (hstep : queueStep s (.recvfrom len) = some t) : QueueOk t := by
  cases hstep
  obtain ⟨-, hout, hrest⟩ := @sockRead_spec _ len hs
  obtain ⟨later, hlater⟩ := h.inOrder
  have hkept : later = s.socket.queued := by
    rw [← h.kept, ← hlater, List.drop_left]
  constructor
  case inOrder =>
    dsimp only
    rw [hout, ← hlater, hkept, List.prefix_append_right_inj]
    exact List.take_prefix _ _
  case kept =>
    dsimp only
    rw [hrest, List.length_append, ← List.drop_drop, h.kept, hout, List.length_take,
      length_queued]
    by_cases hlen : len ≤ s.socket.fill
    · rw [Nat.min_eq_left hlen]
    · rw [Nat.min_eq_right (by omega), List.drop_of_length_le (by rw [length_queued]),
        List.drop_of_length_le (by rw [length_queued]; omega)]

/-- A datagram that does not fit takes the tail past the head, and the queue with it. -/
theorem queueOk_overflow (hs : s.socket.Inv) (h : QueueOk s) (hshort : udata.length < sockRxbuf)
    (hfit : ¬ udata.length ≤ s.socket.room) (hstep : queueStep s (.datagram udata) = some t) :
    ¬ QueueOk t := by
  intro ht
  obtain ⟨socket, hdeliver, rfl⟩ := Option.map_eq_some_iff.mp hstep
  obtain ⟨-, hfill⟩ := deliver_fill hs hdeliver
  have hbefore := h.fill
  have hafter := ht.fill
  have hlt := fill_lt (s := s.socket)
  dsimp only at hafter
  unfold Socket.room at *
  rw [hfill, List.length_append, List.length_take] at hafter
  unfold sockRxbuf at *
  omega

theorem queueStart_inv : (queueStart port).socket.Inv :=
  have hopen := @openSocket_inv ipProtoUdp
  ⟨hopen.head, hopen.tail⟩

theorem queueStart_ok : QueueOk (queueStart port) :=
  ⟨List.prefix_refl _, (@openSocket_queued ipProtoUdp).symm⟩

/-- The queue is right as long as every datagram fits, and among datagrams that are shorter than
the ring only as long; longer ones may come around to cells with the same bytes. -/
theorem udp_queue_iff (port : BitVec 16) (events : List SockEvent) :
    (Run.EveryStep queueStep Fits (queueStart port) events →
      Run.EveryState queueStep QueueOk (queueStart port) events) ∧
    ((∀ udata, .datagram udata ∈ events → udata.length < sockRxbuf) →
      Run.EveryState queueStep QueueOk (queueStart port) events →
        Run.EveryStep queueStep Fits (queueStart port) events) := by
  constructor
  · refine Run.EveryStep.everyState (I := fun s => s.socket.Inv ∧ QueueOk s) ?_ (fun s h => h.2)
      ⟨queueStart_inv, queueStart_ok⟩
    rintro s event t ⟨hs, h⟩ hstep hfits
    refine ⟨queueInv_step hs hstep, ?_⟩
    cases event with
    | datagram udata => exact queueOk_fits hs h (hfits udata rfl) hstep
    | recvfrom len => exact queueOk_recvfrom hs h hstep
  · intro hshort
    refine (Run.everyState_iff_everyStep
      (A := fun event => ∀ udata, event = .datagram udata → udata.length < sockRxbuf)
      (I := fun s => s.socket.Inv) ?_ ?_ ?_ queueStart_inv queueStart_ok).mp
    · rintro event hevent udata rfl
      exact hshort udata hevent
    · rintro s event t hevent hs h hstep
      cases event with
      | datagram udata =>
        constructor
        · intro hfits
          exact queueOk_fits hs h (hfits udata rfl) hstep
        · rintro ht _ ⟨⟩
          by_contra hfit
          exact queueOk_overflow hs h (hevent udata rfl) hfit hstep ht
      | recvfrom len =>
        exact iff_of_true (fun _ hcall => (nomatch hcall)) (queueOk_recvfrom hs h hstep)
    · intro s event t _ hs hstep
      exact queueInv_step hs hstep

/-- One byte is queued; a datagram that would fill the ring empties it instead. -/
theorem not_udp_queue_full : ¬ Run.EveryState queueStep QueueOk (queueStart 68)
    [.datagram [1], .datagram (List.replicate 2047 2)] := by
  have hfirst : [(1 : BitVec 8)].length ≤ (queueStart 68).socket.room := by decide +kernel
  obtain ⟨socket, hdeliver, hinv, hqueued⟩ :=
    @deliver_fits _ [1] 0 1 queueStart_inv hfirst (Nat.le_refl 1)
  have hfill := congrArg List.length hqueued
  rw [length_queued] at hfill
  obtain ⟨socket', hlost⟩ := Option.isSome_iff_exists.mp
    (@deliver_isSome socket (List.replicate 2047 2) 0 _ (Nat.le_of_eq (Nat.zero_add _)))
  intro hstates
  have hrest := hstates.2 _ (queueStep_datagram hdeliver)
  have hlast := hrest.2 _ (queueStep_datagram hlost)
  refine queueOk_overflow hinv hrest.first ?_ ?_
    (queueStep_datagram hlost) hlast.first
  · rw [List.length_replicate]
    decide
  · rw [List.length_replicate]
    unfold Socket.room
    dsimp only
    rw [hfill]
    decide +kernel

/-! The datagrams. -/

/-- A socket, the datagrams that were delivered and not yet read, what the reads returned, and
what they were to return. -/
structure DatagramLog where
  socket : Socket
  queue : List Packet
  got : List Packet
  due : List Packet

/-- Only a datagram that fits is delivered here. A read of no bytes and a read that finds none do
not succeed, and a datagram without bytes is not there to be read. -/
def datagramStep (s : DatagramLog) : SockEvent → Option DatagramLog
  | .datagram udata =>
    if udata.length ≤ s.socket.room then
      (deliver s.socket udata 0 udata.length).map fun socket =>
        { s with socket := socket, queue := if udata = [] then s.queue else s.queue ++ [udata] }
    else none
  | .recvfrom len =>
    let read := sockRead s.socket len
    if read.1 = [] then some { s with socket := read.2 }
    else
      some
        { socket := read.2
          queue := s.queue.tail
          got := s.got ++ [read.1]
          due := s.due ++ (s.queue.head?.map fun udata => udata.take len).toList }

def datagramStart (port : BitVec 16) : DatagramLog where
  socket := { openSocket ipProtoUdp with localPort := port }
  queue := []
  got := []
  due := []

/-- Every read has returned one datagram, and the ring holds the others. -/
structure DatagramsOk (s : DatagramLog) : Prop where
  reads : s.got = s.due
  ring : s.socket.queued = s.queue.flatten

/-- A read takes exactly the bytes of the first datagram: its buffer has that length, or the
datagram is the only one and fits into it. -/
def ReadsOne (s : DatagramLog) (event : SockEvent) (_ : DatagramLog) : Prop :=
  ∀ len, event = .recvfrom len → len ≠ 0 → ∀ udata rest, s.queue = udata :: rest →
    len = udata.length ∨ udata.length ≤ len ∧ rest = []

structure DatagramLog.Inv (s : DatagramLog) : Prop where
  ring : s.socket.Inv
  bytes : ∀ udata ∈ s.queue, udata ≠ []

variable {d d' : DatagramLog}

theorem flatten_eq_nil {queue : List Packet} (h : ∀ udata ∈ queue, udata ≠ [])
    (hnone : queue.flatten = []) : queue = [] := by
  cases queue with
  | nil => rfl
  | cons udata rest =>
    obtain ⟨hfirst, -⟩ := List.append_eq_nil_iff.mp (List.flatten_cons ▸ hnone)
    exact absurd hfirst (h udata List.mem_cons_self)

theorem datagram_step (hs : d.Inv) (hstep : datagramStep d (.datagram udata) = some d') :
    d'.Inv ∧ (DatagramsOk d → DatagramsOk d') := by
  unfold datagramStep at hstep
  dsimp only at hstep
  split at hstep
  case isFalse => cases hstep
  case isTrue hfit =>
    obtain ⟨socket, hdeliver, rfl⟩ := Option.map_eq_some_iff.mp hstep
    obtain ⟨socket', hsame, hinv, hqueued⟩ := @deliver_fits _ udata 0 _ hs.ring hfit (by omega)
    cases hsame.symm.trans hdeliver
    rw [List.drop_zero, List.take_length] at hqueued
    refine ⟨⟨hinv, fun other hother => ?_⟩, fun h => ⟨h.reads, ?_⟩⟩
    · dsimp only at hother
      split at hother
      case isTrue => exact hs.bytes other hother
      case isFalse hbytes =>
        rcases List.mem_append.mp hother with hold | hnew
        · exact hs.bytes other hold
        · rwa [List.mem_singleton.mp hnew]
    · dsimp only
      rw [hqueued, h.ring]
      split
      case isTrue hempty => rw [hempty, List.append_nil]
      case isFalse => rw [List.flatten_append, List.flatten_singleton]

theorem recvfrom_inv (hs : d.Inv) (hstep : datagramStep d (.recvfrom len) = some d') : d'.Inv := by
  obtain ⟨hinv, -⟩ := @sockRead_spec d.socket len hs.ring
  unfold datagramStep at hstep
  dsimp only at hstep
  split at hstep
  case isTrue =>
    cases hstep
    exact ⟨hinv, hs.bytes⟩
  case isFalse =>
    cases hstep
    exact ⟨hinv, fun udata hmem => hs.bytes udata (List.mem_of_mem_tail hmem)⟩

/-- A read that finds a datagram leaves the queue right exactly when it takes that datagram. -/
theorem recvfrom_step (hs : d.Inv) (h : DatagramsOk d)
    (hstep : datagramStep d (.recvfrom len) = some d') :
    ReadsOne d (.recvfrom len) d' ↔ DatagramsOk d' := by
  obtain ⟨-, hout, hrest⟩ := @sockRead_spec d.socket len hs.ring
  rw [h.ring] at hout hrest
  unfold datagramStep at hstep
  dsimp only at hstep
  rw [hout] at hstep
  cases hqueue : d.queue with
  | nil =>
    rw [hqueue, List.flatten_nil, List.take_nil, if_pos rfl] at hstep
    cases hstep
    rw [hqueue] at hrest
    refine iff_of_true (fun _ _ _ udata rest heq => ?_) ⟨h.reads, ?_⟩
    · rw [hqueue] at heq
      cases heq
    · rw [hrest]
      exact List.drop_nil
  | cons udata rest =>
    have hbytes := hs.bytes udata (hqueue ▸ List.mem_cons_self)
    have hothers : ∀ other ∈ rest, other ≠ [] := fun other hmem =>
      hs.bytes other (hqueue ▸ List.mem_cons_of_mem udata hmem)
    rw [hqueue, List.flatten_cons] at hout hrest hstep
    by_cases hlen : len = 0
    · subst hlen
      rw [List.take_zero, if_pos rfl] at hstep
      cases hstep
      refine iff_of_true (fun len hcall hne => ?_) ⟨h.reads, ?_⟩
      · cases hcall
        exact absurd rfl hne
      · rw [hrest]
        rfl
    · have hsome : (udata ++ rest.flatten).take len ≠ [] := by
        intro hnone
        rcases List.take_eq_nil_iff.mp hnone with hzero | hempty
        · exact hlen hzero
        · exact hbytes (List.append_eq_nil_iff.mp hempty).1
      rw [if_neg hsome] at hstep
      cases hstep
      constructor
      · intro hone
        rcases hone len rfl hlen udata rest hqueue with rfl | ⟨hle, rfl⟩
        · refine ⟨?_, ?_⟩
          · dsimp only
            rw [h.reads, List.take_left, List.head?_cons, Option.map_some, List.take_length]
            rfl
          · dsimp only
            rw [hrest, List.drop_left]
            rfl
        · rw [List.flatten_nil, List.append_nil] at hrest ⊢
          refine ⟨?_, ?_⟩
          · dsimp only
            rw [h.reads]
            rfl
          · dsimp only
            rw [hrest, List.drop_of_length_le hle]
            rfl
      · intro hafter len' hcall _ udata' rest' hqueue'
        cases hcall
        cases hqueue.symm.trans hqueue'
        have hring := congrArg List.length (hrest.symm.trans hafter.ring)
        rw [List.length_drop, List.length_append] at hring
        dsimp only [List.tail_cons] at hring
        by_cases hle : len ≤ udata.length + rest.flatten.length
        · exact .inl (by omega)
        · have hnone : rest.flatten = [] := List.eq_nil_of_length_eq_zero (by omega)
          exact .inr ⟨by omega, flatten_eq_nil hothers hnone⟩

theorem datagramStart_inv {port : BitVec 16} : (datagramStart port).Inv :=
  ⟨@queueStart_inv port, fun _ hmem => (nomatch hmem)⟩

/-- Every read returns one datagram exactly as long as each of them takes just the first one. -/
theorem datagrams_iff (port : BitVec 16) (events : List SockEvent) :
    Run.EveryState datagramStep DatagramsOk (datagramStart port) events ↔
      Run.EveryStep datagramStep ReadsOne (datagramStart port) events := by
  refine Run.everyState_iff_everyStep (A := fun _ => True) (I := DatagramLog.Inv)
    (fun _ _ => trivial) ?_ ?_ datagramStart_inv ⟨rfl, (@openSocket_queued ipProtoUdp)⟩
  · intro d event d' _ hs h hstep
    cases event with
    | datagram udata =>
      exact iff_of_true (fun _ hcall => (nomatch hcall)) ((datagram_step hs hstep).2 h)
    | recvfrom len => exact recvfrom_step hs h hstep
  · intro d event d' _ hs hstep
    cases event with
    | datagram udata => exact (datagram_step hs hstep).1
    | recvfrom len => exact recvfrom_inv hs hstep

/-- Two datagrams are queued, and one read with a large buffer returns both. -/
theorem not_datagrams_two : ¬ Run.EveryState datagramStep DatagramsOk (datagramStart 68)
    [.datagram [1, 2], .datagram [3], .recvfrom 4] := by
  intro hstates
  have hmerged : (Run.run datagramStep (datagramStart 68)
      [.datagram [1, 2], .datagram [3], .recvfrom 4]).any fun d => d.got ≠ d.due := by
    decide +kernel
  obtain ⟨d, hrun, hreads⟩ := (Option.any_eq_true _ _).mp hmerged
  exact of_decide_eq_true hreads (hstates.last hrun).reads

end PinguinOS.Net
