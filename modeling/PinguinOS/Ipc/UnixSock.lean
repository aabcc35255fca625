import Mathlib.Data.Finset.Basic
import PinguinOS.Lib.Run
import PinguinOS.Mm.Types

/-! The table of Unix sockets: who has the ring buffers. -/
namespace PinguinOS.Ipc

open Mm (u32 int32)

def unixSockMax : Nat := 16
def unixSockNameLen : Nat := 64

inductive SockZustand
  | frei
  | hoert
  | verbunden
  deriving DecidableEq

/-- `unix_socket_t` -/
structure UnixSocket where
  id : Nat
  zustand : SockZustand
  name : List Char
  rx : Nat
  tx : Nat
  peerId : Nat

/-- A socket that `memset` has cleared. -/
def clearSocket : UnixSocket where
  id := 0
  zustand := .frei
  name := []
  rx := 0
  tx := 0
  peerId := 0

/-- The ring buffers on the heap; `doubleFree` when something else was given to `kfree`. -/
structure PufferHeap where
  live : Finset Nat
  doubleFree : Bool

/-- `puffer_allozieren`, when `kzalloc` returns `p`. -/
def PufferHeap.allozieren (h : PufferHeap) (p : Nat) : PufferHeap :=
  if p = 0 then h else { h with live := insert p h.live }

/-- What `kzalloc` can return: NULL, or memory that is not in use. -/
def PufferHeap.Gives (h : PufferHeap) (p : Nat) : Prop := p = 0 ∨ p ∉ h.live

instance {h : PufferHeap} {p : Nat} : Decidable (h.Gives p) :=
  inferInstanceAs (Decidable (p = 0 ∨ p ∉ h.live))

def PufferHeap.kfree (h : PufferHeap) (p : Nat) : PufferHeap :=
  if p = 0 then h
  else if p ∈ h.live then { h with live := h.live.erase p }
  else { h with doubleFree := true }

structure SockTable where
  sockets : Nat → UnixSocket
  naechsteId : Nat
  heap : PufferHeap

def unixSockInit : SockTable where
  sockets := fun _ => clearSocket
  naechsteId := 1
  heap := ⟨∅, false⟩

namespace SockTable

def freierSlot (s : SockTable) : Option Nat :=
  (List.range unixSockMax).find? fun i => (s.sockets i).zustand = .frei

def sucheName (s : SockTable) (name : List Char) : Option Nat :=
  (List.range unixSockMax).find? fun i =>
    (s.sockets i).zustand ≠ .frei ∧ (s.sockets i).name = name

/-- The first open socket with this id. -/
def sucheId (s : SockTable) (id : Int) : Option Nat :=
  (List.range unixSockMax).find? fun i =>
    ¬ ((s.sockets i).zustand = .frei ∨ int32 (s.sockets i).id ≠ id)

def setSocket (s : SockTable) (i : Nat) (socket : UnixSocket) : SockTable :=
  { s with sockets := Function.update s.sockets i socket }

/-- `rx` and `tx` are what the two calls of `kzalloc` return. -/
def unixSockCreate (s : SockTable) (name : List Char) (rx tx : Nat) : SockTable × Int :=
  match s.sucheName name with
  | some _ => (s, -1)
  | none =>
    match s.freierSlot with
    | none => (s, -1)
    | some i =>
      let heap := (s.heap.allozieren rx).allozieren tx
      let socket := { s.sockets i with rx := rx, tx := tx }
      if rx = 0 ∨ tx = 0 then
        let heap := if rx ≠ 0 then heap.kfree rx else heap
        let heap := if tx ≠ 0 then heap.kfree tx else heap
        ({ s.setSocket i socket with heap := heap }, -1)
      else
        let socket :=
          { socket with
            id := s.naechsteId
            zustand := .hoert
            peerId := 0
            name := name.take (unixSockNameLen - 1) }
        ({ s.setSocket i socket with heap := heap, naechsteId := u32 (s.naechsteId + 1) },
          int32 s.naechsteId)

def unixSockConnect (s : SockTable) (name : List Char) : SockTable × Int :=
  match s.sucheName name with
  | none => (s, -1)
  | some i =>
    if (s.sockets i).zustand ≠ .hoert then (s, -1)
    else
      match s.freierSlot with
      | none => (s, -1)
      | some j =>
        let server := s.sockets i
        let client : UnixSocket :=
          { id := s.naechsteId
            zustand := .verbunden
            name := name.take (unixSockNameLen - 1)
            rx := server.tx
            tx := server.rx
            peerId := server.id }
        let server := { server with zustand := .verbunden, peerId := client.id }
        ({ (s.setSocket j client).setSocket i server with naechsteId := u32 (s.naechsteId + 1) },
          int32 s.naechsteId)

def unixSockClose (s : SockTable) (id : Int) : SockTable :=
  match s.sucheId id with
  | none => s
  | some i =>
    let socket := s.sockets i
    let heap :=
      if socket.zustand = .hoert ∧ socket.rx ≠ 0 then (s.heap.kfree socket.rx).kfree socket.tx
      else s.heap
    { s.setSocket i clearSocket with heap := heap }

end SockTable

inductive SockTableCall
  | create (name : List Char) (rx tx : Nat)
  | connect (name : List Char)
  | close (id : Int)

/-- A call, when `kzalloc` can answer so. -/
def sockStep (s : SockTable) : SockTableCall → Option SockTable
  | .create name rx tx =>
    if s.heap.Gives rx ∧ (s.heap.allozieren rx).Gives tx then some (s.unixSockCreate name rx tx).1
    else none
  | .connect name => some (s.unixSockConnect name).1
  | .close id => some (s.unixSockClose id)

def UnixSocket.Open (socket : UnixSocket) : Prop := socket.zustand ≠ .frei

/-- Each buffer has an open socket, each open socket has its buffers, and none was freed twice. -/
structure BuffersOwned (s : SockTable) : Prop where
  used : ∀ p ∈ s.heap.live, ∃ i, (s.sockets i).Open ∧ ((s.sockets i).rx = p ∨ (s.sockets i).tx = p)
  live : ∀ i, (s.sockets i).Open → (s.sockets i).rx ∈ s.heap.live ∧ (s.sockets i).tx ∈ s.heap.live
  once : s.heap.doubleFree = false

/-- The other socket of the pair: it reads what this one writes, and writes what this one reads. -/
def SockTable.Peers (s : SockTable) (i j : Nat) : Prop :=
  i ≠ j ∧ (s.sockets j).Open ∧ (s.sockets i).rx = (s.sockets j).tx ∧
    (s.sockets i).tx = (s.sockets j).rx

/-- A connected socket is closed only while its peer is open. -/
def PeerOpen (s : SockTable) (call : SockTableCall) (_ : SockTable) : Prop :=
  ∀ id i, call = .close id → s.sucheId id = some i → (s.sockets i).zustand = .verbunden →
    ∃ j, s.Peers i j

/-! What the sockets share. -/

variable {s s' t : SockTable} {h : PufferHeap} {i j p rx tx : Nat} {name : List Char} {id : Int}
  {call : SockTableCall} {socket : UnixSocket} {a b : UnixSocket}

def UnixSocket.Shares (a b : UnixSocket) : Prop :=
  a.rx = b.rx ∨ a.rx = b.tx ∨ a.tx = b.rx ∨ a.tx = b.tx

theorem UnixSocket.Shares.symm (h : a.Shares b) : b.Shares a := by
  unfold UnixSocket.Shares at h ⊢
  omega

/-- Open sockets that share a buffer are the two of a pair. -/
structure SockTable.Inv (s : SockTable) : Prop where
  live : ∀ i, (s.sockets i).Open → (s.sockets i).rx ∈ s.heap.live ∧ (s.sockets i).tx ∈ s.heap.live
  zero : 0 ∉ s.heap.live
  apart : ∀ i, (s.sockets i).Open → (s.sockets i).rx ≠ (s.sockets i).tx
  pairs : ∀ i j, i ≠ j → (s.sockets i).Open → (s.sockets j).Open →
    (s.sockets i).Shares (s.sockets j) →
    (s.sockets i).zustand = .verbunden ∧ (s.sockets i).rx = (s.sockets j).tx ∧
      (s.sockets i).tx = (s.sockets j).rx
  once : s.heap.doubleFree = false

def SockTable.Used (s : SockTable) : Prop :=
  ∀ p ∈ s.heap.live, ∃ i, (s.sockets i).Open ∧ ((s.sockets i).rx = p ∨ (s.sockets i).tx = p)

theorem SockTable.Inv.buffersOwned_iff_used (hs : s.Inv) : BuffersOwned s ↔ s.Used :=
  ⟨fun h => h.used, fun h => ⟨h, hs.live, hs.once⟩⟩

theorem inv_unixSockInit : unixSockInit.Inv := by
  have hnone : ∀ i, ¬ (unixSockInit.sockets i).Open := fun i hi => hi rfl
  constructor
  case live => exact fun i hi => absurd hi (hnone i)
  case zero => exact Finset.notMem_empty 0
  case apart => exact fun i hi => absurd hi (hnone i)
  case pairs => exact fun i j _ hi => absurd hi (hnone i)
  case once => rfl

theorem used_unixSockInit : unixSockInit.Used := fun p hp => absurd hp (Finset.notMem_empty p)

theorem open_of_hoert (h : socket.zustand = .hoert) : socket.Open := by
  unfold UnixSocket.Open
  rw [h]
  decide

/-- Nobody else has the buffers of a listening socket. -/
theorem SockTable.Inv.hoert_alone (hs : s.Inv) (hhoert : (s.sockets i).zustand = .hoert)
    (hij : i ≠ j) (hj : (s.sockets j).Open) : ¬ (s.sockets i).Shares (s.sockets j) := by
  intro hshares
  have hverb := (hs.pairs i j hij (open_of_hoert hhoert) hj hshares).1
  rw [hhoert] at hverb
  cases hverb

/-! The heap. -/

theorem kfree_allozieren (hp : h.Gives p) : (h.allozieren p).kfree p = h := by
  unfold PufferHeap.allozieren PufferHeap.kfree
  by_cases hzero : p = 0
  · rw [if_pos hzero, if_pos hzero]
  · rw [if_neg hzero, if_neg hzero, if_pos (Finset.mem_insert_self p _)]
    rw [Finset.erase_insert (hp.resolve_left hzero)]

theorem kfree_live (hzero : p ≠ 0) (hp : p ∈ h.live) :
    h.kfree p = { h with live := h.live.erase p } := by
  unfold PufferHeap.kfree
  rw [if_neg hzero, if_pos hp]

/-! What each call does. -/

theorem freierSlot_frei (hi : s.freierSlot = some i) : ¬ (s.sockets i).Open := by
  unfold SockTable.freierSlot at hi
  have hfrei := (List.find?_range_eq_some.mp hi).1
  exact not_not_intro (of_decide_eq_true hfrei)

theorem sucheId_open (hi : s.sucheId id = some i) : (s.sockets i).Open := by
  unfold SockTable.sucheId at hi
  have hopen := (List.find?_range_eq_some.mp hi).1
  exact fun hfrei => of_decide_eq_true hopen (.inl hfrei)

/-- A create makes a socket of a free slot, or leaves no more than two addresses in one. -/
theorem unixSockCreate_cases (hrx : s.heap.Gives rx) (htx : (s.heap.allozieren rx).Gives tx) :
    (s.unixSockCreate name rx tx).1 = s ∨
    ∃ i socket, ¬ (s.sockets i).Open ∧ socket.rx = rx ∧ socket.tx = tx ∧
      ((socket.zustand = .frei ∧
        (s.unixSockCreate name rx tx).1 = s.setSocket i socket) ∨
      (rx ≠ 0 ∧ tx ≠ 0 ∧ socket.zustand = .hoert ∧
        (s.unixSockCreate name rx tx).1 =
          { s.setSocket i socket with
            heap := ⟨insert tx (insert rx s.heap.live), s.heap.doubleFree⟩
            naechsteId := u32 (s.naechsteId + 1) })) := by
  unfold SockTable.unixSockCreate
  cases hname : s.sucheName name with
  | some i => exact .inl rfl
  | none =>
    cases hslot : s.freierSlot with
    | none => exact .inl rfl
    | some i =>
      right
      have hfrei := freierSlot_frei hslot
      have hzustand : (s.sockets i).zustand = .frei := not_not.mp hfrei
      dsimp only
      by_cases hfail : rx = 0 ∨ tx = 0
      · refine ⟨i, { s.sockets i with rx := rx, tx := tx }, hfrei, rfl, rfl, .inl ⟨hzustand, ?_⟩⟩
        have hheap : (let heap := if rx ≠ 0 then ((s.heap.allozieren rx).allozieren tx).kfree rx
            else (s.heap.allozieren rx).allozieren tx
            if tx ≠ 0 then heap.kfree tx else heap) = s.heap := by
          rcases hfail with rfl | rfl
          · have hnone : s.heap.allozieren 0 = s.heap := rfl
            rw [hnone] at htx ⊢
            dsimp only
            rw [if_neg (not_not_intro rfl)]
            by_cases hzero : tx = 0
            · rw [if_neg (not_not_intro hzero), hzero, hnone]
            · rw [if_pos hzero, kfree_allozieren htx]
          · have hnone : (s.heap.allozieren rx).allozieren 0 = s.heap.allozieren rx := rfl
            dsimp only
            rw [if_neg (not_not_intro rfl), hnone]
            by_cases hzero : rx = 0
            · rw [if_neg (not_not_intro hzero), hzero]
              rfl
            · rw [if_pos hzero, kfree_allozieren hrx]
        rw [if_pos hfail, hheap]
        rfl
      · obtain ⟨hrx0, htx0⟩ := not_or.mp hfail
        refine ⟨i,
          { id := s.naechsteId
            zustand := .hoert
            name := name.take (unixSockNameLen - 1)
            rx := rx
            tx := tx
            peerId := 0 }, hfrei, rfl, rfl, .inr ⟨hrx0, htx0, rfl, ?_⟩⟩
        rw [if_neg hfail]
        unfold PufferHeap.allozieren
        rw [if_neg hrx0, if_neg htx0]

/-- A connect makes the server and a free slot a pair. -/
theorem unixSockConnect_cases :
    (s.unixSockConnect name).1 = s ∨
    ∃ i j server client, (s.sockets i).zustand = .hoert ∧ ¬ (s.sockets j).Open ∧
      server.zustand = .verbunden ∧ client.zustand = .verbunden ∧
      server.rx = (s.sockets i).rx ∧ server.tx = (s.sockets i).tx ∧
      client.rx = (s.sockets i).tx ∧ client.tx = (s.sockets i).rx ∧
      (s.unixSockConnect name).1 =
        { (s.setSocket j client).setSocket i server with naechsteId := u32 (s.naechsteId + 1) } := by
  unfold SockTable.unixSockConnect
  cases hname : s.sucheName name with
  | none => exact .inl rfl
  | some i =>
    dsimp only
    by_cases hhoert : (s.sockets i).zustand = .hoert
    · rw [if_neg (not_not_intro hhoert)]
      cases hslot : s.freierSlot with
      | none => exact .inl rfl
      | some j =>
        refine .inr ⟨i, j, { s.sockets i with zustand := .verbunden, peerId := s.naechsteId },
          { id := s.naechsteId
            zustand := .verbunden
            name := name.take (unixSockNameLen - 1)
            rx := (s.sockets i).tx
            tx := (s.sockets i).rx
            peerId := (s.sockets i).id },
          hhoert, freierSlot_frei hslot, rfl, rfl, rfl, rfl, rfl, rfl, rfl⟩
    · rw [if_pos hhoert]
      exact .inl rfl

/-! Each call keeps the invariant, and all but one case keep the buffers in use. -/

/-- No socket is opened or changed, and the open ones keep their buffers. -/
theorem SockTable.Inv.shrink (hs : s.Inv)
    (hsame : ∀ i, (s'.sockets i).Open → s'.sockets i = s.sockets i)
    (hlive : ∀ i, (s'.sockets i).Open →
      (s'.sockets i).rx ∈ s'.heap.live ∧ (s'.sockets i).tx ∈ s'.heap.live)
    (hzero : 0 ∉ s'.heap.live) (honce : s'.heap.doubleFree = false) : s'.Inv := by
  constructor
  case live => exact hlive
  case zero => exact hzero
  case apart =>
    intro i hi
    have hi' := hsame i hi
    rw [hi'] at hi ⊢
    exact hs.apart i hi
  case pairs =>
    intro i j hij hi hj
    have hi' := hsame i hi
    have hj' := hsame j hj
    rw [hi'] at hi ⊢
    rw [hj'] at hj ⊢
    exact hs.pairs i j hij hi hj
  case once => exact honce

/-- A free slot is written, and stays free. -/
theorem SockTable.Inv.setFrei (hs : s.Inv) (hfrei : socket.zustand = .frei) :
    (s.setSocket i socket).Inv := by
  have hsame : ∀ j, ((s.setSocket i socket).sockets j).Open →
      (s.setSocket i socket).sockets j = s.sockets j := by
    intro j hj
    apply Function.update_of_ne
    rintro rfl
    unfold SockTable.setSocket at hj
    dsimp only at hj
    rw [Function.update_self] at hj
    exact hj hfrei
  refine hs.shrink hsame (fun j hj => ?_) hs.zero hs.once
  have hj' := hsame j hj
  rw [hj'] at hj ⊢
  exact hs.live j hj

theorem used_setFrei (hi : ¬ (s.sockets i).Open) (hused : s.Used) :
    (s.setSocket i socket).Used := by
  intro p hp
  obtain ⟨j, hj, hhas⟩ := hused p hp
  have hne : j ≠ i := by
    rintro rfl
    exact hi hj
  have hsame : (s.setSocket i socket).sockets j = s.sockets j := Function.update_of_ne hne _ _
  exact ⟨j, by rwa [hsame], by rwa [hsame]⟩

/-- A new socket has two buffers of its own. -/
theorem SockTable.Inv.create (hs : s.Inv) (hi : ¬ (s.sockets i).Open)
    (hrx : s.heap.Gives socket.rx) (htx : (s.heap.allozieren socket.rx).Gives socket.tx)
    (hrx0 : socket.rx ≠ 0) (htx0 : socket.tx ≠ 0)
    (hsockets : t.sockets = Function.update s.sockets i socket)
    (hheap : t.heap = ⟨insert socket.tx (insert socket.rx s.heap.live), s.heap.doubleFree⟩) :
    t.Inv := by
  have hnewrx : socket.rx ∉ s.heap.live := hrx.resolve_left hrx0
  have hnewtx : socket.tx ∉ insert socket.rx s.heap.live := by
    have hgives := htx.resolve_left htx0
    unfold PufferHeap.allozieren at hgives
    rwa [if_neg hrx0] at hgives
  have hne : socket.tx ≠ socket.rx ∧ socket.tx ∉ s.heap.live := by
    rwa [Finset.mem_insert, not_or] at hnewtx
  -- the buffers of the others are not the new ones
  have hother : ∀ j, (s.sockets j).Open → ¬ socket.Shares (s.sockets j) := by
    intro j hj hshares
    obtain ⟨hlrx, hltx⟩ := hs.live j hj
    rcases hshares with heq | heq | heq | heq
    · exact hnewrx (heq ▸ hlrx)
    · exact hnewrx (heq ▸ hltx)
    · exact hne.2 (heq ▸ hlrx)
    · exact hne.2 (heq ▸ hltx)
  constructor
  case live =>
    intro j hj
    rw [hsockets] at hj ⊢
    rw [hheap]
    dsimp only
    by_cases hji : j = i
    · subst hji
      rw [Function.update_self]
      exact ⟨Finset.mem_insert_of_mem (Finset.mem_insert_self _ _), Finset.mem_insert_self _ _⟩
    · rw [Function.update_of_ne hji] at hj ⊢
      obtain ⟨hlrx, hltx⟩ := hs.live j hj
      exact ⟨Finset.mem_insert_of_mem (Finset.mem_insert_of_mem hlrx),
        Finset.mem_insert_of_mem (Finset.mem_insert_of_mem hltx)⟩
  case zero =>
    rw [hheap]
    dsimp only
    rw [Finset.mem_insert, Finset.mem_insert, not_or, not_or]
    exact ⟨Ne.symm htx0, Ne.symm hrx0, hs.zero⟩
  case apart =>
    intro j hj
    rw [hsockets] at hj ⊢
    by_cases hji : j = i
    · subst hji
      rw [Function.update_self]
      exact Ne.symm hne.1
    · rw [Function.update_of_ne hji] at hj ⊢
      exact hs.apart j hj
  case pairs =>
    intro j k hjk hj hk hshares
    rw [hsockets] at hj hk hshares ⊢
    by_cases hji : j = i
    · subst hji
      rw [Function.update_of_ne (Ne.symm hjk)] at hk hshares
      rw [Function.update_self] at hshares
      exact absurd hshares (hother k hk)
    · rw [Function.update_of_ne hji] at hj hshares ⊢
      by_cases hki : k = i
      · subst hki
        rw [Function.update_self] at hshares
        exact absurd hshares.symm (hother j hj)
      · rw [Function.update_of_ne hki] at hk hshares ⊢
        exact hs.pairs j k hjk hj hk hshares
  case once =>
    rw [hheap]
    exact hs.once

theorem used_create (hi : ¬ (s.sockets i).Open) (hopen : socket.Open) (hused : s.Used)
    (hsockets : t.sockets = Function.update s.sockets i socket)
    (hheap : t.heap = ⟨insert socket.tx (insert socket.rx s.heap.live), s.heap.doubleFree⟩) :
    t.Used := by
  intro p hp
  have hnew : t.sockets i = socket := by
    rw [hsockets, Function.update_self]
  rw [hheap] at hp
  rcases Finset.mem_insert.mp hp with rfl | hp
  · exact ⟨i, by rwa [hnew], .inr (by rw [hnew])⟩
  · rcases Finset.mem_insert.mp hp with rfl | hp
    · exact ⟨i, by rwa [hnew], .inl (by rw [hnew])⟩
    · obtain ⟨j, hj, hhas⟩ := hused p hp
      have hne : j ≠ i := by
        rintro rfl
        exact hi hj
      have hsame : t.sockets j = s.sockets j := by
        rw [hsockets, Function.update_of_ne hne]
      exact ⟨j, by rwa [hsame], by rwa [hsame]⟩

/-- The two ends of a new pair; `server` had its buffers for itself. -/
theorem SockTable.Inv.connect {server client : UnixSocket} (hs : s.Inv)
    (hhoert : (s.sockets i).zustand = .hoert) (hj : ¬ (s.sockets j).Open)
    (hserver : server.zustand = .verbunden) (hclient : client.zustand = .verbunden)
    (hsrx : server.rx = (s.sockets i).rx) (hstx : server.tx = (s.sockets i).tx)
    (hcrx : client.rx = (s.sockets i).tx) (hctx : client.tx = (s.sockets i).rx)
    (hsockets : t.sockets = Function.update (Function.update s.sockets j client) i server)
    (hheap : t.heap = s.heap) : t.Inv := by
  have hopen : (s.sockets i).Open := open_of_hoert hhoert
  have hij : i ≠ j := by
    rintro rfl
    exact hj hopen
  have hi' : t.sockets i = server := by
    rw [hsockets, Function.update_self]
  have hj' : t.sockets j = client := by
    rw [hsockets, Function.update_of_ne (Ne.symm hij), Function.update_self]
  have hk' : ∀ k, k ≠ i → k ≠ j → t.sockets k = s.sockets k := by
    intro k hki hkj
    rw [hsockets, Function.update_of_ne hki, Function.update_of_ne hkj]
  have halone : ∀ k, k ≠ i → (s.sockets k).Open → ¬ (s.sockets i).Shares (s.sockets k) :=
    fun k hki hk => hs.hoert_alone hhoert (Ne.symm hki) hk
  have hserver' : ∀ {c : UnixSocket}, server.Shares c → (s.sockets i).Shares c := by
    intro c hshares
    unfold UnixSocket.Shares at hshares ⊢
    omega
  have hclient' : ∀ {c : UnixSocket}, client.Shares c → (s.sockets i).Shares c := by
    intro c hshares
    unfold UnixSocket.Shares at hshares ⊢
    omega
  obtain ⟨hlrx, hltx⟩ := hs.live i hopen
  constructor
  case live =>
    intro k hk
    rw [hheap]
    by_cases hki : k = i
    · rw [hki, hi', hsrx, hstx]
      exact ⟨hlrx, hltx⟩
    · by_cases hkj : k = j
      · rw [hkj, hj', hcrx, hctx]
        exact ⟨hltx, hlrx⟩
      · rw [hk' k hki hkj] at hk ⊢
        exact hs.live k hk
  case zero =>
    rw [hheap]
    exact hs.zero
  case apart =>
    intro k hk
    by_cases hki : k = i
    · rw [hki, hi', hsrx, hstx]
      exact hs.apart i hopen
    · by_cases hkj : k = j
      · rw [hkj, hj', hcrx, hctx]
        exact Ne.symm (hs.apart i hopen)
      · rw [hk' k hki hkj] at hk ⊢
        exact hs.apart k hk
  case pairs =>
    intro k l hkl hk hl hshares
    by_cases hki : k = i
    · rw [hki] at hshares hkl ⊢
      rw [hi'] at hshares ⊢
      by_cases hlj : l = j
      · rw [hlj, hj', hsrx, hstx, hcrx, hctx]
        exact ⟨hserver, rfl, rfl⟩
      · rw [hk' l (Ne.symm hkl) hlj] at hl hshares
        exact absurd (hserver' hshares) (halone l (Ne.symm hkl) hl)
    · by_cases hkj : k = j
      · rw [hkj] at hshares hkl ⊢
        rw [hj'] at hshares ⊢
        by_cases hli : l = i
        · rw [hli, hi', hsrx, hstx, hcrx, hctx]
          exact ⟨hclient, rfl, rfl⟩
        · rw [hk' l hli (Ne.symm hkl)] at hl hshares
          exact absurd (hclient' hshares) (halone l hli hl)
      · rw [hk' k hki hkj] at hk hshares ⊢
        by_cases hli : l = i
        · rw [hli, hi'] at hshares
          exact absurd (hserver' hshares.symm) (halone k hki hk)
        · by_cases hlj : l = j
          · rw [hlj, hj'] at hshares
            exact absurd (hclient' hshares.symm) (halone k hki hk)
          · rw [hk' l hli hlj] at hl hshares ⊢
            exact hs.pairs k l hkl hk hl hshares
  case once =>
    rw [hheap]
    exact hs.once

theorem used_connect {server client : UnixSocket} (hhoert : (s.sockets i).zustand = .hoert)
    (hj : ¬ (s.sockets j).Open) (hserver : server.zustand = .verbunden)
    (hsrx : server.rx = (s.sockets i).rx) (hstx : server.tx = (s.sockets i).tx)
    (hsockets : t.sockets = Function.update (Function.update s.sockets j client) i server)
    (hheap : t.heap = s.heap) (hused : s.Used) : t.Used := by
  intro p hp
  rw [hheap] at hp
  obtain ⟨k, hk, hhas⟩ := hused p hp
  by_cases hki : k = i
  · subst hki
    refine ⟨k, ?_, ?_⟩
    · unfold UnixSocket.Open
      rw [hsockets, Function.update_self, hserver]
      decide
    · rw [hsockets, Function.update_self, hsrx, hstx]
      exact hhas
  · have hkj : k ≠ j := by
      rintro rfl
      exact hj hk
    have hsame : t.sockets k = s.sockets k := by
      rw [hsockets, Function.update_of_ne hki, Function.update_of_ne hkj]
    exact ⟨k, by rwa [hsame], by rwa [hsame]⟩

/-- A listening socket is closed with its buffers. -/
theorem SockTable.Inv.closeHoert (hs : s.Inv) (hhoert : (s.sockets i).zustand = .hoert)
    (hsockets : t.sockets = Function.update s.sockets i clearSocket)
    (hheap : t.heap = (s.heap.kfree (s.sockets i).rx).kfree (s.sockets i).tx) :
    t.Inv ∧ (s.Used → t.Used) := by
  have hopen : (s.sockets i).Open := open_of_hoert hhoert
  obtain ⟨hlrx, hltx⟩ := hs.live i hopen
  have hnonzero : ∀ p ∈ s.heap.live, p ≠ 0 := by
    rintro p hp rfl
    exact hs.zero hp
  have hltx' : (s.sockets i).tx ∈ s.heap.live.erase (s.sockets i).rx :=
    Finset.mem_erase.mpr ⟨Ne.symm (hs.apart i hopen), hltx⟩
  have hlive : t.heap =
      ⟨(s.heap.live.erase (s.sockets i).rx).erase (s.sockets i).tx, s.heap.doubleFree⟩ := by
    rw [hheap, kfree_live (hnonzero _ hlrx) hlrx, kfree_live (hnonzero _ hltx) hltx']
  have hsame : ∀ j, (t.sockets j).Open → j ≠ i ∧ t.sockets j = s.sockets j := by
    intro j hj
    have hne : j ≠ i := by
      rintro rfl
      rw [hsockets, Function.update_self] at hj
      exact hj rfl
    exact ⟨hne, by rw [hsockets, Function.update_of_ne hne]⟩
  constructor
  · refine hs.shrink (fun j hj => (hsame j hj).2) (fun j hj => ?_) ?_ ?_
    · obtain ⟨hne, hj'⟩ := hsame j hj
      rw [hj'] at hj ⊢
      have hshares := hs.hoert_alone hhoert (Ne.symm hne) hj
      unfold UnixSocket.Shares at hshares
      obtain ⟨hjrx, hjtx⟩ := hs.live j hj
      rw [hlive]
      simp only [Finset.mem_erase]
      exact ⟨⟨by omega, by omega, hjrx⟩, by omega, by omega, hjtx⟩
    · rw [hlive]
      exact fun hp => hs.zero (Finset.mem_of_mem_erase (Finset.mem_of_mem_erase hp))
    · rw [hlive]
      exact hs.once
  · intro hused p hp
    rw [hlive] at hp
    simp only [Finset.mem_erase] at hp
    obtain ⟨hptx, hprx, hp⟩ := hp
    obtain ⟨j, hj, hhas⟩ := hused p hp
    have hne : j ≠ i := by
      rintro rfl
      omega
    have hj' : t.sockets j = s.sockets j := by
      rw [hsockets, Function.update_of_ne hne]
    exact ⟨j, by rwa [hj'], by rwa [hj']⟩

/-- A connected socket is closed without its buffers: they stay in use when its peer has them. -/
theorem SockTable.Inv.used_close (hs : s.Inv) (hused : s.Used) (hopen : (s.sockets i).Open) :
    (s.setSocket i clearSocket).Used ↔ ∃ j, s.Peers i j := by
  have hsame : ∀ j, j ≠ i → (s.setSocket i clearSocket).sockets j = s.sockets j :=
    fun j hj => Function.update_of_ne hj _ _
  have hclosed : ¬ ((s.setSocket i clearSocket).sockets i).Open := by
    unfold SockTable.setSocket
    dsimp only
    rw [Function.update_self]
    exact fun h => h rfl
  constructor
  · intro hafter
    obtain ⟨j, hj, hhas⟩ := hafter (s.sockets i).rx (hs.live i hopen).1
    have hne : j ≠ i := by
      rintro rfl
      exact hclosed hj
    rw [hsame j hne] at hj hhas
    have hshares : (s.sockets i).Shares (s.sockets j) := by
      unfold UnixSocket.Shares
      omega
    obtain ⟨-, hrx, htx⟩ := hs.pairs i j (Ne.symm hne) hopen hj hshares
    exact ⟨j, Ne.symm hne, hj, hrx, htx⟩
  · rintro ⟨j, hij, hj, hrx, htx⟩ p hp
    obtain ⟨k, hk, hhas⟩ := hused p hp
    by_cases hki : k = i
    · rw [hki] at hhas
      have hj' := hsame j (Ne.symm hij)
      exact ⟨j, by rwa [hj'], by rw [hj']; omega⟩
    · have hk' := hsame k hki
      exact ⟨k, by rwa [hk'], by rwa [hk']⟩

/-- A close is careful where the peer of the end that it finds is open. -/
theorem peerOpen_close_iff (hfound : s.sucheId id = some i) :
    PeerOpen s (.close id) t ↔ ((s.sockets i).zustand = .verbunden → ∃ j, s.Peers i j) := by
  constructor
  · intro hcond
    exact hcond id i rfl hfound
  · intro hpeer id' i' hcall hfound'
    cases hcall
    rw [hfound] at hfound'
    cases hfound'
    exact hpeer

theorem SockTable.Inv.close (hs : s.Inv) :
    (s.unixSockClose id).Inv ∧
      (s.Used → (PeerOpen s (.close id) (s.unixSockClose id) ↔ (s.unixSockClose id).Used)) := by
  cases hfound : s.sucheId id with
  | none =>
    have hsame : s.unixSockClose id = s := by
      unfold SockTable.unixSockClose
      rw [hfound]
    rw [hsame]
    refine ⟨hs, fun hused => iff_of_true ?_ hused⟩
    intro id' i hcall hfound'
    cases hcall
    rw [hfound] at hfound'
    cases hfound'
  | some i =>
    have hopen := sucheId_open hfound
    rw [peerOpen_close_iff hfound]
    unfold SockTable.unixSockClose
    rw [hfound]
    dsimp only
    by_cases hhoert : (s.sockets i).zustand = .hoert
    · have hrx0 : (s.sockets i).rx ≠ 0 := by
        intro heq
        exact hs.zero (heq ▸ (hs.live i hopen).1)
      rw [if_pos ⟨hhoert, hrx0⟩]
      obtain ⟨hinv, hkeep⟩ := hs.closeHoert (t := { s.setSocket i clearSocket with
        heap := (s.heap.kfree (s.sockets i).rx).kfree (s.sockets i).tx }) hhoert rfl rfl
      refine ⟨hinv, fun hused => iff_of_true ?_ (hkeep hused)⟩
      intro hverb
      rw [hhoert] at hverb
      cases hverb
    · have hverb : (s.sockets i).zustand = .verbunden := by
        unfold UnixSocket.Open at hopen
        cases hz : (s.sockets i).zustand with
        | frei => exact absurd hz hopen
        | hoert => exact absurd hz hhoert
        | verbunden => rfl
      rw [if_neg fun hboth => hhoert hboth.1]
      refine ⟨hs.setFrei rfl, fun hused => ?_⟩
      rw [forall_prop_of_true hverb]
      exact (hs.used_close hused hopen).symm

/-- One call: the invariant stays, and the buffers stay in use exactly when the condition holds. -/
theorem SockTable.Inv.step (hs : s.Inv) (hstep : sockStep s call = some t) :
    t.Inv ∧ (s.Used → (PeerOpen s call t ↔ t.Used)) := by
  cases call with
  | create name rx tx =>
    have hcond : PeerOpen s (.create name rx tx) t := fun id i hcall => (nomatch hcall)
    obtain ⟨⟨hrx, htx⟩, hcreate⟩ := Option.ite_none_right_eq_some.mp hstep
    injection hcreate with hcreate
    rcases @unixSockCreate_cases s rx tx name hrx htx with hsame | ⟨i, socket, hi, rfl, rfl, hrest⟩
    · rw [hsame] at hcreate
      subst hcreate
      exact ⟨hs, fun hused => iff_of_true hcond hused⟩
    · rcases hrest with ⟨hfrei, hset⟩ | ⟨hrx0, htx0, hhoert, hset⟩
      · rw [hset] at hcreate
        subst hcreate
        exact ⟨hs.setFrei hfrei, fun hused => iff_of_true hcond (used_setFrei hi hused)⟩
      · rw [hset] at hcreate
        subst hcreate
        have hopen : socket.Open := open_of_hoert hhoert
        exact ⟨hs.create hi hrx htx hrx0 htx0 rfl rfl,
          fun hused => iff_of_true hcond (used_create hi hopen hused rfl rfl)⟩
  | connect name =>
    have hcond : PeerOpen s (.connect name) t := fun id i hcall => (nomatch hcall)
    injection hstep with hconnect
    rcases @unixSockConnect_cases s name with hsame |
      ⟨i, j, server, client, hhoert, hj, hserver, hclient, hsrx, hstx, hcrx, hctx, hset⟩
    · rw [hsame] at hconnect
      subst hconnect
      exact ⟨hs, fun hused => iff_of_true hcond hused⟩
    · rw [hset] at hconnect
      subst hconnect
      exact ⟨hs.connect hhoert hj hserver hclient hsrx hstx hcrx hctx rfl rfl,
        fun hused => iff_of_true hcond (used_connect hhoert hj hserver hsrx hstx rfl rfl hused)⟩
  | close id =>
    injection hstep with hclose
    subst hclose
    exact hs.close

theorem buffersOwned_iff (calls : List SockTableCall) :
    Run.EveryState sockStep BuffersOwned unixSockInit calls ↔
      Run.EveryStep sockStep PeerOpen unixSockInit calls := by
  have hstart : BuffersOwned unixSockInit :=
    inv_unixSockInit.buffersOwned_iff_used.mpr used_unixSockInit
  refine Run.everyState_iff_everyStep (A := fun _ => True) (I := SockTable.Inv)
    (fun _ _ => trivial) (fun s call t _ hs hown hstep => ?_) (fun s call t _ hs hstep => ?_)
    inv_unixSockInit hstart
  · obtain ⟨hinv, hiff⟩ := hs.step hstep
    rw [hinv.buffersOwned_iff_used]
    exact hiff hown.used
  · exact (hs.step hstep).1

/-- A server and its client, which are closed one after the other. -/
theorem not_buffersOwned_pair : ¬ Run.EveryState sockStep BuffersOwned unixSockInit
    [.create ['a'] 0x1000 0x2000, .connect ['a'], .close 1, .close 2] := by
  intro hstates
  have hlast := (((hstates.2 _ rfl).2 _ rfl).2 _ rfl).2 _ rfl
  obtain ⟨i, hopen, -⟩ := hlast.used 0x1000 (by decide +kernel)
  cases i with
  | zero => exact hopen (by decide +kernel)
  | succ i =>
    cases i with
    | zero => exact hopen (by decide +kernel)
    | succ i => exact hopen rfl

end PinguinOS.Ipc
