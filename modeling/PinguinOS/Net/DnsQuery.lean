import PinguinOS.Net.Dns
import PinguinOS.Net.Stack

/-! The query that `dns_resolve` builds. -/
namespace PinguinOS.Net

open Stored (StoredAt)

def dnsMaxPkt : Nat := 512
def dnsTypeA : BitVec 8 := 1
def dnsClassIn : BitVec 8 := 1

/-- The search of `sock_open`. -/
def sockOpen (sockets : Nat → Socket) : Option Nat :=
  (List.range sockMax).find? fun i => ¬ (sockets i).used

/-- The array `pkt` with the memory behind it, `offset`, and the cells that were written. -/
structure QueryBuf where
  pkt : Nat → BitVec 8
  offset : Nat
  writes : List Nat

/-- `pkt[offset++] = b` -/
def QueryBuf.put (q : QueryBuf) (b : BitVec 8) : QueryBuf where
  pkt := Function.update q.pkt q.offset b
  offset := q.offset + 1
  writes := q.offset :: q.writes

def QueryBuf.putAll (q : QueryBuf) (bytes : Packet) : QueryBuf := bytes.foldl QueryBuf.put q

/-- The header of a query. -/
def dnsHeader (id : BitVec 16) : Packet :=
  bytes16 (htons id) ++ bytes16 (htons 0x0100) ++ bytes16 (htons 1) ++ List.replicate 6 0

/-- The part of `dns_resolve` that fills `pkt`. -/
def dnsBuildQuery (pkt : Nat → BitVec 8) (id : BitVec 16) (hostname : List (BitVec 8)) :
    QueryBuf :=
  let q := (⟨pkt, 0, []⟩ : QueryBuf).putAll (dnsHeader id)
  let q := q.putAll (dnsEncodeName hostname)
  (q.putAll [0, dnsTypeA]).putAll [0, dnsClassIn]

/-- `dns_resolve` up to the sending of the query; without a socket it refuses the name. -/
def dnsResolveQuery (sockets : Nat → Socket) (pkt : Nat → BitVec 8) (id : BitVec 16)
    (hostname : List (BitVec 8)) : Option QueryBuf :=
  (sockOpen sockets).map fun _ => dnsBuildQuery pkt id hostname

/-- A query for a name of labels of 1 to 63 bytes, each behind its length. -/
def IsQuery (id : BitVec 16) (query : Packet) : Prop :=
  ∃ labels : List (List (BitVec 8)), (∀ label ∈ labels, 1 ≤ label.length ∧ label.length ≤ 63) ∧
    query = dnsHeader id ++ (encodeLabels labels ++ [0]) ++ [0, dnsTypeA] ++ [0, dnsClassIn]

/-- The name is refused, or the query fits into `pkt` and is one. -/
def QueryBounded (sockets : Nat → Socket) (hostname : List (BitVec 8)) : Prop :=
  ∀ pkt id q, dnsResolveQuery sockets pkt id hostname = some q →
    q.offset ≤ dnsMaxPkt ∧ (∀ a ∈ q.writes, a < dnsMaxPkt) ∧
      IsQuery id ((List.range q.offset).map q.pkt)

/-- The texts before the dots of a name, and behind the last one if any is left. -/
def hostLabels : List (BitVec 8) → List (List (BitVec 8))
  | [] => []
  | c :: p =>
    if c = dot then [] :: hostLabels p
    else
      match hostLabels p with
      | [] => [[c]]
      | label :: labels => (c :: label) :: labels

/-- `label_len`, of type `uint8_t` -/
def labelLen (label : List (BitVec 8)) : Nat := label.length % 256

/-- The labels of the name are encoded with a length from 1 to 63. -/
def LabelsShort (hostname : List (BitVec 8)) : Prop :=
  ∀ label ∈ hostLabels hostname, 1 ≤ labelLen label ∧ labelLen label ≤ 63

/-- The number of bytes of the encoded name. -/
def encodedLen (hostname : List (BitVec 8)) : Nat :=
  ((hostLabels hostname).map fun label => labelLen label + 1).sum + 1

variable {sockets : Nat → Socket} {pkt : Nat → BitVec 8} {id : BitVec 16} {q : QueryBuf}
  {name bytes : List (BitVec 8)} {labels : List (List (BitVec 8))} {c : BitVec 8} {i : Nat}

/-! What the encoder makes of any name. -/

theorem hostLabels_cons : hostLabels (c :: name) = (c :: name).takeWhile (· ≠ dot) ::
    hostLabels (((c :: name).dropWhile (· ≠ dot)).drop 1) := by
  induction name generalizing c with
  | nil =>
    unfold hostLabels
    by_cases hdot : c = dot
    · simp [hdot, hostLabels]
    · simp [hdot, hostLabels]
  | cons d name ih =>
    by_cases hdot : c = dot
    · rw [hostLabels, if_pos hdot]
      simp [hdot]
    · rw [hostLabels, if_neg hdot, ih]
      simp [hdot]

/-- A label behind its length, as far as the length goes. -/
def codeLabel (label : List (BitVec 8)) : List (BitVec 8) :=
  BitVec.ofNat 8 (labelLen label) :: label.take (labelLen label)

theorem dnsEncodeName_eq : dnsEncodeName name = (hostLabels name).flatMap codeLabel ++ [0] := by
  induction name using dnsEncodeName.induct with
  | case1 => rw [dnsEncodeName]; rfl
  | case2 c p ih =>
    rw [dnsEncodeName, hostLabels_cons, List.flatMap_cons, List.append_assoc, ← ih]
    rfl

theorem length_codeLabel (label : List (BitVec 8)) :
    (codeLabel label).length = labelLen label + 1 := by
  have hle : labelLen label ≤ label.length := Nat.mod_le _ _
  exact congrArg (· + 1) (List.length_take_of_le hle)

theorem length_dnsEncodeName : (dnsEncodeName name).length = encodedLen name := by
  rw [dnsEncodeName_eq, List.length_append, List.length_flatMap]
  unfold encodedLen
  simp only [length_codeLabel, List.length_singleton]

/-- The first length and the label behind it are known from the bytes. -/
theorem labels_of_codeLabels (hvalid : ∀ label ∈ labels, 1 ≤ label.length ∧ label.length ≤ 63)
    {ls : List (List (BitVec 8))}
    (heq : ls.flatMap codeLabel ++ [0] = encodeLabels labels ++ [0]) :
    ∀ l ∈ ls, 1 ≤ labelLen l ∧ labelLen l ≤ 63 := by
  induction ls generalizing labels with
  | nil => exact fun l hl => (nomatch hl)
  | cons l ls ih =>
    rw [List.flatMap_cons, List.append_assoc] at heq
    have hlen : labelLen l < 256 := Nat.mod_lt _ (by decide)
    cases labels with
    | nil =>
      -- the root label is the last byte, and something follows here
      have hsize := congrArg List.length heq
      rw [List.length_append, List.length_append, length_codeLabel] at hsize
      have hone : (encodeLabels [] ++ [0]).length = 1 := rfl
      have hlast : [(0 : BitVec 8)].length = 1 := rfl
      omega
    | cons label labels =>
      obtain ⟨hpos, hshort⟩ := hvalid label List.mem_cons_self
      have hcons : encodeLabels (label :: labels) = encodeLabel label ++ encodeLabels labels := rfl
      rw [hcons, List.append_assoc] at heq
      obtain ⟨hhead, htail⟩ := List.cons.inj heq
      have hsame : labelLen l = label.length := by
        have hnat := congrArg BitVec.toNat hhead
        rw [BitVec.toNat_ofNat, BitVec.toNat_ofNat] at hnat
        omega
      have hle : labelLen l ≤ l.length := Nat.mod_le _ _
      have hrest := (List.append_inj htail (by rw [List.length_take_of_le hle, hsame])).2
      intro m hm
      rcases List.mem_cons.mp hm with rfl | hm
      · omega
      · exact ih (fun x hx => hvalid x (List.mem_cons_of_mem label hx)) hrest m hm

theorem encodeLabels_of_short {ls : List (List (BitVec 8))} :
    ls.flatMap codeLabel = encodeLabels (ls.map fun l => l.take (labelLen l)) := by
  induction ls with
  | nil => rfl
  | cons l ls ih =>
    have hle : labelLen l ≤ l.length := Nat.mod_le _ _
    have hhead : codeLabel l = encodeLabel (l.take (labelLen l)) := by
      unfold codeLabel encodeLabel
      rw [List.length_take_of_le hle]
    rw [List.flatMap_cons, ih, hhead]
    rfl

/-- The encoded name is one of labels of 1 to 63 bytes exactly when the lengths are. -/
theorem encoded_iff : (∃ labels : List (List (BitVec 8)),
      (∀ label ∈ labels, 1 ≤ label.length ∧ label.length ≤ 63) ∧
        dnsEncodeName name = encodeLabels labels ++ [0]) ↔ LabelsShort name := by
  rw [dnsEncodeName_eq]
  constructor
  · rintro ⟨labels, hvalid, heq⟩
    exact labels_of_codeLabels hvalid heq
  · intro hshort
    refine ⟨_, ?_, congrArg (· ++ [0]) encodeLabels_of_short⟩
    intro label hlabel
    obtain ⟨l, hl, rfl⟩ := List.mem_map.mp hlabel
    have hle : labelLen l ≤ l.length := Nat.mod_le _ _
    rw [List.length_take_of_le hle]
    exact hshort l hl

/-! What is in the buffer. -/

/-- `bytes` have been written to the cells before `offset`, and to no others. -/
structure Filled (q : QueryBuf) (bytes : List (BitVec 8)) : Prop where
  offset : q.offset = bytes.length
  stored : StoredAt q.pkt 0 bytes
  writes : ∀ a, a ∈ q.writes ↔ a < bytes.length

theorem Filled.start : Filled ⟨pkt, 0, []⟩ [] :=
  ⟨rfl, Stored.storedAt_nil, fun a => iff_of_false List.not_mem_nil (Nat.not_lt_zero a)⟩

theorem Filled.put (h : Filled q bytes) : Filled (q.put c) (bytes ++ [c]) := by
  have hoffset := h.offset
  refine ⟨?_, ?_, ?_⟩
  · rw [List.length_append, List.length_singleton]
    exact congrArg (· + 1) hoffset
  · refine Stored.storedAt_append.mpr ⟨h.stored.congr fun b _ hlt => ?_, ?_⟩
    · exact Function.update_of_ne (by omega) _ _
    · rw [Nat.zero_add, ← hoffset]
      exact Stored.storedAt_singleton.mpr (Function.update_self _ _ _)
  · intro a
    have hwrites : a ∈ (q.put c).writes ↔ a = q.offset ∨ a ∈ q.writes := List.mem_cons
    rw [hwrites, h.writes, List.length_append, List.length_singleton]
    omega

theorem Filled.putAll (h : Filled q bytes) (more : List (BitVec 8)) :
    Filled (q.putAll more) (bytes ++ more) := by
  induction more generalizing q bytes with
  | nil =>
    rw [List.append_nil]
    exact h
  | cons c more ih =>
    have hall := ih (@Filled.put q bytes c h)
    rw [List.append_assoc] at hall
    exact hall

theorem Filled.contents (h : Filled q bytes) : (List.range q.offset).map q.pkt = bytes := by
  have hmap := h.stored.map_range (Nat.le_refl _)
  rw [List.take_length] at hmap
  refine Eq.trans ?_ hmap
  rw [h.offset]
  refine List.map_congr_left fun i _ => ?_
  rw [Nat.zero_add]

/-- The bytes of the query, wherever they come to lie. -/
def dnsQuery (id : BitVec 16) (hostname : List (BitVec 8)) : Packet :=
  dnsHeader id ++ dnsEncodeName hostname ++ [0, dnsTypeA] ++ [0, dnsClassIn]

theorem filled_query : Filled (dnsBuildQuery pkt id name) (dnsQuery id name) :=
  (((@Filled.start pkt).putAll _).putAll _).putAll _ |>.putAll _

theorem length_dnsQuery : (dnsQuery id name).length = 12 + encodedLen name + 4 := by
  unfold dnsQuery
  rw [List.length_append, List.length_append, List.length_append, length_dnsEncodeName]
  rfl

theorem isQuery_iff : IsQuery id (dnsQuery id name) ↔ LabelsShort name := by
  rw [← encoded_iff]
  refine exists_congr fun labels => and_congr_right fun _ => ?_
  unfold dnsQuery
  rw [List.append_cancel_right_eq, List.append_cancel_right_eq, List.append_cancel_left_eq]

/-- A query in bounds has short labels and fits the packet. -/
theorem QueryBounded.fits {fd : Nat} (hsock : sockOpen sockets = some fd)
    (hbounded : QueryBounded sockets name) :
    LabelsShort name ∧ 12 + encodedLen name + 4 ≤ dnsMaxPkt := by
  have hresolve : dnsResolveQuery sockets (fun _ => 0) 0 name =
      some (dnsBuildQuery (fun _ => 0) 0 name) := by
    unfold dnsResolveQuery
    rw [hsock]
    rfl
  obtain ⟨hoffset, -, hquery⟩ := hbounded (fun _ => 0) 0 _ hresolve
  have hbytes : (List.range (dnsBuildQuery (fun _ => 0) 0 name).offset).map
      (dnsBuildQuery (fun _ => 0) 0 name).pkt = dnsQuery 0 name :=
    (@filled_query (fun _ => 0) 0 name).contents
  rw [hbytes, isQuery_iff] at hquery
  rw [filled_query.offset, length_dnsQuery] at hoffset
  exact ⟨hquery, hoffset⟩

/-- `dns_resolve` meets its bounds exactly when it has no socket, or the labels are short and the
whole name leaves room for the header and the four bytes behind it. -/
theorem queryBounded_iff : QueryBounded sockets name ↔
    sockOpen sockets = none ∨ LabelsShort name ∧ 12 + encodedLen name + 4 ≤ dnsMaxPkt := by
  cases hsock : sockOpen sockets with
  | none =>
    refine iff_of_true ?_ (Or.inl rfl)
    intro pkt id q hq
    unfold dnsResolveQuery at hq
    rw [hsock] at hq
    cases hq
  | some fd =>
    have hresolve : ∀ pkt id, dnsResolveQuery sockets pkt id name =
        some (dnsBuildQuery pkt id name) := by
      intro pkt id
      unfold dnsResolveQuery
      rw [hsock]
      rfl
    have hbytes : ∀ pkt id, (List.range (dnsBuildQuery pkt id name).offset).map
        (dnsBuildQuery pkt id name).pkt = dnsQuery id name :=
      fun pkt id => (@filled_query pkt id name).contents
    rw [or_iff_right (fun h => nomatch h)]
    constructor
    · exact QueryBounded.fits hsock
    · rintro ⟨hshort, hfits⟩ pkt id q hq
      rw [hresolve] at hq
      obtain rfl := Option.some.inj hq
      have hfilled := @filled_query pkt id name
      refine ⟨?_, fun a ha => ?_, ?_⟩
      · rw [hfilled.offset, length_dnsQuery]
        exact hfits
      · have hlt := (hfilled.writes a).mp ha
        rw [length_dnsQuery] at hlt
        omega
      · rw [hbytes]
        exact isQuery_iff.mpr hshort

/-- A single dot is encoded as two root labels. -/
theorem not_queryBounded_dot :
    ¬ ∀ (sockets : Nat → Socket) (hostname : List (BitVec 8)), 0 ∉ hostname →
      QueryBounded sockets hostname := by
  intro hall
  have hbounded := hall (fun _ => { openSocket 0 with used := false }) [dot] (by decide)
  have hsock : sockOpen (fun _ => { openSocket 0 with used := false }) = some 0 := by decide
  obtain ⟨hshort, -⟩ := hbounded.fits hsock
  have hone := hshort [] (by decide)
  exact absurd hone.1 (by decide)

end PinguinOS.Net
