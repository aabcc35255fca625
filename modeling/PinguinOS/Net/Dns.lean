import PinguinOS.Lib.Stored
import PinguinOS.Net.Wire

/-! Names in DNS packets: the encoder, the decoder, and the way back from one to the other. -/
namespace PinguinOS.Net

open Mm (u32 sub32 u32_of_lt)
open Stored (StoredAt)

def dot : BitVec 8 := 0x2E

/-- What `dns_encode_name` writes at `out`; it returns the length. -/
def dnsEncodeName : List (BitVec 8) → List (BitVec 8)
  | [] => [0]
  | c :: p =>
    let label := (c :: p).takeWhile (· ≠ dot)
    let labelLen := label.length % 256
    BitVec.ofNat 8 labelLen :: label.take labelLen ++
      dnsEncodeName (((c :: p).dropWhile (· ≠ dot)).drop 1)
termination_by hostname => hostname.length
decreasing_by
  by_cases hc : c = dot
  · simp [hc]
  · have hle := (p.dropWhile_suffix (· ≠ dot)).length_le
    simp only [List.dropWhile_cons, decide_eq_true hc, if_true, List.length_drop,
      List.length_cons]
    omega

/-- The variables of `dns_decode_name`, and the cells it has read of `pkt` and written of `out`. -/
structure DnsState where
  pos : Nat
  jumped : Bool
  consumed : Nat
  outPos : Nat
  out : Nat → BitVec 8
  reads : List Nat
  writes : List Nat

/-- An access to `pkt[a]`. -/
def DnsState.read (s : DnsState) (a : Nat) : DnsState := { s with reads := a :: s.reads }

/-- `out[out_pos++] = b` -/
def DnsState.put (s : DnsState) (b : BitVec 8) : DnsState :=
  { s with
    out := Function.update s.out s.outPos b
    outPos := u32 (s.outPos + 1)
    writes := s.outPos :: s.writes }

/-- The loop over the bytes of a label, with the number of bytes left. -/
def copyLabel (pkt : Nat → BitVec 8) (outMax : Nat) : Nat → DnsState → DnsState
  | 0, s => s
  | len + 1, s =>
    if u32 (s.outPos + 1) < outMax then
      copyLabel pkt outMax len { (s.read s.pos).put (pkt s.pos) with pos := u32 (s.pos + 1) }
    else s

/-- The offset that the two bytes of a compression pointer hold. -/
def pointerTarget (len next : BitVec 8) : Nat := ((len &&& 0x3F).toNat <<< 8) ||| next.toNat

/-- The body of the loop of `dns_decode_name`, and whether the loop goes on. -/
def decodeStep (pkt : Nat → BitVec 8) (pktLen offset outMax : Nat) (s : DnsState) :
    DnsState × Bool :=
  let len := pkt s.pos
  let s := s.read s.pos
  if len &&& 0xC0 = 0xC0 then
    if u32 (s.pos + 1) ≥ pktLen then (s, false)
    else
      let s := s.read (u32 (s.pos + 1))
      let ptr := pointerTarget len (pkt (u32 (s.pos + 1)))
      let consumed := if !s.jumped then u32 (sub32 s.pos offset + 2) else s.consumed
      ({ s with consumed := consumed, jumped := true, pos := ptr }, true)
  else if len = 0 then
    let consumed := if !s.jumped then u32 (sub32 s.pos offset + 1) else s.consumed
    ({ s with consumed := consumed }, false)
  else
    let s := copyLabel pkt outMax len.toNat { s with pos := u32 (s.pos + 1) }
    (if s.outPos < outMax then s.put dot else s, true)

/-- The loop of `dns_decode_name`; without a result when it takes more than the given number of
iterations. -/
def decodeLoop (pkt : Nat → BitVec 8) (pktLen offset outMax : Nat) :
    Nat → DnsState → Option DnsState
  | 0, _ => none
  | fuel + 1, s =>
    if s.pos < pktLen then
      match decodeStep pkt pktLen offset outMax s with
      | (s, true) => decodeLoop pkt pktLen offset outMax fuel s
      | (s, false) => some s
    else some s

/-- What follows the loop. -/
def decodeEnd (s : DnsState) : DnsState :=
  let s := if s.outPos > 0 ∧ s.out (s.outPos - 1) = dot then { s with outPos := s.outPos - 1 }
    else s
  { s with out := Function.update s.out s.outPos 0, writes := s.outPos :: s.writes }

def decodeStart (offset : Nat) (out : Nat → BitVec 8) : DnsState where
  pos := offset
  jumped := false
  consumed := 0
  outPos := 0
  out := out
  reads := []
  writes := []

/-- `dns_decode_name`; it returns `consumed`. -/
def dnsDecodeName (fuel : Nat) (pkt : Nat → BitVec 8) (pktLen offset : Nat)
    (out : Nat → BitVec 8) (outMax : Nat) : Option DnsState :=
  (decodeLoop pkt pktLen offset outMax fuel (decodeStart offset out)).map decodeEnd

variable {pkt out : Nat → BitVec 8} {pktLen offset outMax fuel len n : Nat} {s t : DnsState}

/-! What copying a label does. -/

/-- `t` is `s` after `n` bytes of `pkt` have been copied. -/
structure Copied (pkt : Nat → BitVec 8) (n : Nat) (s t : DnsState) : Prop where
  pos : t.pos = s.pos + n
  outPos : t.outPos = s.outPos + n
  jumped : t.jumped = s.jumped
  consumed : t.consumed = s.consumed
  out : ∀ a, t.out a =
    if s.outPos ≤ a ∧ a < s.outPos + n then pkt (s.pos + (a - s.outPos)) else s.out a
  reads : ∀ a, a ∈ t.reads ↔ (s.pos ≤ a ∧ a < s.pos + n) ∨ a ∈ s.reads
  writes : ∀ a, a ∈ t.writes ↔ (s.outPos ≤ a ∧ a < s.outPos + n) ∨ a ∈ s.writes

theorem Copied.refl : Copied pkt 0 s s where
  pos := rfl
  outPos := rfl
  jumped := rfl
  consumed := rfl
  out := fun a => (if_neg (by omega)).symm
  reads := fun a => ⟨Or.inr, fun h => h.resolve_left (by omega)⟩
  writes := fun a => ⟨Or.inr, fun h => h.resolve_left (by omega)⟩

/-- One byte, and then the others. -/
theorem Copied.cons (hpos : s.pos + 1 < 2 ^ 32) (hout : s.outPos + 1 < 2 ^ 32)
    (h : Copied pkt n { (s.read s.pos).put (pkt s.pos) with pos := u32 (s.pos + 1) } t) :
    Copied pkt (n + 1) s t := by
  have hp : u32 (s.pos + 1) = s.pos + 1 := u32_of_lt hpos
  have ho : u32 (s.outPos + 1) = s.outPos + 1 := u32_of_lt hout
  obtain ⟨h1, h2, h3, h4, h5, h6, h7⟩ := h
  simp only [DnsState.put, DnsState.read, hp, ho] at h1 h2 h3 h4 h5 h6 h7
  refine ⟨by omega, by omega, h3, h4, ?_, ?_, ?_⟩
  · intro a
    rw [h5 a]
    by_cases hfirst : a = s.outPos
    · subst hfirst
      rw [if_neg (by omega), if_pos (by omega), Function.update_self, Nat.sub_self, Nat.add_zero]
    · rw [Function.update_of_ne hfirst]
      split_ifs with hin hin' hin'
      · congr 1
        omega
      · omega
      · omega
      · rfl
  · intro a
    rw [h6 a, List.mem_cons, ← or_assoc]
    exact or_congr_left (by omega)
  · intro a
    rw [h7 a, List.mem_cons, ← or_assoc]
    exact or_congr_left (by omega)

/-- The label is copied as far as there is room for it and for a terminator. -/
theorem copyLabel_copied (pkt : Nat → BitVec 8) (len : Nat)
    (hpos : s.pos + min len (outMax - 1 - s.outPos) < 2 ^ 32)
    (hout : s.outPos ≤ outMax) (hmax : outMax + 1 < 2 ^ 32) :
    Copied pkt (min len (outMax - 1 - s.outPos)) s (copyLabel pkt outMax len s) := by
  induction len generalizing s with
  | zero =>
    rw [Nat.zero_min]
    exact Copied.refl
  | succ len ih =>
    have ho : u32 (s.outPos + 1) = s.outPos + 1 := u32_of_lt (by omega)
    unfold copyLabel
    rw [ho]
    split_ifs with hroom
    · have hmin : min (len + 1) (outMax - 1 - s.outPos) =
          min len (outMax - 1 - (s.outPos + 1)) + 1 := by omega
      rw [hmin] at hpos ⊢
      refine Copied.cons (by omega) (by omega) ?_
      have hrest := @ih { (s.read s.pos).put (pkt s.pos) with pos := u32 (s.pos + 1) }
      have hp : u32 (s.pos + 1) = s.pos + 1 := u32_of_lt (by omega)
      simp only [DnsState.put, DnsState.read, hp, ho] at hrest ⊢
      exact hrest (by omega) (by omega)
    · have hmin : min (len + 1) (outMax - 1 - s.outPos) = 0 := by omega
      rw [hmin]
      exact Copied.refl

/-! The cases of an iteration. -/

/-- The value of `consumed` after a name of `size` bytes, unless a pointer came before. -/
def DnsState.consumedAt (s : DnsState) (offset size : Nat) : Nat :=
  if !s.jumped then u32 (sub32 s.pos offset + size) else s.consumed

theorem decodeStep_cut (hptr : pkt s.pos &&& 0xC0 = 0xC0) (hcut : pktLen ≤ s.pos + 1)
    (hlen : s.pos + 1 < 2 ^ 32) :
    decodeStep pkt pktLen offset outMax s = (s.read s.pos, false) := by
  have hpos : u32 ((s.read s.pos).pos + 1) = s.pos + 1 := u32_of_lt hlen
  unfold decodeStep
  dsimp only
  rw [if_pos hptr, hpos, if_pos hcut]

theorem decodeStep_pointer (offset outMax : Nat) (hptr : pkt s.pos &&& 0xC0 = 0xC0)
    (hin : s.pos + 1 < pktLen) (hlen : s.pos + 1 < 2 ^ 32) :
    decodeStep pkt pktLen offset outMax s =
      ({ (s.read s.pos).read (s.pos + 1) with
        consumed := s.consumedAt offset 2
        jumped := true
        pos := pointerTarget (pkt s.pos) (pkt (s.pos + 1)) }, true) := by
  have hpos : u32 ((s.read s.pos).pos + 1) = s.pos + 1 := u32_of_lt hlen
  unfold decodeStep
  dsimp only
  have hnext : u32 (((s.read s.pos).read (s.pos + 1)).pos + 1) = s.pos + 1 := u32_of_lt hlen
  rw [if_pos hptr, hpos, if_neg (Nat.not_le.mpr hin), hnext]
  rfl

theorem decodeStep_root (hroot : pkt s.pos = 0) :
    decodeStep pkt pktLen offset outMax s =
      ({ s.read s.pos with consumed := s.consumedAt offset 1 }, false) := by
  unfold decodeStep
  dsimp only
  rw [hroot, if_neg (by decide), if_pos rfl]
  rfl

theorem decodeStep_label (pktLen offset : Nat) (hptr : ¬ pkt s.pos &&& 0xC0 = 0xC0)
    (hroot : pkt s.pos ≠ 0)
    (hpos : s.pos + 1 + min (pkt s.pos).toNat (outMax - 1 - s.outPos) < 2 ^ 32)
    (hout : s.outPos ≤ outMax) (hmax : outMax + 1 < 2 ^ 32) :
    ∃ t, Copied pkt (min (pkt s.pos).toNat (outMax - 1 - s.outPos))
        { s.read s.pos with pos := s.pos + 1 } t ∧
      decodeStep pkt pktLen offset outMax s = (if t.outPos < outMax then t.put dot else t, true) := by
  have hp : u32 ((s.read s.pos).pos + 1) = s.pos + 1 :=
    u32_of_lt (by omega : s.pos + 1 < 2 ^ 32)
  have hcopied := copyLabel_copied pkt (pkt s.pos).toNat
    (s := { s.read s.pos with pos := s.pos + 1 }) hpos hout hmax
  refine ⟨_, hcopied, ?_⟩
  unfold decodeStep
  dsimp only
  rw [if_neg hptr, if_neg hroot, hp]

/-! What the encoder makes of a hostname. -/

/-- The labels of a name, joined by single dots. -/
def hostname (labels : List (List (BitVec 8))) : List (BitVec 8) := [dot].intercalate labels

/-- What can stand between two dots. -/
structure IsLabel (label : List (BitVec 8)) : Prop where
  nonempty : 1 ≤ label.length
  short : label.length ≤ 63
  noDot : dot ∉ label
  noNul : 0 ∉ label

structure ValidName (labels : List (List (BitVec 8))) : Prop where
  label : ∀ label ∈ labels, IsLabel label
  short : (hostname labels).length ≤ 253

def encodeLabel (label : List (BitVec 8)) : List (BitVec 8) :=
  BitVec.ofNat 8 label.length :: label

def encodeLabels (labels : List (List (BitVec 8))) : List (BitVec 8) := labels.flatMap encodeLabel

variable {label rest : List (BitVec 8)} {labels front tail : List (List (BitVec 8))}

theorem takeWhile_label (hdot : dot ∉ label) :
    (label ++ rest).takeWhile (· ≠ dot) = label ++ rest.takeWhile (· ≠ dot) := by
  refine List.takeWhile_append_of_pos fun b hb => decide_eq_true ?_
  rintro rfl
  exact hdot hb

theorem dropWhile_label (hdot : dot ∉ label) :
    (label ++ rest).dropWhile (· ≠ dot) = rest.dropWhile (· ≠ dot) := by
  refine List.dropWhile_append_of_pos fun b hb => decide_eq_true ?_
  rintro rfl
  exact hdot hb

/-- A label, followed by the end of the string or by a dot. -/
theorem dnsEncodeName_label (h : IsLabel label) (hrest : rest.takeWhile (· ≠ dot) = []) :
    dnsEncodeName (label ++ rest) =
      encodeLabel label ++ dnsEncodeName ((rest.dropWhile (· ≠ dot)).drop 1) := by
  have hshort := h.short
  cases hlabel : label with
  | nil =>
    have hpos := h.nonempty
    rw [hlabel] at hpos
    cases hpos
  | cons c p =>
    have htake : (c :: (p ++ rest)).takeWhile (· ≠ dot) = label := by
      rw [← List.cons_append, ← hlabel, takeWhile_label h.noDot, hrest, List.append_nil]
    have hdrop : (c :: (p ++ rest)).dropWhile (· ≠ dot) = rest.dropWhile (· ≠ dot) := by
      rw [← List.cons_append, ← hlabel, dropWhile_label h.noDot]
    have hlen : label.length % 256 = label.length := Nat.mod_eq_of_lt (by omega)
    rw [List.cons_append, dnsEncodeName, htake, hdrop, hlen, List.take_length, ← hlabel]
    rfl

theorem dnsEncodeName_hostname (h : ∀ label ∈ labels, IsLabel label) :
    dnsEncodeName (hostname labels) = encodeLabels labels ++ [0] := by
  induction labels with
  | nil => rw [hostname, List.intercalate_nil, dnsEncodeName]; rfl
  | cons label labels ih =>
    have hlabel := h label List.mem_cons_self
    have hrest := ih fun l hl => h l (List.mem_cons_of_mem label hl)
    cases labels with
    | nil =>
      have hone := dnsEncodeName_label hlabel (List.takeWhile_nil (p := (· ≠ dot)))
      rw [List.append_nil, List.dropWhile_nil, List.drop_nil, dnsEncodeName] at hone
      rw [hostname, List.intercalate_singleton, hone]
      simp [encodeLabels]
    | cons next labels =>
      have hdot : (dot :: hostname (next :: labels)).takeWhile (· ≠ dot) = [] := by simp
      have hcons := dnsEncodeName_label hlabel hdot
      have hdrop : ((dot :: hostname (next :: labels)).dropWhile (· ≠ dot)).drop 1 =
          hostname (next :: labels) := by simp
      rw [hdrop, hrest] at hcons
      have hjoin : hostname (label :: next :: labels) =
          label ++ dot :: hostname (next :: labels) := by
        rw [hostname, List.intercalate_cons_cons]
        simp [hostname]
      rw [hjoin, hcons, ← List.append_assoc]
      rfl

/-! What the decoder makes of the labels of a name. -/

/-- `t` is `s` with `written` appended to the output and as many bytes passed in the packet. -/
structure Walked (written : List (BitVec 8)) (s t : DnsState) : Prop where
  pos : t.pos = s.pos + written.length
  outPos : t.outPos = s.outPos + written.length
  jumped : t.jumped = s.jumped
  consumed : t.consumed = s.consumed
  out : StoredAt t.out s.outPos written
  kept : ∀ a < s.outPos, t.out a = s.out a

theorem Walked.trans {u : DnsState} {xs ys : List (BitVec 8)} (h : Walked xs s t)
    (h' : Walked ys t u) : Walked (xs ++ ys) s u where
  pos := by
    rw [h'.pos, h.pos, List.length_append, Nat.add_assoc]
  outPos := by
    rw [h'.outPos, h.outPos, List.length_append, Nat.add_assoc]
  jumped := h'.jumped.trans h.jumped
  consumed := h'.consumed.trans h.consumed
  out := by
    have hend := h.outPos
    refine Stored.storedAt_append.mpr ⟨h.out.congr fun b _ hlt => h'.kept b (by omega), ?_⟩
    rw [← hend]
    exact h'.out
  kept := by
    intro a ha
    have hend := h.outPos
    exact (h'.kept a (by omega)).trans (h.kept a ha)

/-- The labels as they are written to the output. -/
def dotted (labels : List (List (BitVec 8))) : List (BitVec 8) :=
  labels.flatMap fun label => label ++ [dot]

theorem labelLen_plain : ∀ n < 64, ¬ BitVec.ofNat 8 n &&& 0xC0 = 0xC0 := by decide

theorem labelLen_ne_zero : ∀ n < 64, 0 < n → BitVec.ofNat 8 n ≠ 0 := by decide

/-- An iteration at a label that there is room for. -/
theorem decodeStep_walked (pktLen offset : Nat) (h : IsLabel label)
    (hstored : StoredAt pkt s.pos (encodeLabel label))
    (hin : s.pos + label.length + 1 < 2 ^ 32) (hroom : s.outPos + label.length + 1 < outMax)
    (hmax : outMax + 1 < 2 ^ 32) :
    ∃ t, decodeStep pkt pktLen offset outMax s = (t, true) ∧ Walked (label ++ [dot]) s t := by
  have hnonempty := h.nonempty
  have hshort := h.short
  obtain ⟨hlen, hbytes⟩ := Stored.storedAt_cons.mp hstored
  have hcount : (pkt s.pos).toNat = label.length := by
    rw [hlen, BitVec.toNat_ofNat, Nat.mod_eq_of_lt (by omega)]
  have hmin : min (pkt s.pos).toNat (outMax - 1 - s.outPos) = label.length := by omega
  obtain ⟨t, hcopied, hstep⟩ := decodeStep_label pktLen offset
    (hlen ▸ labelLen_plain _ (by omega)) (hlen ▸ labelLen_ne_zero _ (by omega) (by omega))
    (by omega : s.pos + 1 + min (pkt s.pos).toNat (outMax - 1 - s.outPos) < 2 ^ 32)
    (by omega) hmax
  rw [hmin] at hcopied
  have hpos : t.pos = s.pos + 1 + label.length := hcopied.pos
  have houtPos : t.outPos = s.outPos + label.length := hcopied.outPos
  have hput : (t.put dot).outPos = t.outPos + 1 := u32_of_lt (by omega)
  rw [if_pos (by omega : t.outPos < outMax)] at hstep
  refine ⟨_, hstep, ?_, ?_, hcopied.jumped, hcopied.consumed, ?_, ?_⟩
  · rw [List.length_append, List.length_singleton]
    exact hpos.trans (by omega)
  · rw [hput, List.length_append, List.length_singleton]
    omega
  · refine Stored.storedAt_append.mpr ⟨fun i hi => ?_, Stored.storedAt_singleton.mpr ?_⟩
    · have hkept : (t.put dot).out (s.outPos + i) = t.out (s.outPos + i) :=
        Function.update_of_ne (by omega) _ _
      have hinside : s.outPos ≤ s.outPos + i ∧ s.outPos + i < s.outPos + label.length := by omega
      have hcell : t.out (s.outPos + i) = pkt (s.pos + 1 + (s.outPos + i - s.outPos)) :=
        (hcopied.out _).trans (if_pos hinside)
      rw [hkept, hcell, Nat.add_sub_cancel_left]
      exact hbytes i hi
    · rw [← houtPos]
      exact Function.update_self _ _ _
  · intro a ha
    have hkept : (t.put dot).out a = t.out a := Function.update_of_ne (by omega) _ _
    have houtside : ¬ (s.outPos ≤ a ∧ a < s.outPos + label.length) := by omega
    exact hkept.trans ((hcopied.out a).trans (if_neg houtside))

theorem length_encodeLabels : (encodeLabels labels).length = (dotted labels).length := by
  induction labels with
  | nil => rfl
  | cons label labels ih =>
    have hleft : encodeLabels (label :: labels) = encodeLabel label ++ encodeLabels labels := rfl
    have hright : dotted (label :: labels) = label ++ [dot] ++ dotted labels := rfl
    rw [hleft, hright, List.length_append, List.length_append, ih, List.length_append]
    rfl

/-- One label after the other. -/
theorem decodeLoop_walked (offset : Nat) (h : ∀ label ∈ labels, IsLabel label)
    (hstored : StoredAt pkt s.pos (encodeLabels labels))
    (hin : s.pos + (encodeLabels labels).length ≤ pktLen) (hlen : pktLen < 2 ^ 32)
    (hroom : s.outPos + (encodeLabels labels).length < outMax) (hmax : outMax + 1 < 2 ^ 32) :
    ∃ t, Walked (dotted labels) s t ∧ ∀ fuel, decodeLoop pkt pktLen offset outMax
      (labels.length + fuel) s = decodeLoop pkt pktLen offset outMax fuel t := by
  induction labels generalizing s with
  | nil =>
    refine ⟨s, ⟨rfl, rfl, rfl, rfl, Stored.storedAt_nil, fun _ _ => rfl⟩, fun fuel => ?_⟩
    rw [List.length_nil, Nat.zero_add]
  | cons label labels ih =>
    have hcons : encodeLabels (label :: labels) = encodeLabel label ++ encodeLabels labels := rfl
    have hsize : (encodeLabel label).length = label.length + 1 := rfl
    rw [hcons, Stored.storedAt_append] at hstored
    rw [hcons, List.length_append, hsize] at hin hroom
    obtain ⟨t, hstep, hwalked⟩ := decodeStep_walked pktLen offset
      (h label List.mem_cons_self) hstored.1 (by omega)
      (by omega : s.outPos + label.length + 1 < outMax) hmax
    have hpos : t.pos = s.pos + (label.length + 1) := by
      rw [hwalked.pos, List.length_append, List.length_singleton]
    have houtPos : t.outPos = s.outPos + (label.length + 1) := by
      rw [hwalked.outPos, List.length_append, List.length_singleton]
    obtain ⟨u, hrest, hloop⟩ := ih (s := t) (fun l hl => h l (List.mem_cons_of_mem label hl))
      (by rw [hpos]; exact hstored.2) (by omega) (by omega)
    refine ⟨u, hwalked.trans hrest, fun fuel => ?_⟩
    rw [List.length_cons, Nat.add_right_comm, decodeLoop, if_pos (by omega), hstep]
    exact hloop fuel

/-- The labels and the root label that ends them. -/
theorem decodeLoop_name (offset : Nat) (h : ∀ label ∈ labels, IsLabel label)
    (hstored : StoredAt pkt s.pos (encodeLabels labels ++ [0]))
    (hin : s.pos + (encodeLabels labels ++ [0]).length ≤ pktLen) (hlen : pktLen < 2 ^ 32)
    (hroom : s.outPos + (encodeLabels labels).length < outMax) (hmax : outMax + 1 < 2 ^ 32) :
    ∃ t u, Walked (dotted labels) s t ∧ u = { t.read t.pos with consumed := t.consumedAt offset 1 } ∧
      decodeLoop pkt pktLen offset outMax (labels.length + 1) s = some u := by
  rw [List.length_append, List.length_singleton] at hin
  obtain ⟨hlabels, hroot⟩ := Stored.storedAt_append.mp hstored
  obtain ⟨t, hwalked, hloop⟩ := decodeLoop_walked offset h hlabels (by omega) hlen hroom
    hmax
  have hpos : t.pos = s.pos + (encodeLabels labels).length :=
    hwalked.pos.trans (by rw [length_encodeLabels])
  refine ⟨t, _, hwalked, rfl, ?_⟩
  rw [hloop, decodeLoop, if_pos (by omega),
    decodeStep_root (by rw [hpos]; exact Stored.storedAt_singleton.mp hroot)]

/-! The round trip. -/

/-- A compression pointer to an offset below 2^14. -/
def pointerBytes (target : Nat) : List (BitVec 8) :=
  [0xC0 ||| BitVec.ofNat 8 (target / 256), BitVec.ofNat 8 (target % 256)]

/-- `dns_decode_name` at `offset` ends, leaves the string in the output and returns `size`. -/
def Decodes (pkt : Nat → BitVec 8) (pktLen offset outMax : Nat) (name : List (BitVec 8))
    (size : Nat) : Prop :=
  ∀ out, ∃ fuel r, dnsDecodeName fuel pkt pktLen offset out outMax = some r ∧
    StoredAt r.out 0 (name ++ [0]) ∧ r.consumed = size

variable {target : Nat}

theorem pointer_flags : ∀ n < 64, (0xC0 ||| BitVec.ofNat 8 n) &&& 0xC0 = 0xC0 := by decide

theorem pointer_high : ∀ n < 64, ((0xC0 ||| BitVec.ofNat 8 n) &&& 0x3F).toNat = n := by decide

theorem pointerTarget_pointerBytes (h : target < 2 ^ 14) :
    pointerTarget (0xC0 ||| BitVec.ofNat 8 (target / 256)) (BitVec.ofNat 8 (target % 256)) =
      target := by
  have hlow : target % 256 < 2 ^ 8 := Nat.mod_lt _ (by decide)
  rw [pointerTarget, pointer_high _ (by omega), BitVec.toNat_ofNat, Nat.mod_eq_of_lt hlow,
    ← Nat.shiftLeft_add_eq_or_of_lt hlow, Nat.shiftLeft_eq]
  omega

theorem dotted_eq (h : labels ≠ []) : dotted labels = hostname labels ++ [dot] := by
  induction labels with
  | nil => exact absurd rfl h
  | cons label labels ih =>
    cases labels with
    | nil =>
      rw [hostname, List.intercalate_singleton]
      simp [dotted]
    | cons next labels =>
      have hrest := ih (List.cons_ne_nil next labels)
      have hleft : dotted (label :: next :: labels) = label ++ [dot] ++ dotted (next :: labels) :=
        rfl
      rw [hleft, hrest, hostname, hostname, List.intercalate_cons_cons]
      simp

theorem length_dotted_le : (dotted labels).length ≤ (hostname labels).length + 1 := by
  by_cases h : labels = []
  · subst h
    exact Nat.zero_le _
  · rw [dotted_eq h, List.length_append, List.length_singleton]

/-- The dot behind the last label becomes the terminator. -/
theorem decodeEnd_dotted (houtPos : t.outPos = (dotted labels).length)
    (hout : StoredAt t.out 0 (dotted labels)) :
    StoredAt (decodeEnd t).out 0 (hostname labels ++ [0]) ∧
      (decodeEnd t).consumed = t.consumed := by
  by_cases h : labels = []
  · subst h
    have hzero : t.outPos = 0 := houtPos
    have hend : ¬ (t.outPos > 0 ∧ t.out (t.outPos - 1) = dot) := by omega
    unfold decodeEnd
    rw [if_neg hend]
    refine ⟨Stored.storedAt_singleton.mpr ?_, rfl⟩
    dsimp only
    rw [hzero]
    exact Function.update_self _ _ _
  · rw [dotted_eq h] at houtPos hout
    rw [List.length_append, List.length_singleton] at houtPos
    obtain ⟨hname, hdot⟩ := Stored.storedAt_append.mp hout
    have hlast : t.outPos - 1 = 0 + (hostname labels).length := by omega
    have hend : t.outPos > 0 ∧ t.out (t.outPos - 1) = dot := by
      rw [hlast]
      exact ⟨by omega, Stored.storedAt_singleton.mp hdot⟩
    unfold decodeEnd
    rw [if_pos hend]
    refine ⟨Stored.storedAt_append.mpr ⟨hname.congr fun b _ hlt => ?_, ?_⟩, rfl⟩
    · exact Function.update_of_ne (by omega : b ≠ t.outPos - 1) _ _
    · refine Stored.storedAt_singleton.mpr ?_
      dsimp only
      rw [hlast]
      exact Function.update_self _ _ _

theorem consumedAt_start {size k : Nat} (hjumped : s.jumped = false) (hpos : s.pos = offset + k)
    (hlt : offset + k + size < 2 ^ 32) : s.consumedAt offset size = k + size := by
  unfold DnsState.consumedAt
  rw [hjumped, hpos]
  simp only [Bool.not_false, if_true, sub32, u32]
  omega

/-- A name behind the labels that were read so far; `front` is empty or ends at a pointer. -/
theorem decodeLoop_tail (offset : Nat) (front : List (List (BitVec 8)))
    (h : ∀ label ∈ tail, IsLabel label)
    (hstored : StoredAt pkt s.pos (encodeLabels tail ++ [0]))
    (hin : s.pos + (encodeLabels tail ++ [0]).length ≤ pktLen) (hlen : pktLen < 2 ^ 32)
    (houtPos : s.outPos = (dotted front).length) (hout : StoredAt s.out 0 (dotted front))
    (hroom : (dotted (front ++ tail)).length < outMax) (hmax : outMax + 1 < 2 ^ 32) :
    ∃ t u, decodeLoop pkt pktLen offset outMax (tail.length + 1) s = some u ∧
      StoredAt (decodeEnd u).out 0 (hostname (front ++ tail) ++ [0]) ∧
      (decodeEnd u).consumed = t.consumedAt offset 1 ∧ Walked (dotted tail) s t := by
  have happend : dotted (front ++ tail) = dotted front ++ dotted tail := List.flatMap_append
  have hlength : (encodeLabels tail).length = (dotted tail).length := length_encodeLabels
  rw [happend, List.length_append] at hroom
  obtain ⟨t, u, hwalked, hu, hloop⟩ := decodeLoop_name offset h hstored hin hlen
    (by omega : s.outPos + (encodeLabels tail).length < outMax) hmax
  have hall : StoredAt u.out 0 (dotted (front ++ tail)) := by
    rw [happend, hu]
    refine Stored.storedAt_append.mpr ⟨hout.congr fun b _ hlt => hwalked.kept b (by omega), ?_⟩
    have hbytes := hwalked.out
    rwa [houtPos, ← Nat.zero_add (dotted front).length] at hbytes
  have hend : u.outPos = (dotted (front ++ tail)).length := by
    rw [happend, List.length_append, hu]
    exact hwalked.outPos.trans (by rw [houtPos])
  obtain ⟨hstring, hconsumed⟩ := decodeEnd_dotted hend hall
  exact ⟨t, u, hloop, hstring, hconsumed.trans (by rw [hu]), hwalked⟩

theorem decodes_name (h : ValidName labels)
    (hstored : StoredAt pkt offset (dnsEncodeName (hostname labels)))
    (hin : offset + (dnsEncodeName (hostname labels)).length ≤ pktLen) (hlen : pktLen < 2 ^ 32) :
    Decodes pkt pktLen offset 256 (hostname labels) (dnsEncodeName (hostname labels)).length := by
  intro out
  have hshort := h.short
  have hdotted := @length_dotted_le labels
  rw [dnsEncodeName_hostname h.label] at hstored hin ⊢
  obtain ⟨t, u, hloop, hstring, hconsumed, hwalked⟩ := decodeLoop_tail offset []
    (s := decodeStart offset out) h.label hstored hin hlen rfl Stored.storedAt_nil
    (by rw [List.nil_append]; omega : (dotted ([] ++ labels)).length < 256) (by decide)
  refine ⟨labels.length + 1, decodeEnd u, ?_, hstring, ?_⟩
  · rw [dnsDecodeName, hloop]
    rfl
  · rw [List.length_append, List.length_singleton] at hin ⊢
    rw [hconsumed, length_encodeLabels]
    refine consumedAt_start hwalked.jumped hwalked.pos ?_
    rw [← length_encodeLabels]
    omega

/-- The labels of `front`, and a pointer to the labels of `tail`. -/
theorem decodes_pointer (h : ValidName (front ++ tail)) (htarget : target < 2 ^ 14)
    (hstored : StoredAt pkt offset (encodeLabels front ++ pointerBytes target))
    (hin : offset + (encodeLabels front ++ pointerBytes target).length ≤ pktLen)
    (htail : StoredAt pkt target (dnsEncodeName (hostname tail)))
    (htailIn : target + (dnsEncodeName (hostname tail)).length ≤ pktLen) (hlen : pktLen < 2 ^ 32) :
    Decodes pkt pktLen offset 256 (hostname (front ++ tail))
      (encodeLabels front ++ pointerBytes target).length := by
  intro out
  have hshort := h.short
  have hdotted := @length_dotted_le (front ++ tail)
  have happend : dotted (front ++ tail) = dotted front ++ dotted tail := List.flatMap_append
  have hfront : ∀ label ∈ front, IsLabel label := fun l hl =>
    h.label l (List.mem_append_left tail hl)
  have htailLabels : ∀ label ∈ tail, IsLabel label := fun l hl =>
    h.label l (List.mem_append_right front hl)
  have hsize : (encodeLabels front).length = (dotted front).length := length_encodeLabels
  have hpointer : (pointerBytes target).length = 2 := rfl
  rw [happend, List.length_append] at hdotted
  rw [List.length_append, hpointer] at hin ⊢
  rw [dnsEncodeName_hostname htailLabels] at htail htailIn
  obtain ⟨hlabels, hbytes⟩ := Stored.storedAt_append.mp hstored
  obtain ⟨t, hwalked, hloop⟩ := decodeLoop_walked offset (s := decodeStart offset out)
    hfront hlabels
    (by rw [hsize]; exact (by omega : offset + (dotted front).length ≤ pktLen)) hlen
    (by rw [hsize]; exact (by omega : 0 + (dotted front).length < 256)) (by decide)
  have hpos : t.pos = offset + (dotted front).length := hwalked.pos
  have houtPos : t.outPos = (dotted front).length := hwalked.outPos.trans (Nat.zero_add _)
  rw [hsize, ← hpos, pointerBytes, Stored.storedAt_cons, Stored.storedAt_singleton] at hbytes
  obtain ⟨hhigh, hlow⟩ := hbytes
  have hflags : pkt t.pos &&& 0xC0 = 0xC0 := by
    rw [hhigh]
    exact pointer_flags _ (by omega)
  have hjump := decodeStep_pointer offset 256 hflags
    (by omega : t.pos + 1 < pktLen) (by omega)
  have hgoal : pointerTarget (pkt t.pos) (pkt (t.pos + 1)) = target := by
    rw [hhigh, hlow, pointerTarget_pointerBytes htarget]
  rw [hgoal] at hjump
  obtain ⟨v, u, hrest, hstring, hconsumed, hwalked'⟩ := decodeLoop_tail offset front
    (s := { (t.read t.pos).read (t.pos + 1) with
      consumed := t.consumedAt offset 2, jumped := true, pos := target })
    htailLabels htail htailIn hlen houtPos hwalked.out
    (by rw [happend, List.length_append]; omega : (dotted (front ++ tail)).length < 256)
    (by decide)
  refine ⟨front.length + (tail.length + 1 + 1), decodeEnd u, ?_, hstring, ?_⟩
  · rw [dnsDecodeName, hloop, decodeLoop, if_pos (by omega), hjump]
    exact congrArg (Option.map decodeEnd) hrest
  · have hafter : v.consumedAt offset 1 = v.consumed := by
      rw [DnsState.consumedAt, hwalked'.jumped]
      rfl
    have hsame : v.consumed = t.consumedAt offset 2 := hwalked'.consumed
    rw [hconsumed, hafter, hsame, hsize]
    exact consumedAt_start hwalked.jumped hpos (by omega)

/-- Encoded and decoded again, whole or with a pointer to an occurrence of its tail. -/
theorem dnsName_roundTrip (h : ValidName labels) (hlen : pktLen < 2 ^ 32) :
    (StoredAt pkt offset (dnsEncodeName (hostname labels)) →
      offset + (dnsEncodeName (hostname labels)).length ≤ pktLen →
      Decodes pkt pktLen offset 256 (hostname labels)
        (dnsEncodeName (hostname labels)).length) ∧
    ∀ front tail target, labels = front ++ tail → target < 2 ^ 14 →
      StoredAt pkt offset (encodeLabels front ++ pointerBytes target) →
      offset + (encodeLabels front ++ pointerBytes target).length ≤ pktLen →
      StoredAt pkt target (dnsEncodeName (hostname tail)) →
      target + (dnsEncodeName (hostname tail)).length ≤ pktLen →
      Decodes pkt pktLen offset 256 (hostname labels)
        (encodeLabels front ++ pointerBytes target).length := by
  refine ⟨fun hstored hin => decodes_name h hstored hin hlen, ?_⟩
  rintro front tail target rfl htarget hstored hin htail htailIn
  exact decodes_pointer h htarget hstored hin htail htailIn hlen

theorem validName_abc : ValidName [[0x61], [0x62], [0x63]] where
  label := by
    intro label hlabel
    simp only [List.mem_cons, List.not_mem_nil, or_false] at hlabel
    rcases hlabel with rfl | rfl | rfl
    all_goals exact ⟨by decide, by decide, by decide, by decide⟩
  short := by decide

/-- `a.b.c` at offset 5 as a label and a pointer to `b.c` at offset 0. -/
theorem dnsName_roundTrip_abc :
    Decodes (fun i => [1, 0x62, 1, 0x63, 0, 1, 0x61, 0xC0, 0].getD i 0) 9 5 256
      [0x61, 0x2E, 0x62, 0x2E, 0x63] 4 := by
  have htail : dnsEncodeName (hostname [[0x62], [0x63]]) = [1, 0x62, 1, 0x63, 0] := by
    refine dnsEncodeName_hostname fun label hlabel => validName_abc.label label ?_
    exact List.mem_cons_of_mem _ hlabel
  refine (dnsName_roundTrip validName_abc (by decide)).2 [[0x61]] [[0x62], [0x63]] 0 rfl
    (by decide) ?_ (by decide) ?_ ?_
  · intro i hi
    have hlt : i < 4 := hi
    interval_cases i
    all_goals rfl
  · rw [htail]
    intro i hi
    have hlt : i < 5 := hi
    interval_cases i
    all_goals rfl
  · rw [htail]
    decide

end PinguinOS.Net
