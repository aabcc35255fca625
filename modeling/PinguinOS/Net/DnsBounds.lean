import Mathlib.Data.Finset.Prod
import PinguinOS.Lib.Orbit
import PinguinOS.Net.Dns

/-! For which packets `dns_decode_name` ends and stays inside its buffers. -/
namespace PinguinOS.Net

open Mm (u32 u32_of_lt)

variable (pkt : Nat → BitVec 8) (pktLen outMax : Nat)

/-- The bytes that the label at `pos` gives to an output of `fill` characters. -/
def labelRoom (pos fill : Nat) : Nat := min (pkt pos).toNat (outMax - 1 - fill)

/-- Where a name goes on from a position, with the number of characters of the output: behind a
label, or at the target of a pointer. -/
def hop (a : Nat × Nat) : Option (Nat × Nat) :=
  if a.1 < pktLen then
    if pkt a.1 &&& 0xC0 = 0xC0 then
      if a.1 + 1 < pktLen then some (pointerTarget (pkt a.1) (pkt (a.1 + 1)), a.2) else none
    else if pkt a.1 = 0 then none
    else some (a.1 + 1 + labelRoom pkt outMax a.1 a.2,
      min (a.2 + labelRoom pkt outMax a.1 a.2 + 1) outMax)
  else none

/-- What is copied of a label lies inside the packet. -/
def LabelInside (a : Nat × Nat) : Prop :=
  a.1 < pktLen → ¬ pkt a.1 &&& 0xC0 = 0xC0 → pkt a.1 ≠ 0 →
    a.1 + 1 + labelRoom pkt outMax a.1 a.2 ≤ pktLen

/-- `dns_decode_name` ends, inside both buffers and with a terminated output. -/
def DecodesInside (offset : Nat) (out : Nat → BitVec 8) : Prop :=
  ∃ fuel r, dnsDecodeName fuel pkt pktLen offset out outMax = some r ∧
    (∀ a ∈ r.reads, a < pktLen) ∧ (∀ a ∈ r.writes, a < outMax) ∧
    r.outPos < outMax ∧ r.out r.outPos = 0

variable {pkt pktLen outMax} {offset fuel k : Nat} {out : Nat → BitVec 8} {s t : DnsState}

/-- The output has not been overrun, and is full only behind a dot. -/
structure FillOk (outMax : Nat) (s : DnsState) : Prop where
  fill : s.outPos ≤ outMax
  full : s.outPos = outMax → 0 < outMax → s.out (outMax - 1) = dot
  writes : ∀ a ∈ s.writes, a < outMax

/-- What an iteration from `s` to `t` does. -/
structure Iteration (pkt : Nat → BitVec 8) (pktLen outMax : Nat) (s t : DnsState) (more : Bool) :
    Prop where
  hop : hop pkt pktLen outMax (s.pos, s.outPos) = if more then some (t.pos, t.outPos) else none
  fillOk : FillOk outMax t
  kept : ∀ a ∈ s.reads, a ∈ t.reads
  reads : (∀ a ∈ s.reads, a < pktLen) →
    ((∀ a ∈ t.reads, a < pktLen) ↔ LabelInside pkt pktLen outMax (s.pos, s.outPos))

theorem labelInside_of_plain {a : Nat × Nat} (h : pkt a.1 &&& 0xC0 = 0xC0 ∨ pkt a.1 = 0) :
    LabelInside pkt pktLen outMax a := by
  intro _ hptr hroot
  rcases h with h | h
  · exact absurd h hptr
  · exact absurd h hroot

/-- A label is read inside the packet if what is copied of it lies there. -/
theorem reads_label_iff (hpos : s.pos < pktLen) (hptr : ¬ pkt s.pos &&& 0xC0 = 0xC0)
    (hroot : pkt s.pos ≠ 0) (hold : ∀ a ∈ s.reads, a < pktLen)
    (hreads : ∀ a, a ∈ t.reads ↔
      (s.pos + 1 ≤ a ∧ a < s.pos + 1 + labelRoom pkt outMax s.pos s.outPos) ∨
        a = s.pos ∨ a ∈ s.reads) :
    (∀ a ∈ t.reads, a < pktLen) ↔ LabelInside pkt pktLen outMax (s.pos, s.outPos) := by
  constructor
  · intro hall _ _ _
    by_contra hover
    have hover : ¬ s.pos + 1 + labelRoom pkt outMax s.pos s.outPos ≤ pktLen := hover
    have hlast := hall (s.pos + labelRoom pkt outMax s.pos s.outPos)
      ((hreads _).mpr (Or.inl ⟨by omega, by omega⟩))
    omega
  · intro hlabel a ha
    have hend : s.pos + 1 + labelRoom pkt outMax s.pos s.outPos ≤ pktLen :=
      hlabel hpos hptr hroot
    rcases (hreads a).mp ha with hin | rfl | hmem
    · omega
    · exact hpos
    · exact hold a hmem

/-- The dot behind a label. -/
theorem fillOk_put (hput : t.outPos < outMax) (hmax : outMax < 2 ^ 32 - 1)
    (hwrites : ∀ a ∈ t.writes, a < outMax) :
    (t.put dot).outPos = t.outPos + 1 ∧ FillOk outMax (t.put dot) := by
  have hnext : (t.put dot).outPos = t.outPos + 1 := u32_of_lt (by omega)
  refine ⟨hnext, ?_, ?_, ?_⟩
  · rw [hnext]
    omega
  · intro hfull _
    rw [hnext] at hfull
    have hlast : outMax - 1 = t.outPos := by omega
    rw [hlast]
    exact Function.update_self _ _ _
  · intro a ha
    rcases List.mem_cons.mp ha with rfl | ha
    · exact hput
    · exact hwrites a ha

theorem iteration_label (offset : Nat) (hpos : s.pos < pktLen) (h : FillOk outMax s)
    (hfit : pktLen + outMax < 2 ^ 32) (hptr : ¬ pkt s.pos &&& 0xC0 = 0xC0)
    (hroot : pkt s.pos ≠ 0) :
    ∃ t, decodeStep pkt pktLen offset outMax s = (t, true) ∧
      Iteration pkt pktLen outMax s t true := by
  have hfill := h.fill
  obtain ⟨t, hcopied, hstep⟩ := decodeStep_label pktLen offset hptr hroot
    (by omega : s.pos + 1 + min (pkt s.pos).toNat (outMax - 1 - s.outPos) < 2 ^ 32) hfill
    (by omega : outMax + 1 < 2 ^ 32)
  have hroom : labelRoom pkt outMax s.pos s.outPos =
      min (pkt s.pos).toNat (outMax - 1 - s.outPos) := rfl
  rw [← hroom] at hcopied
  have htpos : t.pos = s.pos + 1 + labelRoom pkt outMax s.pos s.outPos := hcopied.pos
  have htout : t.outPos = s.outPos + labelRoom pkt outMax s.pos s.outPos := hcopied.outPos
  have hreads : ∀ a, a ∈ t.reads ↔
      (s.pos + 1 ≤ a ∧ a < s.pos + 1 + labelRoom pkt outMax s.pos s.outPos) ∨
        a = s.pos ∨ a ∈ s.reads := by
    intro a
    rw [hcopied.reads a]
    exact or_congr_right List.mem_cons
  have hwrites : ∀ a ∈ t.writes, a < outMax := by
    intro a ha
    rcases (hcopied.writes a).mp ha with ⟨-, hlt⟩ | hold
    · have hlt : a < s.outPos + labelRoom pkt outMax s.pos s.outPos := hlt
      omega
    · exact h.writes a hold
  have hkept : ∀ a ∈ s.reads, a ∈ t.reads := fun a ha => (hreads a).mpr (Or.inr (Or.inr ha))
  have hhop : hop pkt pktLen outMax (s.pos, s.outPos) =
      some (t.pos, min (t.outPos + 1) outMax) := by
    unfold hop
    rw [if_pos hpos, if_neg hptr, if_neg hroot, htpos, htout]
  by_cases hput : t.outPos < outMax
  · rw [if_pos hput] at hstep
    obtain ⟨hnext, hfillOk⟩ := fillOk_put hput (by omega) hwrites
    have hmin : min (t.outPos + 1) outMax = t.outPos + 1 := by omega
    refine ⟨_, hstep, ?_, hfillOk, hkept, fun hold => reads_label_iff hpos hptr hroot hold hreads⟩
    rw [hhop, hmin, if_pos rfl, hnext]
    rfl
  · -- the output was full before: nothing has been copied
    rw [if_neg hput] at hstep
    have hmin : min (t.outPos + 1) outMax = t.outPos := by omega
    refine ⟨_, hstep, ?_, ⟨by omega, ?_, hwrites⟩, hkept,
      fun hold => reads_label_iff hpos hptr hroot hold hreads⟩
    · rw [hhop, hmin]
      rfl
    · intro hfull hpositive
      have hnone : labelRoom pkt outMax s.pos s.outPos = 0 := by omega
      rw [hcopied.out]
      refine (if_neg ?_).trans (h.full (by omega) hpositive)
      rw [hnone]
      exact fun hin => absurd hin.2 (Nat.not_lt.mpr hin.1)

/-- An iteration follows the name by one hop. -/
theorem decodeStep_iteration (pkt : Nat → BitVec 8) (offset : Nat) (hpos : s.pos < pktLen)
    (h : FillOk outMax s) (hfit : pktLen + outMax < 2 ^ 32) :
    ∃ t more, decodeStep pkt pktLen offset outMax s = (t, more) ∧
      Iteration pkt pktLen outMax s t more := by
  have hcons : ∀ {t : DnsState}, (∀ a, a ∈ t.reads → a = s.pos ∨ a = s.pos + 1 ∧
      s.pos + 1 < pktLen ∨ a ∈ s.reads) → (∀ a ∈ s.reads, a < pktLen) →
        ∀ a ∈ t.reads, a < pktLen := by
    intro t hreads hold a ha
    rcases hreads a ha with rfl | ⟨rfl, hlt⟩ | hmem
    · exact hpos
    · exact hlt
    · exact hold a hmem
  by_cases hptr : pkt s.pos &&& 0xC0 = 0xC0
  · have hinside : LabelInside pkt pktLen outMax (s.pos, s.outPos) :=
      labelInside_of_plain (Or.inl hptr)
    by_cases hcut : s.pos + 1 < pktLen
    · refine ⟨_, _, decodeStep_pointer _ _ hptr hcut (by omega), ?_,
        ⟨h.fill, h.full, h.writes⟩, ?_, ?_⟩
      · unfold hop
        rw [if_pos hpos, if_pos hptr, if_pos hcut]
        rfl
      · intro a ha
        exact List.mem_cons_of_mem _ (List.mem_cons_of_mem _ ha)
      · intro hold
        refine iff_of_true (hcons (fun a ha => ?_) hold) hinside
        rcases List.mem_cons.mp ha with rfl | ha
        · exact Or.inr (Or.inl ⟨rfl, hcut⟩)
        · exact (List.mem_cons.mp ha).imp_right Or.inr
    · refine ⟨_, _, decodeStep_cut hptr (by omega) (by omega), ?_, ⟨h.fill, h.full, h.writes⟩, ?_,
        ?_⟩
      · unfold hop
        rw [if_pos hpos, if_pos hptr, if_neg hcut]
        rfl
      · exact fun a ha => List.mem_cons_of_mem _ ha
      · intro hold
        refine iff_of_true (hcons (fun a ha => ?_) hold) hinside
        exact (List.mem_cons.mp ha).imp_right Or.inr
  · by_cases hroot : pkt s.pos = 0
    · refine ⟨_, _, decodeStep_root hroot, ?_, ⟨h.fill, h.full, h.writes⟩, ?_, ?_⟩
      · unfold hop
        rw [if_pos hpos, if_neg hptr, if_pos hroot]
        rfl
      · exact fun a ha => List.mem_cons_of_mem _ ha
      · intro hold
        refine iff_of_true (hcons (fun a ha => ?_) hold) (labelInside_of_plain (Or.inr hroot))
        exact (List.mem_cons.mp ha).imp_right Or.inr
    · obtain ⟨t, hstep, hiteration⟩ := iteration_label offset hpos h hfit hptr hroot
      exact ⟨t, true, hstep, hiteration⟩

/-! The loop. -/

theorem hop_past (hpos : ¬ s.pos < pktLen) : hop pkt pktLen outMax (s.pos, s.outPos) = none :=
  if_neg hpos

theorem labelInside_past (hpos : ¬ s.pos < pktLen) :
    LabelInside pkt pktLen outMax (s.pos, s.outPos) :=
  fun hlt => absurd hlt hpos

theorem decodeLoop_kept (hfit : pktLen + outMax < 2 ^ 32) (h : FillOk outMax s)
    (hloop : decodeLoop pkt pktLen offset outMax fuel s = some t) :
    FillOk outMax t ∧ ∀ a ∈ s.reads, a ∈ t.reads := by
  induction fuel generalizing s with
  | zero => cases hloop
  | succ fuel ih =>
    unfold decodeLoop at hloop
    split_ifs at hloop with hpos
    · obtain ⟨u, more, hstep, hiter⟩ := decodeStep_iteration pkt offset hpos h hfit
      rw [hstep] at hloop
      cases more with
      | true =>
        obtain ⟨hfill, hkept⟩ := ih hiter.fillOk hloop
        exact ⟨hfill, fun a ha => hkept a (hiter.kept a ha)⟩
      | false =>
        cases hloop
        exact ⟨hiter.fillOk, hiter.kept⟩
    · cases hloop
      exact ⟨h, fun _ ha => ha⟩

/-- A loop that ends follows the name to its end, and inside the packet if its reads are. -/
theorem decodeLoop_ends (hfit : pktLen + outMax < 2 ^ 32) (h : FillOk outMax s)
    (hreads : ∀ a ∈ s.reads, a < pktLen)
    (hloop : decodeLoop pkt pktLen offset outMax fuel s = some t)
    (hinside : ∀ a ∈ t.reads, a < pktLen) :
    Orbit.Ends (hop pkt pktLen outMax) (s.pos, s.outPos) ∧
      Orbit.Always (hop pkt pktLen outMax) (LabelInside pkt pktLen outMax) (s.pos, s.outPos) := by
  induction fuel generalizing s with
  | zero => cases hloop
  | succ fuel ih =>
    unfold decodeLoop at hloop
    split_ifs at hloop with hpos
    · obtain ⟨u, more, hstep, hiter⟩ := decodeStep_iteration pkt offset hpos h hfit
      rw [hstep] at hloop
      have hhop := hiter.hop
      cases more with
      | true =>
        obtain ⟨-, hkept⟩ := decodeLoop_kept hfit hiter.fillOk hloop
        have hnow : ∀ a ∈ u.reads, a < pktLen := fun a ha => hinside a (hkept a ha)
        obtain ⟨hends, halways⟩ := ih hiter.fillOk hnow hloop
        exact ⟨(Orbit.ends_iff_of_step hhop).mpr hends,
          (Orbit.always_iff_of_step hhop).mpr ⟨(hiter.reads hreads).mp hnow, halways⟩⟩
      | false =>
        cases hloop
        exact ⟨Orbit.ends_of_stop hhop,
          Orbit.always_of_stop hhop ((hiter.reads hreads).mp hinside)⟩
    · exact ⟨Orbit.ends_of_stop (hop_past hpos),
        Orbit.always_of_stop (hop_past hpos) (labelInside_past hpos)⟩

/-- A name that comes to an end inside the packet is read to its end. -/
theorem decodeLoop_of_ends (offset : Nat) (hfit : pktLen + outMax < 2 ^ 32) (h : FillOk outMax s)
    (hreads : ∀ a ∈ s.reads, a < pktLen)
    (hends : Orbit.after (hop pkt pktLen outMax) (s.pos, s.outPos) k = none)
    (halways : Orbit.Always (hop pkt pktLen outMax) (LabelInside pkt pktLen outMax)
      (s.pos, s.outPos)) :
    ∃ t, decodeLoop pkt pktLen offset outMax k s = some t ∧ FillOk outMax t ∧
      ∀ a ∈ t.reads, a < pktLen := by
  induction k generalizing s with
  | zero => cases hends
  | succ k ih =>
    unfold decodeLoop
    split_ifs with hpos
    · obtain ⟨u, more, hstep, hiter⟩ :=
        decodeStep_iteration pkt offset hpos h hfit
      have hhop := hiter.hop
      have hnow := (hiter.reads hreads).mpr (halways 0 _ rfl)
      rw [hstep]
      cases more with
      | true =>
        rw [Orbit.after_succ_of_step hhop] at hends
        exact ih hiter.fillOk hnow hends ((Orbit.always_iff_of_step hhop).mp halways).2
      | false => exact ⟨u, rfl, hiter.fillOk, hnow⟩
    · exact ⟨s, rfl, h, hreads⟩

theorem fillOk_start : FillOk outMax (decodeStart offset out) where
  fill := Nat.zero_le _
  full := by
    intro hfull hpositive
    have hzero : (0 : Nat) = outMax := hfull
    omega
  writes := by
    intro a ha
    cases ha

/-- The terminator has its place, for a full output in place of the dot. -/
theorem decodeEnd_inside (h : FillOk outMax s) (hmax : 1 ≤ outMax) :
    (∀ a ∈ (decodeEnd s).writes, a < outMax) ∧ (decodeEnd s).outPos < outMax ∧
      (decodeEnd s).out (decodeEnd s).outPos = 0 ∧ (decodeEnd s).reads = s.reads := by
  have hfill := h.fill
  unfold decodeEnd
  split_ifs with hdot
  · refine ⟨fun a ha => ?_, by dsimp only; omega, Function.update_self _ _ _, rfl⟩
    rcases List.mem_cons.mp ha with rfl | ha
    · dsimp only
      omega
    · exact h.writes a ha
  · have hroom : s.outPos < outMax := by
      by_contra hover
      have hfull : s.outPos = outMax := by omega
      exact hdot ⟨by omega, hfull ▸ h.full hfull hmax⟩
    refine ⟨fun a ha => ?_, hroom, Function.update_self _ _ _, rfl⟩
    rcases List.mem_cons.mp ha with rfl | ha
    · exact hroom
    · exact h.writes a ha

/-- Only finitely many places of a name have one behind them. -/
theorem hop_mem {a : Nat × Nat} (hfill : a.2 ≤ outMax) (hsome : (hop pkt pktLen outMax a).isSome) :
    a ∈ Finset.range pktLen ×ˢ Finset.range (outMax + 1) := by
  by_cases hpos : a.1 < pktLen
  · rw [Finset.mem_product, Finset.mem_range, Finset.mem_range]
    exact ⟨hpos, by omega⟩
  · rw [hop, if_neg hpos] at hsome
    cases hsome

theorem hop_fill {a b : Nat × Nat} (hfill : a.2 ≤ outMax)
    (hhop : hop pkt pktLen outMax a = some b) :
    b.2 ≤ outMax := by
  unfold hop at hhop
  split_ifs at hhop
  · cases hhop
    exact hfill
  · cases hhop
    exact Nat.min_le_right _ _

theorem after_fill {a b : Nat × Nat} (hfill : a.2 ≤ outMax)
    (hafter : Orbit.after (hop pkt pktLen outMax) a k = some b) : b.2 ≤ outMax := by
  induction k generalizing a with
  | zero =>
    cases hafter
    exact hfill
  | succ k ih =>
    obtain ⟨c, hc, hrest⟩ := Option.bind_eq_some_iff.mp hafter
    exact ih (hop_fill hfill hc) hrest

/-- A name is decoded inside its buffers exactly when no place of it comes again with the same
output length and what is copied of its labels lies inside the packet. -/
theorem decodesInside_iff (hmax : 1 ≤ outMax) (hfit : pktLen + outMax < 2 ^ 32) :
    DecodesInside pkt pktLen outMax offset out ↔
      Orbit.Simple (hop pkt pktLen outMax) (offset, 0) ∧
        Orbit.Always (hop pkt pktLen outMax) (LabelInside pkt pktLen outMax) (offset, 0) := by
  have hsimple : Orbit.Ends (hop pkt pktLen outMax) (offset, 0) ↔
      Orbit.Simple (hop pkt pktLen outMax) (offset, 0) := by
    refine Orbit.ends_iff_simple (Finset.range pktLen ×ˢ Finset.range (outMax + 1)) ?_
    intro k a hafter hsome
    exact hop_mem (after_fill (Nat.zero_le _) hafter) hsome
  have hstart : ∀ a ∈ (decodeStart offset out).reads, a < pktLen := fun a ha => by cases ha
  rw [← hsimple]
  constructor
  · rintro ⟨fuel, r, hdecode, hreads, -, -, -⟩
    obtain ⟨t, hloop, rfl⟩ := Option.map_eq_some_iff.mp hdecode
    obtain ⟨hfill, -⟩ := decodeLoop_kept hfit fillOk_start hloop
    obtain ⟨-, -, -, hsame⟩ := decodeEnd_inside hfill hmax
    rw [hsame] at hreads
    exact decodeLoop_ends hfit fillOk_start hstart hloop hreads
  · rintro ⟨⟨k, hends⟩, halways⟩
    obtain ⟨t, hloop, hfill, hreads⟩ :=
      decodeLoop_of_ends offset (s := decodeStart offset out) hfit fillOk_start hstart
        hends halways
    obtain ⟨hwrites, hend, hnul, hsame⟩ := decodeEnd_inside hfill hmax
    refine ⟨k, decodeEnd t, ?_, ?_, hwrites, hend, hnul⟩
    · rw [dnsDecodeName, hloop]
      rfl
    · rw [hsame]
      exact hreads

/-- The root name. -/
theorem decodesInside_root : DecodesInside (fun _ => 0) 1 256 0 (fun _ => 0) := by
  have hstop : hop (fun _ => 0) 1 256 (0, 0) = none := by decide
  refine (decodesInside_iff (by decide) (by decide)).mpr ⟨Orbit.simple_of_stop hstop, ?_⟩
  exact Orbit.always_of_stop hstop (labelInside_of_plain (Or.inr rfl))

/-- A pointer to itself, in a packet of two bytes. -/
theorem not_decodesInside_selfPointer :
    ¬ ∀ (pkt : Nat → BitVec 8) (pktLen outMax offset : Nat) (out : Nat → BitVec 8), 1 ≤ outMax →
      pktLen + outMax < 2 ^ 32 → DecodesInside pkt pktLen outMax offset out := by
  intro h
  obtain ⟨fuel, r, hdecode, hreads, -, -, -⟩ :=
    h (fun i => if i = 0 then 0xC0 else 0) 2 256 0 (fun _ => 0) (by decide) (by decide)
  obtain ⟨t, hloop, rfl⟩ := Option.map_eq_some_iff.mp hdecode
  obtain ⟨hfill, -⟩ := decodeLoop_kept (by decide) fillOk_start hloop
  obtain ⟨-, -, -, hsame⟩ := decodeEnd_inside hfill (by decide)
  rw [hsame] at hreads
  obtain ⟨hends, -⟩ :=
    decodeLoop_ends (by decide) fillOk_start (fun a ha => by cases ha) hloop hreads
  exact Orbit.not_ends_of_recurs (i := 0) (j := 1) Nat.one_pos rfl (by decide) hends

end PinguinOS.Net
