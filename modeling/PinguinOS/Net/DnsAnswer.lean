import PinguinOS.Net.DnsBounds

/-! Which replies the answer walk of `dns_resolve` takes an address from. -/
namespace PinguinOS.Net

open Mm (u32 sub32 u32_of_lt)

/-- The loop of `dns_decode_name` as far as the given number of iterations takes it, and whether it
has ended. -/
def decodeRun (pkt : Nat → BitVec 8) (pktLen offset outMax : Nat) :
    Nat → DnsState → DnsState × Bool
  | 0, s => (s, false)
  | fuel + 1, s =>
    if s.pos < pktLen then
      match decodeStep pkt pktLen offset outMax s with
      | (s, true) => decodeRun pkt pktLen offset outMax fuel s
      | (s, false) => (s, true)
    else (s, true)

/-- What a reply leads to: the wait goes on, it is over, a name never ends, or the address whose
bytes stand at `rdata` is returned. -/
inductive AnswerResult where
  | waits
  | fails
  | loops
  | found (rdata : Nat) (ip : BitVec 32)
deriving DecidableEq

/-- The cells of `rxbuf` that have been read, and what follows from them. -/
structure AnswerWalk where
  reads : List Nat
  result : AnswerResult

def AnswerWalk.after (reads : List Nat) (w : AnswerWalk) : AnswerWalk :=
  { w with reads := reads ++ w.reads }

/-- `(uint16_t)((rxbuf[pos] << 8) | rxbuf[pos+1])` -/
def word16 (rxbuf : Nat → BitVec 8) (pos : Nat) : BitVec 16 := rxbuf pos ++ rxbuf (u32 (pos + 1))

/-- `ip` in `dns_resolve` -/
def word32 (rxbuf : Nat → BitVec 8) (pos : Nat) : BitVec 32 :=
  word16 rxbuf pos ++ word16 rxbuf (u32 (pos + 2))

/-- The call of `dns_decode_name` for the name at `pos`, and what follows it. -/
def skipName (fuel : Nat) (rxbuf : Nat → BitVec 8) (n pos : Nat) (tmp : Nat → BitVec 8)
    (next : DnsState → AnswerWalk) : AnswerWalk :=
  match decodeRun rxbuf n pos 256 fuel (decodeStart pos tmp) with
  | (s, false) => { reads := s.reads, result := .loops }
  | (s, true) => AnswerWalk.after (decodeEnd s).reads (next (decodeEnd s))

/-- The fields of an answer record behind its name; `rest` is what follows it. -/
def answerFields (rxbuf : Nat → BitVec 8) (pos : Nat) (rest : Nat → AnswerWalk) : AnswerWalk :=
  let rtype := word16 rxbuf pos
  let rdlenAt := u32 (u32 (u32 (pos + 2) + 2) + 4)
  let rdlen := word16 rxbuf rdlenAt
  let rdata := u32 (rdlenAt + 2)
  AnswerWalk.after [pos, u32 (pos + 1), rdlenAt, u32 (rdlenAt + 1)] <|
    if rtype = 1 ∧ rdlen = 4 then
      { reads := [rdata, u32 (rdata + 1), u32 (rdata + 2), u32 (u32 (rdata + 2) + 1)]
        result := .found rdata (word32 rxbuf rdata) }
    else rest (u32 (rdata + rdlen.toNat))

/-- The loop over the answer records; `fuel` holds the iterations granted to each name. -/
def answerRecords (fuel : Nat → Nat) (rxbuf : Nat → BitVec 8) (n : Nat) :
    Nat → Nat → (Nat → BitVec 8) → AnswerWalk
  | 0, _, _ => { reads := [], result := .fails }
  | answers + 1, pos, tmp =>
    if u32 (pos + 10) > n then { reads := [], result := .fails }
    else
      skipName (fuel answers) rxbuf n pos tmp fun s =>
        answerFields rxbuf (u32 (pos + s.consumed)) fun pos =>
          answerRecords fuel rxbuf n answers pos s.out

/-- What `dns_resolve` makes of a reply of `n` bytes to the query `id`. -/
def dnsAnswer (fuel : Nat → Nat) (rxbuf : Nat → BitVec 8) (n : Nat) (id : BitVec 16)
    (tmp : Nat → BitVec 8) : AnswerWalk :=
  let rflags := word16 rxbuf 2
  let answers := (word16 rxbuf 6).toNat
  if n < 12 then { reads := [], result := .waits }
  else if word16 rxbuf 0 ≠ id then { reads := [0, 1], result := .waits }
  else if rflags &&& 0x8000 = 0 then { reads := [0, 1, 2, 3], result := .waits }
  else if rflags &&& 0x000F ≠ 0 then { reads := [0, 1, 2, 3], result := .fails }
  else if answers = 0 then { reads := [0, 1, 2, 3, 6, 7], result := .fails }
  else
    AnswerWalk.after [0, 1, 2, 3, 6, 7] <|
      skipName (fuel answers) rxbuf n 12 tmp fun s =>
        answerRecords fuel rxbuf n answers (u32 (12 + u32 (s.consumed + 4))) s.out

/-! Where the records of a packet stand. -/

/-- The name at a position ends before another one: labels by their length bytes, up to the root
or to a pointer. -/
inductive NameEnds (pkt : Nat → BitVec 8) (n : Nat) : Nat → Nat → Prop where
  | root {pos : Nat} (hin : pos < n) (hroot : pkt pos = 0) : NameEnds pkt n pos (pos + 1)
  | pointer {pos : Nat} (hin : pos + 1 < n) (hptr : pkt pos &&& 0xC0 = 0xC0) :
    NameEnds pkt n pos (pos + 2)
  | label {pos e : Nat} (hin : pos < n) (hptr : ¬ pkt pos &&& 0xC0 = 0xC0) (hroot : pkt pos ≠ 0)
    (hrest : NameEnds pkt n (pos + 1 + (pkt pos).toNat) e) : NameEnds pkt n pos e

/-- An answer record starts at `pos`, with so many before it. -/
inductive RecordAt (pkt : Nat → BitVec 8) (n : Nat) : Nat → Nat → Prop where
  | first {e : Nat} (hquestion : NameEnds pkt n 12 e) : RecordAt pkt n 0 (e + 4)
  | next {i pos h : Nat} (hrecord : RecordAt pkt n i pos) (hname : NameEnds pkt n pos h) :
    RecordAt pkt n (i + 1) (h + 10 + (word16 pkt (h + 8)).toNat)

/-- One of the answer records, whole and with an Internet address, has its fields at `h`. -/
structure AddressAt (pkt : Nat → BitVec 8) (n answers h : Nat) : Prop where
  reached : ∃ i < answers, ∃ pos, RecordAt pkt n i pos ∧ NameEnds pkt n pos h
  type : word16 pkt h = 1
  class_in : word16 pkt (h + 2) = 1
  length : word16 pkt (h + 8) = 4
  inside : h + 14 ≤ n

/-- Nothing is read behind the packet, and an address comes from one of its records. -/
def FromReply (pkt : Nat → BitVec 8) (n answers : Nat) (w : AnswerWalk) : Prop :=
  (∀ a ∈ w.reads, a < n) ∧ ∀ rdata ip, w.result = .found rdata ip →
    ∃ h, AddressAt pkt n answers h ∧ rdata = h + 10 ∧ ip = word32 pkt rdata

/-! What the walk needs. -/

/-- The place behind the name at `pos` as `dns_decode_name` passes it, if it finds one. -/
def behindName (pkt : Nat → BitVec 8) (n outMax pos fill : Nat) : Option Nat :=
  if pos < n then
    if pkt pos &&& 0xC0 = 0xC0 then if pos + 1 < n then some (pos + 2) else none
    else if pkt pos = 0 then some (pos + 1)
    else behindName pkt n outMax (pos + 1 + labelRoom pkt outMax pos fill)
      (min (fill + labelRoom pkt outMax pos fill + 1) outMax)
  else none
termination_by n - pos

/-- Where the fields of the record at `pos` are looked for. -/
def fieldsAt (pkt : Nat → BitVec 8) (n pos : Nat) : Nat := (behindName pkt n 256 pos 0).getD pos

/-- The bytes that are looked at of the name at `pos` lie inside the packet. -/
def NameInside (pkt : Nat → BitVec 8) (n pos : Nat) : Prop :=
  Orbit.Always (hop pkt n 256) (LabelInside pkt n 256) (pos, 0)

/-- The records from `pos` on, up to the first one with an address, lie inside the packet as far as
they are read, and that one is a record of the reply, whole and of the class IN. -/
def RecordsOk (pkt : Nat → BitVec 8) (n answers : Nat) : Nat → Nat → Prop
  | 0, _ => True
  | left + 1, pos => pos + 10 ≤ n → NameInside pkt n pos ∧
    (Orbit.Ends (hop pkt n 256) (pos, 0) → fieldsAt pkt n pos + 10 ≤ n ∧
      if word16 pkt (fieldsAt pkt n pos) = 1 ∧ word16 pkt (fieldsAt pkt n pos + 8) = 4 then
        AddressAt pkt n answers (fieldsAt pkt n pos)
      else RecordsOk pkt n answers left
        (fieldsAt pkt n pos + 10 + (word16 pkt (fieldsAt pkt n pos + 8)).toNat))

/-- `dns_resolve` takes the reply for an answer to its query. -/
structure IsAnswer (pkt : Nat → BitVec 8) (n : Nat) (id : BitVec 16) : Prop where
  whole : 12 ≤ n
  id : word16 pkt 0 = id
  response : word16 pkt 2 &&& 0x8000 ≠ 0
  noError : word16 pkt 2 &&& 0x000F = 0

/-- The question's name is read inside the packet, and the records behind it are in order. -/
def AnswersOk (pkt : Nat → BitVec 8) (n : Nat) (id : BitVec 16) : Prop :=
  IsAnswer pkt n id → (word16 pkt 6).toNat ≠ 0 → NameInside pkt n 12 ∧
    (Orbit.Ends (hop pkt n 256) (12, 0) →
      RecordsOk pkt n (word16 pkt 6).toNat (word16 pkt 6).toNat (fieldsAt pkt n 12 + 4))

variable {pkt tmp : Nat → BitVec 8} {n pktLen outMax offset pos fill fuel e h answers left : Nat}
  {s t : DnsState} {w : AnswerWalk} {reads : List Nat}

/-! What one name costs. -/

theorem decodeRun_ended_iff (offset fuel : Nat) (hfit : pktLen + outMax < 2 ^ 32)
    (h : FillOk outMax s) :
    (decodeRun pkt pktLen offset outMax fuel s).2 = true ↔
      Orbit.after (hop pkt pktLen outMax) (s.pos, s.outPos) fuel = none := by
  induction fuel generalizing s with
  | zero => exact iff_of_false Bool.false_ne_true (Option.some_ne_none _)
  | succ fuel ih =>
    unfold decodeRun
    split_ifs with hpos
    · obtain ⟨u, more, hstep, hiter⟩ := decodeStep_iteration pkt offset hpos h hfit
      have hhop := hiter.hop
      rw [hstep]
      cases more with
      | true =>
        rw [Orbit.after_succ_of_step hhop]
        exact ih hiter.fillOk
      | false =>
        refine iff_of_true rfl ?_
        rw [Orbit.after, hhop]
        rfl
    · refine iff_of_true rfl ?_
      rw [Orbit.after, hop_past hpos]
      rfl

theorem decodeRun_reads (offset fuel : Nat) (hfit : pktLen + outMax < 2 ^ 32) (h : FillOk outMax s)
    (hreads : ∀ a ∈ s.reads, a < pktLen)
    (halways : Orbit.Always (hop pkt pktLen outMax) (LabelInside pkt pktLen outMax)
      (s.pos, s.outPos)) :
    ∀ a ∈ (decodeRun pkt pktLen offset outMax fuel s).1.reads, a < pktLen := by
  induction fuel generalizing s with
  | zero => exact hreads
  | succ fuel ih =>
    unfold decodeRun
    split_ifs with hpos
    · obtain ⟨u, more, hstep, hiter⟩ := decodeStep_iteration pkt offset hpos h hfit
      have hhop := hiter.hop
      have hnow := (hiter.reads hreads).mpr (halways 0 _ rfl)
      rw [hstep]
      cases more with
      | true => exact ih hiter.fillOk hnow ((Orbit.always_iff_of_step hhop).mp halways).2
      | false => exact hnow
    · exact hreads

/-- If no number of iterations reads behind the packet, every label on the way lies inside it. -/
theorem always_of_decodeRun (offset : Nat) (hfit : pktLen + outMax < 2 ^ 32) (h : FillOk outMax s)
    (hall : ∀ fuel, ∀ a ∈ (decodeRun pkt pktLen offset outMax fuel s).1.reads, a < pktLen) :
    Orbit.Always (hop pkt pktLen outMax) (LabelInside pkt pktLen outMax) (s.pos, s.outPos) := by
  intro k
  induction k generalizing s with
  | zero =>
    rintro b hb
    cases hb
    by_cases hpos : s.pos < pktLen
    · obtain ⟨u, more, hstep, hiter⟩ := decodeStep_iteration pkt offset hpos h hfit
      refine (hiter.reads (hall 0)).mp ?_
      have hone := hall 1
      rw [decodeRun, if_pos hpos, hstep] at hone
      cases more with
      | true => exact hone
      | false => exact hone
    · exact labelInside_past hpos
  | succ k ih =>
    intro b hb
    by_cases hpos : s.pos < pktLen
    · obtain ⟨u, more, hstep, hiter⟩ := decodeStep_iteration pkt offset hpos h hfit
      have hhop := hiter.hop
      cases more with
      | true =>
        rw [Orbit.after_succ_of_step hhop] at hb
        refine ih hiter.fillOk (fun fuel => ?_) b hb
        have hnext := hall (fuel + 1)
        rw [decodeRun, if_pos hpos, hstep] at hnext
        exact hnext
      | false =>
        rw [Orbit.after, hhop] at hb
        cases hb
    · rw [Orbit.after, hop_past hpos] at hb
      cases hb

theorem behindName_bounds (hbehind : behindName pkt n outMax pos fill = some e) :
    pos < e ∧ e ≤ n := by
  induction pos, fill using behindName.induct pkt n outMax with
  | case1 pos fill hin hptr hcut =>
    rw [behindName, if_pos hin, if_pos hptr, if_pos hcut] at hbehind
    cases hbehind
    omega
  | case2 pos fill hin hptr hcut =>
    rw [behindName, if_pos hin, if_pos hptr, if_neg hcut] at hbehind
    cases hbehind
  | case3 pos fill hin hptr hroot =>
    rw [behindName, if_pos hin, if_neg hptr, if_pos hroot] at hbehind
    cases hbehind
    omega
  | case4 pos fill hin hptr hroot ih =>
    rw [behindName, if_pos hin, if_neg hptr, if_neg hroot] at hbehind
    have hrest := ih hbehind
    omega
  | case5 pos fill hin =>
    rw [behindName, if_neg hin] at hbehind
    cases hbehind

theorem decodeStep_label_frame {more : Bool} (hpos : s.pos < pktLen) (h : FillOk outMax s)
    (hfit : pktLen + outMax < 2 ^ 32) (hptr : ¬ pkt s.pos &&& 0xC0 = 0xC0) (hroot : pkt s.pos ≠ 0)
    (hstep : decodeStep pkt pktLen offset outMax s = (t, more)) :
    t.jumped = s.jumped ∧ t.consumed = s.consumed := by
  have hfill := h.fill
  obtain ⟨u, hcopied, hlabel⟩ := decodeStep_label pktLen offset hptr hroot (by omega) hfill
    (by omega)
  rw [hlabel] at hstep
  cases hstep
  split_ifs
  · exact ⟨hcopied.jumped, hcopied.consumed⟩
  · exact ⟨hcopied.jumped, hcopied.consumed⟩

/-- Behind a pointer nothing is consumed. -/
theorem decodeRun_jumped (fuel : Nat) (hfit : pktLen + outMax < 2 ^ 32) (h : FillOk outMax s)
    (hjumped : s.jumped = true) :
    (decodeRun pkt pktLen offset outMax fuel s).1.consumed = s.consumed := by
  induction fuel generalizing s with
  | zero => rfl
  | succ fuel ih =>
    have hkeep : ∀ size, s.consumedAt offset size = s.consumed := by
      intro size
      rw [DnsState.consumedAt, hjumped]
      rfl
    unfold decodeRun
    split_ifs with hpos
    · obtain ⟨u, more, hstep, hiter⟩ := decodeStep_iteration pkt offset hpos h hfit
      have hu : u.jumped = true ∧ u.consumed = s.consumed := by
        by_cases hptr : pkt s.pos &&& 0xC0 = 0xC0
        · by_cases hcut : s.pos + 1 < pktLen
          · rw [decodeStep_pointer _ _ hptr hcut (by omega)] at hstep
            cases hstep
            exact ⟨rfl, hkeep 2⟩
          · rw [decodeStep_cut hptr (by omega) (by omega)] at hstep
            cases hstep
            exact ⟨hjumped, rfl⟩
        · by_cases hroot : pkt s.pos = 0
          · rw [decodeStep_root hroot] at hstep
            cases hstep
            exact ⟨hjumped, hkeep 1⟩
          · obtain ⟨hsame, hconsumed⟩ := decodeStep_label_frame hpos h hfit hptr hroot hstep
            exact ⟨hsame.trans hjumped, hconsumed⟩
      rw [hstep]
      cases more with
      | true => exact (ih hiter.fillOk hu.1).trans hu.2
      | false => exact hu.2
    · rfl

/-- `dns_decode_name` consumes a name up to its root or its first pointer. -/
theorem decodeRun_consumed (hfit : pktLen + outMax < 2 ^ 32) (h : FillOk outMax s)
    (hjumped : s.jumped = false) (hzero : s.consumed = 0) (hoffset : offset ≤ s.pos)
    (hended : (decodeRun pkt pktLen offset outMax fuel s).2 = true) :
    (decodeRun pkt pktLen offset outMax fuel s).1.consumed =
      (behindName pkt pktLen outMax s.pos s.outPos).elim 0 (· - offset) := by
  induction fuel generalizing s with
  | zero => cases hended
  | succ fuel ih =>
    have hat : ∀ size, s.pos + size < 2 ^ 32 →
        s.consumedAt offset size = s.pos + size - offset := by
      intro size hlt
      rw [DnsState.consumedAt, hjumped]
      simp only [Bool.not_false, if_true, sub32, u32]
      omega
    rw [behindName]
    by_cases hpos : s.pos < pktLen
    · obtain ⟨u, more, hstep, hiter⟩ := decodeStep_iteration pkt offset hpos h hfit
      rw [decodeRun, if_pos hpos, hstep] at hended ⊢
      rw [if_pos hpos]
      by_cases hptr : pkt s.pos &&& 0xC0 = 0xC0
      · rw [if_pos hptr]
        by_cases hcut : s.pos + 1 < pktLen
        · rw [if_pos hcut]
          rw [decodeStep_pointer _ _ hptr hcut (by omega)] at hstep
          cases hstep
          exact (decodeRun_jumped fuel hfit hiter.fillOk rfl).trans (hat 2 (by omega))
        · rw [if_neg hcut]
          rw [decodeStep_cut hptr (by omega) (by omega)] at hstep
          cases hstep
          exact hzero
      · rw [if_neg hptr]
        by_cases hroot : pkt s.pos = 0
        · rw [if_pos hroot]
          rw [decodeStep_root hroot] at hstep
          cases hstep
          exact hat 1 (by omega)
        · rw [if_neg hroot]
          obtain ⟨hsame, hconsumed⟩ := decodeStep_label_frame hpos h hfit hptr hroot hstep
          have hhop := hiter.hop
          rw [hop, if_pos hpos, if_neg hptr, if_neg hroot] at hhop
          cases more with
          | true =>
            obtain ⟨hplace, hfill⟩ := Prod.mk.inj (Option.some.inj hhop)
            rw [hplace, hfill]
            exact ih hiter.fillOk (hsame.trans hjumped) (hconsumed.trans hzero) (by omega) hended
          | false => cases hhop
    · rw [decodeRun, if_neg hpos, if_neg hpos]
      exact hzero

theorem decodeEnd_frame (s : DnsState) :
    (decodeEnd s).consumed = s.consumed ∧ (decodeEnd s).reads = s.reads := by
  unfold decodeEnd
  split_ifs
  · exact ⟨rfl, rfl⟩
  · exact ⟨rfl, rfl⟩

theorem fieldsAt_le : fieldsAt pkt n pos ≤ max pos n := by
  unfold fieldsAt
  cases hbehind : behindName pkt n 256 pos 0 with
  | none => exact Nat.le_max_left pos n
  | some e => exact (behindName_bounds hbehind).2.trans (Nat.le_max_right pos n)

/-- Where the fields behind a name are looked for, once it has been decoded. -/
theorem fieldsAt_of_ended (hfit : n + 256 < 2 ^ 32)
    (hended : (decodeRun pkt n pos 256 fuel (decodeStart pos tmp)).2 = true) :
    pos + (decodeRun pkt n pos 256 fuel (decodeStart pos tmp)).1.consumed =
      fieldsAt pkt n pos := by
  have hstart : FillOk 256 (decodeStart pos tmp) := fillOk_start
  have hconsumed := decodeRun_consumed hfit hstart rfl rfl (Nat.le_refl pos) hended
  rw [hconsumed]
  unfold fieldsAt
  cases hbehind : behindName pkt n 256 pos 0 with
  | none =>
    have hnone : behindName pkt n 256 (decodeStart pos tmp).pos (decodeStart pos tmp).outPos =
        none := hbehind
    rw [hnone]
    rfl
  | some e =>
    have hsome : behindName pkt n 256 (decodeStart pos tmp).pos (decodeStart pos tmp).outPos =
        some e := hbehind
    have hbounds := behindName_bounds hbehind
    rw [hsome, Option.elim_some, Option.getD_some]
    omega

theorem NameEnds.lt (hname : NameEnds pkt n pos e) : pos < e := by
  induction hname with
  | root => omega
  | pointer => omega
  | label _ _ _ _ ih => omega

theorem behindName_of_nameEnds (hname : NameEnds pkt n pos e) (hshort : fill + (e - pos) ≤ 256) :
    behindName pkt n 256 pos fill = some e := by
  induction hname generalizing fill with
  | root hin hroot =>
    rw [behindName, if_pos hin, hroot, if_neg (by decide), if_pos rfl]
  | pointer hin hptr =>
    rw [behindName, if_pos (by omega), if_pos hptr, if_pos hin]
  | @label pos e hin hptr hroot hrest ih =>
    have hlt := hrest.lt
    have hroom : labelRoom pkt 256 pos fill = (pkt pos).toNat := Nat.min_eq_left (by omega)
    rw [behindName, if_pos hin, if_neg hptr, if_neg hroot, hroom]
    exact ih (by omega)

/-- A name that fits into `tmp` is passed by its length. -/
theorem fieldsAt_of_nameEnds (hname : NameEnds pkt n pos e) (hshort : e - pos ≤ 256) :
    fieldsAt pkt n pos = e := by
  rw [fieldsAt, behindName_of_nameEnds hname (by omega), Option.getD_some]

/-- The iterations granted to the names before do not matter for the rest. -/
theorem answerRecords_congr {f g : Nat → Nat} (hsame : ∀ i < left, f i = g i) :
    answerRecords f pkt n left pos tmp = answerRecords g pkt n left pos tmp := by
  induction left generalizing pos tmp with
  | zero => rfl
  | succ left ih =>
    have hrest : ∀ pos tmp, answerRecords f pkt n left pos tmp = answerRecords g pkt n left pos tmp :=
      fun _ _ => ih fun i hi => hsame i (by omega)
    unfold answerRecords
    simp only [hsame left (Nat.lt_succ_self left), hrest]

/-! The records of a reply. -/

theorem fromReply_after :
    FromReply pkt n answers (w.after reads) ↔
      (∀ a ∈ reads, a < n) ∧ FromReply pkt n answers w := by
  constructor
  · rintro ⟨hreads, hfound⟩
    exact ⟨fun a ha => hreads a (List.mem_append_left _ ha),
      fun a ha => hreads a (List.mem_append_right _ ha), hfound⟩
  · rintro ⟨hreads, hrest, hfound⟩
    refine ⟨fun a ha => ?_, hfound⟩
    rcases List.mem_append.mp ha with ha | ha
    · exact hreads a ha
    · exact hrest a ha

/-- An end without an address. -/
theorem fromReply_none {result : AnswerResult} (hnone : ∀ rdata ip, result ≠ .found rdata ip)
    (hreads : ∀ a ∈ reads, a < n) : FromReply pkt n answers { reads := reads, result := result } :=
  ⟨hreads, fun rdata ip heq => absurd heq (hnone rdata ip)⟩

theorem fromReply_fields {rest : Nat → AnswerWalk} (hfit : n + 70000 < 2 ^ 32) (hh : h ≤ n) :
    FromReply pkt n answers (answerFields pkt h rest) ↔ h + 10 ≤ n ∧
      if word16 pkt h = 1 ∧ word16 pkt (h + 8) = 4 then AddressAt pkt n answers h
      else FromReply pkt n answers (rest (h + 10 + (word16 pkt (h + 8)).toNat)) := by
  have h8 : u32 (u32 (u32 (h + 2) + 2) + 4) = h + 8 := by simp only [u32]; omega
  have hsmall : ∀ k ≤ 13, u32 (h + k) = h + k := fun k hk => u32_of_lt (by omega)
  have hrdlen := (word16 pkt (h + 8)).isLt
  have hnext : u32 (h + 8 + 2 + (word16 pkt (h + 8)).toNat) =
      h + 10 + (word16 pkt (h + 8)).toNat := u32_of_lt (by omega)
  have hheader : (∀ a ∈ [h, h + 1, h + 8, h + 8 + 1], a < n) ↔ h + 10 ≤ n := by
    simp only [List.forall_mem_cons, List.not_mem_nil, false_imp_iff, implies_true, and_true]
    omega
  unfold answerFields
  dsimp only
  rw [h8, hsmall 1 (by omega), hsmall 9 (by omega), hsmall 10 (by omega), hnext, fromReply_after,
    hheader]
  refine and_congr_right fun hroom => ?_
  split_ifs with htype
  · constructor
    · rintro ⟨-, hfound⟩
      obtain ⟨h', haddress, hrdata, -⟩ := hfound _ _ rfl
      have heq : h' = h := by omega
      exact heq ▸ haddress
    · intro haddress
      have hinside := haddress.inside
      refine ⟨?_, ?_⟩
      · rw [hsmall 11 (by omega), hsmall 12 (by omega), hsmall 13 (by omega)]
        simp only [List.forall_mem_cons, List.not_mem_nil, false_imp_iff, implies_true, and_true]
        omega
      · rintro rdata ip heq
        cases heq
        exact ⟨h, haddress, rfl, rfl⟩
  · exact Iff.rfl

/-- A name is decoded and the walk goes on behind it. -/
theorem fromReply_name {P : Prop} {k : Nat} {next : (Nat → Nat) → DnsState → AnswerWalk}
    (hfit : n + 256 < 2 ^ 32)
    (hfuel : ∀ f g s, (∀ i < k, f i = g i) → next f s = next g s)
    (hnext : ∀ s, pos + s.consumed = fieldsAt pkt n pos →
      ((∀ fuel, FromReply pkt n answers (next fuel s)) ↔ P)) :
    (∀ fuel : Nat → Nat,
      FromReply pkt n answers (skipName (fuel k) pkt n pos tmp (next fuel))) ↔
      NameInside pkt n pos ∧ (Orbit.Ends (hop pkt n 256) (pos, 0) → P) := by
  have hstart : FillOk 256 (decodeStart pos tmp) := fillOk_start
  have hconsumed : ∀ {fuel s}, decodeRun pkt n pos 256 fuel (decodeStart pos tmp) = (s, true) →
      pos + (decodeEnd s).consumed = fieldsAt pkt n pos := by
    intro fuel s hrun
    have hended : (decodeRun pkt n pos 256 fuel (decodeStart pos tmp)).2 = true := by rw [hrun]
    have hfields := fieldsAt_of_ended hfit hended
    rw [hrun] at hfields
    rw [(decodeEnd_frame s).1]
    exact hfields
  unfold skipName
  constructor
  · intro hall
    refine ⟨always_of_decodeRun pos hfit hstart fun fuel => ?_, fun hends => ?_⟩
    · have hreads := hall fun _ => fuel
      rcases hrun : decodeRun pkt n pos 256 fuel (decodeStart pos tmp) with ⟨s, ended⟩
      rw [hrun] at hreads
      cases ended with
      | false => exact hreads.1
      | true =>
        have hmine := (fromReply_after.mp hreads).1
        rw [(decodeEnd_frame s).2] at hmine
        exact hmine
    · obtain ⟨steps, hsteps⟩ := hends
      have hended := (decodeRun_ended_iff pos steps hfit hstart).mpr hsteps
      rcases hrun : decodeRun pkt n pos 256 steps (decodeStart pos tmp) with ⟨s, ended⟩
      rw [hrun] at hended
      cases hended
      refine (hnext (decodeEnd s) (hconsumed hrun)).mp fun fuel => ?_
      -- enough for this name, and the given iterations for those behind it
      have hgiven := hall (Function.update fuel k steps)
      rw [Function.update_self, hrun] at hgiven
      rw [hfuel fuel (Function.update fuel k steps) (decodeEnd s)
        fun i hi => (Function.update_of_ne (by omega) _ _).symm]
      exact (fromReply_after.mp hgiven).2
  · rintro ⟨hinside, hrest⟩ fuel
    have hreads := decodeRun_reads pos (fuel k) hfit hstart (fun a ha => by cases ha) hinside
    have hended := @decodeRun_ended_iff pkt n 256 (decodeStart pos tmp) pos (fuel k) hfit hstart
    rcases hrun : decodeRun pkt n pos 256 (fuel k) (decodeStart pos tmp) with ⟨s, ended⟩
    rw [hrun] at hreads hended
    cases ended with
    | false => exact fromReply_none (fun _ _ heq => by cases heq) hreads
    | true =>
      refine fromReply_after.mpr ⟨?_, ?_⟩
      · rw [(decodeEnd_frame s).2]
        exact hreads
      · exact (hnext (decodeEnd s) (hconsumed hrun)).mpr (hrest ⟨fuel k, hended.mp rfl⟩) fuel

/-- The walk over the records, from any of them on. -/
theorem fromReply_records (hfit : n + 70000 < 2 ^ 32) (hpos : pos ≤ n + 70000 - 10) :
    (∀ fuel, FromReply pkt n answers (answerRecords fuel pkt n left pos tmp)) ↔
      RecordsOk pkt n answers left pos := by
  have hname : n + 256 < 2 ^ 32 := by omega
  have hover : u32 (pos + 10) = pos + 10 := u32_of_lt (by omega)
  induction left generalizing pos tmp with
  | zero =>
    refine iff_of_true (fun fuel => ?_) trivial
    exact fromReply_none (fun _ _ heq => by cases heq) fun a ha => by cases ha
  | succ left ih =>
    unfold answerRecords RecordsOk
    rw [hover]
    by_cases hroom : pos + 10 ≤ n
    · simp only [if_neg (Nat.not_lt.mpr hroom), hroom, true_imp_iff]
      have hfields := @fieldsAt_le pkt n pos
      refine fromReply_name hname ?_ ?_
      · intro f g s hsame
        simp only [answerRecords_congr hsame]
      · intro s hs
        have hplace : u32 (pos + s.consumed) = fieldsAt pkt n pos := by
          rw [hs]
          exact u32_of_lt (by omega)
        have hrdlen := (word16 pkt (fieldsAt pkt n pos + 8)).isLt
        simp only [hplace, fromReply_fields hfit (by omega : fieldsAt pkt n pos ≤ n)]
        rw [forall_and, forall_const]
        refine and_congr_right fun hin => ?_
        split_ifs with htype
        · exact forall_const _
        · exact ih (by omega) (u32_of_lt (by omega))
    · simp only [if_pos (Nat.lt_of_not_le hroom), hroom, false_imp_iff, iff_true]
      intro fuel
      exact fromReply_none (fun _ _ heq => by cases heq) fun a ha => by cases ha

/-- Whatever a reply holds, the walk reads nothing behind it and returns nothing but the address of
one of its records. -/
def AnswersFromReply (pkt : Nat → BitVec 8) (n : Nat) (id : BitVec 16) : Prop :=
  ∀ fuel tmp, FromReply pkt n (word16 pkt 6).toNat (dnsAnswer fuel pkt n id tmp)

/-- The bounds test before each name is enough exactly for the replies whose names and records are
in order as far as the walk goes. -/
theorem answersFromReply_iff (hn : n ≤ 512) (id : BitVec 16) :
    AnswersFromReply pkt n id ↔ AnswersOk pkt n id := by
  have hheader : 12 ≤ n → ∀ a < 8, a < n := fun _ a _ => by omega
  have hname : n + 256 < 2 ^ 32 := by omega
  have hanswers := (word16 pkt 6).isLt
  have hquestion : ∀ tmp, (∀ fuel : Nat → Nat, FromReply pkt n (word16 pkt 6).toNat
      (skipName (fuel (word16 pkt 6).toNat) pkt n 12 tmp fun s =>
        answerRecords fuel pkt n (word16 pkt 6).toNat (u32 (12 + u32 (s.consumed + 4))) s.out)) ↔
      NameInside pkt n 12 ∧ (Orbit.Ends (hop pkt n 256) (12, 0) →
        RecordsOk pkt n (word16 pkt 6).toNat (word16 pkt 6).toNat (fieldsAt pkt n 12 + 4)) := by
    intro tmp
    refine fromReply_name hname (fun f g s hsame => answerRecords_congr hsame) ?_
    intro s hs
    have hfields := @fieldsAt_le pkt n 12
    have hplace : u32 (12 + u32 (s.consumed + 4)) = fieldsAt pkt n 12 + 4 := by
      unfold u32
      omega
    rw [hplace]
    exact fromReply_records (by omega) (by omega)
  have hnone : ∀ (reads : List Nat) (result : AnswerResult), 12 ≤ n → (∀ a ∈ reads, a < 8) →
      (∀ rdata ip, result ≠ .found rdata ip) →
      FromReply pkt n (word16 pkt 6).toNat { reads := reads, result := result } :=
    fun reads result hwhole hlow hresult =>
      fromReply_none hresult fun a ha => hheader hwhole a (hlow a ha)
  unfold AnswersFromReply
  constructor
  · rintro hall ⟨hwhole, hid, hresponse, hnoError⟩ hsome
    refine (hquestion fun _ => 0).mp fun fuel => ?_
    have hreply := hall fuel fun _ => 0
    unfold dnsAnswer at hreply
    simp only [if_neg (Nat.not_lt.mpr hwhole), hid, hnoError, if_neg hresponse, if_neg hsome,
      ne_eq, not_true_eq_false, if_false] at hreply
    exact (fromReply_after.mp hreply).2
  · intro hok fuel tmp
    unfold dnsAnswer
    dsimp only
    split_ifs with hshort hid hresponse hnoError hnoAnswer
    · exact fromReply_none (fun _ _ heq => by cases heq) fun a ha => by cases ha
    · exact hnone _ _ (by omega) (by decide) fun _ _ heq => by cases heq
    · exact hnone _ _ (by omega) (by decide) fun _ _ heq => by cases heq
    · exact hnone _ _ (by omega) (by decide) fun _ _ heq => by cases heq
    · exact hnone _ _ (by omega) (by decide) fun _ _ heq => by cases heq
    · refine fromReply_after.mpr ⟨fun a ha => hheader (by omega) a ?_, ?_⟩
      · revert a
        decide
      · exact (hquestion tmp).mpr (hok ⟨by omega, not_not.mp hid, hresponse, not_not.mp hnoError⟩
          hnoAnswer) fuel

/-- A reply with the root's address 10.0.0.1; the name of the record is a pointer to the question. -/
def rootReply : List (BitVec 8) :=
  [0x12, 0x34, 0x81, 0x80, 0, 1, 0, 1, 0, 0, 0, 0,
   0, 0, 1, 0, 1,
   0xC0, 0x0C, 0, 1, 0, 1, 0, 0, 0, 60, 0, 4, 10, 0, 0, 1]

theorem answersFromReply_root : AnswersFromReply (rootReply.getD · 0) 33 0x1234 := by
  have hroot : hop (rootReply.getD · 0) 33 256 (12, 0) = none := by decide
  have hpointer : hop (rootReply.getD · 0) 33 256 (17, 0) = some (12, 0) := by decide
  have hname : NameEnds (rootReply.getD · 0) 33 12 13 := NameEnds.root (by decide) (by decide)
  have hname' : NameEnds (rootReply.getD · 0) 33 17 19 :=
    NameEnds.pointer (by decide) (by decide)
  have hinside : NameInside (rootReply.getD · 0) 33 12 :=
    Orbit.always_of_stop hroot (labelInside_of_plain (Or.inr (by decide)))
  refine (answersFromReply_iff (by decide) 0x1234).mpr fun _ _ => ⟨hinside, fun _ => ?_⟩
  rw [fieldsAt_of_nameEnds hname (by decide)]
  refine fun _ => ⟨?_, fun _ => ?_⟩
  · exact (Orbit.always_iff_of_step hpointer).mpr
      ⟨labelInside_of_plain (Or.inl (by decide)), hinside⟩
  · rw [fieldsAt_of_nameEnds hname' (by decide), if_pos (by decide)]
    exact ⟨by decide, ⟨0, by decide, 17, RecordAt.first hname, hname'⟩,
      by decide, by decide, by decide, by decide⟩

/-- The record of a reply that is cut off within its RDLENGTH. -/
theorem not_answersFromReply_cut :
    ¬ ∀ (pkt : Nat → BitVec 8) (n : Nat) (id : BitVec 16), n ≤ 512 →
      AnswersFromReply pkt n id := by
  intro hall
  let reply : List (BitVec 8) := [0x12, 0x34, 0x81, 0x80, 0, 1, 0, 1, 0, 0, 0, 0,
    0, 0, 1, 0, 1, 0, 0, 1, 0, 1, 0, 0, 0, 60, 0]
  have hread := (hall (reply.getD · 0) 27 0x1234 (by decide) (fun _ => 1) (fun _ => 0)).1 27
    (by decide)
  exact Nat.lt_irrefl 27 hread

end PinguinOS.Net
