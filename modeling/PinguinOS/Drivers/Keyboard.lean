import PinguinOS.Lib.Ring
import Mathlib.Data.List.ReduceOption
import Mathlib.Tactic.Common
import Mathlib.Data.BitVec
import Mathlib.Logic.Function.Basic
import PinguinOS.Klib.Numbers

/-! The keyboard: its interrupt handler, the ring buffer, and the polls that empty it. -/
namespace PinguinOS.Drivers

open Klib (ch)

def kbdBufferSize : Nat := 64
def ps2StatusObf : BitVec 8 := 1 <<< 0

def keyLctrl : BitVec 8 := 0x1D
def keyLshift : BitVec 8 := 0x2A
def keyRshift : BitVec 8 := 0x36
def keyLalt : BitVec 8 := 0x38
def keyCaps : BitVec 8 := 0x3A

def kbdModShift : BitVec 8 := 1 <<< 0
def kbdModCtrl : BitVec 8 := 1 <<< 1
def kbdModAlt : BitVec 8 := 1 <<< 2
def kbdModCaps : BitVec 8 := 1 <<< 3

inductive KbdLayout
  | us
  | de
  deriving DecidableEq

/-- `kbd_event_t` -/
structure KbdEvent where
  scancode : BitVec 8
  ascii : BitVec 8
  modifiers : BitVec 8
  released : Bool
  deriving DecidableEq

/-- `us_map`, up to its last entry; the others are zero. -/
def usMap : List (BitVec 8 × BitVec 8) :=
  [(0, 0), (0, 0), (ch '1', ch '!'), (ch '2', ch '@'), (ch '3', ch '#'), (ch '4', ch '$'),
    (ch '5', ch '%'), (ch '6', ch '^'), (ch '7', ch '&'), (ch '8', ch '*'), (ch '9', ch '('),
    (ch '0', ch ')'), (ch '-', ch '_'), (ch '=', ch '+'), (0x08, 0x08), (0x09, 0x09),
    (ch 'q', ch 'Q'), (ch 'w', ch 'W'), (ch 'e', ch 'E'), (ch 'r', ch 'R'), (ch 't', ch 'T'),
    (ch 'y', ch 'Y'), (ch 'u', ch 'U'), (ch 'i', ch 'I'), (ch 'o', ch 'O'), (ch 'p', ch 'P'),
    (ch '[', 0x7B), (ch ']', 0x7D), (0x0A, 0x0A), (0, 0), (ch 'a', ch 'A'), (ch 's', ch 'S'),
    (ch 'd', ch 'D'), (ch 'f', ch 'F'), (ch 'g', ch 'G'), (ch 'h', ch 'H'), (ch 'j', ch 'J'),
    (ch 'k', ch 'K'), (ch 'l', ch 'L'), (ch ';', ch ':'), (0x27, 0x22), (0x60, ch '~'), (0, 0),
    (0x5C, ch '|'), (ch 'z', ch 'Z'), (ch 'x', ch 'X'), (ch 'c', ch 'C'), (ch 'v', ch 'V'),
    (ch 'b', ch 'B'), (ch 'n', ch 'N'), (ch 'm', ch 'M'), (ch ',', ch '<'), (ch '.', ch '>'),
    (ch '/', ch '?'), (0, 0), (ch '*', ch '*'), (0, 0), (ch ' ', ch ' '), (0, 0)]

/-- `de_map` -/
def deMap : List (BitVec 8 × BitVec 8) :=
  [(0, 0), (0, 0), (ch '1', ch '!'), (ch '2', 0x22), (ch '3', 0), (ch '4', ch '$'),
    (ch '5', ch '%'), (ch '6', ch '&'), (ch '7', ch '/'), (ch '8', ch '('), (ch '9', ch ')'),
    (ch '0', ch '='), (0, 0), (0, 0), (0x08, 0x08), (0x09, 0x09), (ch 'q', ch 'Q'),
    (ch 'w', ch 'W'), (ch 'e', ch 'E'), (ch 'r', ch 'R'), (ch 't', ch 'T'), (ch 'z', ch 'Z'),
    (ch 'u', ch 'U'), (ch 'i', ch 'I'), (ch 'o', ch 'O'), (ch 'p', ch 'P'), (0, 0),
    (ch '+', ch '*'), (0x0A, 0x0A), (0, 0), (ch 'a', ch 'A'), (ch 's', ch 'S'), (ch 'd', ch 'D'),
    (ch 'f', ch 'F'), (ch 'g', ch 'G'), (ch 'h', ch 'H'), (ch 'j', ch 'J'), (ch 'k', ch 'K'),
    (ch 'l', ch 'L'), (0, 0), (0, 0), (ch '^', 0), (0, 0), (ch '#', 0x27), (ch 'y', ch 'Y'),
    (ch 'x', ch 'X'), (ch 'c', ch 'C'), (ch 'v', ch 'V'), (ch 'b', ch 'B'), (ch 'n', ch 'N'),
    (ch 'm', ch 'M'), (ch ',', ch ';'), (ch '.', ch ':'), (ch '-', ch '_'), (0, 0),
    (ch '*', ch '*'), (0, 0), (ch ' ', ch ' '), (0, 0)]

structure Keyboard where
  buf : Nat → KbdEvent
  head : BitVec 32
  tail : BitVec 32
  modifiers : BitVec 8
  layout : KbdLayout

/-- `(i + 1) % KBD_BUFFER_SIZE` -/
def kbdNext (i : BitVec 32) : BitVec 32 := (i + 1) % BitVec.ofNat 32 kbdBufferSize

/-- `buf_push`: an event that finds the buffer full is dropped. -/
def bufPush (s : Keyboard) (ev : KbdEvent) : Keyboard :=
  let next := kbdNext s.tail
  if next ≠ s.head then
    { s with buf := Function.update s.buf s.tail.toNat ev, tail := next }
  else s

/-- The character of a key; keys without one have zero. -/
def kbdAscii (layout : KbdLayout) (modifiers sc : BitVec 8) : BitVec 8 :=
  let map := if layout = .de then deMap else usMap
  let shifted := modifiers &&& kbdModShift ≠ 0 ∨ modifiers &&& kbdModCaps ≠ 0
  let entry := map.getD sc.toNat (0, 0)
  if shifted then entry.2 else entry.1

/-- A modifier that is held as long as its key is down. -/
def holdModifier (s : Keyboard) (bit : BitVec 8) (released : Bool) : Keyboard :=
  { s with modifiers := if released then s.modifiers &&& ~~~bit else s.modifiers ||| bit }

/-- `kbd_irq_handler`; `status` and `data` are what it reads from the two ports. -/
def kbdIrqHandler (s : Keyboard) (status data : BitVec 8) : Keyboard :=
  if status &&& ps2StatusObf = 0 then s
  else
    let released := data &&& 0x80 ≠ 0
    let sc := data &&& 0x7F
    if sc = keyLshift ∨ sc = keyRshift then holdModifier s kbdModShift released
    else if sc = keyLctrl then holdModifier s kbdModCtrl released
    else if sc = keyLalt then holdModifier s kbdModAlt released
    else if sc = keyCaps then
      if released then s else { s with modifiers := s.modifiers ^^^ kbdModCaps }
    else if released then s
    else bufPush s ⟨sc, kbdAscii s.layout s.modifiers sc, s.modifiers, false⟩

/-- The state that `kbd_init` sets up. -/
def kbdInit (s : Keyboard) : Keyboard :=
  { s with head := 0, tail := 0, modifiers := 0, layout := .us }

def kbdHasInput (s : Keyboard) : Bool := s.head ≠ s.tail

/-! The handler can interrupt `kbd_poll` between any two of its memory accesses. -/

/-- How far `buf_pop` is: it has found an event, or copied it. -/
inductive PopPc
  | start
  | found
  | copied (ev : KbdEvent)

/-- `results` are the events that the polls have returned, or that there was none. -/
structure KbdSystem where
  kbd : Keyboard
  pc : PopPc
  results : List (Option KbdEvent)

inductive KbdAction
  | irq (status data : BitVec 8)
  | setLayout (layout : KbdLayout)
  | poll

/-- The next access of `buf_pop`. -/
def bufPopStep (s : KbdSystem) : KbdSystem :=
  match s.pc with
  | .start =>
    if s.kbd.head = s.kbd.tail then { s with results := s.results ++ [none] }
    else { s with pc := .found }
  | .found => { s with pc := .copied (s.kbd.buf s.kbd.head.toNat) }
  | .copied ev =>
    { kbd := { s.kbd with head := kbdNext s.kbd.head }
      pc := .start
      results := s.results ++ [some ev] }

def kbdStep (s : KbdSystem) : KbdAction → KbdSystem
  | .irq status data => { s with kbd := kbdIrqHandler s.kbd status data }
  | .setLayout layout => { s with kbd := { s.kbd with layout := layout } }
  | .poll => bufPopStep s

/-! No key is lost, doubled or reordered, and its modifiers follow from the keys before it,
wherever the interrupts fall into the polls. -/

/-- The key of a code, which the top bit is not part of. -/
def codeKey (c : BitVec 8) : BitVec 8 := c &&& 0x7F

/-- The last code of one of the keys is a press. -/
def heldDown (keys : List (BitVec 8)) (codes : List (BitVec 8)) : Bool :=
  (codes.filter fun c => codeKey c ∈ keys).getLast?.any fun c => c &&& 0x80 = 0

/-- The presses of Caps Lock are odd in number. -/
def capsOn (codes : List (BitVec 8)) : Bool := (codes.filter fun c => c = keyCaps).length % 2 = 1

def modifierBits (shift ctrl alt caps : Bool) : BitVec 8 :=
  (if shift then kbdModShift else 0) ||| (if ctrl then kbdModCtrl else 0) |||
    (if alt then kbdModAlt else 0) ||| (if caps then kbdModCaps else 0)

/-- The modifiers after the codes that the keyboard has sent. -/
def heldModifiers (codes : List (BitVec 8)) : BitVec 8 :=
  modifierBits (heldDown [keyLshift, keyRshift] codes) (heldDown [keyLctrl] codes)
    (heldDown [keyLalt] codes) (capsOn codes)

/-- The press of a key that is no modifier. -/
def KeyPress (c : BitVec 8) : Prop :=
  c &&& 0x80 = 0 ∧ c ∉ [keyLshift, keyRshift, keyLctrl, keyLalt, keyCaps]

instance {c : BitVec 8} : Decidable (KeyPress c) := inferInstanceAs (Decidable (_ ∧ _))

inductive PollPhase
  | start
  | found
  | copied

/-- A queue of at most 63 events. `codes` are the bytes from the keyboard; of the `accepted` events
the polls have returned the first `taken`. -/
structure KbdSpec where
  codes : List (BitVec 8)
  layout : KbdLayout
  accepted : List KbdEvent
  taken : Nat
  phase : PollPhase
  results : List (Option KbdEvent)

/-- What a press stands for. -/
def KbdSpec.event (a : KbdSpec) (c : BitVec 8) : KbdEvent :=
  ⟨c, kbdAscii a.layout (heldModifiers a.codes) c, heldModifiers a.codes, false⟩

def KbdSpec.code (a : KbdSpec) (c : BitVec 8) : KbdSpec :=
  { a with
    codes := a.codes ++ [c]
    accepted := if KeyPress c ∧ a.accepted.length < a.taken + 63 then a.accepted ++ [a.event c]
      else a.accepted }

/-- An event is taken with the last access of a poll. -/
def KbdSpec.poll (a : KbdSpec) : KbdSpec :=
  match a.phase with
  | .start =>
    if a.taken < a.accepted.length then { a with phase := .found }
    else { a with results := a.results ++ [none] }
  | .found => { a with phase := .copied }
  | .copied =>
    { a with taken := a.taken + 1, phase := .start, results := a.results ++ [a.accepted[a.taken]?] }

def KbdSpec.step (a : KbdSpec) : KbdAction → KbdSpec
  | .irq status data => if status &&& ps2StatusObf = 0 then a else a.code data
  | .setLayout layout => { a with layout := layout }
  | .poll => a.poll

def KbdSpec.start : KbdSpec := ⟨[], .us, [], 0, .start, []⟩

variable {c bit : BitVec 8} {codes keys : List (BitVec 8)} {s : Keyboard} {a : KbdSpec} {t : KbdSystem}
  {shift ctrl alt caps down : Bool}

theorem heldDown_append (h : codeKey c ∈ keys) :
    heldDown keys (codes ++ [c]) = decide (c &&& 0x80 = 0) := by
  unfold heldDown
  rw [List.filter_append, List.filter_cons_of_pos (by simpa using h), List.filter_nil,
    List.getLast?_concat]
  rfl

theorem heldDown_append_other (h : codeKey c ∉ keys) :
    heldDown keys (codes ++ [c]) = heldDown keys codes := by
  unfold heldDown
  rw [List.filter_append, List.filter_cons_of_neg (by simpa using h), List.filter_nil,
    List.append_nil]

theorem capsOn_append : capsOn (codes ++ [keyCaps]) = !capsOn codes := by
  unfold capsOn
  rw [List.filter_append, List.length_append, List.filter_cons_of_pos (by simp),
    List.filter_nil, List.length_singleton, ← decide_not]
  refine decide_eq_decide.mpr ?_
  omega

theorem capsOn_append_other (h : c ≠ keyCaps) : capsOn (codes ++ [c]) = capsOn codes := by
  unfold capsOn
  rw [List.filter_append, List.filter_cons_of_neg (by simpa using h), List.filter_nil,
    List.append_nil]

theorem modifierBits_shift : (if down then modifierBits shift ctrl alt caps ||| kbdModShift
    else modifierBits shift ctrl alt caps &&& ~~~kbdModShift) = modifierBits down ctrl alt caps := by
  cases down <;> cases shift <;> cases ctrl <;> cases alt <;> cases caps <;> rfl

theorem modifierBits_ctrl : (if down then modifierBits shift ctrl alt caps ||| kbdModCtrl
    else modifierBits shift ctrl alt caps &&& ~~~kbdModCtrl) = modifierBits shift down alt caps := by
  cases down <;> cases shift <;> cases ctrl <;> cases alt <;> cases caps <;> rfl

theorem modifierBits_alt : (if down then modifierBits shift ctrl alt caps ||| kbdModAlt
    else modifierBits shift ctrl alt caps &&& ~~~kbdModAlt) = modifierBits shift ctrl down caps := by
  cases down <;> cases shift <;> cases ctrl <;> cases alt <;> cases caps <;> rfl

theorem modifierBits_caps : modifierBits shift ctrl alt caps ^^^ kbdModCaps =
    modifierBits shift ctrl alt !caps := by
  cases shift <;> cases ctrl <;> cases alt <;> cases caps <;> rfl

/-- The keys with a case of their own. -/
theorem code_cases (c : BitVec 8) :
    (codeKey c = keyLshift ∨ codeKey c = keyRshift) ∨ codeKey c = keyLctrl ∨
      codeKey c = keyLalt ∨ codeKey c = keyCaps ∨
      codeKey c ∉ [keyLshift, keyRshift, keyLctrl, keyLalt, keyCaps] := by
  by_cases h : codeKey c ∈ [keyLshift, keyRshift, keyLctrl, keyLalt, keyCaps]
  · simp only [List.mem_cons, List.not_mem_nil, or_false] at h
    rcases h with h | h | h | h | h
    · exact .inl (.inl h)
    · exact .inl (.inr h)
    · exact .inr (.inl h)
    · exact .inr (.inr (.inl h))
    · exact .inr (.inr (.inr (.inl h)))
  · exact .inr (.inr (.inr (.inr h)))

theorem press_code : ∀ c : BitVec 8, c &&& 0x80 = 0 → codeKey c = c := by decide +kernel

theorem caps_code : ∀ c : BitVec 8, codeKey c = keyCaps → (c &&& 0x80 = 0 ↔ c = keyCaps) := by
  decide +kernel

theorem ne_caps (h : codeKey c ≠ keyCaps) : c ≠ keyCaps := by
  rintro rfl
  exact h rfl

/-- One code more: a modifier's key. -/
theorem heldModifiers_shift (h : codeKey c = keyLshift ∨ codeKey c = keyRshift) :
    heldModifiers (codes ++ [c]) = if c &&& 0x80 = 0 then heldModifiers codes ||| kbdModShift
      else heldModifiers codes &&& ~~~kbdModShift := by
  have hown : codeKey c ∈ [keyLshift, keyRshift] := by simpa using h
  have hctrl : codeKey c ∉ [keyLctrl] := by rcases h with h | h <;> rw [h] <;> decide
  have halt : codeKey c ∉ [keyLalt] := by rcases h with h | h <;> rw [h] <;> decide
  have hcaps : codeKey c ≠ keyCaps := by rcases h with h | h <;> rw [h] <;> decide
  unfold heldModifiers
  rw [heldDown_append hown, heldDown_append_other hctrl, heldDown_append_other halt,
    capsOn_append_other (ne_caps hcaps), ← modifierBits_shift]
  exact if_congr decide_eq_true_iff rfl rfl

theorem heldModifiers_ctrl (h : codeKey c = keyLctrl) :
    heldModifiers (codes ++ [c]) = if c &&& 0x80 = 0 then heldModifiers codes ||| kbdModCtrl
      else heldModifiers codes &&& ~~~kbdModCtrl := by
  have hown : codeKey c ∈ [keyLctrl] := List.mem_singleton.mpr h
  have hshift : codeKey c ∉ [keyLshift, keyRshift] := h ▸ by decide
  have halt : codeKey c ∉ [keyLalt] := h ▸ by decide
  have hcaps : codeKey c ≠ keyCaps := h ▸ by decide
  unfold heldModifiers
  rw [heldDown_append hown, heldDown_append_other hshift, heldDown_append_other halt,
    capsOn_append_other (ne_caps hcaps), ← modifierBits_ctrl]
  exact if_congr decide_eq_true_iff rfl rfl

theorem heldModifiers_alt (h : codeKey c = keyLalt) :
    heldModifiers (codes ++ [c]) = if c &&& 0x80 = 0 then heldModifiers codes ||| kbdModAlt
      else heldModifiers codes &&& ~~~kbdModAlt := by
  have hown : codeKey c ∈ [keyLalt] := List.mem_singleton.mpr h
  have hshift : codeKey c ∉ [keyLshift, keyRshift] := h ▸ by decide
  have hctrl : codeKey c ∉ [keyLctrl] := h ▸ by decide
  have hcaps : codeKey c ≠ keyCaps := h ▸ by decide
  unfold heldModifiers
  rw [heldDown_append hown, heldDown_append_other hshift, heldDown_append_other hctrl,
    capsOn_append_other (ne_caps hcaps), ← modifierBits_alt]
  exact if_congr decide_eq_true_iff rfl rfl

theorem heldModifiers_caps (h : codeKey c = keyCaps) :
    heldModifiers (codes ++ [c]) =
      if c &&& 0x80 = 0 then heldModifiers codes ^^^ kbdModCaps else heldModifiers codes := by
  have hshift : codeKey c ∉ [keyLshift, keyRshift] := h ▸ by decide
  have hctrl : codeKey c ∉ [keyLctrl] := h ▸ by decide
  have halt : codeKey c ∉ [keyLalt] := h ▸ by decide
  unfold heldModifiers
  rw [heldDown_append_other hshift, heldDown_append_other hctrl, heldDown_append_other halt]
  by_cases hpress : c &&& 0x80 = 0
  · rw [if_pos hpress, (caps_code c h).mp hpress, capsOn_append, modifierBits_caps]
  · rw [if_neg hpress, capsOn_append_other fun hc => hpress ((caps_code c h).mpr hc)]

/-- Any other key changes none of them. -/
theorem heldModifiers_other
    (h : codeKey c ∉ [keyLshift, keyRshift, keyLctrl, keyLalt, keyCaps]) :
    heldModifiers (codes ++ [c]) = heldModifiers codes := by
  simp only [List.mem_cons, List.not_mem_nil, or_false, not_or] at h
  obtain ⟨hl, hr, hctrl, halt, hcaps⟩ := h
  have hshift : codeKey c ∉ [keyLshift, keyRshift] := by
    rw [List.mem_cons, List.mem_singleton]
    exact not_or.mpr ⟨hl, hr⟩
  unfold heldModifiers
  rw [heldDown_append_other hshift, heldDown_append_other (fun hmem => hctrl (List.mem_singleton.mp hmem)),
    heldDown_append_other (fun hmem => halt (List.mem_singleton.mp hmem)), capsOn_append_other (ne_caps hcaps)]

theorem bufPush_modifiers {ev : KbdEvent} : (bufPush s ev).modifiers = s.modifiers := by
  unfold bufPush
  dsimp only
  split
  · rfl
  · rfl

theorem keep_modifiers {m : BitVec 8} (h : s.modifiers = m) : s = { s with modifiers := m } := by
  subst h
  rfl

theorem bufPush_layout {ev : KbdEvent} : (bufPush s ev).layout = s.layout := by
  unfold bufPush
  dsimp only
  split
  · rfl
  · rfl

/-- All that the handler does with a code. -/
theorem kbdIrqHandler_eq {status : BitVec 8} (hobf : ¬ status &&& ps2StatusObf = 0)
    (hs : s.modifiers = heldModifiers codes) :
    kbdIrqHandler s status c =
      { (if KeyPress c then
          bufPush s ⟨c, kbdAscii s.layout (heldModifiers codes) c, heldModifiers codes, false⟩
        else s) with modifiers := heldModifiers (codes ++ [c]) } := by
  unfold kbdIrqHandler
  rw [if_neg hobf]
  dsimp only
  rw [show c &&& 0x7F = codeKey c from rfl]
  have hmod : codeKey c ∈ [keyLshift, keyRshift, keyLctrl, keyLalt, keyCaps] → ¬ KeyPress c := by
    intro hmem hpress
    rw [press_code c hpress.1] at hmem
    exact hpress.2 hmem
  rcases code_cases c with h | h | h | h | h
  · rw [if_pos h, if_neg (hmod (by rcases h with h | h <;> rw [h] <;> decide)), heldModifiers_shift h]
    unfold holdModifier
    rw [hs]
    simp
  · rw [if_neg (by rw [h]; decide), if_pos h, if_neg (hmod (by rw [h]; decide)), heldModifiers_ctrl h]
    unfold holdModifier
    rw [hs]
    simp
  · rw [if_neg (by rw [h]; decide), if_neg (by rw [h]; decide), if_pos h,
      if_neg (hmod (by rw [h]; decide)), heldModifiers_alt h]
    unfold holdModifier
    rw [hs]
    simp
  · rw [if_neg (by rw [h]; decide), if_neg (by rw [h]; decide), if_neg (by rw [h]; decide), if_pos h,
      if_neg (hmod (by rw [h]; decide)), heldModifiers_caps h, ← hs]
    by_cases hpress : c &&& 0x80 = 0
    · rw [if_neg (fun hne => hne hpress), if_pos hpress]
    · rw [if_pos hpress, if_neg hpress]
  · have hother : heldModifiers (codes ++ [c]) = heldModifiers codes := heldModifiers_other h
    have hmem := h
    simp only [List.mem_cons, List.not_mem_nil, or_false, not_or] at hmem
    obtain ⟨hl, hr, hctrl, halt, hcaps⟩ := hmem
    rw [if_neg (not_or.mpr ⟨hl, hr⟩), if_neg hctrl, if_neg halt, if_neg hcaps, hother]
    by_cases hpress : c &&& 0x80 = 0
    · have hkey : KeyPress c := ⟨hpress, press_code c hpress ▸ h⟩
      rw [if_neg (fun hne => hne hpress), if_pos hkey, press_code c hpress, hs]
      exact keep_modifiers (bufPush_modifiers.trans hs)
    · rw [if_pos hpress, if_neg fun hkey => hpress hkey.1, ← hs]

/-- A poll that has found an event will return the next one. -/
inductive PhaseAgrees (next : Option KbdEvent) : PopPc → PollPhase → Prop
  | start : PhaseAgrees next .start .start
  | found (h : next ≠ none) : PhaseAgrees next .found .found
  | copied {ev : KbdEvent} (h : next = some ev) : PhaseAgrees next (.copied ev) .copied

/-- The ring buffer holds the events that are still to be taken. -/
structure Queued (s : Keyboard) (accepted : List KbdEvent) (taken : Nat) : Prop where
  taken_le : taken ≤ accepted.length
  room : accepted.length ≤ taken + 63
  head : s.head.toNat = taken % kbdBufferSize
  tail : s.tail.toNat = accepted.length % kbdBufferSize
  contents : Ring.contents s.buf kbdBufferSize taken (accepted.length - taken) =
    accepted.drop taken

/-- The driver is in the state of the queue. -/
structure KbdAgrees (t : KbdSystem) (a : KbdSpec) : Prop where
  modifiers : t.kbd.modifiers = heldModifiers a.codes
  layout : t.kbd.layout = a.layout
  queued : Queued t.kbd a.accepted a.taken
  phase : PhaseAgrees a.accepted[a.taken]? t.pc a.phase
  results : t.results = a.results

variable {accepted : List KbdEvent} {taken : Nat} {ev : KbdEvent}

theorem kbdNext_toNat {i : BitVec 32} {n : Nat} (h : i.toNat = n % kbdBufferSize) :
    (kbdNext i).toNat = (n + 1) % kbdBufferSize := by
  have hlt : i.toNat < 64 := h ▸ Nat.mod_lt n (by decide)
  have hsum : (i + 1).toNat = i.toNat + 1 := by
    rw [BitVec.toNat_add]
    exact Nat.mod_eq_of_lt (by change i.toNat + 1 < 4294967296; omega)
  unfold kbdNext
  rw [BitVec.toNat_umod, hsum, h]
  exact Nat.mod_add_mod n 64 1

theorem Queued.full_iff (h : Queued s accepted taken) :
    kbdNext s.tail ≠ s.head ↔ accepted.length < taken + 63 := by
  have hle := h.taken_le
  have hroom := h.room
  have hnext := kbdNext_toNat h.tail
  constructor
  · intro hne
    rcases Nat.lt_or_ge accepted.length (taken + 63) with hlt | hge
    · exact hlt
    · have hlen : accepted.length + 1 = taken + kbdBufferSize := by
        change accepted.length + 1 = taken + 64
        omega
      refine absurd (BitVec.eq_of_toNat_eq ?_) hne
      rw [hnext, h.head, hlen, Nat.add_mod_right]
  · intro hlt heq
    rw [heq, h.head] at hnext
    have hslot : taken % kbdBufferSize ≠ (accepted.length + 1) % kbdBufferSize :=
      Ring.slot_ne (by omega) (by change accepted.length + 1 < taken + 64; omega)
    exact hslot hnext

theorem Queued.push (h : Queued s accepted taken) :
    Queued (bufPush s ev) (if accepted.length < taken + 63 then accepted ++ [ev] else accepted)
      taken := by
  unfold bufPush
  dsimp only
  by_cases hlt : accepted.length < taken + 63
  · have hle := h.taken_le
    have hlen : (accepted ++ [ev]).length = accepted.length + 1 := by
      rw [List.length_append, List.length_singleton]
    rw [if_pos (h.full_iff.mpr hlt), if_pos hlt]
    refine
      { taken_le := ?_, room := ?_, head := h.head, tail := ?_, contents := ?_ }
    · rw [hlen]
      omega
    · rw [hlen]
      omega
    · rw [hlen]
      exact kbdNext_toNat h.tail
    · have hcount : accepted.length + 1 - taken = accepted.length - taken + 1 := by omega
      have hslot : accepted.length % kbdBufferSize =
          (taken + (accepted.length - taken)) % kbdBufferSize := by
        rw [Nat.add_sub_cancel' hle]
      rw [hlen, hcount, h.tail, hslot]
      rw [Ring.contents_push (by change _ < 64; omega), h.contents,
        List.drop_append_of_le_length hle]
  · rw [if_neg fun hne => hlt (h.full_iff.mp hne), if_neg hlt]
    exact h

/-- The first event of the ring buffer is the next to be taken. -/
theorem Queued.next (h : Queued s accepted taken) (hlt : taken < accepted.length) :
    accepted[taken]? = some (s.buf s.head.toNat) := by
  have hcount : accepted.length - taken = accepted.length - taken - 1 + 1 := by omega
  have hcontents := h.contents
  rw [hcount, Ring.contents_cons] at hcontents
  have hfirst : (accepted.drop taken)[0]? = some (s.buf (taken % kbdBufferSize)) := by
    rw [← hcontents]
    rfl
  rw [List.getElem?_drop, Nat.add_zero] at hfirst
  rw [hfirst, h.head]

theorem Queued.pop (h : Queued s accepted taken) (hlt : taken < accepted.length) :
    Queued { s with head := kbdNext s.head } accepted (taken + 1) where
  taken_le := hlt
  room := by
    have hroom := h.room
    omega
  head := kbdNext_toNat h.head
  tail := h.tail
  contents := by
    have hcount : accepted.length - taken = accepted.length - (taken + 1) + 1 := by omega
    have hcontents := h.contents
    rw [hcount, Ring.contents_cons] at hcontents
    have htail := congrArg List.tail hcontents
    rw [List.tail_drop] at htail
    exact htail

/-- The buffer is empty when all events have been taken. -/
theorem Queued.empty_iff (h : Queued s accepted taken) :
    s.head = s.tail ↔ ¬ taken < accepted.length := by
  have hle := h.taken_le
  have hroom := h.room
  constructor
  · intro heq hlt
    have hslot : taken % kbdBufferSize ≠ accepted.length % kbdBufferSize :=
      Ring.slot_ne hlt (by change accepted.length < taken + 64; omega)
    exact hslot (h.head.symm.trans ((congrArg BitVec.toNat heq).trans h.tail))
  · intro hnot
    have hlen : taken = accepted.length := by omega
    exact BitVec.eq_of_toNat_eq (h.head.trans (hlen ▸ h.tail.symm))

theorem KbdAgrees.code (h : KbdAgrees t a) {status : BitVec 8}
    (hobf : ¬ status &&& ps2StatusObf = 0) :
    KbdAgrees { t with kbd := kbdIrqHandler t.kbd status c } (a.code c) := by
  have hqueued : Queued (if KeyPress c then bufPush t.kbd (a.event c) else t.kbd)
      (a.code c).accepted a.taken := by
    unfold KbdSpec.code
    dsimp only
    by_cases hkey : KeyPress c
    · rw [if_pos hkey]
      rw [if_congr (and_iff_right hkey) rfl rfl]
      exact h.queued.push
    · rw [if_neg hkey, if_neg fun hand => hkey hand.1]
      exact h.queued
  rw [kbdIrqHandler_eq hobf h.modifiers, h.layout]
  refine
    { modifiers := rfl, layout := ?_, queued := ?_, phase := ?_, results := h.results }
  · change (if KeyPress c then bufPush t.kbd (a.event c) else t.kbd).layout = a.layout
    split
    · exact bufPush_layout.trans h.layout
    · exact h.layout
  · exact ⟨hqueued.taken_le, hqueued.room, hqueued.head, hqueued.tail, hqueued.contents⟩
  · -- a found event stays the next one
    have hphase := h.phase
    have hnext : ∀ ev, a.accepted[a.taken]? = some ev →
        (a.code c).accepted[a.taken]? = some ev := by
      intro ev hev
      unfold KbdSpec.code
      dsimp only
      split
      · rw [List.getElem?_append_left (List.getElem?_eq_some_iff.mp hev).1, hev]
      · exact hev
    change PhaseAgrees (a.code c).accepted[a.taken]? t.pc a.phase
    generalize t.pc = pc at hphase ⊢
    generalize a.phase = phase at hphase ⊢
    cases hphase with
    | start => exact .start
    | found hne =>
      obtain ⟨ev, hev⟩ := Option.ne_none_iff_exists'.mp hne
      exact .found (by rw [hnext ev hev]; exact Option.some_ne_none ev)
    | copied hev => exact .copied (hnext _ hev)

theorem KbdAgrees.poll (h : KbdAgrees t a) : KbdAgrees (bufPopStep t) a.poll := by
  obtain ⟨hmodifiers, hlayout, hqueued, hphase, hresults⟩ := h
  obtain ⟨kbd, pc, results⟩ := t
  obtain ⟨codes, layout, accepted, taken, phase, results'⟩ := a
  dsimp only at hmodifiers hlayout hqueued hphase hresults
  cases hphase with
  | start =>
    unfold bufPopStep KbdSpec.poll
    dsimp only
    by_cases hlt : taken < accepted.length
    · rw [if_neg fun heq => hqueued.empty_iff.mp heq hlt, if_pos hlt]
      refine ⟨hmodifiers, hlayout, hqueued, .found ?_, hresults⟩
      rw [List.getElem?_eq_getElem hlt]
      exact Option.some_ne_none _
    · rw [if_pos (hqueued.empty_iff.mpr hlt), if_neg hlt]
      exact ⟨hmodifiers, hlayout, hqueued, .start, congrArg (· ++ [none]) hresults⟩
  | found hne =>
    have hlt : taken < accepted.length := by
      rcases Nat.lt_or_ge taken accepted.length with hlt | hge
      · exact hlt
      · exact absurd (List.getElem?_eq_none hge) hne
    exact ⟨hmodifiers, hlayout, hqueued, .copied (hqueued.next hlt), hresults⟩
  | copied hev =>
    have hlt : taken < accepted.length := (List.getElem?_eq_some_iff.mp hev).1
    refine ⟨hmodifiers, hlayout, hqueued.pop hlt, .start, ?_⟩
    change results ++ _ = results' ++ [accepted[taken]?]
    rw [hev]
    exact congrArg (· ++ _) hresults

theorem KbdAgrees.step (h : KbdAgrees t a) (action : KbdAction) :
    KbdAgrees (kbdStep t action) (a.step action) := by
  cases action with
  | irq status data =>
    unfold kbdStep KbdSpec.step
    dsimp only
    by_cases hobf : status &&& ps2StatusObf = 0
    · have hsame : kbdIrqHandler t.kbd status data = t.kbd := if_pos hobf
      rw [if_pos hobf, hsame]
      exact h
    · rw [if_neg hobf]
      exact h.code hobf
  | setLayout layout =>
    obtain ⟨hle, hroom, hhead, htail, hcontents⟩ := h.queued
    exact ⟨h.modifiers, rfl, ⟨hle, hroom, hhead, htail, hcontents⟩, h.phase, h.results⟩
  | poll => exact h.poll

/-- The results of the polls are the taken events, and nothing else. -/
def KbdSpec.Delivers (a : KbdSpec) : Prop := a.results.reduceOption = a.accepted.take a.taken

theorem KbdSpec.Delivers.step (h : a.Delivers) (hle : a.taken ≤ a.accepted.length)
    (action : KbdAction) : (a.step action).Delivers := by
  cases action with
  | irq status data =>
    unfold KbdSpec.step
    dsimp only
    split
    · exact h
    · unfold KbdSpec.Delivers KbdSpec.code
      dsimp only
      split
      · rw [List.take_append_of_le_length hle]
        exact h
      · exact h
  | setLayout layout => exact h
  | poll =>
    obtain ⟨codes, layout, accepted, taken, phase, results⟩ := a
    unfold KbdSpec.Delivers at h ⊢
    cases phase with
    | start =>
      unfold KbdSpec.step KbdSpec.poll
      dsimp only
      split
      · exact h
      · change (results ++ [none]).reduceOption = accepted.take taken
        rw [List.reduceOption_append, h]
        exact List.append_nil _
    | found => exact h
    | copied =>
      change (results ++ [accepted[taken]?]).reduceOption = accepted.take (taken + 1)
      rw [List.reduceOption_append, h, List.take_add_one]
      cases accepted[taken]? with
      | none => rfl
      | some ev => rfl

end PinguinOS.Drivers
