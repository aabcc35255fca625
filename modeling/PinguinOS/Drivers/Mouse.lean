import Mathlib.Data.BitVec
import Mathlib.Logic.Function.Basic
import PinguinOS.Lib.Run

/-! The mouse: packets, absolute positions and bounds, and where the pointer is. -/
namespace PinguinOS.Drivers

structure MouseEvent where
  dx : Int
  dy : Int
  absX : Int
  absY : Int
  buttons : BitVec 8
  clicked : BitVec 8
  released : BitVec 8

def mouseQueueSize : Nat := 64

/-- The state of the driver; `pkt` has the first `pkt_idx` bytes. -/
structure Mouse where
  pkt : List (BitVec 8)
  mouseX : Int
  mouseY : Int
  mouseButtons : BitVec 8
  prevButtons : BitVec 8
  screenW : Int
  screenH : Int
  evtQueue : Nat → MouseEvent
  qHead : Nat
  qTail : Nat

def mouseInit : Mouse where
  pkt := []
  mouseX := 0
  mouseY := 0
  mouseButtons := 0
  prevButtons := 0
  screenW := 1280
  screenH := 720
  evtQueue _ := ⟨0, 0, 0, 0, 0, 0, 0⟩
  qHead := 0
  qTail := 0

/-- A result of arithmetic on `int32_t` wraps. -/
def wrap32 (v : Int) : Int := v.bmod (2 ^ 32)

/-- The queue keeps one place free. -/
def Mouse.enqueue (m : Mouse) (e : MouseEvent) : Mouse :=
  let next := (m.qHead + 1) % mouseQueueSize
  if next ≠ m.qTail then
    { m with evtQueue := Function.update m.evtQueue m.qHead e, qHead := next }
  else m

/-- A delta of nine bits -/
def packetDelta (sign : Bool) (b : BitVec 8) : Int := b.toNat - if sign then 256 else 0

def clampTo (v size : Int) : Int :=
  let v := if v < 0 then 0 else v
  if v ≥ size then size - 1 else v

/-- The first byte is not a status, or has an overflow. -/
def Discarded (p0 : BitVec 8) : Prop := p0 &&& 0x08 = 0 ∨ p0 &&& 0xC0 ≠ 0

instance {p0 : BitVec 8} : Decidable (Discarded p0) := inferInstanceAs (Decidable (_ ∨ _))

/-- A whole packet, without the log. -/
def Mouse.packet (m : Mouse) (p0 p1 p2 : BitVec 8) : Mouse :=
  if Discarded p0 then m
  else
    let dx := packetDelta (p0 &&& 0x10 ≠ 0) p1
    let dy := -packetDelta (p0 &&& 0x20 ≠ 0) p2
    let buttons := p0 &&& 0x07
    let x := clampTo (wrap32 (m.mouseX + dx)) m.screenW
    let y := clampTo (wrap32 (m.mouseY + dy)) m.screenH
    let m := { m with mouseX := x, mouseY := y, mouseButtons := buttons }
    let m := m.enqueue
      ⟨dx, dy, x, y, buttons, buttons &&& ~~~m.prevButtons, m.prevButtons &&& ~~~buttons⟩
    { m with prevButtons := buttons }

/-- The division rounds to zero. -/
def scaled (v size : Int) : Int := (wrap32 (v * size)).tdiv 65535

def Mouse.setAbsPosition (m : Mouse) (x y : Int) (buttons : BitVec 8) : Mouse :=
  let m := { m with mouseX := scaled x m.screenW, mouseY := scaled y m.screenH }
  let m := m.enqueue ⟨0, 0, m.mouseX, m.mouseY, buttons, buttons &&& ~~~m.prevButtons,
    m.prevButtons &&& ~~~buttons⟩
  { m with mouseButtons := buttons, prevButtons := buttons }

/-- What `vmmouse_cmd` has in EAX, EBX and ECX when there is a packet. -/
structure VmmousePacket where
  status : BitVec 32
  x : BitVec 32
  y : BitVec 32

def vmmouseButtons (status : BitVec 32) : BitVec 8 :=
  (if status &&& 0x20 ≠ 0 then 1 else 0) ||| (if status &&& 0x10 ≠ 0 then 2 else 0) |||
    if status &&& 0x08 ≠ 0 then 4 else 0

/-- `vmmouse_poll`; without a packet it returns `false`. -/
def Mouse.vmmousePoll (m : Mouse) (reply : Option VmmousePacket) : Option Mouse :=
  reply.map fun r => m.setAbsPosition r.x.toInt r.y.toInt (vmmouseButtons r.status)

/-- `ready` is `PS2_STATUS_OUTPUT_FULL`, and `byte` the next one of `PS2_DATA`. -/
def Mouse.irqHandler (m : Mouse) (ready : Bool) (reply : Option VmmousePacket)
    (byte : BitVec 8) : Mouse :=
  if ready then
    match m.vmmousePoll reply with
    | some m => m
    | none =>
      match m.pkt with
      | [p0, p1] => Mouse.packet { m with pkt := [] } p0 p1 byte
      | pkt => { m with pkt := pkt ++ [byte] }
  else m

def Mouse.setBounds (m : Mouse) (width height : Int) : Mouse :=
  { m with screenW := if width > 0 then width else 1, screenH := if height > 0 then height else 1 }

def Mouse.poll (m : Mouse) : Option MouseEvent × Mouse :=
  if m.qHead = m.qTail then (none, m)
  else (some (m.evtQueue m.qTail), { m with qTail := (m.qTail + 1) % mouseQueueSize })

inductive MouseOp
  | irq (ready : Bool) (reply : Option VmmousePacket) (byte : BitVec 8)
  | absPosition (x y : Int) (buttons : BitVec 8)
  | bounds (width height : Int)
  | poll

def Mouse.step (m : Mouse) : MouseOp → Mouse
  | .irq ready reply byte => m.irqHandler ready reply byte
  | .absPosition x y buttons => m.setAbsPosition x y buttons
  | .bounds width height => m.setBounds width height
  | .poll => m.poll.2

/-- A coordinate of an absolute position. -/
def InRange (v : Int) : Prop := 0 ≤ v ∧ v ≤ 65535

/-- Absolute positions up to 65535, and sizes up to 32767. -/
def MouseOp.Valid : MouseOp → Prop
  | .irq _ reply _ => ∀ r ∈ reply, InRange r.x.toInt ∧ InRange r.y.toInt
  | .absPosition x y _ => InRange x ∧ InRange y
  | .bounds width height => width ≤ 32767 ∧ height ≤ 32767
  | .poll => True

/-- How the pointer is moved. -/
inductive Move
  | packet (p0 p1 p2 : BitVec 8)
  | absolute (x y : Int)

/-- What an operation completes. -/
def Mouse.move (m : Mouse) : MouseOp → Option Move
  | .irq ready reply byte =>
    match ready, reply, m.pkt with
    | true, some r, _ => some (.absolute r.x.toInt r.y.toInt)
    | true, none, [p0, p1] => some (.packet p0 p1 byte)
    | _, _, _ => none
  | .absPosition x y _ => some (.absolute x y)
  | .bounds _ _ => none
  | .poll => none

def Mouse.OnScreen (m : Mouse) (x y : Int) : Prop :=
  0 ≤ x ∧ x < m.screenW ∧ 0 ≤ y ∧ y < m.screenH

instance {m : Mouse} {x y : Int} : Decidable (m.OnScreen x y) :=
  inferInstanceAs (Decidable (_ ∧ _ ∧ _ ∧ _))

/-- After a packet or an absolute position the pointer is on the screen, and so is an event that
was queued. -/
structure Shown (m : Mouse) (op : MouseOp) (t : Mouse) : Prop where
  pointer : m.move op ≠ none → t.OnScreen t.mouseX t.mouseY
  event : t.qHead ≠ m.qHead →
    t.OnScreen (t.evtQueue m.qHead).absX (t.evtQueue m.qHead).absY

/-- No absolute coordinate is 65535, and a packet is discarded only while the pointer is on the
screen. -/
def Mouse.Fits (m : Mouse) (op : MouseOp) : Prop :=
  match m.move op with
  | none => True
  | some (.packet p0 _ _) => Discarded p0 → m.OnScreen m.mouseX m.mouseY
  | some (.absolute x y) => x ≠ 65535 ∧ y ≠ 65535

variable {m t : Mouse} {e : MouseEvent} {op : MouseOp} {ops : List MouseOp} {v x y size : Int}
  {p0 p1 p2 buttons : BitVec 8}

/-! The coordinates. -/

theorem clampTo_bounds (hsize : 1 ≤ size) : 0 ≤ clampTo v size ∧ clampTo v size < size := by
  unfold clampTo
  dsimp only
  split_ifs
  all_goals omega

/-- The largest coordinate is one place too far. -/
theorem scaled_bounds (hv : InRange v) (hlo : 1 ≤ size) (hhi : size ≤ 32767) :
    0 ≤ scaled v size ∧ scaled v size ≤ 32767 ∧ (scaled v size < size ↔ v ≠ 65535) := by
  obtain ⟨hzero, hmax⟩ := hv
  have hpos : 0 ≤ v * size := Int.mul_nonneg hzero (by omega)
  have hsmall : v * size ≤ 65535 * 32767 :=
    Int.mul_le_mul hmax hhi (by omega) (by omega)
  have hwrap : wrap32 (v * size) = v * size := Int.bmod_eq_of_le (by omega) (by omega)
  have hdiv : scaled v size = v * size / 65535 := by
    unfold scaled
    rw [hwrap, Int.tdiv_eq_ediv_of_nonneg hpos]
  have hless : v * size / 65535 < size ↔ v ≠ 65535 := by
    rw [Int.ediv_lt_iff_lt_mul (by decide), Int.mul_comm size, Int.mul_lt_mul_right (by omega)]
    omega
  rw [hdiv]
  exact ⟨Int.ediv_nonneg hpos (by decide), by omega, hless⟩

/-! The steps. -/

/-- Sizes and positions stay small. -/
structure Mouse.Small (m : Mouse) : Prop where
  wlo : 1 ≤ m.screenW
  whi : m.screenW ≤ 32767
  hlo : 1 ≤ m.screenH
  hhi : m.screenH ≤ 32767
  xlo : 0 ≤ m.mouseX
  xhi : m.mouseX ≤ 32767
  ylo : 0 ≤ m.mouseY
  yhi : m.mouseY ≤ 32767

/-- What a packet and an absolute position have in common: the pointer is moved, and an event that
is queued has its position. -/
structure MovedTo (m : Mouse) (x y : Int) (t : Mouse) : Prop where
  posX : t.mouseX = x
  posY : t.mouseY = y
  width : t.screenW = m.screenW
  height : t.screenH = m.screenH
  event : t.qHead ≠ m.qHead → (t.evtQueue m.qHead).absX = x ∧ (t.evtQueue m.qHead).absY = y

/-- The queue takes the event or is full. -/
theorem enqueue_moved (hx : e.absX = m.mouseX) (hy : e.absY = m.mouseY) :
    MovedTo m m.mouseX m.mouseY (m.enqueue e) := by
  unfold Mouse.enqueue
  dsimp only
  split
  case isTrue =>
    refine ⟨rfl, rfl, rfl, rfl, fun _ => ?_⟩
    dsimp only
    rw [Function.update_self]
    exact ⟨hx, hy⟩
  case isFalse => exact ⟨rfl, rfl, rfl, rfl, fun h => absurd rfl h⟩

theorem setAbsPosition_moved :
    MovedTo m (scaled x m.screenW) (scaled y m.screenH) (m.setAbsPosition x y buttons) := by
  have h := enqueue_moved
    (m := { m with mouseX := scaled x m.screenW, mouseY := scaled y m.screenH })
    (e := ⟨0, 0, scaled x m.screenW, scaled y m.screenH, buttons, buttons &&& ~~~m.prevButtons,
      m.prevButtons &&& ~~~buttons⟩) rfl rfl
  exact ⟨h.posX, h.posY, h.width, h.height, h.event⟩

theorem packet_discarded (h : Discarded p0) : m.packet p0 p1 p2 = m := if_pos h

theorem packet_moved (m : Mouse) (p1 p2 : BitVec 8) (h : ¬ Discarded p0) : MovedTo m
    (clampTo (wrap32 (m.mouseX + packetDelta (p0 &&& 0x10 ≠ 0) p1)) m.screenW)
    (clampTo (wrap32 (m.mouseY + -packetDelta (p0 &&& 0x20 ≠ 0) p2)) m.screenH)
    (m.packet p0 p1 p2) := by
  unfold Mouse.packet
  rw [if_neg h]
  dsimp only
  generalize clampTo (wrap32 (m.mouseX + packetDelta (p0 &&& 0x10 ≠ 0) p1)) m.screenW = x
  generalize clampTo (wrap32 (m.mouseY + -packetDelta (p0 &&& 0x20 ≠ 0) p2)) m.screenH = y
  have hqueue := enqueue_moved
    (m := { m with mouseX := x, mouseY := y, mouseButtons := p0 &&& 0x07 })
    (e := ⟨packetDelta (p0 &&& 0x10 ≠ 0) p1, -packetDelta (p0 &&& 0x20 ≠ 0) p2, x, y, p0 &&& 0x07,
      (p0 &&& 0x07) &&& ~~~m.prevButtons, m.prevButtons &&& ~~~(p0 &&& 0x07)⟩) rfl rfl
  exact ⟨hqueue.posX, hqueue.posY, hqueue.width, hqueue.height, hqueue.event⟩

/-- Where the pointer is moved to, the event is too. -/
theorem MovedTo.shown_iff (h : MovedTo m x y t) :
    (t.OnScreen t.mouseX t.mouseY ∧ (t.qHead ≠ m.qHead →
      t.OnScreen (t.evtQueue m.qHead).absX (t.evtQueue m.qHead).absY)) ↔ m.OnScreen x y := by
  have hsame (v w : Int) : t.OnScreen v w ↔ m.OnScreen v w := by
    unfold Mouse.OnScreen
    rw [h.width, h.height]
  rw [hsame, h.posX, h.posY]
  refine ⟨And.left, fun hon => ⟨hon, fun hqueued => ?_⟩⟩
  obtain ⟨hx, hy⟩ := h.event hqueued
  rw [hsame, hx, hy]
  exact hon

theorem MovedTo.small (h : MovedTo m x y t) (hm : m.Small) (hx : 0 ≤ x ∧ x ≤ 32767)
    (hy : 0 ≤ y ∧ y ≤ 32767) : t.Small where
  wlo := h.width ▸ hm.wlo
  whi := h.width ▸ hm.whi
  hlo := h.height ▸ hm.hlo
  hhi := h.height ▸ hm.hhi
  xlo := h.posX ▸ hx.1
  xhi := h.posX ▸ hx.2
  ylo := h.posY ▸ hy.1
  yhi := h.posY ▸ hy.2

/-- What an operation does to the pointer and the queue. -/
theorem step_cases (m : Mouse) (op : MouseOp) : (m.move op = none ∧ (m.step op).qHead = m.qHead ∧
      (op.Valid → m.Small → (m.step op).Small)) ∨
    (∃ p0 p1 p2, m.move op = some (.packet p0 p1 p2) ∧
      m.step op = Mouse.packet { m with pkt := [] } p0 p1 p2) ∨
    ∃ x y buttons, m.move op = some (.absolute x y) ∧ m.step op = m.setAbsPosition x y buttons ∧
      (op.Valid → InRange x ∧ InRange y) := by
  cases op with
  | irq ready reply byte =>
    cases ready with
    | false => exact Or.inl ⟨rfl, rfl, fun _ h => h⟩
    | true =>
      cases reply with
      | some r =>
        exact Or.inr (Or.inr ⟨_, _, _, rfl, rfl, fun hvalid => hvalid r rfl⟩)
      | none =>
        rcases hpkt : m.pkt with _ | ⟨p0, _ | ⟨p1, _ | ⟨p2, rest⟩⟩⟩
        case cons.cons.nil =>
          refine Or.inr (Or.inl ⟨p0, p1, byte, ?_, ?_⟩)
          · simp only [Mouse.move, hpkt]
          · simp only [Mouse.step, Mouse.irqHandler, Mouse.vmmousePoll, Option.map_none, if_true, hpkt]
        -- the packet is not complete
        all_goals
          refine Or.inl ⟨?_, ?_, fun _ hm => ?_⟩
          · simp only [Mouse.move, hpkt]
          · simp only [Mouse.step, Mouse.irqHandler, Mouse.vmmousePoll, Option.map_none, if_true, hpkt]
          · simp only [Mouse.step, Mouse.irqHandler, Mouse.vmmousePoll, Option.map_none, if_true, hpkt]
            exact ⟨hm.wlo, hm.whi, hm.hlo, hm.hhi, hm.xlo, hm.xhi, hm.ylo, hm.yhi⟩
  | absPosition x y buttons => exact Or.inr (Or.inr ⟨x, y, buttons, rfl, rfl, id⟩)
  | bounds width height =>
    refine Or.inl ⟨rfl, rfl, fun hvalid hm => ?_⟩
    obtain ⟨hwidth, hheight⟩ := hvalid
    refine ⟨?_, ?_, ?_, ?_, hm.xlo, hm.xhi, hm.ylo, hm.yhi⟩
    all_goals
      unfold Mouse.step Mouse.setBounds
      dsimp only
      split_ifs
      all_goals omega
  | poll =>
    refine Or.inl ⟨rfl, ?_, fun _ hm => ?_⟩
    · unfold Mouse.step Mouse.poll
      dsimp only
      split_ifs
      all_goals rfl
    · unfold Mouse.step Mouse.poll
      dsimp only
      split_ifs
      · exact hm
      · exact ⟨hm.wlo, hm.whi, hm.hlo, hm.hhi, hm.xlo, hm.xhi, hm.ylo, hm.yhi⟩

theorem clampTo_onScreen (hm : m.Small) :
    m.OnScreen (clampTo x m.screenW) (clampTo y m.screenH) := by
  obtain ⟨hxlo, hxhi⟩ := clampTo_bounds (v := x) hm.wlo
  obtain ⟨hylo, hyhi⟩ := clampTo_bounds (v := y) hm.hlo
  exact ⟨hxlo, hxhi, hylo, hyhi⟩

theorem scaled_onScreen_iff (hm : m.Small) (hx : InRange x) (hy : InRange y) :
    m.OnScreen (scaled x m.screenW) (scaled y m.screenH) ↔ x ≠ 65535 ∧ y ≠ 65535 := by
  obtain ⟨hxlo, -, hxiff⟩ := scaled_bounds hx hm.wlo hm.whi
  obtain ⟨hylo, -, hyiff⟩ := scaled_bounds hy hm.hlo hm.hhi
  unfold Mouse.OnScreen
  rw [hxiff, hyiff]
  exact ⟨fun h => ⟨h.2.1, h.2.2.2⟩, fun h => ⟨hxlo, h.1, hylo, h.2⟩⟩

theorem step_small (hvalid : op.Valid) (hm : m.Small) : (m.step op).Small := by
  rcases step_cases m op with ⟨-, -, hsmall⟩ | ⟨p0, p1, p2, -, hstep⟩ |
    ⟨x, y, buttons, -, hstep, hrange⟩
  · exact hsmall hvalid hm
  · have hm' : ({ m with pkt := [] } : Mouse).Small :=
      ⟨hm.wlo, hm.whi, hm.hlo, hm.hhi, hm.xlo, hm.xhi, hm.ylo, hm.yhi⟩
    rw [hstep]
    by_cases hdiscarded : Discarded p0
    · rw [packet_discarded hdiscarded]
      exact hm'
    · obtain ⟨hxlo, hxhi, hylo, hyhi⟩ := clampTo_onScreen
        (x := wrap32 (m.mouseX + packetDelta (p0 &&& 0x10 ≠ 0) p1))
        (y := wrap32 (m.mouseY + -packetDelta (p0 &&& 0x20 ≠ 0) p2)) hm
      have hw := hm.whi
      have hh := hm.hhi
      exact (packet_moved _ _ _ hdiscarded).small hm' ⟨hxlo, by dsimp only; omega⟩
        ⟨hylo, by dsimp only; omega⟩
  · obtain ⟨hx, hy⟩ := hrange hvalid
    obtain ⟨hxlo, hxhi, -⟩ := scaled_bounds hx hm.wlo hm.whi
    obtain ⟨hylo, hyhi, -⟩ := scaled_bounds hy hm.hlo hm.hhi
    rw [hstep]
    exact setAbsPosition_moved.small hm ⟨hxlo, hxhi⟩ ⟨hylo, hyhi⟩

/-- One step shows the pointer exactly when it meets the condition. -/
theorem shown_iff (hvalid : op.Valid) (hm : m.Small) :
    Shown m op (m.step op) ↔ m.Fits op := by
  have hparts (hmove : m.move op ≠ none) : Shown m op (m.step op) ↔
      ((m.step op).OnScreen (m.step op).mouseX (m.step op).mouseY ∧
        ((m.step op).qHead ≠ m.qHead → (m.step op).OnScreen ((m.step op).evtQueue m.qHead).absX
          ((m.step op).evtQueue m.qHead).absY)) :=
    ⟨fun h => ⟨h.pointer hmove, h.event⟩, fun h => ⟨fun _ => h.1, h.2⟩⟩
  unfold Mouse.Fits
  rcases step_cases m op with ⟨hmove, hqueue, -⟩ | ⟨p0, p1, p2, hmove, hstep⟩ |
    ⟨x, y, buttons, hmove, hstep, hrange⟩
  · rw [hmove]
    exact iff_of_true ⟨fun h => absurd hmove h, fun h => absurd hqueue h⟩ trivial
  · rw [hparts (by rw [hmove]; exact Option.some_ne_none _), hmove, hstep]
    dsimp only
    by_cases hdiscarded : Discarded p0
    · rw [packet_discarded hdiscarded]
      exact ⟨fun h _ => h.1, fun h => ⟨h hdiscarded, fun hne => absurd rfl hne⟩⟩
    · have hmoved := packet_moved { m with pkt := [] } p1 p2 hdiscarded
      refine iff_of_true (hmoved.shown_iff.mpr ?_) fun h => absurd h hdiscarded
      exact clampTo_onScreen (m := m) hm
  · obtain ⟨hx, hy⟩ := hrange hvalid
    rw [hparts (by rw [hmove]; exact Option.some_ne_none _), hmove, hstep,
      setAbsPosition_moved.shown_iff]
    exact scaled_onScreen_iff hm hx hy

/-! The runs. -/

def Mouse.next (m : Mouse) (op : MouseOp) : Option Mouse := some (m.step op)

theorem mouseInit_small : mouseInit.Small := by
  refine ⟨?_, ?_, ?_, ?_, ?_, ?_, ?_, ?_⟩
  all_goals decide

/-- In a run every packet and every absolute position leaves the pointer and its event on the
screen exactly when every step meets the condition. -/
theorem pointer_on_screen_iff (hvalid : ∀ op ∈ ops, op.Valid) :
    Run.EveryStep Mouse.next Shown mouseInit ops ↔
      Run.EveryStep Mouse.next (fun m op _ => m.Fits op) mouseInit ops := by
  refine Run.everyStep_iff_of_forall hvalid (fun m op t hop hm ht => ?_) mouseInit_small
  obtain rfl := Option.some.inj ht
  exact ⟨shown_iff hop hm, fun _ => step_small hop hm⟩

/-- The screen is made smaller, and a packet moves the pointer into it. -/
def shrunk : List MouseOp :=
  [.absPosition 65534 0 0, .bounds 640 480, .irq true none 0x08, .irq true none 0, .irq true none 0]

theorem pointer_on_screen_iff_shrunk : Run.EveryStep Mouse.next Shown mouseInit shrunk ↔
    Run.EveryStep Mouse.next (fun m op _ => m.Fits op) mouseInit shrunk :=
  pointer_on_screen_iff (by
    unfold shrunk
    simp only [List.forall_mem_cons, List.not_mem_nil, false_imp_iff, implies_true, and_true]
    unfold MouseOp.Valid InRange
    decide)

/-- The largest absolute coordinate is the width of the screen. -/
theorem not_forall_pointer_on_screen : ¬ ∀ ops : List MouseOp, (∀ op ∈ ops, op.Valid) →
    Run.EveryStep Mouse.next Shown mouseInit ops := by
  intro h
  have hvalid : ∀ op ∈ [MouseOp.absPosition 65535 0 0], op.Valid := by
    rw [List.forall_mem_singleton]
    unfold MouseOp.Valid InRange
    decide
  obtain ⟨hshown, -⟩ := h _ hvalid _ rfl
  have hon := hshown.pointer (Option.some_ne_none _)
  have hwide := hon.2.1
  exact absurd hwide (by decide)

end PinguinOS.Drivers
