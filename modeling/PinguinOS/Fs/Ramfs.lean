import PinguinOS.Fs.ReadBounds
import PinguinOS.Lib.WriteLog
import PinguinOS.Mm.HeapKeeps

/-! A ramfs file: its buffer in the kernel heap, and what its reads find after any writes. -/
namespace PinguinOS.Fs

open Mm (u32 sub32 int32 Heap Block HeapCall HeapOk touch alignUp krealloc kmalloc headerSize maxRequest)

def ramfsBlockSize : Nat := 4096
def ramfsMaxSize : Nat := 16 * 1024 * 1024

/-- What reads and writes use of a `ramfs_node_t`. -/
structure RamfsNode where
  data : Nat
  allocSize : Nat
  size : Nat
  size_lt : size < 2 ^ 32

/-- A node that `ramfs_new_node` has zeroed. -/
def RamfsNode.zero : RamfsNode := ⟨0, 0, 0, emptySize_lt⟩

/-- The bytes at `data`. -/
def RamfsNode.buffer (node : RamfsNode) (h : Heap) : Buffer := fun i => h.bytes (node.data + i)

/-- The node as `ramfs_read` sees it. -/
def RamfsNode.file (node : RamfsNode) (h : Heap) : RamfsFile where
  data := if node.data = 0 then none else some (node.buffer h)
  size := node.size
  size_lt := node.size_lt

/-- `ramfs_read` with the pages that its `memcpy` touches. -/
def ramfsReadNode (h : Heap) (node : RamfsNode) (offset size : Nat) :
    Option (ReadResult × Heap) := do
  let result := ramfsRead (node.file h) offset size
  let vm ← touch h.vm (node.data + offset) result.2.length
  some (result, { h with vm := vm })

/-- The part of `ramfs_write` that makes the buffer larger: whether it could, and the node. -/
def ramfsGrow (h : Heap) (node : RamfsNode) (needed : Nat) : Option (Bool × Heap × RamfsNode) :=
  if needed > node.allocSize then do
    let newSize := alignUp needed ramfsBlockSize
    let (newData, h) ← krealloc h node.data newSize
    if newData = 0 then some (false, h, node)
    else some (true, h, { node with data := newData, allocSize := newSize })
  else some (true, h, node)

theorem u32_lt (n : Nat) : u32 n < 2 ^ 32 := Nat.mod_lt _ (by decide)

/-- `if (offset + size > node->size) node->size = offset + size` -/
def RamfsNode.extend (node : RamfsNode) (stop : Nat) : RamfsNode :=
  if u32 stop > node.size then { node with size := u32 stop, size_lt := u32_lt stop } else node

/-- An access to `len` bytes from `addr` on; behind the last address it goes on at 0. -/
def touchWrap (vm : Mm.Vm) (addr len : Nat) : Option Mm.Vm := do
  let vm ← touch vm addr (min len (2 ^ 32 - addr))
  touch vm 0 (len - (2 ^ 32 - addr))

/-- `memcpy` to `dst`; behind the last address it goes on at 0. -/
def storeWrap (bytes : Nat → BitVec 8) (dst : Nat) (buf : List (BitVec 8)) : Nat → BitVec 8 :=
  fun a => if a < 2 ^ 32 ∧ sub32 a dst < buf.length then buf.getD (sub32 a dst) 0 else bytes a

def ramfsWrite (h : Heap) (node : RamfsNode) (offset : Nat) (buf : List (BitVec 8)) :
    Option (Int × Heap × RamfsNode) :=
  let needed := u32 (offset + buf.length)
  if needed > ramfsMaxSize then some (-1, h, node)
  else do
    let (grown, h, node) ← ramfsGrow h node needed
    if !grown then some (-1, h, node)
    else do
      let dst := u32 (node.data + offset)
      let vm ← touchWrap h.vm dst buf.length
      some (int32 buf.length, { h with vm := vm, bytes := storeWrap h.bytes dst buf },
        node.extend (offset + buf.length))

/-- The kernel heap, a file in it, and the writes to the file that succeeded, newest first. -/
structure RamfsSys where
  heap : Heap
  node : RamfsNode
  log : WriteLog.Log (BitVec 8)

/-- Reads and writes of the file, and what other code does with the heap meanwhile. -/
inductive RamfsAct
  | write (offset : Nat) (buf : List (BitVec 8))
  | read (offset size : Nat)
  | heap (call : HeapCall)
  | poke (addr : Nat) (value : BitVec 8)

/-- Other code passes pointers of its own, and sizes that leave room for the header. -/
def RamfsSys.Others (s : RamfsSys) (call : HeapCall) : Prop :=
  s.heap.Allowed call ∧ call.size ≤ maxRequest ∧
    (call.pointer = 0 ∨ call.pointer ≠ s.node.data)

/-- The byte is not in the buffer of the file. -/
def RamfsSys.Outside (s : RamfsSys) (addr : Nat) : Prop :=
  addr < s.node.data ∨ s.node.data + s.node.allocSize ≤ addr

instance {s : RamfsSys} {call : HeapCall} : Decidable (s.Others call) :=
  inferInstanceAs (Decidable (_ ∧ _ ∧ (_ ∨ _)))

instance {s : RamfsSys} {addr : Nat} : Decidable (s.Outside addr) :=
  inferInstanceAs (Decidable (_ ∨ _))

def RamfsSys.step (s : RamfsSys) : RamfsAct → Option RamfsSys
  | .write offset buf => do
    let (result, heap, node) ← ramfsWrite s.heap s.node offset buf
    some ⟨heap, node, if result < 0 then s.log else (offset, buf) :: s.log⟩
  | .read offset size => do
    let (_, heap) ← ramfsReadNode s.heap s.node offset size
    some { s with heap := heap }
  | .heap call =>
    if s.Others call then (s.heap.exec call).map fun r => { s with heap := r.2 } else none
  | .poke addr value =>
    if s.Outside addr then some { s with heap := { s.heap with
      bytes := Function.update s.heap.bytes addr value } }
    else none

/-- The file is as large as the largest end of a write, and every read finds what was last
written, and zero where nothing was. -/
structure RamfsSys.Consistent (s : RamfsSys) : Prop where
  size : s.node.size = WriteLog.size s.log
  reads : ∀ offset size, ramfsRead (s.node.file s.heap) offset size =
    readTotal (bytesAt (WriteLog.content 0 s.log) offset
      (min size (WriteLog.size s.log - offset)))

/-- The end of a write does not wrap and stays in the 16 MB. -/
def RamfsAct.InRange : RamfsAct → Prop
  | .write offset buf => offset + buf.length ≤ ramfsMaxSize
  | _ => True

/-- Between the end of the file and the start of a write that gets its buffer, the buffer holds
zeros. -/
def RamfsSys.GapClear (s : RamfsSys) : RamfsAct → Prop
  | .write offset buf => ∀ heap node,
    ramfsGrow s.heap s.node (u32 (offset + buf.length)) = some (true, heap, node) →
      ∀ i, s.node.size ≤ i → i < offset → node.buffer heap i = 0
  | _ => True

/-- A write that starts inside the file, or at its end, has no gap in front of it. -/
theorem gapClear_of_le {s : RamfsSys} {offset : Nat} {buf : List (BitVec 8)}
    (h : offset ≤ s.node.size) : s.GapClear (.write offset buf) := by
  intro heap node _ i hlo hhi
  exact absurd (Nat.lt_of_lt_of_le hhi h) (Nat.not_lt.mpr hlo)

/-- The file ends inside its buffer, and the buffer is inside a block that is in use. -/
structure RamfsNode.Backed (node : RamfsNode) (h : Heap) : Prop where
  size_le : node.size ≤ node.allocSize
  block : node.data = 0 ∧ node.allocSize = 0 ∨
    ∃ b ∈ h.blocks, b.free = false ∧ node.data = b.addr + headerSize ∧ node.allocSize ≤ b.size

structure RamfsSys.Sound (s : RamfsSys) : Prop where
  heap : HeapOk (· ≤ ·) s.heap
  backed : s.node.Backed s.heap

variable {h h' : Heap} {node node' : RamfsNode} {s t : RamfsSys} {a : RamfsAct}
  {needed offset size : Nat} {grown : Bool} {buf : List (BitVec 8)}

theorem alignUp_block (hneeded : needed ≤ ramfsMaxSize) :
    needed ≤ alignUp needed ramfsBlockSize ∧ alignUp needed ramfsBlockSize ≤ ramfsMaxSize := by
  have halign : alignUp needed ramfsBlockSize = u32 (needed + 4095) / 4096 * 4096 :=
    Mm.alignUp_page
  unfold ramfsMaxSize at hneeded ⊢
  rw [halign, Mm.u32_of_lt (by omega)]
  omega

/-- A write that ends before the last address does not wrap. -/
theorem storeWrap_eq {bytes : Nat → BitVec 8} {dst : Nat} (hend : dst + buf.length < 2 ^ 32) :
    storeWrap bytes dst buf = WriteLog.store 0 bytes dst buf := by
  funext a
  unfold storeWrap WriteLog.store sub32 u32
  by_cases hin : dst ≤ a ∧ a < dst + buf.length
  · have hsub : (a + 2 ^ 32 - dst) % 2 ^ 32 = a - dst := by omega
    rw [if_pos hin, hsub, if_pos ⟨by omega, by omega⟩]
  · rw [if_neg hin, if_neg]
    omega

theorem touchWrap_eq {vm : Mm.Vm} {addr len : Nat} (hend : addr + len < 2 ^ 32) :
    touchWrap vm addr len = touch vm addr len := by
  unfold touchWrap
  rw [Nat.min_eq_left (by omega), Nat.sub_eq_zero_of_le (by omega)]
  cases touch vm addr len with
  | none => rfl
  | some vm => rfl

/-- The buffer ends inside the heap. -/
theorem RamfsNode.Backed.stop_lt (hn : node.Backed h) (hok : HeapOk (· ≤ ·) h) :
    node.data + node.allocSize < 2 ^ 32 := by
  rcases hn.block with ⟨hdata, halloc⟩ | ⟨b, hb, -, hdata, hfits⟩
  · omega
  · have hbounds := (hok.bounds hb).2
    have hlimit := hok.limit
    unfold Block.stop at hbounds
    unfold Mm.kheapMax at hlimit
    omega

/-- What happens to other blocks leaves the file and its bytes. -/
theorem RamfsNode.Backed.keeps (hn : node.Backed h)
    (hkeeps : ∀ b ∈ h.blocks, b.free = false → node.data = b.addr + headerSize →
      b ∈ h'.blocks ∧ Mm.SameBytes b h h') :
    node.Backed h' ∧ ∀ i < node.size, node.buffer h' i = node.buffer h i := by
  have hle := hn.size_le
  rcases hn.block with ⟨hdata, halloc⟩ | ⟨b, hb, hused, hdata, hfits⟩
  · exact ⟨⟨hle, Or.inl ⟨hdata, halloc⟩⟩, fun i hi => by omega⟩
  · obtain ⟨hb', hsame⟩ := hkeeps b hb hused hdata
    refine ⟨⟨hle, Or.inr ⟨b, hb', hused, hdata, hfits⟩⟩, ?_⟩
    intro i hi
    unfold RamfsNode.buffer
    rw [hdata]
    exact hsame i (by omega)

/-- A larger buffer holds the bytes of the file; without one the file is as it was. -/
theorem ramfsGrow_keeps (hok : HeapOk (· ≤ ·) h) (hn : node.Backed h)
    (hneeded : needed ≤ ramfsMaxSize) (hgrow : ramfsGrow h node needed = some (grown, h', node')) :
    HeapOk (· ≤ ·) h' ∧ node'.Backed h' ∧ node'.size = node.size ∧
      (grown = true → needed ≤ node'.allocSize) ∧
      ∀ i < node.allocSize, node'.buffer h' i = node.buffer h i := by
  have hle := hn.size_le
  unfold ramfsGrow at hgrow
  split_ifs at hgrow with hmore
  case neg =>
    cases hgrow
    exact ⟨hok, hn, rfl, fun _ => Nat.not_lt.mp hmore, fun _ _ => rfl⟩
  obtain ⟨⟨newData, g⟩, hrealloc, hrest⟩ := Option.bind_eq_some_iff.mp hgrow
  obtain ⟨hlarge, hmost⟩ := alignUp_block hneeded
  have hsize : alignUp needed ramfsBlockSize ≠ 0 := by omega
  have hrequest : alignUp needed ramfsBlockSize ≤ maxRequest := by
    unfold ramfsMaxSize at hmost
    unfold maxRequest
    omega
  dsimp only at hrest
  rcases hn.block with ⟨hdata, halloc⟩ | ⟨b, hb, hused, hdata, hfits⟩
  · rw [hdata] at hrealloc
    have hmalloc : kmalloc h (alignUp needed ramfsBlockSize) = some (newData, g) := hrealloc
    obtain ⟨hg, hserved⟩ := Mm.kmalloc_keeps hok hsize hrequest hmalloc
    split_ifs at hrest with hnull
    · cases hrest
      exact ⟨hg, ⟨hle, Or.inl ⟨hdata, halloc⟩⟩, rfl, Bool.noConfusion, fun i hi => by omega⟩
    · cases hrest
      obtain ⟨c, hc, hcused, hptr, henough, -⟩ := hserved.resolve_left hnull
      refine ⟨hg, ⟨?_, Or.inr ⟨c, hc, hcused, hptr, henough⟩⟩, rfl, fun _ => hlarge, ?_⟩
      · show node.size ≤ alignUp needed ramfsBlockSize
        omega
      · intro i hi
        omega
  · rw [hdata] at hrealloc
    obtain ⟨hg, hserved⟩ := Mm.krealloc_keeps hok hb hused hsize hrequest hrealloc
    split_ifs at hrest with hnull
    · cases hrest
      rcases hserved with ⟨-, hb', hsame⟩ | ⟨c, -, -, hptr, -⟩
      · refine ⟨hg, ⟨hle, Or.inr ⟨b, hb', hused, hdata, hfits⟩⟩, rfl, Bool.noConfusion, ?_⟩
        intro i hi
        unfold RamfsNode.buffer
        rw [hdata]
        exact hsame i (by omega)
      · unfold headerSize at hptr
        omega
    · cases hrest
      obtain ⟨c, hc, hcused, hptr, henough, hcopy⟩ :=
        hserved.resolve_left fun hno => hnull hno.1
      refine ⟨hg, ⟨?_, Or.inr ⟨c, hc, hcused, hptr, henough⟩⟩, rfl, fun _ => hlarge, ?_⟩
      · show node.size ≤ alignUp needed ramfsBlockSize
        omega
      · intro i hi
        unfold RamfsNode.buffer
        rw [hdata]
        exact hcopy i (by omega)

theorem RamfsNode.Backed.data_ne (hn : node.Backed h) (hpos : 0 < node.size) : node.data ≠ 0 := by
  have hle := hn.size_le
  rcases hn.block with ⟨-, halloc⟩ | ⟨b, -, -, hdata, -⟩
  · omega
  · rw [hdata]
    unfold headerSize
    omega

/-- All reads are right exactly when the size and the bytes up to it are. -/
theorem consistent_iff (hs : s.Sound) : s.Consistent ↔
    s.node.size = WriteLog.size s.log ∧
      WriteLog.Holds 0 (s.node.buffer s.heap) s.log := by
  constructor
  · rintro ⟨hsize, hreads⟩
    refine ⟨hsize, ?_⟩
    intro i hi
    have hdata := hs.backed.data_ne (by omega)
    have hread := hreads i 1
    unfold ramfsRead RamfsNode.file at hread
    dsimp only at hread
    rw [if_neg hdata] at hread
    dsimp only at hread
    have hone : min 1 (WriteLog.size s.log - i) = 1 := by omega
    rw [if_neg (by omega), hsize, hone] at hread
    exact List.head_eq_of_cons_eq (Prod.mk.inj hread).2
  · rintro ⟨hsize, hholds⟩
    refine ⟨hsize, ?_⟩
    intro offset size
    unfold ramfsRead RamfsNode.file
    dsimp only
    by_cases hend : s.node.size ≤ offset
    · have hnone : min size (WriteLog.size s.log - offset) = 0 := by omega
      rw [hnone]
      split_ifs
      · rfl
      · rfl
    · have hdata := hs.backed.data_ne (by omega)
      rw [if_neg hdata]
      dsimp only
      rw [if_neg hend, hsize]
      congr 1
      refine bytesAt_congr ?_
      intro i hi
      exact hholds (offset + i) (by omega)

theorem extend_size {stop : Nat} (hstop : stop < 2 ^ 32) :
    (node.extend stop).size = max node.size stop ∧ (node.extend stop).data = node.data ∧
      (node.extend stop).allocSize = node.allocSize := by
  have hu : u32 stop = stop := Mm.u32_of_lt hstop
  unfold RamfsNode.extend
  split_ifs with hmore
  · refine ⟨?_, rfl, rfl⟩
    show u32 stop = max node.size stop
    omega
  · exact ⟨by omega, rfl, rfl⟩

/-- A write fails with the file as it was, or stores its bytes in a buffer that holds the file. -/
theorem ramfsWrite_cases {result : Int} (hok : HeapOk (· ≤ ·) h) (hn : node.Backed h)
    (hrange : offset + buf.length ≤ ramfsMaxSize)
    (hwrite : ramfsWrite h node offset buf = some (result, h', node')) :
    ∃ grown g m, ramfsGrow h node (u32 (offset + buf.length)) = some (grown, g, m) ∧
      HeapOk (· ≤ ·) h' ∧ node'.Backed h' ∧ m.size = node.size ∧
      (∀ i < node.allocSize, m.buffer g i = node.buffer h i) ∧
      (grown = false ∧ result = -1 ∧ h' = g ∧ node' = m ∨
        grown = true ∧ result = buf.length ∧ node'.size = max node.size (offset + buf.length) ∧
          ∀ i, node'.buffer h' i = WriteLog.store 0 (m.buffer g) offset buf i) := by
  have hlt : offset + buf.length < 2 ^ 32 := by
    unfold ramfsMaxSize at hrange
    omega
  have hneeded : u32 (offset + buf.length) ≤ ramfsMaxSize := by
    rw [Mm.u32_of_lt hlt]
    exact hrange
  unfold ramfsWrite at hwrite
  dsimp only at hwrite
  rw [if_neg (Nat.not_lt.mpr hneeded)] at hwrite
  obtain ⟨⟨grown, g, m⟩, hgrow, hrest⟩ := Option.bind_eq_some_iff.mp hwrite
  obtain ⟨hg, hm, hsize, hroom, hsame⟩ := ramfsGrow_keeps hok hn hneeded hgrow
  refine ⟨grown, g, m, hgrow, ?_⟩
  cases grown with
  | false =>
    cases hrest
    exact ⟨hg, hm, hsize, hsame, Or.inl ⟨rfl, rfl, rfl, rfl⟩⟩
  | true =>
    obtain ⟨vm, -, hend⟩ := Option.bind_eq_some_iff.mp hrest
    cases hend
    obtain ⟨hextent, hdata, halloc⟩ := @extend_size m _ hlt
    have hfits := hroom rfl
    rw [Mm.u32_of_lt hlt] at hfits
    have hle := hm.size_le
    have hstop := hm.stop_lt hg
    have hdst : u32 (m.data + offset) = m.data + offset := Mm.u32_of_lt (by omega)
    have hlen : int32 buf.length = buf.length := by
      unfold ramfsMaxSize at hrange
      exact Mm.int32_of_lt (by omega)
    refine ⟨hg, ⟨?_, ?_⟩, hsize, hsame, Or.inr ⟨rfl, hlen, ?_, ?_⟩⟩
    · rw [hextent, halloc]
      exact Nat.max_le.mpr ⟨hle, hfits⟩
    · rw [hdata, halloc]
      exact hm.block
    · rw [hextent, hsize]
    · intro i
      unfold RamfsNode.buffer
      dsimp only
      rw [hdata, hdst, storeWrap_eq (by omega)]
      exact WriteLog.store_at

/-- A step that leaves the node and the bytes of the file. -/
theorem RamfsSys.Sound.quiet (hs : s.Sound) (hc : s.Consistent) (hok : HeapOk (· ≤ ·) h)
    (hn : s.node.Backed h)
    (hsame : ∀ i < s.node.size, s.node.buffer h i = s.node.buffer s.heap i) :
    RamfsSys.Sound { s with heap := h } ∧ RamfsSys.Consistent { s with heap := h } := by
  obtain ⟨hsize, hholds⟩ := (consistent_iff hs).mp hc
  have hsound : RamfsSys.Sound { s with heap := h } := ⟨hok, hn⟩
  refine ⟨hsound, (consistent_iff hsound).mpr ⟨hsize, hholds.congr ?_⟩⟩
  intro i hi
  exact hsame i (hsize ▸ hi)

theorem read_quiet (hs : s.Sound) (hc : s.Consistent) (hstep : s.step (.read offset size) = some t) :
    t.Sound ∧ t.Consistent := by
  obtain ⟨⟨result, heap⟩, hread, hend⟩ := Option.bind_eq_some_iff.mp hstep
  obtain ⟨vm, -, hheap⟩ := Option.bind_eq_some_iff.mp hread
  cases hheap
  cases hend
  exact hs.quiet (h := { s.heap with vm := vm }) hc hs.heap ⟨hs.backed.size_le, hs.backed.block⟩
    fun _ _ => rfl

/-- The other calls on the heap do not name the buffer. -/
theorem heap_quiet {call : HeapCall} (hs : s.Sound) (hc : s.Consistent)
    (hstep : s.step (.heap call) = some t) : t.Sound ∧ t.Consistent := by
  unfold RamfsSys.step at hstep
  dsimp only at hstep
  split_ifs at hstep with hother
  obtain ⟨⟨p, heap⟩, hexec, hend⟩ := Option.map_eq_some_iff.mp hstep
  cases hend
  obtain ⟨hallowed, hlt, hpointer⟩ := hother
  have hok := hs.heap.exec hlt (Or.inl fun _ _ hle => hle) hexec
  obtain ⟨hn, hsame⟩ := hs.backed.keeps fun b hb hused hdata => by
    refine Mm.exec_keeps hs.heap hb hused hlt hallowed ?_ hexec
    rw [← hdata]
    rcases hpointer with hnull | hne
    · rw [hnull, hdata]
      unfold headerSize
      omega
    · exact hne
  exact hs.quiet hc hok hn hsame

theorem poke_quiet {addr : Nat} {value : BitVec 8} (hs : s.Sound) (hc : s.Consistent)
    (hstep : s.step (.poke addr value) = some t) : t.Sound ∧ t.Consistent := by
  unfold RamfsSys.step at hstep
  dsimp only at hstep
  split_ifs at hstep with houtside
  cases hstep
  have hle := hs.backed.size_le
  refine hs.quiet (h := { s.heap with bytes := Function.update s.heap.bytes addr value }) hc hs.heap
    ⟨hs.backed.size_le, hs.backed.block⟩ fun i hi => ?_
  refine Function.update_of_ne ?_ _ _
  rcases houtside with hlo | hhi
  · omega
  · omega

theorem write_step (hrange : offset + buf.length ≤ ramfsMaxSize) (hs : s.Sound) (hc : s.Consistent)
    (hstep : s.step (.write offset buf) = some t) :
    t.Sound ∧ (s.GapClear (.write offset buf) ↔ t.Consistent) := by
  obtain ⟨hsize, hholds⟩ := (consistent_iff hs).mp hc
  obtain ⟨⟨result, heap, node'⟩, hwrite, hend⟩ := Option.bind_eq_some_iff.mp hstep
  cases hend
  obtain ⟨grown, g, m, hgrow, hok, hn, hmsize, hsame, hcases⟩ :=
    ramfsWrite_cases hs.heap hs.backed hrange hwrite
  refine ⟨⟨hok, hn⟩, ?_⟩
  have hsound : ∀ log, RamfsSys.Sound ⟨heap, node', log⟩ := fun _ => ⟨hok, hn⟩
  rw [consistent_iff (hsound _)]
  have hm : WriteLog.Holds 0 (m.buffer g) s.log := by
    refine hholds.congr ?_
    intro i hi
    exact hsame i (Nat.lt_of_lt_of_le (hsize ▸ hi) hs.backed.size_le)
  dsimp only
  rcases hcases with ⟨rfl, rfl, rfl, rfl⟩ | ⟨rfl, rfl, hnew, hstored⟩
  · rw [if_pos (by decide)]
    refine iff_of_true ?_ ⟨hmsize.trans hsize, hm⟩
    intro heap node hno
    rw [hgrow] at hno
    cases hno
  · rw [if_neg (by omega)]
    have hlast : node'.size = WriteLog.size ((offset, buf) :: s.log) := by
      rw [hnew, hsize]
      rfl
    have hbuffer : node'.buffer heap = WriteLog.store 0 (m.buffer g) offset buf :=
      funext hstored
    rw [and_iff_right hlast, hbuffer, WriteLog.holds_store_iff hm, ← hsize]
    constructor
    · intro hgap
      exact hgap g m hgrow
    · intro hgap g' m' hgrow'
      rw [hgrow] at hgrow'
      cases hgrow'
      exact hgap

/-- One step keeps the file consistent exactly when it finds zeros in front of what it writes. -/
theorem consistent_step (ha : a.InRange) (hs : s.Sound) (hc : s.Consistent)
    (hstep : s.step a = some t) : t.Sound ∧ (s.GapClear a ↔ t.Consistent) := by
  cases a with
  | read offset size =>
    obtain ⟨hsound, hcons⟩ := read_quiet hs hc hstep
    exact ⟨hsound, iff_of_true trivial hcons⟩
  | heap call =>
    obtain ⟨hsound, hcons⟩ := heap_quiet hs hc hstep
    exact ⟨hsound, iff_of_true trivial hcons⟩
  | poke addr value =>
    obtain ⟨hsound, hcons⟩ := poke_quiet hs hc hstep
    exact ⟨hsound, iff_of_true trivial hcons⟩
  | write offset buf => exact write_step ha hs hc hstep

/-- A run of reads, writes and other heap calls keeps the file consistent exactly when each write
that succeeds finds zeros between the end of the file and its start. -/
theorem ramfs_consistent_iff {vm : Mm.Vm} {acts : List RamfsAct} (hinit : Mm.heapInit vm = some h)
    (hrange : ∀ a ∈ acts, a.InRange) :
    Run.EveryState RamfsSys.step RamfsSys.Consistent ⟨h, .zero, []⟩ acts ↔
      Run.EveryStep RamfsSys.step (fun s a _ => s.GapClear a) ⟨h, .zero, []⟩ acts := by
  have hsound : RamfsSys.Sound ⟨h, .zero, []⟩ :=
    ⟨Mm.shape_heapInit hinit, Nat.le_refl 0, Or.inl ⟨rfl, rfl⟩⟩
  refine Run.everyState_iff hrange ?_ hsound
    ((consistent_iff hsound).mpr ⟨rfl, WriteLog.holds_nil⟩)
  intro s a t ha hs hc hstep
  exact consistent_step ha hs hc hstep

theorem ramfs_consistent_smallVm : ∃ h, Mm.heapInit (Mm.smallVm fun _ => false) = some h ∧
    (Run.EveryState RamfsSys.step RamfsSys.Consistent ⟨h, .zero, []⟩
        [.write 0 [1, 2], .write 1 [3], .read 0 2] ↔
      Run.EveryStep RamfsSys.step (fun s a _ => s.GapClear a) ⟨h, .zero, []⟩
        [.write 0 [1, 2], .write 1 [3], .read 0 2]) := by
  obtain ⟨h, hinit⟩ := Option.isSome_iff_exists.mp Mm.smallVm_init
  refine ⟨h, hinit, ramfs_consistent_iff hinit ?_⟩
  intro a ha
  rcases List.mem_cons.mp ha with rfl | ha
  · show 0 + 2 ≤ ramfsMaxSize
    decide
  rcases List.mem_cons.mp ha with rfl | ha
  · show 1 + 1 ≤ ramfsMaxSize
    decide
  · rw [List.mem_singleton.mp ha]
    trivial

/-- Other code leaves 0xFF in eight bytes that it frees, and the file gets them with its first
write, which starts at 1. -/
def staleActs : List RamfsAct :=
  [.heap (.kmalloc 8), .poke 0xD0000010 0xFF, .heap (.kfree 0xD0000010), .write 1 [7]]

theorem staleActs_run : ((Mm.heapInit (Mm.smallVm fun _ => false)).bind fun h =>
    (Run.run RamfsSys.step ⟨h, .zero, []⟩ staleActs).map fun t =>
      (t.log, (ramfsRead (t.node.file t.heap) 0 1).2)) = some ([(1, [7])], [0xFF]) := by
  rw [Mm.smallVm_eq]
  decide +kernel

theorem not_forall_ramfs_consistent :
    ¬ ∀ (vm : Mm.Vm) (h : Heap) (acts : List RamfsAct), Mm.heapInit vm = some h →
      (∀ a ∈ acts, a.InRange) →
        Run.EveryState RamfsSys.step RamfsSys.Consistent ⟨h, .zero, []⟩ acts := by
  intro hall
  obtain ⟨h, hinit, hafter⟩ := Option.bind_eq_some_iff.mp staleActs_run
  obtain ⟨t, hrun, heq⟩ := Option.map_eq_some_iff.mp hafter
  have hrange : ∀ a ∈ staleActs, a.InRange := by
    intro a ha
    rcases List.mem_cons.mp ha with rfl | ha
    · trivial
    rcases List.mem_cons.mp ha with rfl | ha
    · trivial
    rcases List.mem_cons.mp ha with rfl | ha
    · trivial
    · rw [List.mem_singleton.mp ha]
      show 1 + 1 ≤ ramfsMaxSize
      decide
  obtain ⟨hlog, hread⟩ := Prod.mk.inj heq
  have hcons := (hall _ h staleActs hinit hrange).last hrun
  have hfirst := congrArg Prod.snd (hcons.reads 0 1)
  rw [hlog, hread] at hfirst
  exact absurd hfirst (by decide)

end PinguinOS.Fs
