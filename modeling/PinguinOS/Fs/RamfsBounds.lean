import PinguinOS.Fs.Ramfs
import PinguinOS.Mm.HeapRealloc

/-! What a ramfs write does to its buffer and to other memory, and when it stays inside. -/
namespace PinguinOS.Fs

open Mm (u32 int32 Heap Block HeapCall HeapOk HeapSound CanServe CallServable SameBytes alignUp
  kheapStart krealloc kmalloc headerSize maxRequest)

/-- The memory below the heap and the other allocations are as they were. -/
structure OthersKept (h : Heap) (node : RamfsNode) (h' : Heap) : Prop where
  below : ∀ a < kheapStart, h'.bytes a = h.bytes a
  blocks : ∀ b ∈ h.blocks, b.free = false → b.addr + headerSize ≠ node.data →
    b ∈ h'.blocks ∧ SameBytes b h h'

/-- The write has failed, and node and contents are as they were. -/
structure WriteRefused (h : Heap) (node : RamfsNode) (result : Int) (h' : Heap)
    (node' : RamfsNode) : Prop where
  result : result = -1
  same : node' = node
  contents : ∀ i < node.allocSize, node'.buffer h' i = node.buffer h i

/-- The write has stored its bytes at the offset in the buffer, and no others. -/
structure WriteStored (h : Heap) (node : RamfsNode) (offset : Nat) (buf : List (BitVec 8))
    (result : Int) (h' : Heap) (node' : RamfsNode) : Prop where
  result : result = buf.length
  inside : offset + buf.length ≤ node'.allocSize
  size : node'.size = max node.size (offset + buf.length)
  written : ∀ i < buf.length, node'.buffer h' (offset + i) = buf.getD i 0
  kept : ∀ i < node.allocSize, i < offset ∨ offset + buf.length ≤ i →
    node'.buffer h' i = node.buffer h i

/-- Each write of `size` bytes returns, and is refused or stored; the buffer is an allocation of at
most 16 MB. -/
def WriteBounded (h : Heap) (node : RamfsNode) (offset size : Nat) : Prop :=
  ∀ buf : List (BitVec 8), buf.length = size → ∃ result h' node',
    ramfsWrite h node offset buf = some (result, h', node') ∧
      node'.Backed h' ∧ node'.allocSize ≤ ramfsMaxSize ∧ OthersKept h node h' ∧
        (WriteRefused h node result h' node' ∨ WriteStored h node offset buf result h' node')

/-- `krealloc` has no memory for a buffer of `needed` bytes. -/
def Starved (h : Heap) (node : RamfsNode) (needed : Nat) : Prop :=
  node.allocSize < needed ∧
    ∃ g, krealloc h node.data (alignUp needed ramfsBlockSize) = some (0, g)

/-- Where the heap has to grow for the buffer, it can map the pages it gets. -/
def CanGrow (h : Heap) (node : RamfsNode) (needed : Nat) : Prop :=
  needed ≤ ramfsMaxSize → node.allocSize < needed → h.RequestMaps (alignUp needed ramfsBlockSize)

theorem OthersKept.refl {h : Heap} {node : RamfsNode} : OthersKept h node h :=
  ⟨fun _ _ => rfl, fun _ hb _ _ => ⟨hb, fun _ _ => rfl⟩⟩

variable {kernStart kernEnd totalPages needed offset size len p : Nat} {h g : Heap}
  {node m : RamfsNode} {buf : List (BitVec 8)} {grown : Bool} {result : Int}

/-! The growth of the buffer. -/

/-- What is asked of the heap, and that the node passes a pointer of its own. -/
theorem RamfsNode.Backed.call (hn : node.Backed h) (hcan : CanServe h size) :
    CallServable h (.krealloc node.data size) g ∧ h.Allowed (.krealloc node.data size) := by
  refine ⟨⟨hcan.1, ?_⟩, ?_⟩
  · intro n hreq _
    rw [Mm.request_size hreq]
    exact hcan.2
  · rcases hn.block with ⟨hdata, -⟩ | ⟨b, hb, hused, hdata, -⟩
    · exact Or.inl hdata
    · exact Or.inr ⟨b, hb, hused, hdata⟩

/-- `krealloc` of the buffer returns. -/
theorem RamfsNode.Backed.krealloc (hn : node.Backed h)
    (hs : HeapSound kernStart kernEnd totalPages h) (hsize : 0 < size) (hcan : CanServe h size) :
    ∃ p g, PinguinOS.Mm.krealloc h node.data size = some (p, g) ∧
      HeapSound kernStart kernEnd totalPages g := by
  have hcall := fun g => (@RamfsNode.Backed.call size h g node hn hcan).1
  rcases hn.block with ⟨hdata, -⟩ | ⟨b, hb, hused, hdata, -⟩
  · obtain ⟨p, g, halloc, hg, -⟩ := hs.serves (Nat.ne_of_gt hsize) hcan
    refine ⟨p, g, ?_, hg⟩
    rw [hdata]
    exact halloc 0x10000
  · obtain ⟨p, g, hres, -⟩ := hs.krealloc hb hused hsize (hdata ▸ hcall h)
    have hres : PinguinOS.Mm.krealloc h node.data size = some (p, g) := hdata ▸ hres
    exact ⟨p, g, hres, hs.exec (hcall g) hres⟩

/-- `krealloc` writes no byte below the heap. -/
theorem RamfsNode.Backed.below (hn : node.Backed h) (hok : HeapOk (· ≤ ·) h) (hsize : 0 < size)
    (hle : size ≤ maxRequest) (hres : PinguinOS.Mm.krealloc h node.data size = some (p, g)) :
    ∀ a < kheapStart, g.bytes a = h.bytes a := by
  intro a ha
  rcases hn.block with ⟨hdata, -⟩ | ⟨b, hb, hused, hdata, -⟩
  · rw [hdata] at hres
    have halloc : kmalloc h size = some (p, g) := hres
    rw [Mm.alloc_bytes hok.limit halloc]
  · rw [hdata] at hres
    rcases Mm.krealloc_cases hok hb hused (Nat.ne_of_gt hsize) hle hres with ⟨-, rfl, -⟩ |
      ⟨-, halloc⟩ | ⟨g', vm, c, halloc, hc, hcused, -, -, -, hother, hfree⟩
    · rfl
    · rw [Mm.alloc_bytes hok.limit halloc]
    · have hg' := (Mm.kmalloc_keeps hok (Nat.ne_of_gt hsize) hle halloc).1
      have hbg := Mm.alloc_keeps hok.limit hb hused halloc
      have hne : c.addr ≠ Mm.sub32 (b.addr + headerSize) headerSize := by
        rw [(hg'.blockAt hbg).1]
        exact (hother b hb hused).symm
      have hlow := (hg'.bounds hc).1
      generalize hcopied : ({ g' with
        vm := vm
        bytes := Mm.copyBytes g'.bytes (c.addr + headerSize) (b.addr + headerSize) b.size } :
          Heap) = copied at hfree
      have hmem : c ∈ copied.blocks := hcopied ▸ hc
      rw [(Mm.kfree_keeps hmem hcused hne hfree).2, ← hcopied, ← Mm.alloc_bytes hok.limit halloc]
      refine Mm.copyBytes_outside ?_
      omega

/-- The memory of a buffer that moves was nobody's. -/
theorem RamfsNode.Backed.own (hn : node.Backed h) (hok : HeapOk (· ≤ ·) h) (hsize : 0 < size)
    (hle : size ≤ maxRequest) (hres : PinguinOS.Mm.krealloc h node.data size = some (p, g))
    (hp : p ≠ 0) : ∀ b ∈ h.blocks, b.free = false → b.addr + headerSize ≠ node.data →
      b.addr + headerSize ≠ p := by
  intro d hd hdused hne
  have hserved : ∀ q g', kmalloc h size = some (q, g') → q ≠ 0 → d.addr + headerSize ≠ q := by
    intro q g' halloc hq
    obtain ⟨c, -, -, rfl, -, hold⟩ :=
      (Mm.kmalloc_keeps hok (Nat.ne_of_gt hsize) hle halloc).2.resolve_left hq
    have hapart := hold d hd hdused
    omega
  rcases hn.block with ⟨hdata, -⟩ | ⟨b, hb, hused, hdata, -⟩
  · rw [hdata] at hres
    exact hserved p g hres hp
  · rw [hdata] at hres hne
    rcases Mm.krealloc_cases hok hb hused (Nat.ne_of_gt hsize) hle hres with ⟨rfl, -, -⟩ |
      ⟨rfl, -⟩ | ⟨g', vm, c, halloc, -⟩
    · exact hne
    · exact absurd rfl hp
    · exact hserved p g' halloc hp

theorem ramfsGrow_grows (hmore : node.allocSize < needed) :
    ramfsGrow h node needed =
      (krealloc h node.data (alignUp needed ramfsBlockSize)).bind fun r =>
        if r.1 = 0 then some (false, r.2, node)
        else some (true, r.2, { node with
          data := r.1
          allocSize := alignUp needed ramfsBlockSize }) := by
  unfold ramfsGrow
  rw [if_pos hmore]
  rfl

/-- The growth returns, with other memory as it was; it fails just where the heap is exhausted. -/
theorem ramfsGrow_total (hs : HeapSound kernStart kernEnd totalPages h) (hn : node.Backed h)
    (halloc : node.allocSize ≤ ramfsMaxSize) (hgrow : CanGrow h node needed)
    (hneeded : needed ≤ ramfsMaxSize) :
    ∃ grown g m, ramfsGrow h node needed = some (grown, g, m) ∧
      HeapSound kernStart kernEnd totalPages g ∧ OthersKept h node g ∧
        (∀ b ∈ h.blocks, b.free = false → b.addr + headerSize ≠ node.data →
          b.addr + headerSize ≠ m.data) ∧
        m.allocSize ≤ ramfsMaxSize ∧ (grown = false → m = node) ∧
          (grown = false ↔ Starved h node needed) := by
  by_cases hmore : node.allocSize < needed
  case neg =>
    refine ⟨true, h, node, ?_, hs, OthersKept.refl, fun _ _ _ hne => hne, halloc,
      Bool.noConfusion, iff_of_false Bool.noConfusion fun hstarved => hmore hstarved.1⟩
    unfold ramfsGrow
    rw [if_neg hmore]
  obtain ⟨hlarge, hmost⟩ := alignUp_block hneeded
  have hsize : 0 < alignUp needed ramfsBlockSize := by omega
  have hrequest : alignUp needed ramfsBlockSize ≤ maxRequest := by
    unfold ramfsMaxSize at hmost
    unfold maxRequest
    omega
  have hcan : CanServe h (alignUp needed ramfsBlockSize) := ⟨hrequest, hgrow hneeded hmore⟩
  obtain ⟨p, g, hres, hg⟩ := hn.krealloc hs hsize hcan
  have hothers : OthersKept h node g := by
    constructor
    case below => exact hn.below hs.shape hsize hrequest hres
    case blocks =>
      intro b hb hused hne
      have hle : (HeapCall.krealloc node.data (alignUp needed ramfsBlockSize)).size ≤ maxRequest :=
        hrequest
      exact Mm.exec_keeps hs.shape hb hused hle (@RamfsNode.Backed.call _ h g node hn hcan).2
        hne.symm hres
  rw [ramfsGrow_grows hmore, hres]
  dsimp only [Option.bind_some]
  by_cases hnull : p = 0
  · rw [if_pos hnull]
    exact ⟨false, g, node, rfl, hg, hothers, fun _ _ _ hne => hne, halloc, fun _ => rfl,
      iff_of_true rfl ⟨hmore, g, hnull ▸ hres⟩⟩
  · rw [if_neg hnull]
    refine ⟨true, g, _, rfl, hg, hothers, hn.own hs.shape hsize hrequest hres hnull, hmost,
      Bool.noConfusion,
      iff_of_false Bool.noConfusion ?_⟩
    rintro ⟨-, g', hres'⟩
    rw [hres] at hres'
    exact hnull (Prod.mk.inj (Option.some.inj hres')).1

/-! The ways through a write. -/

theorem ramfsWrite_large (hlarge : ramfsMaxSize < u32 (offset + buf.length)) :
    ramfsWrite h node offset buf = some (-1, h, node) := by
  unfold ramfsWrite
  exact if_pos hlarge

theorem ramfsWrite_grow (hneeded : u32 (offset + buf.length) ≤ ramfsMaxSize)
    (hgrow : ramfsGrow h node (u32 (offset + buf.length)) = some (grown, g, m)) :
    ramfsWrite h node offset buf = if !grown then some (-1, g, m)
      else (touchWrap g.vm (u32 (m.data + offset)) buf.length).bind fun vm =>
        some (int32 buf.length,
          { g with vm := vm, bytes := storeWrap g.bytes (u32 (m.data + offset)) buf },
          m.extend (offset + buf.length)) := by
  unfold ramfsWrite
  dsimp only
  rw [if_neg (Nat.not_lt.mpr hneeded), hgrow]
  rfl

/-- The pages of a buffer are mapped. -/
theorem RamfsNode.Backed.touch (hm : m.Backed g) (hg : HeapSound kernStart kernEnd totalPages g)
    (hend : offset + len ≤ m.allocSize) :
    touchWrap g.vm (u32 (m.data + offset)) len = some g.vm := by
  have hstop := hm.stop_lt hg.shape
  have hdst : u32 (m.data + offset) = m.data + offset := Mm.u32_of_lt (by omega)
  rw [hdst, touchWrap_eq (by omega)]
  rcases hm.block with ⟨-, halloc⟩ | ⟨b, hb, -, hdata, hfits⟩
  · have hlen : len = 0 := by omega
    rw [hlen]
    rfl
  · obtain ⟨hlo, hhi⟩ := hg.shape.bounds hb
    unfold Block.stop at hhi
    exact Mm.touch_inside (by omega) (by omega) hg.mapped

/-- What is stored in the buffer leaves other memory. -/
theorem OthersKept.store {vm : Mm.Vm} (hk : OthersKept h node g) (hok : HeapOk (· ≤ ·) g)
    (hm : m.Backed g) (hown : ∀ b ∈ h.blocks, b.free = false → b.addr + headerSize ≠ node.data →
      b.addr + headerSize ≠ m.data) (hend : offset + buf.length ≤ m.allocSize) :
    OthersKept h node
      { g with vm := vm, bytes := storeWrap g.bytes (u32 (m.data + offset)) buf } := by
  have hstop := hm.stop_lt hok
  have hdst : u32 (m.data + offset) = m.data + offset := Mm.u32_of_lt (by omega)
  have houtside : ∀ a, (a < m.data ∨ m.data + m.allocSize ≤ a) →
      storeWrap g.bytes (u32 (m.data + offset)) buf a = g.bytes a := by
    intro a ha
    rw [hdst, storeWrap_eq (by omega)]
    unfold WriteLog.store
    rw [if_neg (by omega)]
  constructor
  case below =>
    intro a ha
    refine (houtside a ?_).trans (hk.below a ha)
    rcases hm.block with ⟨hdata, halloc⟩ | ⟨b, hb, -, hdata, -⟩
    · omega
    · have hlow := (hok.bounds hb).1
      omega
  case blocks =>
    intro b hb hused hne
    obtain ⟨hbg, hsame⟩ := hk.blocks b hb hused hne
    refine ⟨hbg, ?_⟩
    intro i hi
    refine (houtside _ ?_).trans (hsame i hi)
    rcases hm.block with ⟨hdata, halloc⟩ | ⟨c, hc, -, hdata, hfits⟩
    · omega
    · have hapart := hok.apart hbg hc fun heq => hown b hb hused hne (heq ▸ hdata.symm)
      unfold Block.stop at hapart
      omega

/-- A write whose end does not wrap, with its buffer in hand. -/
theorem writeStored (hok : HeapOk (· ≤ ·) g) (hm : m.Backed g) (hsize : m.size = node.size)
    (hsame : ∀ i < node.allocSize, m.buffer g i = node.buffer h i)
    (hrange : offset + buf.length ≤ ramfsMaxSize) (hend : offset + buf.length ≤ m.allocSize) :
    WriteStored h node offset buf (int32 buf.length)
      { g with bytes := storeWrap g.bytes (u32 (m.data + offset)) buf }
      (m.extend (offset + buf.length)) := by
  unfold ramfsMaxSize at hrange
  have hstop := hm.stop_lt hok
  have hdst : u32 (m.data + offset) = m.data + offset := Mm.u32_of_lt (by omega)
  obtain ⟨hextent, hdata, halloc⟩ := @extend_size m _ (show offset + buf.length < 2 ^ 32 by omega)
  have hbuffer : ∀ i, (m.extend (offset + buf.length)).buffer
      { g with bytes := storeWrap g.bytes (u32 (m.data + offset)) buf } i =
        WriteLog.store 0 (m.buffer g) offset buf i := by
    intro i
    unfold RamfsNode.buffer
    dsimp only
    rw [hdata, hdst, storeWrap_eq (by omega)]
    exact WriteLog.store_at
  constructor
  case result => exact Mm.int32_of_lt (by omega)
  case inside => exact halloc ▸ hend
  case size => rw [hextent, hsize]
  case written =>
    intro i hi
    rw [hbuffer]
    unfold WriteLog.store
    rw [if_pos (by omega), Nat.add_sub_cancel_left]
  case kept =>
    intro i hi hout
    rw [hbuffer, ← hsame i hi]
    unfold WriteLog.store
    rw [if_neg (by omega)]

/-- One of the first two addresses is written by a copy that leaves out one address at most. -/
theorem storeWrap_low {bytes : Nat → BitVec 8} {dst : Nat} (hdst : dst < 2 ^ 32)
    (hlen : buf.length = 2 ^ 32 - 1) : ∃ a < 2, storeWrap bytes dst buf a = buf.getD
      (Mm.sub32 a dst) 0 ∧ Mm.sub32 a dst < buf.length := by
  unfold storeWrap Mm.sub32 u32
  by_cases hfirst : (0 + 2 ^ 32 - dst) % 2 ^ 32 < buf.length
  · exact ⟨0, by decide, if_pos ⟨by decide, hfirst⟩, hfirst⟩
  · have hsecond : (1 + 2 ^ 32 - dst) % 2 ^ 32 < buf.length := by omega
    exact ⟨1, by decide, if_pos ⟨by decide, hsecond⟩, hsecond⟩

theorem exists_other (x y : BitVec 8) : ∃ v, x ≠ v ∧ y ≠ v := by
  by_cases h0 : x ≠ 0 ∧ y ≠ 0
  · exact ⟨0, h0⟩
  by_cases h1 : x ≠ 1 ∧ y ≠ 1
  · exact ⟨1, h1⟩
  have hboth : x = 0 ∧ y = 1 ∨ x = 1 ∧ y = 0 := by grind
  rcases hboth with ⟨rfl, rfl⟩ | ⟨rfl, rfl⟩
  · exact ⟨2, by decide, by decide⟩
  · exact ⟨2, by decide, by decide⟩

/-- A write that gets as far as the copy with an end that wraps is neither refused nor stored:
4 GB less one byte, which are returned as -1, leave no memory as it was. -/
theorem not_writeBounded (hwrap : 2 ^ 32 ≤ offset + size) (hsize : size < 2 ^ 32)
    (hneeded : u32 (offset + size) ≤ ramfsMaxSize)
    (hgrow : ramfsGrow h node (u32 (offset + size)) = some (true, g, m)) :
    ¬ WriteBounded h node offset size := by
  intro hbounded
  -- the bytes differ from what is at the first two addresses
  obtain ⟨fill, hzero, hone⟩ := exists_other (h.bytes 0) (h.bytes 1)
  have hlen : (List.replicate size fill).length = size := List.length_replicate
  obtain ⟨result, h', node', hwrite, -, halloc, hothers, hend⟩ :=
    hbounded (List.replicate size fill) hlen
  rcases hend with hrefused | hstored
  case inr =>
    have hinside := hstored.inside
    unfold ramfsMaxSize at halloc
    omega
  rw [ramfsWrite_grow (hlen.symm ▸ hneeded) (hlen.symm ▸ hgrow)] at hwrite
  obtain ⟨vm, -, hres⟩ := Option.bind_eq_some_iff.mp hwrite
  cases hres
  have hall : size = 2 ^ 32 - 1 := by
    have hminus := hrefused.result
    rw [hlen] at hminus
    unfold int32 at hminus
    rw [BitVec.toInt_ofNat', Int.bmod_def] at hminus
    split_ifs at hminus with hhalf <;> omega
  obtain ⟨a, ha, hstore, hin⟩ := @storeWrap_low (List.replicate size fill) g.bytes
    (u32 (m.data + offset)) Mm.u32_lt (hlen.trans hall)
  have hbelow := hothers.below a (Nat.lt_trans ha (by decide))
  dsimp only at hbelow
  rw [hstore, List.getD_eq_getElem _ _ hin, List.getElem_replicate] at hbelow
  have hcases : a = 0 ∨ a = 1 := by omega
  rcases hcases with rfl | rfl
  · exact hzero hbelow.symm
  · exact hone hbelow.symm

/-- A write of `size` bytes is bounded and atomic exactly when the end of the range does not wrap,
or is refused: what it wraps to is above the limit, or the heap is exhausted. -/
theorem writeBounded_iff (hs : HeapSound kernStart kernEnd totalPages h) (hn : node.Backed h)
    (halloc : node.allocSize ≤ ramfsMaxSize) (hcan : CanGrow h node (u32 (offset + size)))
    (hsize : size < 2 ^ 32) :
    WriteBounded h node offset size ↔ offset + size < 2 ^ 32 ∨
      ramfsMaxSize < u32 (offset + size) ∨ Starved h node (u32 (offset + size)) := by
  by_cases hlarge : ramfsMaxSize < u32 (offset + size)
  · refine iff_of_true ?_ (Or.inr (Or.inl hlarge))
    rintro buf rfl
    exact ⟨-1, h, node, ramfsWrite_large hlarge, hn, halloc, OthersKept.refl,
      Or.inl ⟨rfl, rfl, fun _ _ => rfl⟩⟩
  have hneeded := Nat.not_lt.mp hlarge
  obtain ⟨grown, g, m, hgrow, hg, hothers, hown, hmost, hnode, hstarved⟩ :=
    ramfsGrow_total hs hn halloc hcan hneeded
  obtain ⟨-, hm, hmsize, hroom, hsame⟩ := ramfsGrow_keeps hs.shape hn hneeded hgrow
  cases grown with
  | false =>
    refine iff_of_true ?_ (Or.inr (Or.inr (hstarved.mp rfl)))
    rintro buf rfl
    exact ⟨-1, g, m, ramfsWrite_grow hneeded hgrow, hm, hmost, hothers,
      Or.inl ⟨rfl, hnode rfl, hsame⟩⟩
  | true =>
    have hserved : ¬ Starved h node (u32 (offset + size)) :=
      fun h => Bool.noConfusion (hstarved.mpr h)
    by_cases hwrap : offset + size < 2 ^ 32
    case neg =>
      refine iff_of_false (not_writeBounded (Nat.not_lt.mp hwrap) hsize hneeded hgrow) ?_
      rintro (hlt | hlt | h)
      · exact hwrap hlt
      · exact hlarge hlt
      · exact hserved h
    refine iff_of_true ?_ (Or.inl hwrap)
    rintro buf rfl
    have hend := hroom rfl
    rw [Mm.u32_of_lt hwrap] at hend
    have hrange : offset + buf.length ≤ ramfsMaxSize := by
      rwa [Mm.u32_of_lt hwrap] at hneeded
    obtain ⟨-, hdata, hsizes⟩ := @extend_size m _ hwrap
    refine ⟨_, _, _, ?_, ?_, ?_, hothers.store hg.shape hm hown hend,
      Or.inr (writeStored hg.shape hm hmsize hsame hrange hend)⟩
    · rw [ramfsWrite_grow hneeded hgrow, hm.touch hg hend]
      rfl
    · have hbacked : (m.extend (offset + buf.length)).size ≤ m.allocSize := by
        rw [(@extend_size m _ hwrap).1]
        exact Nat.max_le.mpr ⟨hm.size_le, hend⟩
      refine ⟨hsizes.symm ▸ hbacked, ?_⟩
      rw [hdata, hsizes]
      exact hm.block
    · exact hsizes ▸ hmost

theorem smallVm_fitsPage : ((Mm.heapInit (Mm.smallVm fun _ => false)).all fun h =>
    h.blocks.any (Block.fits (alignUp 4096 8))) = true := by
  rw [Mm.smallVm_eq]
  decide +kernel

/-- The first two bytes of a new file. -/
theorem writeBounded_first : ∃ h, Mm.heapInit (Mm.smallVm fun _ => false) = some h ∧
    (WriteBounded h .zero 0 2 ↔ 0 + 2 < 2 ^ 32 ∨ ramfsMaxSize < u32 (0 + 2) ∨
      Starved h .zero (u32 (0 + 2))) := by
  obtain ⟨h, hinit⟩ := Option.isSome_iff_exists.mp Mm.smallVm_init
  refine ⟨h, hinit, writeBounded_iff
    (Mm.heapSound_init Mm.tablesOk_smallVm hinit Mm.smallVm_growthMaps)
    ⟨Nat.le_refl 0, Or.inl ⟨rfl, rfl⟩⟩ (by decide) ?_ (by decide)⟩
  intro _ _ hnone
  have hfits := smallVm_fitsPage
  rw [hinit] at hfits
  obtain ⟨b, hb, hyes⟩ := List.any_eq_true.mp hfits
  have hsize : alignUp (u32 (0 + 2)) ramfsBlockSize = 4096 := by decide
  rw [hsize] at hnone
  exact absurd hyes (Bool.eq_false_iff.mp (hnone b hb))

theorem smallVm_write : ((Mm.heapInit (Mm.smallVm fun _ => false)).bind fun h =>
    (ramfsWrite h .zero 0 [7]).bind fun r =>
      (ramfsWrite r.2.1 r.2.2 0xFFFFFFFF [9]).map fun r' =>
        (r.1, r'.1, r'.2.1.bytes (r.2.2.data - 1))) = some (1, 1, 9) := by
  rw [Mm.smallVm_eq]
  decide +kernel

/-- A file of one byte, whose next write ends at 2 ^ 32: it changes the byte in front of the
buffer, in the header of the heap block. -/
theorem not_forall_writeBounded : ¬ ∀ (h h' : Heap) (node : RamfsNode),
    Mm.heapInit (Mm.smallVm fun _ => false) = some h →
      ramfsWrite h .zero 0 [7] = some (1, h', node) →
        ∀ offset < 2 ^ 32, ∀ size < 2 ^ 32, WriteBounded h' node offset size := by
  intro hall
  obtain ⟨h, hinit, hafter⟩ := Option.bind_eq_some_iff.mp smallVm_write
  obtain ⟨⟨result, h', node⟩, hfirst, hagain⟩ := Option.bind_eq_some_iff.mp hafter
  obtain ⟨_, -, heq⟩ := Option.map_eq_some_iff.mp hagain
  have hone : result = 1 := (Prod.mk.inj heq).1
  have hroom : ramfsGrow h' node (u32 (0xFFFFFFFF + 1)) = some (true, h', node) := by
    unfold ramfsGrow
    exact if_neg (Nat.not_lt_zero _)
  exact not_writeBounded (by decide) (by decide) (by decide) hroom
    (hall h h' node hinit (hone ▸ hfirst) 0xFFFFFFFF (by decide) 1 (by decide))

end PinguinOS.Fs
