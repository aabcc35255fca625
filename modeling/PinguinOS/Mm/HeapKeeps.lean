import PinguinOS.Mm.HeapTiling

/-! A used block and its bytes outlast what happens to other blocks. -/
namespace PinguinOS.Mm

variable {R : Nat → Nat → Prop} [Spacing R] {h h' g : Heap} {b c cur : Block} {l rest : List Block}
  {depth size p ptr : Nat} {call : HeapCall}

/-- Merging free blocks keeps the used ones. -/
theorem mem_coalesceFrom (hb : b ∈ cur :: rest) (hused : b.free = false) :
    b ∈ coalesceFrom cur rest := by
  induction rest generalizing cur with
  | nil => exact hb
  | cons next rest ih =>
    unfold coalesceFrom
    split_ifs with hboth
    · obtain ⟨hcur, hnext⟩ := Bool.and_eq_true_iff.mp hboth
      refine ih ?_
      rcases List.mem_cons.mp hb with rfl | hrest
      · rw [hused] at hcur
        cases hcur
      · rcases List.mem_cons.mp hrest with rfl | hrest
        · rw [hused] at hnext
          cases hnext
        · exact List.mem_cons_of_mem _ hrest
    · rcases List.mem_cons.mp hb with rfl | hrest
      · exact List.mem_cons_self
      · exact List.mem_cons_of_mem _ (ih hrest)

theorem mem_coalesce (hb : b ∈ l) (hused : b.free = false) : b ∈ coalesce l := by
  cases l with
  | nil => exact hb
  | cons cur rest => exact mem_coalesceFrom hb hused

/-- `kfree` keeps the blocks at other places, and all bytes. -/
theorem kfree_keeps (hb : b ∈ h.blocks) (hused : b.free = false)
    (hne : b.addr ≠ sub32 ptr headerSize) (hfree : kfree h ptr = some h') :
    b ∈ h'.blocks ∧ h'.bytes = h.bytes := by
  unfold kfree heapFreeRaw at hfree
  split_ifs at hfree with hptr
  · cases hfree
    exact ⟨hb, rfl⟩
  · obtain ⟨blk, -, hrest⟩ := Option.bind_eq_some_iff.mp hfree
    split_ifs at hrest with hmagic
    cases hrest
    refine ⟨mem_coalesce (List.mem_map.mpr ⟨b, hb, ?_⟩) hused, rfl⟩
    unfold Block.release
    rw [if_neg hne]

/-- `heap_alloc_raw` writes no payload byte. -/
theorem alloc_bytes (hlimit : h.brk ≤ kheapMax) (halloc : heapAllocRaw depth h size = some (p, h')) :
    h'.bytes = h.bytes := by
  induction depth generalizing h size with
  | zero => cases halloc
  | succ depth ih =>
    by_cases hzero : size = 0
    · rw [hzero, heapAllocRaw, if_pos rfl] at halloc
      cases halloc
      rfl
    obtain ⟨k, -, -, hg, -⟩ := heapGrow_cases (growSize (alignUp size 8)) hlimit
    rcases heapAllocRaw_succ hzero halloc with ⟨vm, b, l, -, -, rfl⟩ | ⟨-, hgrow⟩
    · rfl
    rcases hgrow with ⟨-, -, rfl⟩ | ⟨-, vm, -, hagain⟩
    · exact hg.bytes
    · have hrest : h'.bytes = ((heapGrow h (growSize (alignUp size 8))).2.append h.brk vm).bytes :=
        ih hg.limit hagain
      exact hrest.trans hg.bytes

/-- A pass over the list takes a free block. -/
theorem take_keeps {vm vm' : Vm} (hb : b ∈ l) (hused : b.free = false)
    (htake : takeFirstFit vm size l = some (vm', some c, rest)) : b ∈ rest := by
  obtain ⟨xs, blk, ys, blk', ys', rfl, hfits, hsplit, -, rfl⟩ := takeFirstFit_some htake
  have hfree : blk.free = true := (Bool.and_eq_true_iff.mp hfits).1
  have hne : b ≠ blk := by
    rintro rfl
    rw [hused] at hfree
    cases hfree
  have hys : ∀ d ∈ ys, d ∈ ys' := by
    intro d hd
    rcases heapSplit_cases hsplit with ⟨-, -, rfl, -⟩ | ⟨-, -, -, rfl⟩
    · exact hd
    · exact List.mem_cons_of_mem _ hd
  rcases List.mem_append.mp hb with hxs | hrest
  · exact List.mem_append_left _ hxs
  · rcases List.mem_cons.mp hrest with heq | hin
    · exact absurd heq hne
    · exact List.mem_append_right _ (List.mem_cons_of_mem _ (hys b hin))

/-- `heap_alloc_raw` keeps the used blocks, also when it returns NULL. -/
theorem alloc_keeps (hlimit : h.brk ≤ kheapMax) (hb : b ∈ h.blocks) (hused : b.free = false)
    (halloc : heapAllocRaw depth h size = some (p, h')) : b ∈ h'.blocks := by
  induction depth generalizing h size with
  | zero => cases halloc
  | succ depth ih =>
    by_cases hzero : size = 0
    · rw [hzero, heapAllocRaw, if_pos rfl] at halloc
      cases halloc
      exact hb
    obtain ⟨k, -, -, hg, -⟩ := heapGrow_cases (growSize (alignUp size 8)) hlimit
    rcases heapAllocRaw_succ hzero halloc with ⟨vm, b, l, htake, -, rfl⟩ | ⟨-, hgrow⟩
    · exact take_keeps hb hused htake
    rcases hgrow with ⟨-, -, rfl⟩ | ⟨-, vm, -, hagain⟩
    · rw [hg.blocks]
      exact hb
    · have hlast : ((heapGrow h (growSize (alignUp size 8))).2.append h.brk vm).brk ≤ kheapMax :=
        hg.limit
      refine ih hlast ?_ hagain
      unfold Heap.append
      dsimp only
      rw [hg.blocks]
      exact List.mem_append_left _ hb

/-- The payload bytes of `b` are the same. -/
def SameBytes (b : Block) (h h' : Heap) : Prop :=
  ∀ i < b.size, h'.bytes (b.addr + headerSize + i) = h.bytes (b.addr + headerSize + i)

/-- `kmalloc` of a nonzero size: NULL or a block of its own, and the used blocks stay. -/
theorem kmalloc_keeps (hok : HeapOk (· ≤ ·) h) (hsize : size ≠ 0) (hlt : size ≤ maxRequest)
    (halloc : kmalloc h size = some (p, g)) :
    HeapOk (· ≤ ·) g ∧ (p = 0 ∨ ∃ c ∈ g.blocks, c.free = false ∧ p = c.addr + headerSize ∧
      size ≤ c.size ∧ ∀ b ∈ h.blocks, b.free = false → b.addr ≠ c.addr) := by
  have hanyGap : ∀ a b : Nat, a ≤ b → a ≤ b := fun _ _ hle => hle
  obtain ⟨hok', hserved⟩ := hok.alloc hsize hlt (Or.inl hanyGap) (kmalloc_eq ▸ halloc)
  refine ⟨hok', ?_⟩
  rcases hserved with hnull | ⟨c, hp, htaken⟩
  · exact Or.inl hnull
  · exact Or.inr ⟨c, htaken.mem, htaken.inUse, hp, htaken.enough,
      fun b hb hused => (htaken.old b hb hused).2⟩

theorem kmalloc_zero_keeps (halloc : kmalloc h 0 = some (p, g)) : p = 0 ∧ g = h := by
  rw [kmalloc_zero] at halloc
  cases halloc
  exact ⟨rfl, rfl⟩

/-- What is written to one block leaves the bytes of another. -/
theorem Shape.sameBytes {bytes : Nat → BitVec 8} (hok : HeapOk (· ≤ ·) h) (hb : b ∈ h.blocks)
    (hc : c ∈ h.blocks) (hne : b.addr ≠ c.addr)
    (hbytes : ∀ a, a < c.addr + headerSize ∨ c.addr + headerSize + c.size ≤ a →
      bytes a = h.bytes a) : SameBytes b h { h with bytes := bytes } := by
  intro i hi
  have hblocks : b ≠ c := fun heq => hne (congrArg Block.addr heq)
  have hapart := hok.apart hb hc hblocks
  unfold Block.stop at hapart
  exact hbytes _ (by omega)

theorem fillBytes_outside {bytes : Nat → BitVec 8} {addr len a : Nat}
    (h : a < addr ∨ addr + len ≤ a) : fillBytes bytes addr len a = bytes a := by
  unfold fillBytes
  rw [if_neg (by omega)]

theorem copyBytes_outside {bytes : Nat → BitVec 8} {dst src len a : Nat}
    (h : a < dst ∨ dst + len ≤ a) : copyBytes bytes dst src len a = bytes a := by
  unfold copyBytes
  rw [if_neg (by omega)]

theorem copyBytes_inside {bytes : Nat → BitVec 8} {dst src len i : Nat} (hi : i < len) :
    copyBytes bytes dst src len (dst + i) = bytes (src + i) := by
  unfold copyBytes
  rw [if_pos (by omega), Nat.add_sub_cancel_left]

/-- The header of a live pointer is the block that the pointer was made from. -/
theorem Shape.blockAt (hok : HeapOk R h) (hb : b ∈ h.blocks) :
    sub32 (b.addr + headerSize) headerSize = b.addr ∧ h.blockAt b.addr = some b := by
  have hbounds := hok.bounds hb
  have hlimit := hok.limit
  unfold Block.stop headerSize at hbounds
  unfold kheapMax at hlimit
  constructor
  · rw [sub32_of_le (Nat.le_add_left _ _) (by unfold headerSize; omega), Nat.add_sub_cancel]
  · cases hfind : h.blockAt b.addr with
    | none =>
      have hno := List.find?_eq_none.mp hfind b hb
      exact absurd (decide_eq_true rfl) hno
    | some c =>
      have hmem := List.mem_of_find?_eq_some hfind
      have haddr : c.addr = b.addr := by simpa using List.find?_some hfind
      rw [hok.eq_of_addr hmem hb haddr]

/-- What `krealloc` does when it moves `b` to the new block `c`. -/
theorem krealloc_moves {vm : Vm} (hok : HeapOk (· ≤ ·) g) (hb : b ∈ g.blocks) (hc : c ∈ g.blocks)
    (hcused : c.free = false) (hne : b.addr ≠ c.addr) (hfits : b.size ≤ c.size)
    (hfree : kfree { g with
      vm := vm
      bytes := copyBytes g.bytes (c.addr + headerSize) (b.addr + headerSize) b.size }
        (b.addr + headerSize) = some h') :
    HeapOk (· ≤ ·) h' ∧ c ∈ h'.blocks ∧
      (∀ i < b.size, h'.bytes (c.addr + headerSize + i) = g.bytes (b.addr + headerSize + i)) ∧
      ∀ d ∈ g.blocks, d.free = false → d.addr ≠ b.addr → d.addr ≠ c.addr →
        d ∈ h'.blocks ∧ SameBytes d g h' := by
  obtain ⟨hheader, -⟩ := hok.blockAt hb
  generalize hcopied : ({ g with
    vm := vm
    bytes := copyBytes g.bytes (c.addr + headerSize) (b.addr + headerSize) b.size } : Heap) =
      copied at hfree
  have hblocks : copied.blocks = g.blocks := hcopied ▸ rfl
  have hbytes : copied.bytes =
      copyBytes g.bytes (c.addr + headerSize) (b.addr + headerSize) b.size := hcopied ▸ rfl
  have hok' : HeapOk (· ≤ ·) copied := hcopied ▸ hok
  have hstays : ∀ d ∈ g.blocks, d.free = false → d.addr ≠ b.addr →
      d ∈ h'.blocks ∧ h'.bytes = copied.bytes := by
    intro d hd hdused hdne
    rw [← hheader] at hdne
    exact kfree_keeps (hblocks ▸ hd) hdused hdne hfree
  obtain ⟨hc', hkept⟩ := hstays c hc hcused hne.symm
  refine ⟨hok'.kfree hfree, hc', ?_, ?_⟩
  · intro i hi
    rw [hkept, hbytes, copyBytes_inside hi]
  · intro d hd hdused hdb hdc
    refine ⟨(hstays d hd hdused hdb).1, ?_⟩
    have hsame : SameBytes d g { g with
        bytes := copyBytes g.bytes (c.addr + headerSize) (b.addr + headerSize) b.size } := by
      refine hok.sameBytes hd hc hdc ?_
      intro a ha
      refine copyBytes_outside ?_
      omega
    intro i hi
    rw [hkept, hbytes]
    exact hsame i hi

/-- What a growing `krealloc` of a live pointer does: NULL and no change to used blocks, or a
block of its own. -/
theorem krealloc_cases (hok : HeapOk (· ≤ ·) h) (hb : b ∈ h.blocks) (hused : b.free = false)
    (hsize : size ≠ 0) (hlt : size ≤ maxRequest)
    (hres : krealloc h (b.addr + headerSize) size = some (p, h')) :
    (p = b.addr + headerSize ∧ h' = h ∧ size ≤ b.size) ∨ (p = 0 ∧ kmalloc h size = some (0, h')) ∨
      ∃ g vm c, kmalloc h size = some (p, g) ∧ c ∈ g.blocks ∧ c.free = false ∧
        p = c.addr + headerSize ∧ b.size < size ∧ size ≤ c.size ∧
        (∀ d ∈ h.blocks, d.free = false → d.addr ≠ c.addr) ∧
        kfree { g with
          vm := vm
          bytes := copyBytes g.bytes (c.addr + headerSize) (b.addr + headerSize) b.size }
            (b.addr + headerSize) = some h' := by
  obtain ⟨hheader, hat⟩ := hok.blockAt hb
  have hptr : b.addr + headerSize ≠ 0 := by
    unfold headerSize
    omega
  unfold krealloc at hres
  rw [if_neg hptr, if_neg hsize, hheader, hat] at hres
  dsimp only [Option.bind_eq_bind, Option.bind_some] at hres
  split_ifs at hres with hlarge
  · cases hres
    exact Or.inl ⟨rfl, rfl, hlarge⟩
  obtain ⟨⟨q, g⟩, halloc, hrest⟩ := Option.bind_eq_some_iff.mp hres
  dsimp only at hrest
  obtain ⟨hg, hserved⟩ := kmalloc_keeps hok hsize hlt halloc
  have hbg : b ∈ g.blocks := alloc_keeps hok.limit hb hused halloc
  split_ifs at hrest with hq
  · cases hrest
    exact Or.inr (Or.inl ⟨rfl, hq ▸ halloc⟩)
  obtain ⟨c, hc, hcused, rfl, henough, hother⟩ := hserved.resolve_left hq
  rw [(hg.blockAt hbg).2] at hrest
  dsimp only [Option.bind_some] at hrest
  obtain ⟨vm, -, hrest⟩ := Option.bind_eq_some_iff.mp hrest
  obtain ⟨vm', -, hrest⟩ := Option.bind_eq_some_iff.mp hrest
  obtain ⟨g', hfree, hend⟩ := Option.bind_eq_some_iff.mp hrest
  cases hend
  exact Or.inr (Or.inr ⟨g, vm', c, halloc, hc, hcused, rfl, Nat.not_le.mp hlarge, henough, hother,
    hfree⟩)

/-- `kmalloc` and the used blocks: they stay, with their bytes. -/
theorem kmalloc_others (hok : HeapOk (· ≤ ·) h) (hb : b ∈ h.blocks) (hused : b.free = false)
    (halloc : kmalloc h size = some (p, g)) : b ∈ g.blocks ∧ SameBytes b h g := by
  refine ⟨alloc_keeps hok.limit hb hused halloc, ?_⟩
  intro i _
  rw [alloc_bytes hok.limit halloc]

/-- `krealloc` of a live pointer: NULL with the block as it was, or a used block that holds the
bytes of the old one. -/
theorem krealloc_keeps (hok : HeapOk (· ≤ ·) h) (hb : b ∈ h.blocks) (hused : b.free = false)
    (hsize : size ≠ 0) (hlt : size ≤ maxRequest)
    (hres : krealloc h (b.addr + headerSize) size = some (p, h')) :
    HeapOk (· ≤ ·) h' ∧ (p = 0 ∧ b ∈ h'.blocks ∧ SameBytes b h h' ∨
      ∃ c ∈ h'.blocks, c.free = false ∧ p = c.addr + headerSize ∧ size ≤ c.size ∧
        ∀ i < b.size, h'.bytes (p + i) = h.bytes (b.addr + headerSize + i)) := by
  rcases krealloc_cases hok hb hused hsize hlt hres with ⟨rfl, rfl, hlarge⟩ | ⟨rfl, halloc⟩ |
    ⟨g, vm, c, halloc, hc, hcused, rfl, hsmall, henough, hother, hfree⟩
  · exact ⟨hok, Or.inr ⟨b, hb, hused, rfl, hlarge, fun _ _ => rfl⟩⟩
  · exact ⟨(kmalloc_keeps hok hsize hlt halloc).1,
      Or.inl ⟨rfl, kmalloc_others hok hb hused halloc⟩⟩
  · have hg := (kmalloc_keeps hok hsize hlt halloc).1
    obtain ⟨hbg, hsame⟩ := kmalloc_others hok hb hused halloc
    obtain ⟨hok', hc', hcopy, -⟩ :=
      krealloc_moves hg hbg hc hcused (hother b hb hused) (by omega) hfree
    exact ⟨hok', Or.inr ⟨c, hc', hcused, rfl, henough,
      fun i hi => (hcopy i hi).trans (hsame i hi)⟩⟩

/-- `krealloc` of one block and another used block. -/
theorem krealloc_others (hok : HeapOk (· ≤ ·) h) (hc : c ∈ h.blocks) (hcused : c.free = false)
    (hsize : size ≠ 0) (hlt : size ≤ maxRequest) (hb : b ∈ h.blocks) (hused : b.free = false)
    (hne : b.addr ≠ c.addr) (hres : krealloc h (c.addr + headerSize) size = some (p, h')) :
    b ∈ h'.blocks ∧ SameBytes b h h' := by
  rcases krealloc_cases hok hc hcused hsize hlt hres with ⟨-, rfl, -⟩ | ⟨-, halloc⟩ |
    ⟨g, vm, d, halloc, hd, hdused, rfl, hsmall, henough, hother, hfree⟩
  · exact ⟨hb, fun _ _ => rfl⟩
  · exact kmalloc_others hok hb hused halloc
  · have hg := (kmalloc_keeps hok hsize hlt halloc).1
    obtain ⟨hcg, -⟩ := kmalloc_others hok hc hcused halloc
    obtain ⟨hbg, hsame⟩ := kmalloc_others hok hb hused halloc
    obtain ⟨-, -, -, hothers⟩ :=
      krealloc_moves hg hcg hd hdused (hother c hc hcused) (by omega) hfree
    obtain ⟨hb', hsame'⟩ := hothers b hbg hused hne (hother b hb hused)
    exact ⟨hb', fun i hi => (hsame' i hi).trans (hsame i hi)⟩

/-- The pointer that a call passes, if it passes one. -/
def HeapCall.pointer : HeapCall → Nat
  | .krealloc ptr _ => ptr
  | .kfree ptr => ptr
  | _ => 0

/-- A call for other memory keeps a used block and its bytes. -/
theorem exec_keeps (hok : HeapOk (· ≤ ·) h) (hb : b ∈ h.blocks) (hused : b.free = false)
    (hlt : call.size ≤ maxRequest) (hallowed : h.Allowed call)
    (hother : call.pointer ≠ b.addr + headerSize) (hres : h.exec call = some (p, h')) :
    b ∈ h'.blocks ∧ SameBytes b h h' := by
  have hfreed : ∀ ptr g, ptr = 0 ∨ h.Live ptr → ptr ≠ b.addr + headerSize →
      kfree h ptr = some g → b ∈ g.blocks ∧ SameBytes b h g := by
    rintro ptr g hlive hptr hfree
    rcases hlive with rfl | ⟨c, hc, -, rfl⟩
    · cases hfree
      exact ⟨hb, fun _ _ => rfl⟩
    · have hne : b.addr ≠ sub32 (c.addr + headerSize) headerSize := by
        rw [(hok.blockAt hc).1]
        intro heq
        exact hptr (by rw [heq])
      obtain ⟨hb', hbytes⟩ := kfree_keeps hb hused hne hfree
      exact ⟨hb', fun i _ => by rw [hbytes]⟩
  cases call with
  | kmalloc size => exact kmalloc_others hok hb hused hres
  | kfree ptr =>
    obtain ⟨g, hfree, hg⟩ := Option.map_eq_some_iff.mp hres
    cases hg
    exact hfreed ptr h' hallowed hother hfree
  | kzalloc size =>
    obtain ⟨⟨q, g⟩, halloc, hrest⟩ := Option.bind_eq_some_iff.mp hres
    obtain ⟨hbg, hsame⟩ := kmalloc_others hok hb hused halloc
    dsimp only at hrest
    split_ifs at hrest with hq
    · cases hrest
      exact ⟨hbg, hsame⟩
    · obtain ⟨vm, -, hend⟩ := Option.bind_eq_some_iff.mp hrest
      cases hend
      have hsize : size ≠ 0 := by
        rintro rfl
        exact hq (kmalloc_zero_keeps halloc).1
      obtain ⟨hg, hserved⟩ := kmalloc_keeps hok hsize hlt halloc
      obtain ⟨c, hc, -, rfl, henough, hapart⟩ := hserved.resolve_left hq
      have henough : size ≤ c.size := henough
      have hfilled : SameBytes b g { g with
          bytes := fillBytes g.bytes (c.addr + headerSize) size } := by
        refine hg.sameBytes hbg hc (hapart b hb hused) ?_
        intro a ha
        refine fillBytes_outside ?_
        omega
      exact ⟨hbg, fun i hi => (hfilled i hi).trans (hsame i hi)⟩
  | krealloc ptr size =>
    by_cases hptr : ptr = 0
    · subst hptr
      exact kmalloc_others hok hb hused hres
    obtain ⟨c, hc, hcused, rfl⟩ := hallowed.resolve_left hptr
    by_cases hsize : size = 0
    · subst hsize
      unfold Heap.exec krealloc at hres
      dsimp only at hres
      rw [if_neg hptr, if_pos rfl] at hres
      obtain ⟨g, hfree, hend⟩ := Option.bind_eq_some_iff.mp hres
      cases hend
      exact hfreed _ _ hallowed hother hfree
    · refine krealloc_others hok hc hcused hsize hlt hb hused ?_ hres
      intro heq
      exact hother (by rw [heq]; rfl)

/-- Pointers stay live through calls that do not pass them. -/
theorem Heap.Live.exec {a : Nat} (hlive : h.Live a) (hok : HeapOk (· ≤ ·) h)
    (hlt : call.size ≤ maxRequest) (hallowed : h.Allowed call) (hother : call.pointer ≠ a)
    (hres : h.exec call = some (p, h')) : h'.Live a := by
  obtain ⟨b, hb, hused, rfl⟩ := hlive
  exact ⟨b, (exec_keeps hok hb hused hlt hallowed hother hres).1, hused, rfl⟩

/-- `kzalloc` of a nonzero size returns NULL or a pointer that was not live. -/
theorem kzalloc_fresh (hok : HeapOk (· ≤ ·) h) (hsize : size ≠ 0) (hlt : size ≤ maxRequest)
    (halloc : kzalloc h size = some (p, h')) : p = 0 ∨ h'.Live p ∧ ¬ h.Live p := by
  obtain ⟨⟨q, g⟩, hmalloc, hrest⟩ := Option.bind_eq_some_iff.mp halloc
  obtain ⟨-, hserved⟩ := kmalloc_keeps hok hsize hlt hmalloc
  dsimp only at hrest
  split_ifs at hrest with hq
  · cases hrest
    exact Or.inl hq
  · obtain ⟨vm, -, hend⟩ := Option.bind_eq_some_iff.mp hrest
    cases hend
    obtain ⟨c, hc, hcused, rfl, -, hapart⟩ := hserved.resolve_left hq
    refine Or.inr ⟨⟨c, hc, hcused, rfl⟩, ?_⟩
    rintro ⟨b, hb, hused, heq⟩
    exact hapart b hb hused (Nat.add_right_cancel heq).symm

end PinguinOS.Mm
