import PinguinOS.Mm.HeapKeeps
import PinguinOS.Mm.HeapRelease
import PinguinOS.Mm.HeapServe

/-! What `krealloc` leaves: the data, every other allocation, and one pointer of the two. -/
namespace PinguinOS.Mm

/-- `p` is the block `b` of `h` made `size` bytes large. -/
structure Reallocated (h : Heap) (b : Block) (size p : Nat) (h' : Heap) : Prop where
  block : ∃ c ∈ h'.blocks, c.free = false ∧ p = c.addr + headerSize ∧ size ≤ c.size
  mapped : ∀ a, p ≤ a → a < p + size → pagingGetPhys h'.vm a ≠ 0
  contents : ∀ i < min b.size size, h'.bytes (p + i) = h.bytes (b.addr + headerSize + i)
  others : ∀ d ∈ h.blocks, d.free = false → d.addr ≠ b.addr → d ∈ h'.blocks ∧ SameBytes d h h'
  released : p ≠ b.addr + headerSize → ¬ h'.Live (b.addr + headerSize)

variable {kernStart kernEnd totalPages size p : Nat} {h h' g : Heap} {b c : Block} {v : Vm}

/-! The old block after the call. -/

/-- `kfree` of a live pointer ends, and the pointer is live no more. -/
theorem Shape.kfree_live (hok : HeapOk (· ≤ ·) h) (hb : b ∈ h.blocks) (hused : b.free = false) :
    ∃ h', PinguinOS.Mm.kfree h (b.addr + headerSize) = some h' ∧
      ¬ h'.Live (b.addr + headerSize) := by
  obtain ⟨hheader, hat⟩ := hok.blockAt hb
  have hbounds := hok.bounds hb
  have hlimit := hok.limit
  have hmarked := hok.laid.marked b hb
  unfold Block.stop headerSize at hbounds
  unfold kheapMax at hlimit
  have howned : h.Owned (b.addr + headerSize) := by
    refine ⟨b, ?_, by omega, ?_, hat⟩
    · rw [u32_of_lt]
      unfold headerSize
      omega
    · rcases hmarked with ⟨hfree, -⟩ | ⟨-, hmagic⟩
      · rw [hused] at hfree
        cases hfree
      · exact hmagic
  refine howned.kfree ?_
  unfold headerSize
  omega

/-- The bytes of a block that is not where the range starts are in mapped pages. -/
theorem HeapSound.mapped_block (hs : HeapSound kernStart kernEnd totalPages h)
    (hb : b ∈ h.blocks) : ∀ a, b.addr + headerSize ≤ a → a < b.stop →
      pagingGetPhys h.vm a ≠ 0 := by
  obtain ⟨hlo, hhi⟩ := hs.shape.bounds hb
  intro a hge hlt
  exact hs.mapped a (by omega) (by omega)

theorem HeapSound.touch_block (hs : HeapSound kernStart kernEnd totalPages h) (hb : b ∈ h.blocks)
    (hle : size ≤ b.size) : PinguinOS.Mm.touch h.vm (b.addr + headerSize) size = some h.vm := by
  obtain ⟨hlo, hhi⟩ := hs.shape.bounds hb
  unfold Block.stop at hhi
  exact touch_inside (by omega) (by omega) hs.mapped

/-! The two ways to a result. -/

theorem krealloc_inPlace (hok : HeapOk (· ≤ ·) h) (hb : b ∈ h.blocks) (hsize : size ≠ 0)
    (hlarge : size ≤ b.size) :
    krealloc h (b.addr + headerSize) size = some (b.addr + headerSize, h) := by
  obtain ⟨hheader, hat⟩ := hok.blockAt hb
  unfold krealloc
  rw [if_neg (Nat.ne_of_gt (Nat.lt_of_lt_of_le (by decide) (Nat.le_add_left headerSize b.addr))),
    if_neg hsize, hheader, hat]
  exact if_pos hlarge

theorem reallocated_inPlace (hs : HeapSound kernStart kernEnd totalPages h) (hb : b ∈ h.blocks)
    (hused : b.free = false) (hlarge : size ≤ b.size) :
    Reallocated h b size (b.addr + headerSize) h where
  block := ⟨b, hb, hused, rfl, hlarge⟩
  mapped := by
    intro a hlo hhi
    refine hs.mapped_block hb a hlo ?_
    unfold Block.stop
    omega
  contents := fun _ _ => rfl
  others := fun d hd _ _ => ⟨hd, fun _ _ => rfl⟩
  released := fun hne => absurd rfl hne

/-- A block that is too small: the call ends with NULL or with a block of its own. -/
theorem HeapSound.krealloc_grows (hs : HeapSound kernStart kernEnd totalPages h)
    (hb : b ∈ h.blocks) (hused : b.free = false) (hsize : size ≠ 0) (hsmall : b.size < size)
    (hcan : CanServe h size) :
    ∃ p h', PinguinOS.Mm.krealloc h (b.addr + headerSize) size = some (p, h') ∧
      (p ≠ 0 → Reallocated h b size p h') := by
  obtain ⟨hheader, hat⟩ := hs.shape.blockAt hb
  have hptr : b.addr + headerSize ≠ 0 := by
    unfold headerSize
    omega
  obtain ⟨q, g, halloc, hg, -⟩ := hs.serves hsize hcan
  have halloc : kmalloc h size = some (q, g) := halloc 0x10000
  unfold krealloc
  rw [if_neg hptr, if_neg hsize, hheader, hat]
  dsimp only [Option.bind_eq_bind, Option.bind_some]
  rw [if_neg (Nat.not_le.mpr hsmall), halloc]
  dsimp only [Option.bind_some]
  obtain ⟨-, hserved⟩ := kmalloc_keeps hs.shape hsize hcan.1 halloc
  obtain ⟨hbg, hbsame⟩ := kmalloc_others hs.shape hb hused halloc
  by_cases hnull : q = 0
  · rw [if_pos hnull]
    exact ⟨0, g, rfl, fun hne => absurd rfl hne⟩
  obtain ⟨c, hc, hcused, rfl, henough, hapart⟩ := hserved.resolve_left hnull
  rw [if_neg hnull, (hg.shape.blockAt hbg).2]
  dsimp only [Option.bind_some]
  rw [hg.touch_block hbg (Nat.le_refl _)]
  dsimp only [Option.bind_some]
  rw [hg.touch_block hc (by omega)]
  dsimp only [Option.bind_some]
  -- the copy changes no block
  have hcopied : HeapOk (· ≤ ·) { g with
      bytes := copyBytes g.bytes (c.addr + headerSize) (b.addr + headerSize) b.size } := hg.shape
  obtain ⟨h', hfree, hdead⟩ := hcopied.kfree_live hbg hused
  obtain ⟨hok', hc', hcopy, hothers⟩ :=
    krealloc_moves hg.shape hbg hc hcused (hapart b hb hused) (by omega) hfree
  obtain ⟨hvm, hbrk⟩ := kfree_kept hfree
  have hs' : HeapSound kernStart kernEnd totalPages h' := by
    refine ⟨hok', hvm ▸ hg.tables, ?_⟩
    unfold Heap.Mapped
    rw [hvm, hbrk]
    exact hg.mapped
  rw [hfree]
  refine ⟨c.addr + headerSize, h', rfl, fun _ => ?_⟩
  constructor
  case block => exact ⟨c, hc', hcused, rfl, henough⟩
  case mapped =>
    intro a hlo hhi
    refine hs'.mapped_block hc' a hlo ?_
    unfold Block.stop
    omega
  case contents =>
    intro i hi
    exact (hcopy i (by omega)).trans (hbsame i (by omega))
  case others =>
    intro d hd hdused hne
    obtain ⟨hdg, hdsame⟩ := kmalloc_others hs.shape hd hdused halloc
    obtain ⟨hd', hdsame'⟩ := hothers d hdg hdused hne (hapart d hd hdused)
    exact ⟨hd', fun i hi => (hdsame' i hi).trans (hdsame i hi)⟩
  case released => exact fun _ => hdead

/-- `krealloc` of a live pointer, whatever its owner and the others have stored. -/
theorem HeapSound.krealloc (hs : HeapSound kernStart kernEnd totalPages h) (hb : b ∈ h.blocks)
    (hused : b.free = false) (hsize : 0 < size)
    (hcall : CallServable h (.krealloc (b.addr + headerSize) size) h) :
    ∃ p h', PinguinOS.Mm.krealloc h (b.addr + headerSize) size = some (p, h') ∧
      (p ≠ 0 → Reallocated h b size p h') := by
  obtain ⟨hle, hmaps⟩ := hcall
  by_cases hlarge : size ≤ b.size
  · exact ⟨_, h, krealloc_inPlace hs.shape hb (Nat.ne_of_gt hsize) hlarge,
      fun _ => reallocated_inPlace hs hb hused hlarge⟩
  · have hrequest : h.request (.krealloc (b.addr + headerSize) size) = some size := by
      obtain ⟨hheader, hat⟩ := hs.shape.blockAt hb
      have hptr : b.addr + headerSize ≠ 0 := by
        unfold headerSize
        omega
      unfold Heap.request
      dsimp only
      rw [if_neg hptr, if_neg (Nat.ne_of_gt hsize), hheader, hat]
      exact if_neg hlarge
    exact hs.krealloc_grows hb hused (Nat.ne_of_gt hsize) (Nat.not_le.mp hlarge)
      ⟨hle, hmaps size hrequest (Nat.ne_of_gt hsize)⟩

/-- In every state of a run, with any contents: `krealloc` of any live pointer ends, and what it
returns has the data. -/
theorem krealloc_preserves {calls : List HeapCall} (hv : TablesOk kernStart kernEnd totalPages v)
    (hinit : heapInit v = some h) (hmaps : (Heap.empty v).GrowthMaps 4)
    (hcalls : Run.EveryStep Heap.step CallServable h calls) :
    Run.EveryState Heap.step (fun h => ∀ bytes, ∀ b ∈ h.blocks, b.free = false → ∀ size,
      0 < size → CallServable { h with bytes := bytes } (.krealloc (b.addr + headerSize) size) h →
        ∃ p h', krealloc { h with bytes := bytes } (b.addr + headerSize) size =
          some (p, h') ∧ (p ≠ 0 → Reallocated { h with bytes := bytes } b size p h'))
      h calls := by
  refine hcalls.everyState (I := HeapSound kernStart kernEnd totalPages) ?_ ?_
    (heapSound_init hv hinit hmaps)
  · intro s c t hs hstep hcall
    unfold Heap.step at hstep
    split_ifs at hstep
    obtain ⟨⟨p, t'⟩, hres, rfl⟩ := Option.map_eq_some_iff.mp hstep
    exact hs.exec hcall hres
  · intro s hs bytes b hb hused size hsize hcall
    have hs' : HeapSound kernStart kernEnd totalPages { s with bytes := bytes } :=
      ⟨hs.shape, hs.tables, hs.mapped⟩
    exact hs'.krealloc hb hused hsize hcall

/-- The block of a call for 256 bytes. -/
theorem krealloc_preserves_smallVm : ∃ h, heapInit (smallVm fun _ => false) = some h ∧
    Run.EveryState Heap.step (fun h => ∀ bytes, ∀ b ∈ h.blocks, b.free = false → ∀ size,
      0 < size → CallServable { h with bytes := bytes } (.krealloc (b.addr + headerSize) size) h →
        ∃ p h', krealloc { h with bytes := bytes } (b.addr + headerSize) size =
          some (p, h') ∧ (p ≠ 0 → Reallocated { h with bytes := bytes } b size p h'))
      h [.kmalloc 0x100] := by
  obtain ⟨h, hinit⟩ := Option.isSome_iff_exists.mp smallVm_init
  exact ⟨h, hinit, krealloc_preserves tablesOk_smallVm hinit smallVm_growthMaps
    (smallVm_callServable hinit)⟩

end PinguinOS.Mm
