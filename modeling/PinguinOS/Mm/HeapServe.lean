import PinguinOS.Mm.HeapPages

/-! What a call that is served gets: memory of its own in the mapped part of the heap. -/
namespace PinguinOS.Mm

/-- Every page up to `heap_brk` is mapped. -/
def Heap.Mapped (h : Heap) : Prop :=
  ∀ a, kheapStart ≤ a → a < h.brk → pagingGetPhys h.vm a ≠ 0

/-- `paging_map_page` maps each page that a growth of `n` pages gets. -/
def Heap.GrowthMaps (h : Heap) (n : Nat) : Prop :=
  ∀ k < n, (∀ j ≤ k, ¬ (h.afterPages j).Stops) → (h.afterPages k).MapsPage

/-- The same for the growth of a request, if it needs one. -/
def Heap.RequestMaps (h : Heap) (size : Nat) : Prop :=
  (∀ b ∈ h.blocks, b.fits (alignUp size 8) = false) → h.GrowthMaps (requestPages size)

/-- `[p, p + size)` is mapped, in one used block, and in no block that was live before. -/
structure Returned (h : Heap) (size p : Nat) (h' : Heap) : Prop where
  aligned : p % 8 = 0
  inside : kheapStart ≤ p ∧ p + size ≤ h'.brk
  mapped : ∀ a, p ≤ a → a < p + size → pagingGetPhys h'.vm a ≠ 0
  block : ∃! b, b ∈ h'.blocks ∧ b.free = false ∧ b.addr + headerSize ≤ p ∧ p + size ≤ b.stop
  apart : ∀ b ∈ h.blocks, b.free = false →
    b ∈ h'.blocks ∧ (b.stop ≤ p ∨ p + size ≤ b.addr + headerSize)

/-- `kmalloc` ends after one successful growth at most, and returns NULL or memory. -/
def Serves (h : Heap) (size : Nat) : Prop :=
  ∃ p h', (∀ depth, heapAllocRaw (depth + 2) h size = some (p, h')) ∧
    (p = 0 ∨ Returned h size p h')

/-- The size leaves room for the header and the rounding, and the pages it needs get mapped. -/
def CanServe (h : Heap) (size : Nat) : Prop := size ≤ maxRequest ∧ h.RequestMaps size

structure HeapSound (kernStart kernEnd totalPages : Nat) (h : Heap) : Prop where
  shape : HeapOk (· ≤ ·) h
  tables : TablesOk kernStart kernEnd totalPages h.vm
  mapped : h.Mapped

variable {kernStart kernEnd totalPages n k size p depth brk lo : Nat} {h h' g : Heap} {b : Block}
  {l blocks : List Block} {c : HeapCall} {vm vm' v : Vm}

/-! Growths map what they get. -/

theorem growPage_mapped (hs : HeapOk (· ≤ ·) h) (hv : TablesOk kernStart kernEnd totalPages h.vm)
    (hmapped : h.Mapped) (hgo : ¬ h.Stops) (hmaps : h.MapsPage) : (heapGrowPage h).2.Mapped := by
  have hgrown := growPage_grown_goes hs.limit hgo
  have hmore := mapsMore_growPage hv
  obtain ⟨hphys, hlt⟩ := hv.allocPage_addr (not_or.mp hgo).2
  intro a hlo hhi
  rw [hgrown.brk] at hhi
  by_cases hold : a < h.brk
  · exact hmore.mapped a (hmapped a hlo hold)
  · have hpage := hs.page
    unfold pageSize at hhi
    rw [growPage_goes hgo]
    exact mapPage_maps (mapsMore_allocPage hv).tables hphys hlt hmaps (by omega)

/-- The pages of a growth up to the first that is refused. -/
theorem afterPages_mapped (hs : HeapOk (· ≤ ·) h)
    (hv : TablesOk kernStart kernEnd totalPages h.vm) (hmapped : h.Mapped)
    (hgo : ∀ j < k, ¬ (h.afterPages j).Stops) (hmaps : ∀ j < k, (h.afterPages j).MapsPage) :
    TablesOk kernStart kernEnd totalPages (h.afterPages k).vm ∧ (h.afterPages k).Mapped := by
  induction k generalizing h with
  | zero => exact ⟨hv, hmapped⟩
  | succ k ih =>
    have hfirst := hgo 0 (Nat.succ_pos k)
    have hgrown := growPage_grown_goes hs.limit hfirst
    have hnext := hs.grown hgrown (Or.inr fun _ _ hle => hle)
    exact ih hnext (mapsMore_growPage hv).tables
      (growPage_mapped hs hv hmapped hfirst (hmaps 0 (Nat.succ_pos k)))
      (fun j hj => hgo (j + 1) (Nat.succ_lt_succ hj))
      fun j hj => hmaps (j + 1) (Nat.succ_lt_succ hj)

/-- A page that is refused changes no mapping. -/
theorem growPage_stops_mapped (hv : TablesOk kernStart kernEnd totalPages h.vm)
    (hmapped : h.Mapped) (hstop : h.Stops) : (heapGrowPage h).2.Mapped := by
  have hmore := mapsMore_growPage hv
  have hbrk : (heapGrowPage h).2.brk = h.brk := by
    rcases growPage_stops hstop with heq | ⟨-, heq⟩ <;> rw [heq]
  intro a hlo hhi
  rw [hbrk] at hhi
  exact hmore.mapped a (hmapped a hlo hhi)

theorem grow_mapped (hs : HeapOk (· ≤ ·) h) (hv : TablesOk kernStart kernEnd totalPages h.vm)
    (hmapped : h.Mapped) {needed : Nat} (hmaps : h.GrowthMaps (growPages needed)) :
    (heapGrow h needed).2.Mapped := by
  obtain ⟨k, hk, hgo, hend⟩ := @heapGrowPages_cases h (growPages needed)
  have hpages : ∀ j < k, (h.afterPages j).MapsPage := by
    intro j hj
    exact hmaps j (by omega) fun i hi => hgo i (by omega)
  obtain ⟨htables, hafter⟩ := afterPages_mapped hs hv hmapped hgo hpages
  unfold heapGrow
  rcases hend with ⟨-, heq⟩ | ⟨-, hstop, heq⟩
  · rw [heq]
    exact hafter
  · rw [heq]
    exact growPage_stops_mapped htables hafter hstop

/-! Headers in the mapped part are written without a fault. -/

/-- The pages of a range that lies in the heap. -/
theorem touch_inside {addr len : Nat} (hlo : kheapStart ≤ addr) (hhi : addr + len ≤ h.brk)
    (hmapped : h.Mapped) : touch h.vm addr len = some h.vm := by
  refine touch_mapped fun page hpage => ?_
  unfold pagesOf at hpage
  split_ifs at hpage with hlen
  · cases hpage
  · obtain ⟨i, hi, rfl⟩ := List.mem_range'.mp hpage
    unfold kheapStart pageSize at *
    exact hmapped _ (by unfold kheapStart; omega) (by omega)

theorem heapSplit_inside (hmapped : h.Mapped) (hb : kheapStart ≤ b.addr ∧ b.stop ≤ h.brk)
    (hlimit : h.brk ≤ kheapMax) (hle : size ≤ maxRequest) :
    ∃ blk' next', heapSplit h.vm b l size = some (h.vm, blk', next') := by
  obtain ⟨hlo, hhi⟩ := hb
  unfold Block.stop at hhi
  unfold maxRequest at hle
  unfold kheapMax at hlimit
  unfold heapSplit
  split_ifs with hsmall
  · exact ⟨b, l, rfl⟩
  · have hroom : u32 (size + headerSize + heapMinSplit) = size + 16 + 32 := by
      unfold headerSize heapMinSplit u32
      omega
    rw [hroom] at hsmall
    unfold headerSize at hhi
    have hnew : u32 (b.addr + headerSize + size) = b.addr + 16 + size := by
      unfold headerSize u32
      omega
    have htouch : touch h.vm (u32 (b.addr + headerSize + size)) headerSize = some h.vm := by
      refine touch_inside ?_ ?_ hmapped
      · rw [hnew]
        omega
      · rw [hnew]
        unfold headerSize
        omega
    dsimp only
    rw [htouch]
    exact ⟨_, _, rfl⟩

/-- A pass over the list ends, and the page tables are as before. -/
theorem takeFirstFit_inside (hmapped : h.Mapped)
    (hblocks : ∀ b ∈ blocks, kheapStart ≤ b.addr ∧ b.stop ≤ h.brk) (hlimit : h.brk ≤ kheapMax)
    (hle : size ≤ maxRequest) :
    ∃ taken l, takeFirstFit h.vm size blocks = some (h.vm, taken, l) := by
  induction blocks with
  | nil => exact ⟨none, [], rfl⟩
  | cons b rest ih =>
    unfold takeFirstFit
    split_ifs with hfits
    · obtain ⟨blk', next', hsplit⟩ :=
        @heapSplit_inside size h b rest hmapped (hblocks b List.mem_cons_self) hlimit hle
      rw [hsplit]
      exact ⟨_, _, rfl⟩
    · obtain ⟨taken, l, hrest⟩ := ih fun c hc => hblocks c (List.mem_cons_of_mem b hc)
      rw [hrest]
      exact ⟨_, _, rfl⟩

theorem HeapSound.take (hs : HeapSound kernStart kernEnd totalPages h) (hle : size ≤ maxRequest) :
    ∃ taken l, takeFirstFit h.vm (alignUp size 8) h.blocks = some (h.vm, taken, l) :=
  takeFirstFit_inside hs.mapped (fun _ hb => hs.shape.bounds hb) hs.shape.limit
    (alignUp_request hle).2.2

/-- A pass over a list with a block that is large enough. -/
theorem HeapSound.found (hs : HeapSound kernStart kernEnd totalPages h) (hsize : size ≠ 0)
    (hle : size ≤ maxRequest) (hfits : ∃ b ∈ h.blocks, b.fits (alignUp size 8) = true) :
    ∃ p h', (∀ depth, heapAllocRaw (depth + 1) h size = some (p, h')) ∧
      HeapSound kernStart kernEnd totalPages h' ∧ Served h size p h' := by
  obtain ⟨taken, l, htake⟩ := hs.take hle
  cases taken with
  | none =>
    obtain ⟨b, hb, hbfits⟩ := hfits
    rw [(takeFirstFit_none htake).2.2 b hb] at hbfits
    cases hbfits
  | some b =>
    obtain ⟨hshape, hserved⟩ := hs.shape.served hle htake rfl rfl
    refine ⟨_, _, fun depth => ?_, ⟨hshape, hs.tables, hs.mapped⟩, hserved⟩
    rw [heapAllocRaw, if_neg hsize]
    dsimp only
    rw [htake]
    rfl

/-- A pass over a list without one, when the growth is refused. -/
theorem HeapSound.refused (hs : HeapSound kernStart kernEnd totalPages h) (hsize : size ≠ 0)
    (hle : size ≤ maxRequest) (hnone : ∀ b ∈ h.blocks, b.fits (alignUp size 8) = false)
    (hmaps : h.GrowthMaps (requestPages size))
    (hfail : (heapGrow h (growSize (alignUp size 8))).1 = false) :
    ∃ h', (∀ depth, heapAllocRaw (depth + 1) h size = some (0, h')) ∧
      HeapSound kernStart kernEnd totalPages h' := by
  obtain ⟨taken, l, htake⟩ := hs.take hle
  obtain ⟨k, -, -, hg, -⟩ := heapGrow_cases (growSize (alignUp size 8)) hs.shape.limit
  have hgrown : HeapSound kernStart kernEnd totalPages
      (heapGrow h (growSize (alignUp size 8))).2 := by
    constructor
    case shape => exact hs.shape.grown hg (Or.inr fun _ _ hle => hle)
    case tables => exact (mapsMore_grow hs.tables _).tables
    case mapped => exact grow_mapped hs.shape hs.tables hs.mapped hmaps
  refine ⟨_, fun depth => ?_, hgrown⟩
  cases taken with
  | some b => exact absurd hnone (takeFirstFit_fits htake)
  | none =>
    rw [heapAllocRaw, if_neg hsize]
    dsimp only
    rw [htake, Option.bind_eq_bind, Option.bind_some]
    dsimp only
    rw [hfail]
    rfl

/-- A growth that gets its pages appends a block, and the next pass takes it. -/
theorem HeapSound.grows (hs : HeapSound kernStart kernEnd totalPages h) (hsize : size ≠ 0)
    (hle : size ≤ maxRequest) (hnone : ∀ b ∈ h.blocks, b.fits (alignUp size 8) = false)
    (hmaps : h.GrowthMaps (requestPages size))
    (hfull : (heapGrow h (growSize (alignUp size 8))).1 = true) :
    ∃ p h', (∀ depth, heapAllocRaw (depth + 2) h size = some (p, h')) ∧
      HeapSound kernStart kernEnd totalPages h' ∧ Served h size p h' := by
  obtain ⟨taken, l, htake⟩ := hs.take hle
  obtain ⟨hmod, hge, hmost⟩ := alignUp_request hle
  obtain ⟨hpos, -⟩ := requestPages_bounds hle
  obtain ⟨k, -, -, hg, hend⟩ := heapGrow_cases (growSize (alignUp size 8)) hs.shape.limit
  have hk : k = requestPages size := by
    rcases hend with ⟨hk, -⟩ | ⟨-, -, hfail⟩
    · exact hk
    · rw [hfull] at hfail
      cases hfail
  subst hk
  have hmapped := grow_mapped hs.shape hs.tables hs.mapped hmaps
  have htables := (mapsMore_grow hs.tables (growSize (alignUp size 8))).tables
  have hgrow : heapGrow h (growSize (alignUp size 8)) =
      (true, (heapGrow h (growSize (alignUp size 8))).2) := Prod.ext hfull rfl
  generalize (heapGrow h (growSize (alignUp size 8))).2 = g at hg hmapped htables hgrow
  have hbrk := hg.brk
  have htouch : touch g.vm h.brk headerSize = some g.vm := by
    refine touch_inside hs.shape.start ?_ hmapped
    have hroom : pageSize ≤ requestPages size * pageSize := Nat.le_mul_of_pos_left _ hpos
    unfold headerSize
    unfold pageSize at hroom hbrk
    omega
  have happended : HeapSound kernStart kernEnd totalPages (g.append h.brk g.vm) :=
    ⟨hs.shape.append g.vm hg hpos, htables, hmapped⟩
  have hfixed : alignUp (alignUp size 8) 8 = alignUp size 8 := by
    unfold maxRequest at hmost
    rw [@alignUp_eight (alignUp size 8), u32_of_lt (by omega)]
    omega
  have hfits : ∃ b ∈ (g.append h.brk g.vm).blocks, b.fits (alignUp size 8) = true :=
    append_fits hle hg
  rw [← hfixed] at hfits
  obtain ⟨p, h', hagain, hsound, b, hp, htaken⟩ := happended.found (by omega) hmost hfits
  refine ⟨p, h', fun depth => ?_, hsound, b, hp, ?_⟩
  · cases taken with
    | some b => exact absurd hnone (takeFirstFit_fits htake)
    | none =>
      rw [heapAllocRaw, if_neg hsize]
      dsimp only
      rw [htake, Option.bind_eq_bind, Option.bind_some]
      dsimp only
      rw [hgrow]
      dsimp only
      rw [htouch]
      exact hagain depth
  · refine ⟨htaken.mem, htaken.inUse, Nat.le_trans hge htaken.enough, ?_⟩
    intro c hc hused
    refine htaken.old c ?_ hused
    unfold Heap.append
    rw [hg.blocks]
    exact List.mem_append_left _ hc

/-! What was served is memory. -/

theorem HeapSound.returned (hs : HeapSound kernStart kernEnd totalPages h') (hsize : size ≠ 0)
    (hserved : Served h size p h') : Returned h size p h' := by
  obtain ⟨b, rfl, hmem, hused, henough, hold⟩ := hserved
  have hpos := Nat.pos_of_ne_zero hsize
  obtain ⟨hlo, hhi⟩ := hs.shape.bounds hmem
  have hapart := fun c hc hne => @Shape.apart _ _ _ b _ _ _ hs.shape c hmem hc hne
  unfold Block.stop headerSize at hhi
  constructor
  case aligned =>
    have haddr := (hs.shape.laid.aligned b hmem).1
    unfold headerSize
    omega
  case inside =>
    unfold headerSize
    omega
  case mapped =>
    unfold headerSize
    exact fun a ha ha' => hs.mapped a (by omega) (by omega)
  case block =>
    refine ⟨b, ⟨hmem, hused, Nat.le_refl _, ?_⟩, ?_⟩
    · unfold Block.stop
      omega
    · rintro c ⟨hc, -, hstart, hstop⟩
      by_contra hne
      have hboth := hapart c hc (Ne.symm hne)
      unfold Block.stop headerSize at hboth hstop
      unfold headerSize at hstart
      omega
  case apart =>
    intro c hc hcused
    obtain ⟨hc', hne⟩ := hold c hc hcused
    have hboth := hapart c hc' fun heq => hne (congrArg Block.addr heq.symm)
    refine ⟨hc', ?_⟩
    unfold Block.stop headerSize at hboth
    unfold Block.stop headerSize
    omega

/-- A request that can be served is, or there is no memory for it. -/
theorem HeapSound.serves (hs : HeapSound kernStart kernEnd totalPages h) (hsize : size ≠ 0)
    (hcan : CanServe h size) :
    ∃ p h', (∀ depth, heapAllocRaw (depth + 2) h size = some (p, h')) ∧
      HeapSound kernStart kernEnd totalPages h' ∧ (p = 0 ∨ Returned h size p h') := by
  obtain ⟨hle, hmaps⟩ := hcan
  by_cases hfits : ∃ b ∈ h.blocks, b.fits (alignUp size 8) = true
  · obtain ⟨p, h', halloc, hsound, hserved⟩ := hs.found hsize hle hfits
    exact ⟨p, h', fun depth => halloc (depth + 1), hsound, Or.inr (hsound.returned hsize hserved)⟩
  · have hnone : ∀ b ∈ h.blocks, b.fits (alignUp size 8) = false := by
      intro b hb
      exact Bool.not_eq_true _ ▸ fun hyes => hfits ⟨b, hb, hyes⟩
    cases hgrow : (heapGrow h (growSize (alignUp size 8))).1 with
    | false =>
      obtain ⟨h', halloc, hsound⟩ := hs.refused hsize hle hnone (hmaps hnone) hgrow
      exact ⟨0, h', fun depth => halloc (depth + 1), hsound, Or.inl rfl⟩
    | true =>
      obtain ⟨p, h', halloc, hsound, hserved⟩ := hs.grows hsize hle hnone (hmaps hnone) hgrow
      exact ⟨p, h', halloc, hsound, Or.inr (hsound.returned hsize hserved)⟩

/-! Runs. -/

/-- The size of a call is one that can be served, as far as it gets to the allocator. -/
def CallServable (h : Heap) (c : HeapCall) (_ : Heap) : Prop :=
  c.size ≤ maxRequest ∧ ∀ size, h.request c = some size → size ≠ 0 → h.RequestMaps size

theorem HeapSound.exec (hs : HeapSound kernStart kernEnd totalPages h)
    (hcall : CallServable h c h') (hres : h.exec c = some (p, h')) :
    HeapSound kernStart kernEnd totalPages h' := by
  constructor
  case shape => exact hs.shape.exec hcall.1 (Or.inl fun _ _ hle => hle) hres
  case tables => exact (mapsMore_exec hs.tables hres).tables
  case mapped =>
    rcases exec_cases hres with ⟨-, rfl | ⟨ptr, hfree⟩⟩ | ⟨size, g, hreq, halloc, hfin⟩
    · exact hs.mapped
    · unfold Heap.Mapped
      rw [(kfree_kept hfree).1, (kfree_kept hfree).2]
      exact hs.mapped
    · have hg : HeapSound kernStart kernEnd totalPages g := by
        by_cases hsize : size = 0
        · rw [hsize, kmalloc_zero] at halloc
          cases halloc
          exact hs
        · have hle : size ≤ maxRequest := request_size hreq ▸ hcall.1
          obtain ⟨q, g', hall, hsound, -⟩ := hs.serves hsize ⟨hle, hcall.2 size hreq hsize⟩
          cases (hall 0x10000).symm.trans halloc
          exact hsound
      have hmore := mapsMore_finishes hg.tables hfin
      intro a hlo hhi
      rw [hfin.brk] at hhi
      exact hmore.mapped a (hg.mapped a hlo hhi)

theorem heapSound_init (hv : TablesOk kernStart kernEnd totalPages v)
    (hinit : heapInit v = some h) (hmaps : (Heap.empty v).GrowthMaps 4) :
    HeapSound kernStart kernEnd totalPages h := by
  obtain ⟨-, vm, htouch, hg, rfl⟩ := heapInit_cases hinit
  have hempty : HeapOk (· ≤ ·) (Heap.empty v) := shape_empty
  have hpages : growPages (4 * pageSize) = 4 := by decide
  have hgrown : (heapGrow (Heap.empty v) (4 * pageSize)).2.Mapped := by
    refine @grow_mapped kernStart kernEnd totalPages _ hempty hv ?_ _ (hpages ▸ hmaps)
    intro a hlo hhi
    have hstart : (Heap.empty v).brk = kheapStart := rfl
    omega
  have htables := (@mapsMore_grow kernStart kernEnd totalPages (Heap.empty v) hv
    (4 * pageSize)).tables
  have hmore := mapsMore_touch htables htouch
  constructor
  case shape => exact shape_heapInit hinit
  case tables => exact hmore.tables
  case mapped => exact fun a hlo hhi => hmore.mapped a (hgrown a hlo hhi)

/-- In every state of a run whose calls can be served, a size that can be served is. -/
theorem kmalloc_serves {calls : List HeapCall} (hv : TablesOk kernStart kernEnd totalPages v)
    (hinit : heapInit v = some h) (hmaps : (Heap.empty v).GrowthMaps 4)
    (hcalls : Run.EveryStep Heap.step CallServable h calls) :
    Run.EveryState Heap.step (fun h => ∀ size, 0 < size → CanServe h size → Serves h size)
      h calls := by
  refine hcalls.everyState (I := HeapSound kernStart kernEnd totalPages) ?_ ?_
    (heapSound_init hv hinit hmaps)
  · intro s c t hs hstep hcall
    unfold Heap.step at hstep
    split_ifs at hstep
    obtain ⟨⟨p, t'⟩, hres, rfl⟩ := Option.map_eq_some_iff.mp hstep
    exact hs.exec hcall hres
  · intro s hs size hsize hcan
    obtain ⟨p, h', halloc, -, hreturned⟩ := hs.serves (Nat.ne_of_gt hsize) hcan
    exact ⟨p, h', halloc, hreturned⟩

instance {h : Heap} : Decidable h.MapsPage := inferInstanceAs (Decidable (_ = 0))

theorem smallVm_growthMaps : (Heap.empty (smallVm fun _ => false)).GrowthMaps 4 := by
  have hall : ((List.range 4).all fun k =>
      decide ((Heap.empty (smallVm fun _ => false)).afterPages k).MapsPage) = true := by
    rw [smallVm_eq]
    decide +kernel
  intro k hk _
  exact of_decide_eq_true (List.all_eq_true.mp hall k (List.mem_range.mpr hk))

theorem smallVm_mapsPage : ((heapInit (smallVm fun _ => false)).all fun h =>
    decide h.MapsPage) = true := by
  rw [smallVm_eq]
  decide +kernel

theorem smallVm_callServable {h : Heap} (hinit : heapInit (smallVm fun _ => false) = some h) :
    Run.EveryStep Heap.step CallServable h [.kmalloc 0x100] := by
  intro t _
  refine ⟨⟨(by decide : 0x100 ≤ maxRequest), ?_⟩, trivial⟩
  rintro _ ⟨⟩ - -
  have hpages : requestPages 0x100 = 1 := by decide
  have hmaps := smallVm_mapsPage
  rw [hinit] at hmaps
  intro k hk _
  have hfirst : k = 0 := by omega
  rw [hfirst]
  exact of_decide_eq_true hmaps

/-- A call for 256 bytes, and whatever can be served before and after it. -/
theorem kmalloc_serves_smallVm : ∃ h, heapInit (smallVm fun _ => false) = some h ∧
    Run.EveryState Heap.step (fun h => ∀ size, 0 < size → CanServe h size → Serves h size)
      h [.kmalloc 0x100] := by
  obtain ⟨h, hinit⟩ := Option.isSome_iff_exists.mp smallVm_init
  exact ⟨h, hinit, kmalloc_serves tablesOk_smallVm hinit smallVm_growthMaps
    (smallVm_callServable hinit)⟩

theorem smallVm_huge : ((heapInit (smallVm fun _ => false)).bind fun h =>
    (heapAllocRaw 2 h 0xFFFFFFFF).map fun r => (r.1, r.2.brk)) =
      some (0xD0000010, 0xD0004000) := by
  rw [smallVm_eq]
  decide +kernel

/-- The size wraps around to 0, and the call returns a block without a byte. -/
theorem not_kmalloc_serves_huge : ¬ ∀ h, heapInit (smallVm fun _ => false) = some h →
    ∀ size, 0 < size → size < 2 ^ 32 → Serves h size := by
  intro hall
  obtain ⟨h, hinit, halloc⟩ := Option.bind_eq_some_iff.mp smallVm_huge
  obtain ⟨⟨p, t⟩, hres, heq⟩ := Option.map_eq_some_iff.mp halloc
  obtain ⟨hp, hbrk⟩ := Prod.mk.inj heq
  dsimp only at hp hbrk
  obtain ⟨q, t', hserved, hreturned⟩ := hall h hinit 0xFFFFFFFF (by decide) (by decide)
  cases hres.symm.trans (hserved 0)
  rcases hreturned with hzero | hreturned
  · rw [hp] at hzero
    exact absurd hzero (by decide)
  · have hinside := hreturned.inside.2
    rw [hp, hbrk] at hinside
    exact absurd hinside (by decide)

end PinguinOS.Mm
