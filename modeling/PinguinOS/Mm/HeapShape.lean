import PinguinOS.Lib.Layout
import PinguinOS.Mm.Heap

/-! The shape of the block list, and what splitting, marking and merging do to it. -/
namespace PinguinOS.Mm

/-- The address right after the block. -/
def Block.stop (b : Block) : Nat := b.addr + headerSize + b.size

/-- The sizes of the used blocks. -/
def usedSum (l : List Block) : Nat := ((l.filter fun b => !b.free).map Block.size).sum

/-- How far one block may start after the end of the one before it. -/
class Spacing (R : Nat → Nat → Prop) : Prop extends Std.Refl R, IsTrans Nat R where
  le : ∀ a b, R a b → a ≤ b
  add : ∀ a b n, R a b → R (a + n) (b + n)

instance : Spacing Eq where
  refl := Eq.refl
  trans := fun _ _ _ => Eq.trans
  le := fun _ _ => Nat.le_of_eq
  add := by
    rintro a _ n rfl
    rfl

instance : Spacing (· ≤ ·) where
  refl := Nat.le_refl
  trans := fun _ _ _ => Nat.le_trans
  le := fun _ _ h => h
  add := fun _ _ n h => Nat.add_le_add_right h n

/-- The magic of a block tells whether it is free. -/
def Block.Marked (b : Block) : Prop :=
  b.free = true ∧ b.magic = heapMagicFree ∨ b.free = false ∧ b.magic = heapMagicUsed

/-- Blocks laid out between two addresses. -/
structure Laid (R : Nat → Nat → Prop) (lo hi : Nat) (blocks : List Block) : Prop where
  packed : Layout.Packed R Block.addr Block.stop lo hi blocks
  marked : ∀ b ∈ blocks, b.Marked
  aligned : ∀ b ∈ blocks, b.addr % 8 = 0 ∧ b.size % 8 = 0

/-- The block list from `KHEAP_START` to `heap_brk`, and the two counters. -/
structure Shape (R : Nat → Nat → Prop) (blocks : List Block) (brk used total : Nat) : Prop where
  laid : Laid R kheapStart brk blocks
  used : used = usedSum blocks
  total : total = brk - kheapStart
  start : kheapStart ≤ brk
  limit : brk ≤ kheapMax
  page : brk % 4096 = 0

variable {R : Nat → Nat → Prop} [Spacing R] {blocks rest xs ys : List Block} {b blk cur next : Block}
  {brk used total lo hi size addr : Nat}

theorem Block.addr_le_stop (b : Block) : b.addr ≤ b.stop := by
  unfold Block.stop
  omega

@[simp] theorem usedSum_nil : usedSum [] = 0 := rfl

@[simp] theorem usedSum_cons : usedSum (b :: xs) = (if b.free then 0 else b.size) + usedSum xs := by
  unfold usedSum
  cases hb : b.free with
  | true => simp [hb]
  | false => simp [hb]

@[simp] theorem usedSum_append : usedSum (xs ++ ys) = usedSum xs + usedSum ys := by
  simp [usedSum]

theorem packed_le (h : Layout.Packed R Block.addr Block.stop lo hi blocks) :
    Layout.Packed (· ≤ ·) Block.addr Block.stop lo hi blocks := h.mono Spacing.le

/-- The used blocks fit into the range. -/
theorem usedSum_le (h : Layout.Packed R Block.addr Block.stop lo hi blocks) :
    lo + usedSum blocks ≤ hi := by
  induction blocks generalizing lo with
  | nil => exact Spacing.le _ _ h
  | cons b rest ih =>
    have hlo := Spacing.le _ _ h.1
    have hrest := ih h.2
    rw [usedSum_cons]
    unfold Block.stop at hrest
    split_ifs
    · omega
    · omega

theorem Shape.bounds (h : Shape R blocks brk used total) (hb : b ∈ blocks) :
    kheapStart ≤ b.addr ∧ b.stop ≤ brk := (packed_le h.laid.packed).bounds Block.addr_le_stop hb

theorem Shape.used_le (h : Shape R blocks brk used total) : used ≤ brk - kheapStart := by
  have hsum := usedSum_le h.laid.packed
  rw [h.used]
  omega

/-- Blocks share no byte, headers included. -/
theorem Shape.pairwise (h : Shape R blocks brk used total) :
    blocks.Pairwise fun a b => a.stop ≤ b.addr := (packed_le h.laid.packed).pairwise Block.addr_le_stop

theorem Shape.apart (h : Shape R blocks brk used total) {c : Block} (hb : b ∈ blocks)
    (hc : c ∈ blocks) (hne : b ≠ c) : b.stop ≤ c.addr ∨ c.stop ≤ b.addr := by
  have hsym : blocks.Pairwise fun a b => a.stop ≤ b.addr ∨ b.stop ≤ a.addr :=
    h.pairwise.imp Or.inl
  have : Std.Symm fun a b : Block => a.stop ≤ b.addr ∨ b.stop ≤ a.addr := ⟨fun _ _ => Or.symm⟩
  exact hsym.forall hb hc hne

theorem Shape.eq_of_addr (h : Shape R blocks brk used total) {c : Block} (hb : b ∈ blocks)
    (hc : c ∈ blocks) (heq : b.addr = c.addr) : b = c := by
  by_contra hne
  have hap := h.apart hb hc hne
  simp only [Block.stop, headerSize] at hap
  omega

omit [Spacing R] in
theorem laid_cons : Laid R lo hi (b :: xs) ↔
    R lo b.addr ∧ b.Marked ∧ (b.addr % 8 = 0 ∧ b.size % 8 = 0) ∧ Laid R b.stop hi xs := by
  constructor
  · rintro ⟨⟨hlo, hxs⟩, hmarked, haligned⟩
    exact ⟨hlo, hmarked b (by simp), haligned b (by simp), hxs,
      fun c hc => hmarked c (by simp [hc]), fun c hc => haligned c (by simp [hc])⟩
  · rintro ⟨hlo, hmb, hab, hxs⟩
    refine ⟨⟨hlo, hxs.packed⟩, ?_, ?_⟩
    · exact List.forall_mem_cons.mpr ⟨hmb, hxs.marked⟩
    · exact List.forall_mem_cons.mpr ⟨hab, hxs.aligned⟩

theorem Laid.append {mid : Nat} (hxs : Laid R lo mid xs) (hys : Laid R mid hi ys) :
    Laid R lo hi (xs ++ ys) where
  packed := Layout.packed_append.mpr ⟨mid, hxs.packed, hys.packed⟩
  marked := List.forall_mem_append.mpr ⟨hxs.marked, hys.marked⟩
  aligned := List.forall_mem_append.mpr ⟨hxs.aligned, hys.aligned⟩

theorem Laid.of_append (h : Laid R lo hi (xs ++ ys)) :
    ∃ mid, Laid R lo mid xs ∧ Laid R mid hi ys := by
  obtain ⟨mid, hxs, hys⟩ := Layout.packed_append.mp h.packed
  obtain ⟨hmx, hmy⟩ := List.forall_mem_append.mp h.marked
  obtain ⟨hax, hay⟩ := List.forall_mem_append.mp h.aligned
  exact ⟨mid, ⟨hxs, hmx, hax⟩, hys, hmy, hay⟩

/-- Some block is cut or marked anew, in place. -/
theorem Shape.replace (h : Shape R (xs ++ blk :: ys) brk used total) {zs : List Block} {used' : Nat}
    (hzs : Laid R blk.addr blk.stop zs) (hused : used' + usedSum [blk] = used + usedSum zs) :
    Shape R (xs ++ (zs ++ ys)) brk used' total where
  laid := by
    obtain ⟨mid, hxs, hys⟩ := h.laid.of_append
    obtain ⟨hblk, -, -, hys⟩ := laid_cons.mp hys
    exact hxs.append (Laid.append ⟨hzs.packed.lower hblk, hzs.marked, hzs.aligned⟩ hys)
  used := by
    have hold := h.used
    simp only [usedSum_append, usedSum_cons, usedSum_nil] at hold hused ⊢
    omega
  total := h.total
  start := h.start
  limit := h.limit
  page := h.page

/-! `heap_split` -/

/-- The block is cut after `size` bytes of payload, or left whole. -/
theorem heapSplit_cases {vm vm' : Vm} {blk' : Block} {next next' : List Block}
    (h : heapSplit vm blk next size = some (vm', blk', next')) :
    (vm' = vm ∧ blk' = blk ∧ next' = next ∧ blk.size < u32 (size + headerSize + heapMinSplit)) ∨
      (blk' = { blk with size := size } ∧ u32 (size + headerSize + heapMinSplit) ≤ blk.size ∧
        touch vm (u32 (blk.addr + headerSize + size)) headerSize = some vm' ∧
        next' = { addr := u32 (blk.addr + headerSize + size)
                  magic := heapMagicFree
                  size := sub32 (sub32 blk.size size) headerSize
                  free := true } :: next) := by
  unfold heapSplit at h
  split_ifs at h with hsmall
  · cases h
    exact Or.inl ⟨rfl, rfl, rfl, hsmall⟩
  · obtain ⟨vm₁, htouch, hrest⟩ := Option.bind_eq_some_iff.mp h
    cases hrest
    exact Or.inr ⟨rfl, Nat.not_lt.mp hsmall, htouch, rfl⟩

/-! The search of `heap_alloc_raw` -/

theorem takeFirstFit_none {vm vm' : Vm} {l' : List Block}
    (h : takeFirstFit vm size blocks = some (vm', none, l')) :
    vm' = vm ∧ l' = blocks ∧ ∀ b ∈ blocks, b.fits size = false := by
  induction blocks generalizing l' with
  | nil =>
    cases h
    exact ⟨rfl, rfl, by simp⟩
  | cons b rest ih =>
    unfold takeFirstFit at h
    split_ifs at h with hfits
    · obtain ⟨⟨vm₁, blk, l₁⟩, -, hrest⟩ := Option.bind_eq_some_iff.mp h
      cases hrest
    · obtain ⟨⟨vm₁, taken, l₁⟩, htake, hrest⟩ := Option.bind_eq_some_iff.mp h
      cases hrest
      obtain ⟨hvm, rfl, hall⟩ := ih htake
      refine ⟨hvm, rfl, ?_⟩
      intro c hc
      rcases List.mem_cons.mp hc with rfl | hc
      · exact eq_false_of_ne_true hfits
      · exact hall c hc

/-- The first block that fits is split and marked used. -/
theorem takeFirstFit_some {vm vm' : Vm} {l' : List Block}
    (h : takeFirstFit vm size blocks = some (vm', some b, l')) :
    ∃ xs blk ys blk' ys', blocks = xs ++ blk :: ys ∧ blk.fits size = true ∧
      heapSplit vm blk ys size = some (vm', blk', ys') ∧
      b = { blk' with free := false, magic := heapMagicUsed } ∧ l' = xs ++ b :: ys' := by
  induction blocks generalizing l' with
  | nil => cases h
  | cons c rest ih =>
    unfold takeFirstFit at h
    split_ifs at h with hfits
    · obtain ⟨⟨vm₁, blk', ys'⟩, hsplit, hrest⟩ := Option.bind_eq_some_iff.mp h
      cases hrest
      exact ⟨[], c, rest, blk', ys', rfl, hfits, hsplit, rfl, rfl⟩
    · obtain ⟨⟨vm₁, taken, l₁⟩, htake, hrest⟩ := Option.bind_eq_some_iff.mp h
      cases hrest
      obtain ⟨xs, blk, ys, blk', ys', rfl, hblk, hsplit, hb, rfl⟩ := ih htake
      exact ⟨c :: xs, blk, ys, blk', ys', rfl, hblk, hsplit, hb, rfl⟩

/-- Nothing is taken when no block fits. -/
theorem takeFirstFit_fits {vm vm' : Vm} {l' : List Block}
    (h : takeFirstFit vm size blocks = some (vm', some b, l')) :
    ¬ ∀ c ∈ blocks, c.fits size = false := by
  obtain ⟨xs, blk, ys, -, -, rfl, hfits, -⟩ := takeFirstFit_some h
  intro hnone
  have hmem : blk ∈ xs ++ blk :: ys := List.mem_append_right _ List.mem_cons_self
  rw [hnone blk hmem] at hfits
  cases hfits

/-- `b` has been taken out of `blocks` for `size` bytes: the list is `l'` afterwards. -/
structure Taken (blocks : List Block) (size : Nat) (b : Block) (l' : List Block) : Prop where
  mem : b ∈ l'
  inUse : b.free = false
  enough : size ≤ b.size
  old : ∀ c ∈ blocks, c.free = false → c ∈ l' ∧ c.addr ≠ b.addr

/-- Taking a block keeps the shape. -/
theorem Shape.take {vm vm' : Vm} {l' : List Block} (h : Shape R blocks brk used total)
    (hsize : size % 8 = 0) (hlt : size ≤ 0xFFFFEFF0)
    (htake : takeFirstFit vm size blocks = some (vm', some b, l')) :
    Shape R l' brk (u32 (used + b.size)) total ∧ Taken blocks size b l' := by
  obtain ⟨xs, blk, ys, blk', ys', rfl, hfits, hsplit, hb, rfl⟩ := takeFirstFit_some htake
  have hmem : blk ∈ xs ++ blk :: ys := by simp
  have hbounds := h.bounds hmem
  have halign := h.laid.aligned blk hmem
  have hlimit := h.limit
  have hused := h.used_le
  obtain ⟨hfree, hge⟩ : blk.free = true ∧ size ≤ blk.size := by
    simpa [Block.fits] using hfits
  have hold : ∀ c ∈ xs ++ blk :: ys, c.free = false → (c ∈ xs ∨ c ∈ ys) ∧ c.addr ≠ blk.addr := by
    intro c hc hcused
    have hne : c ≠ blk := by
      rintro rfl
      rw [hfree] at hcused
      cases hcused
    refine ⟨?_, fun heq => hne (h.eq_of_addr hc hmem heq)⟩
    simpa [hne] using hc
  simp only [Block.stop, headerSize, kheapStart, kheapMax] at hbounds hlimit hused
  rcases heapSplit_cases hsplit with ⟨-, rfl, rfl, -⟩ | ⟨rfl, hroom, -, rfl⟩
  · subst hb
    constructor
    · have hlaid : Laid R blk'.addr blk'.stop
          [{ blk' with free := false, magic := heapMagicUsed }] :=
        laid_cons.mpr ⟨refl_of R _, Or.inr ⟨rfl, rfl⟩, halign, refl_of R _, by simp, by simp⟩
      refine h.replace hlaid ?_
      rw [u32_of_lt (by dsimp only; omega)]
      simp [hfree]
    · refine ⟨by simp, rfl, hge, ?_⟩
      intro c hc hcused
      obtain ⟨hin, hne⟩ := hold c hc hcused
      exact ⟨by rcases hin with hin | hin <;> simp [hin], hne⟩
  · rw [u32_of_lt (by simp only [headerSize, heapMinSplit]; omega)] at hroom
    simp only [headerSize, heapMinSplit] at hroom
    have haddr : u32 (blk.addr + headerSize + size) = blk.addr + headerSize + size := by
      rw [u32_of_lt]
      simp only [headerSize]
      omega
    have hrest : sub32 (sub32 blk.size size) headerSize = blk.size - size - headerSize := by
      rw [sub32_of_le (a := blk.size) (by omega) (by omega), sub32_of_le]
      · simp only [headerSize]
        omega
      · omega
    subst hb
    rw [haddr, hrest]
    constructor
    · have hstop : blk.addr + headerSize + size + headerSize + (blk.size - size - headerSize) =
          blk.stop := by
        simp only [Block.stop, headerSize]
        omega
      have hlaid : Laid R blk.addr blk.stop
          [{ blk with size := size, free := false, magic := heapMagicUsed },
            { addr := blk.addr + headerSize + size, magic := heapMagicFree,
              size := blk.size - size - headerSize, free := true }] := by
        refine laid_cons.mpr ⟨refl_of R _, Or.inr ⟨rfl, rfl⟩, ⟨halign.1, hsize⟩, ?_⟩
        refine laid_cons.mpr ⟨refl_of R _, Or.inl ⟨rfl, rfl⟩, ?_, hstop ▸ refl_of R _, by simp,
          by simp⟩
        simp only [headerSize]
        omega
      refine h.replace hlaid ?_
      rw [u32_of_lt (by dsimp only; omega)]
      simp [hfree]
    · refine ⟨by simp, rfl, Nat.le_refl size, ?_⟩
      intro c hc hcused
      obtain ⟨hin, hne⟩ := hold c hc hcused
      exact ⟨by rcases hin with hin | hin <;> simp [hin], hne⟩

/-! `heap_free_raw` -/

/-- Merging free neighbours keeps the range and the used blocks. -/
theorem coalesceFrom_laid (hbrk : brk < 2 ^ 32) (h : Laid R lo brk (cur :: rest)) :
    Laid R lo brk (coalesceFrom cur rest) ∧ usedSum (coalesceFrom cur rest) = usedSum (cur :: rest) := by
  induction rest generalizing cur lo with
  | nil => exact ⟨h, rfl⟩
  | cons next rest ih =>
    obtain ⟨hcur, hmcur, hacur, hnext⟩ := laid_cons.mp h
    obtain ⟨hgap, -, hanext, hrest⟩ := laid_cons.mp hnext
    unfold coalesceFrom
    split_ifs with hfree
    · obtain ⟨hcfree, hnfree⟩ : cur.free = true ∧ next.free = true := by simpa using hfree
      have hle := Spacing.le _ _ hgap
      have hend := (packed_le hrest.packed).le Block.addr_le_stop
      simp only [Block.stop, headerSize] at hle hend
      have hsize : u32 (cur.size + u32 (headerSize + next.size)) =
          cur.size + (headerSize + next.size) := by
        simp only [headerSize]
        rw [u32_of_lt (n := 16 + next.size) (by omega), u32_of_lt (by omega)]
      -- the merged block ends where `next` ends, or before it by the width of the gap
      have hmerged : R (cur.stop + (headerSize + next.size)) next.stop := by
        have hadd := Spacing.add _ _ (headerSize + next.size) hgap
        rwa [← Nat.add_assoc next.addr] at hadd
      rw [hsize]
      have hlaid : Laid R lo brk
          ({ cur with size := cur.size + (headerSize + next.size) } :: rest) := by
        refine laid_cons.mpr ⟨hcur, hmcur, ?_, ?_, hrest.marked, hrest.aligned⟩
        · simp only [headerSize]
          omega
        · refine hrest.packed.lower ?_
          simpa only [Block.stop, Nat.add_assoc] using hmerged
      obtain ⟨hout, hsum⟩ := ih hlaid
      refine ⟨hout, hsum.trans ?_⟩
      simp [hcfree, hnfree]
    · obtain ⟨hout, hsum⟩ := ih hnext
      exact ⟨laid_cons.mpr ⟨hcur, hmcur, hacur, hout⟩, by rw [usedSum_cons, hsum, ← usedSum_cons]⟩

theorem Shape.coalesce (h : Shape R blocks brk used total) :
    Shape R (coalesce blocks) brk used total := by
  have hlimit := h.limit
  simp only [kheapMax] at hlimit
  cases blocks with
  | nil => exact h
  | cons cur rest =>
    obtain ⟨hlaid, hsum⟩ := coalesceFrom_laid (by omega) h.laid
    exact ⟨hlaid, h.used.trans hsum.symm, h.total, h.start, h.limit, h.page⟩

/-- Marking the block at `addr` free. -/
theorem Shape.release (h : Shape R blocks brk used total) (hb : b ∈ blocks) (hused : b.free = false) :
    Shape R (blocks.map (Block.release b.addr)) brk (sub32 used b.size) total := by
  obtain ⟨xs, ys, rfl⟩ := List.append_of_mem hb
  have hbounds := h.bounds hb
  have hlimit := h.limit
  have hsum := h.used
  have halign := h.laid.aligned b hb
  have hlist : (xs ++ b :: ys).map (Block.release b.addr) =
      xs ++ ([{ b with free := true, magic := heapMagicFree }] ++ ys) := by
    have hother : ∀ c, c ∈ xs ∨ c ∈ ys → Block.release b.addr c = c := by
      intro c hc
      have hap : c.stop ≤ b.addr ∨ b.stop ≤ c.addr := by
        obtain ⟨-, hbys, hxb⟩ := List.pairwise_append.mp h.pairwise
        rcases hc with hc | hc
        · exact Or.inl (hxb c hc b (by simp))
        · exact Or.inr ((List.pairwise_cons.mp hbys).1 c hc)
      refine if_neg fun heq => ?_
      simp only [Block.stop, headerSize] at hap
      omega
    have hself : Block.release b.addr b = { b with free := true, magic := heapMagicFree } :=
      if_pos rfl
    rw [List.map_append, List.map_cons, hself, List.map_congr_left fun c hc => hother c (Or.inl hc),
      List.map_congr_left fun c hc => hother c (Or.inr hc), List.map_id', List.map_id']
    rfl
  rw [hlist]
  simp only [Block.stop, headerSize, kheapStart, kheapMax] at hbounds hlimit
  simp only [usedSum_append, usedSum_cons, hused, Bool.false_eq_true, if_false] at hsum
  have hle := h.used_le
  simp only [kheapStart] at hle
  have hlaid : Laid R b.addr b.stop [{ b with free := true, magic := heapMagicFree }] :=
    laid_cons.mpr ⟨refl_of R _, Or.inl ⟨rfl, rfl⟩, halign, refl_of R _, by simp, by simp⟩
  refine h.replace hlaid ?_
  rw [sub32_of_le (by omega) (by omega)]
  simp only [usedSum_cons, hused, usedSum_nil, Bool.false_eq_true, if_false, if_true]
  omega

end PinguinOS.Mm
