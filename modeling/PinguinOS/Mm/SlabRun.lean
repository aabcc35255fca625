import PinguinOS.Lib.Run
import PinguinOS.Mm.SlabLists
import PinguinOS.Mm.SlabObjects

/-! Runs of `slab_alloc` and `slab_free` on one cache. -/
namespace PinguinOS.Mm

open Bytes Linked

/-- The free count of a slab on the list. -/
def SlabList.Counts (li : SlabList) (d : SlabDesc) : Prop :=
  match li with
  | .full => d.freeCount = 0
  | .inUse => 0 < d.freeCount ∧ d.freeCount < d.total
  | .empty => d.freeCount = d.total

def Counted (st : SlabState) (lists : SlabList → List Nat) : Prop :=
  ∀ li, ∀ s ∈ lists li, li.Counts (st.slab s)

/-- The cache, the objects handed out, and the slabs made so far. -/
structure SlabRun where
  st : SlabState
  live : List Nat
  slabs : List Nat

inductive SlabCall
  /-- `kmalloc` would return `desc`, and `pmm_alloc_pages` fails if `starved`. -/
  | alloc (desc : Nat) (starved : Bool)
  | free (obj : Nat)
  /-- The rest of the kernel leaves memory and page allocator like this. -/
  | elsewhere (p : Pmm)

/-- `slab_alloc` makes a new slab. -/
def SlabRun.makesSlab (r : SlabRun) (desc : Nat) (starved : Bool) : Bool :=
  r.st.cache.partialSlabs = 0 && r.st.cache.emptySlabs = 0 && (slabNew r.st desc starved).1 ≠ 0

/-- `none` is `kpanic`, or a NULL freelist that is read. -/
def SlabRun.step (r : SlabRun) : SlabCall → Option SlabRun
  | .alloc desc starved => do
    let (obj, st) ← slabAlloc r.st desc starved
    some
      { st := st
        live := if obj = 0 then r.live else obj :: r.live
        slabs := if r.makesSlab desc starved then desc :: r.slabs else r.slabs }
  | .free obj => do
    let st ← slabFree r.st obj
    some { r with st := st, live := r.live.erase obj }
  | .elsewhere p => some { r with st := { r.st with pmm := p } }

/-- `kmalloc` returns no descriptor that is in use, only live objects are freed, and the rest of
the kernel keeps its hands off the slabs' pages, except for the objects it was given. -/
def SlabRun.Allowed (kernStart kernEnd totalPages : Nat) (r : SlabRun) : SlabCall → Prop
  | .alloc desc _ => desc ∉ r.slabs
  | .free obj => obj = 0 ∨ obj ∈ r.live
  | .elsewhere p => Sane kernStart kernEnd totalPages p ∧ ∀ s ∈ r.slabs,
    (∀ j, (r.st.slab s).base / pageSize ≤ j →
      j < (r.st.slab s).base / pageSize + r.st.cache.slabPages → bitmapTest p j = true) ∧
    ∀ a, (r.st.slab s).base ≤ a → a < (r.st.slab s).base + r.st.cache.slabPages * pageSize →
      (∀ o ∈ r.live, ¬ (o ≤ a ∧ a < o + r.st.cache.objSize)) →
        byte p.mem a = byte r.st.pmm.mem a

variable {kernStart kernEnd totalPages base o obj s t p a depth : Nat} {st st' : SlabState}
  {slabs live fl l xs ys : List Nat} {lists lists' : SlabList → List Nat} {li lj : SlabList}
  {loose : Option Nat} {c c' : SlabCache} {r r' : SlabRun} {call : SlabCall}

theorem Counted.move (h : Counted st lists)
    (hbody : ∀ t, t ≠ s → (st'.slab t).freeCount = (st.slab t).freeCount ∧
      (st'.slab t).total = (st.slab t).total)
    (hlists : ∀ li t, t ∈ lists' li → t ≠ s → t ∈ lists li)
    (hs : ∀ li, s ∈ lists' li → li.Counts (st'.slab s)) : Counted st' lists' := by
  intro li t ht
  by_cases hts : t = s
  · subst hts
    exact hs li ht
  · have hold := h li t (hlists li t ht hts)
    obtain ⟨hcount, htotal⟩ := hbody t hts
    unfold SlabList.Counts at hold ⊢
    rwa [hcount, htotal]

/-! The walk of `slab_free` finds the slab of a live object. -/

theorem findFrom_none (hchain : Chain 0 st.next a l) (hdepth : l.length < depth)
    (hnone : ∀ t ∈ l, st.holds obj t = false) : findFrom st obj depth p a = some none := by
  induction l generalizing a depth p with
  | nil =>
    cases depth with
    | zero => cases hdepth
    | succ depth =>
      have hend : a = 0 := hchain
      unfold findFrom
      rw [if_pos hend]
  | cons b l ih =>
    cases depth with
    | zero => cases hdepth
    | succ depth =>
      obtain ⟨rfl, hnull, hrest⟩ := hchain
      have hmiss := hnone a List.mem_cons_self
      unfold findFrom
      rw [if_neg hnull, hmiss, if_neg Bool.false_ne_true]
      exact ih hrest (Nat.lt_of_succ_lt_succ hdepth) fun t ht => hnone t (List.mem_cons_of_mem a ht)

theorem findFrom_some (hchain : Chain 0 st.next a (xs ++ s :: ys))
    (hdepth : (xs ++ s :: ys).length < depth) (hnone : ∀ t ∈ xs, st.holds obj t = false)
    (hs : st.holds obj s = true) :
    findFrom st obj depth p a = some (some (xs.getLastD p, s)) := by
  induction xs generalizing a depth p with
  | nil =>
    cases depth with
    | zero => cases hdepth
    | succ depth =>
      obtain ⟨rfl, hnull, -⟩ := hchain
      unfold findFrom
      rw [if_neg hnull, if_pos hs]
      rfl
  | cons b xs ih =>
    cases depth with
    | zero => cases hdepth
    | succ depth =>
      obtain ⟨rfl, hnull, hrest⟩ := hchain
      have hmiss := hnone a List.mem_cons_self
      unfold findFrom
      rw [if_neg hnull, hmiss, if_neg Bool.false_ne_true, List.getLastD_cons]
      exact ih hrest (Nat.lt_of_succ_lt_succ hdepth) fun t ht => hnone t (List.mem_cons_of_mem a ht)

/-- The pages of one slab hold a slot. -/
theorem SlabsOk.holds_iff (h : SlabsOk kernStart kernEnd totalPages st slabs live) (hs : s ∈ slabs)
    (hslot : st.cache.IsSlot (st.slab s).base o) (ht : t ∈ slabs) :
    st.holds o t = true ↔ t = s := by
  have hbounds := h.fits.slot hslot
  have hptr := h.fits.stride_pos
  have hpages := h.fits.pages
  have hrange := (h.each t ht).inRange
  have haligned := (h.each t ht).aligned
  have hlimit := h.sane.limit
  have hbytes : u32 (st.cache.slabPages * pageSize) = st.cache.slabPages * pageSize := by
    refine u32_of_lt ?_
    simp only [pageSize]
    omega
  have hend : u32 ((st.slab t).base + u32 (st.cache.slabPages * pageSize)) =
      (st.slab t).base + st.cache.slabPages * pageSize := by
    rw [hbytes]
    refine u32_of_lt ?_
    simp only [pageSize] at hrange haligned ⊢
    omega
  unfold SlabState.holds
  rw [hend, Bool.and_eq_true, decide_eq_true_eq, decide_eq_true_eq]
  constructor
  · intro hin
    by_contra hts
    have hap := h.apart t ht s hs hts
    omega
  · rintro rfl
    omega

/-- No list is longer than the walk is deep. -/
theorem SlabsOk.length_lt (h : SlabsOk kernStart kernEnd totalPages st slabs live) (hl : l.Nodup)
    (hsub : ∀ s ∈ l, s ∈ slabs) (hpages : 0 < st.cache.slabPages) : l.length < walkDepth := by
  have hlimit := h.sane.limit
  have hnodup : (l.map fun s => (st.slab s).base / pageSize).Nodup := by
    refine hl.map_on fun s hs t ht heq => ?_
    by_contra hst
    have hap := h.apart s (hsub s hs) t (hsub t ht) hst
    have haligned := (h.each s (hsub s hs)).aligned
    have haligned' := (h.each t (hsub t ht)).aligned
    simp only [pageSize] at heq hap haligned haligned'
    omega
  have hrange : (l.map fun s => (st.slab s).base / pageSize) ⊆ List.range totalPages := by
    intro j hj
    obtain ⟨s, hs, rfl⟩ := List.mem_map.mp hj
    have hin := (h.each s (hsub s hs)).inRange
    exact List.mem_range.mpr (by omega)
  have hle := (hnodup.subperm hrange).length_le
  rw [List.length_map, List.length_range] at hle
  simp only [walkDepth]
  omega

theorem SameSizes.trans {c'' : SlabCache} (h : SameSizes c c') (h' : SameSizes c' c'') :
    SameSizes c c'' :=
  ⟨h'.1.trans h.1, h'.2.1.trans h.2.1, h'.2.2.1.trans h.2.2.1, h'.2.2.2.trans h.2.2.2⟩

/-- The slab `s` is off its list, and nothing else has changed. -/
structure TakenOut (kernStart kernEnd totalPages : Nat) (st st' : SlabState)
    (slabs live : List Nat) (lists lists' : SlabList → List Nat) (s : Nat) : Prop where
  listsOk : ListsOk st' slabs lists' (some s)
  slabsOk : SlabsOk kernStart kernEnd totalPages st' slabs live
  body : ∀ t, SameBody (st.slab t) (st'.slab t)
  sub : ∀ li t, t ∈ lists' li → t ∈ lists li
  sizes : SameSizes st.cache st'.cache
  pmm : st'.pmm = st.pmm

theorem unlink_body {prev : Nat} : SameBody (st.slab t) ((st.unlink li prev s).slab t) := by
  unfold SlabState.unlink
  split_ifs
  · exact sameBody_update
  · exact ⟨rfl, rfl, rfl, rfl⟩

theorem unlink_sizes {prev : Nat} : SameSizes st.cache (st.unlink li prev s).cache := by
  unfold SlabState.unlink
  split_ifs
  · exact ⟨rfl, rfl, rfl, rfl⟩
  · exact sameSizes_setHead

theorem unlink_pmm {prev : Nat} : (st.unlink li prev s).pmm = st.pmm := by
  unfold SlabState.unlink
  split_ifs
  · rfl
  · rfl

/-- One of the lists got shorter. -/
theorem mem_of_update {zs : List Nat} (hzs : ∀ u ∈ zs, u ∈ lists li)
    (ht : t ∈ Function.update lists li zs lj) : t ∈ lists lj := by
  by_cases hlj : lj = li
  · subst hlj
    rw [Function.update_self] at ht
    exact hzs t ht
  · rwa [Function.update_of_ne hlj] at ht

theorem mem_of_tail (hli : lists li = s :: ys) (ht : t ∈ Function.update lists li ys lj) :
    t ∈ lists lj := by
  refine mem_of_update (fun u hu => ?_) ht
  rw [hli]
  exact List.mem_cons_of_mem s hu

/-- Taking the slab after `xs` off its list. -/
theorem takenOut_unlink (hl : ListsOk st slabs lists none)
    (h : SlabsOk kernStart kernEnd totalPages st slabs live) (hli : lists li = xs ++ s :: ys) :
    ∃ lists', TakenOut kernStart kernEnd totalPages st (st.unlink li (xs.getLastD 0) s) slabs live
      lists lists' s := by
  rcases xs.eq_nil_or_concat with rfl | ⟨zs, prev, rfl⟩
  · have hoff := hl.dropHead hli
    have hsub : ∀ lj t, t ∈ Function.update lists li ys lj → t ∈ lists lj :=
      fun _ _ => mem_of_tail hli
    exact ⟨_, hoff, h.unlink, fun t => unlink_body, hsub, unlink_sizes, unlink_pmm⟩
  · have hsplit : lists li = zs ++ prev :: s :: ys := by simp [hli]
    have hlast : (zs.concat prev).getLastD 0 = prev := by simp
    rw [hlast]
    refine ⟨_, hl.unlinkAfter hsplit, h.unlink, fun t => unlink_body,
      fun _ _ => mem_of_update ?_, unlink_sizes, unlink_pmm⟩
    intro t ht
    rw [hli]
    simp only [List.concat_eq_append, List.mem_append, List.mem_cons, List.not_mem_nil] at ht ⊢
    tauto

/-- The search goes through the lists until it meets the one with the slab of the object. -/
theorem takeOut_found (hl : ListsOk st slabs lists none)
    (h : SlabsOk kernStart kernEnd totalPages st slabs live) (hpages : 0 < st.cache.slabPages)
    (hs : s ∈ slabs) (hslot : st.cache.IsSlot (st.slab s).base obj) (hon : s ∈ lists li)
    {order : List SlabList} (horder : li ∈ order) :
    ∃ st' lists', takeOut st obj order = some (s, st') ∧
      TakenOut kernStart kernEnd totalPages st st' slabs live lists lists' s := by
  have hlength : ∀ lj, (lists lj).length < walkDepth := fun lj =>
    h.length_lt hl.nodup (fun t ht => (hl.listed lj t ht).1) hpages
  have hmiss : ∀ lj, ∀ t ∈ lists lj, t ≠ s → st.holds obj t = false := by
    intro lj t ht hts
    refine eq_false_of_ne_true fun hholds => hts ?_
    exact (h.holds_iff hs hslot (hl.listed lj t ht).1).mp hholds
  have hhit : st.holds obj s = true := (h.holds_iff hs hslot hs).mpr rfl
  induction order with
  | nil => cases horder
  | cons lj order ih =>
    unfold takeOut
    by_cases hlj : lj = li
    · subst hlj
      obtain ⟨xs, ys, hsplit⟩ := List.append_of_mem hon
      have hnodup : (lists lj).Nodup := hl.nodup
      have hchain := hl.chain lj
      have hdeep := hlength lj
      rw [hsplit] at hnodup hchain hdeep
      have hbefore : ∀ t ∈ xs, st.holds obj t = false := by
        intro t ht
        refine hmiss lj t (by simp [hsplit, ht]) ?_
        rintro rfl
        exact (List.nodup_cons.mp (List.nodup_middle.mp hnodup)).1 (List.mem_append_left _ ht)
      rw [findFrom_some hchain hdeep hbefore hhit]
      obtain ⟨lists', htaken⟩ := takenOut_unlink hl h hsplit
      exact ⟨_, lists', rfl, htaken⟩
    · have hothers : ∀ t ∈ lists lj, st.holds obj t = false := by
        intro t ht
        refine hmiss lj t ht ?_
        rintro rfl
        exact hlj (hl.once t lj li ht hon)
      rw [findFrom_none (hl.chain lj) (hlength lj) hothers]
      exact ih ((List.mem_cons.mp horder).resolve_left (Ne.symm hlj))

/-! One call keeps the invariant. -/

/-- The lists, the slots and the counts agree. -/
def SlabInv (kernStart kernEnd totalPages : Nat) (st : SlabState) (slabs live : List Nat) : Prop :=
  ∃ lists, ListsOk st slabs lists none ∧ SlabsOk kernStart kernEnd totalPages st slabs live ∧
    Counted st lists

theorem takeObj_next : (st.takeObj s).next = st.next := by
  refine next_update.trans ?_
  exact Function.update_eq_self s st.next

theorem giveObj_next : (st.giveObj s o).next = st.next := by
  refine next_update.trans ?_
  exact Function.update_eq_self s st.next

theorem push_slab : (st.push li s).slab s = { st.slab s with next := st.cache.head li } :=
  Function.update_self _ _ _

theorem SlabsOk.pages_pos (h : SlabsOk kernStart kernEnd totalPages st slabs live) :
    0 < st.cache.slabPages := by
  have hinside := h.fits.inside
  have hmul := Nat.mul_le_mul h.fits.many h.fits.stride_pos
  by_contra hzero
  rw [Nat.eq_zero_of_not_pos hzero] at hinside
  omega

theorem SlabsOk.live_ne_zero (h : SlabsOk kernStart kernEnd totalPages st slabs live)
    (ho : obj ∈ live) : obj ≠ 0 := by
  obtain ⟨s, hs, hslot⟩ := h.liveIn obj ho
  have hpos := (h.each s hs).pos
  have hbounds := h.fits.slot hslot
  omega

/-- The lists of `lists'` with `s` added to `li`. -/
theorem mem_push {t : Nat} (ht : t ∈ Function.update lists' li (s :: lists' li) lj) (hts : t ≠ s) :
    t ∈ lists' lj := by
  by_cases hlj : lj = li
  · subst hlj
    rw [Function.update_self] at ht
    exact (List.mem_cons.mp ht).resolve_left hts
  · rwa [Function.update_of_ne hlj] at ht

/-- The loose slab is only on the list to which it has been pushed. -/
theorem mem_push_self (hl : ListsOk st slabs lists' (some s))
    (hs : s ∈ Function.update lists' li (s :: lists' li) lj) : lj = li := by
  by_contra hlj
  rw [Function.update_of_ne hlj] at hs
  exact (hl.listed lj s hs).2 rfl

/-- The loose slab goes to the list that its count calls for. -/
theorem SlabInv.push (hcounted : Counted st lists) (hl : ListsOk st' slabs lists' (some s))
    (hok : SlabsOk kernStart kernEnd totalPages st' slabs live)
    (hsame : ∀ t, t ≠ s → (st'.slab t).freeCount = (st.slab t).freeCount ∧
      (st'.slab t).total = (st.slab t).total)
    (hsub : ∀ lj t, t ∈ lists' lj → t ∈ lists lj) (hfits : li.Counts (st'.slab s)) :
    SlabInv kernStart kernEnd totalPages (st'.push li s) slabs live := by
  refine ⟨_, hl.push, hok.push, hcounted.move (s := s) ?_ ?_ ?_⟩
  · intro t hts
    have hother : (st'.push li s).slab t = st'.slab t := Function.update_of_ne hts _ _
    rw [hother]
    exact hsame t hts
  · intro lj t ht hts
    exact hsub lj t (mem_push ht hts)
  · intro lj hmem
    obtain rfl := mem_push_self hl hmem
    rw [push_slab]
    exact hfits

theorem SlabInv.free (h : SlabInv kernStart kernEnd totalPages st slabs live) (ho : obj ∈ live) :
    ∃ st', slabFree st obj = some st' ∧
      SlabInv kernStart kernEnd totalPages st' slabs (live.erase obj) ∧
      SameSizes st.cache st'.cache := by
  obtain ⟨lists, hl, hok, hcounted⟩ := h
  obtain ⟨s, hs, hslot⟩ := hok.liveIn obj ho
  obtain ⟨li, hon⟩ := (hl.owned s hs).resolve_left (by simp)
  have horder : li ∈ [SlabList.full, .inUse, .empty] := by cases li <;> decide
  obtain ⟨st₁, lists', hfound, htaken⟩ := takeOut_found hl hok hok.pages_pos hs hslot hon horder
  have hbody := htaken.body s
  have hslot₁ : st₁.cache.IsSlot (st₁.slab s).base obj := by
    rw [htaken.sizes.isSlot, hbody.1]
    exact hslot
  have hgive := htaken.slabsOk.giveObj hs ho (hok.live_ne_zero ho) hslot₁
  have hlt := (htaken.slabsOk.each s hs).freeCount_lt hslot₁ ho
  have htotal := (htaken.slabsOk.each s hs).total
  have hobjs := htaken.slabsOk.fits.objs_lt
  have hcount : ((st₁.giveObj s obj).slab s).freeCount = (st₁.slab s).freeCount + 1 := by
    rw [giveObj_slab]
    exact u32_of_lt (by omega)
  have htotal' : ((st₁.giveObj s obj).slab s).total = st₁.cache.objsPerSlab := by
    rw [giveObj_slab]
    exact htotal
  have hloose : ListsOk (st₁.giveObj s obj) slabs lists' (some s) :=
    htaken.listsOk.congr giveObj_next rfl
  have hsame : ∀ t, t ≠ s → ((st₁.giveObj s obj).slab t).freeCount = (st.slab t).freeCount ∧
      ((st₁.giveObj s obj).slab t).total = (st.slab t).total := by
    intro t hts
    have ht := htaken.body t
    have hother : (st₁.giveObj s obj).slab t = st₁.slab t := Function.update_of_ne hts _ _
    rw [hother]
    exact ⟨ht.2.2.1, ht.2.1⟩
  have hsizes : SameSizes st.cache (st₁.giveObj s obj).cache :=
    htaken.sizes.trans ⟨rfl, rfl, rfl, rfl⟩
  unfold slabFree
  rw [if_neg (hok.live_ne_zero ho), hfound]
  refine ⟨_, rfl, ?_, ?_⟩
  · by_cases hfull : ((st₁.giveObj s obj).slab s).freeCount = ((st₁.giveObj s obj).slab s).total
    · rw [if_pos hfull]
      exact SlabInv.push hcounted hloose hgive hsame htaken.sub hfull
    · rw [if_neg hfull]
      refine SlabInv.push hcounted hloose hgive hsame htaken.sub ⟨by omega, ?_⟩
      rw [hcount, htotal'] at hfull ⊢
      omega
  · split_ifs
    · exact hsizes.trans sameSizes_setHead
    · exact hsizes.trans sameSizes_setHead

/-- The slab that is picked has a free object, and no list but its own is touched. -/
structure Picked (kernStart kernEnd totalPages : Nat) (st : SlabState) (slabs live : List Nat)
    (lists : SlabList → List Nat) (s : Nat) : Prop where
  mem : s ∈ slabs
  nonzero : s ≠ 0
  slabsOk : SlabsOk kernStart kernEnd totalPages st slabs live
  counted : Counted st lists
  place : (ListsOk st slabs lists none ∧ ((∃ rest, lists .inUse = s :: rest) ∨
      ∃ rest, lists .empty = s :: rest)) ∨
    ListsOk st slabs lists (some s) ∧ st.cache.emptySlabs = 0 ∧
      (st.slab s).freeCount = (st.slab s).total

theorem chain_head_cons (h : Chain 0 st.next a l) (ha : a ≠ 0) : ∃ rest, l = a :: rest := by
  cases l with
  | nil => exact absurd h ha
  | cons b l =>
    obtain rfl : a = b := h.1
    exact ⟨l, rfl⟩

/-- `pickSlab` returns NULL and changes nothing, or a slab with a free object. -/
theorem pickSlab_cases {desc : Nat} {starved : Bool} (hl : ListsOk st slabs lists none)
    (h : SlabsOk kernStart kernEnd totalPages st slabs live) (hcounted : Counted st lists)
    (hdesc : desc ∉ slabs) :
    pickSlab st desc starved = (0, st) ∧ (st.cache.partialSlabs = 0 ∧ st.cache.emptySlabs = 0 ∧
        (slabNew st desc starved).1 = 0) ∨
      ∃ s st', pickSlab st desc starved = (s, st') ∧ SameSizes st.cache st'.cache ∧
        Picked kernStart kernEnd totalPages st'
          (if (st.cache.partialSlabs = 0 && st.cache.emptySlabs = 0 &&
            (slabNew st desc starved).1 ≠ 0) then desc :: slabs else slabs) live lists s := by
  unfold pickSlab
  by_cases huse : st.cache.partialSlabs ≠ 0
  · obtain ⟨rest, hrest⟩ := chain_head_cons (hl.chain .inUse) huse
    have hmem : st.cache.partialSlabs ∈ lists .inUse := by
      rw [hrest]
      exact List.mem_cons_self
    rw [if_pos huse, if_neg (by simp [huse])]
    exact Or.inr ⟨_, _, rfl, ⟨rfl, rfl, rfl, rfl⟩, (hl.listed _ _ hmem).1, huse, h, hcounted,
      Or.inl ⟨hl, Or.inl ⟨rest, hrest⟩⟩⟩
  · rw [if_neg huse]
    have hnone := not_not.mp huse
    by_cases hempty : st.cache.emptySlabs ≠ 0
    · obtain ⟨rest, hrest⟩ := chain_head_cons (hl.chain .empty) hempty
      have hmem : st.cache.emptySlabs ∈ lists .empty := by
        rw [hrest]
        exact List.mem_cons_self
      rw [if_pos hempty, if_neg (by simp [hempty])]
      exact Or.inr ⟨_, _, rfl, ⟨rfl, rfl, rfl, rfl⟩, (hl.listed _ _ hmem).1, hempty, h, hcounted,
        Or.inl ⟨hl, Or.inr ⟨rest, hrest⟩⟩⟩
    · rw [if_neg hempty]
      have hnone' := not_not.mp hempty
      rcases @SlabsOk.slabNew _ _ _ st slabs live desc starved h hdesc with
        hfail | ⟨hnull, p, base, hnew, hok⟩
      · rw [hfail]
        exact Or.inl ⟨rfl, hnone, hnone', rfl⟩
      · rw [hnew, if_pos (by simp [hnone, hnone', hnull])]
        have hother : ∀ t ∈ slabs, Function.update st.slab desc (st.cache.newDesc base) t =
            st.slab t := fun t ht => Function.update_of_ne (ne_of_mem_of_not_mem ht hdesc) _ _
        refine Or.inr ⟨_, _, rfl, ⟨rfl, rfl, rfl, rfl⟩, List.mem_cons_self, hnull, hok, ?_,
          Or.inr ⟨hl.enter hdesc hnull rfl rfl, hnone', ?_⟩⟩
        · intro li t ht
          dsimp only
          rw [hother t (hl.listed li t ht).1]
          exact hcounted li t ht
        · dsimp only
          rw [Function.update_self]
          rfl

theorem Picked.freeCount_pos (h : Picked kernStart kernEnd totalPages st slabs live lists s) :
    (st.slab s).freeCount ≠ 0 ∧ (st.slab s).freeCount ≤ (st.slab s).total ∧
      2 ≤ (st.slab s).total := by
  have hmany := h.slabsOk.fits.many
  have htotal := (h.slabsOk.each s h.mem).total
  have hle := (h.slabsOk.each s h.mem).freeCount_le
  refine ⟨?_, by omega, by omega⟩
  rcases h.place with ⟨-, ⟨rest, hrest⟩ | ⟨rest, hrest⟩⟩ | ⟨-, -, hfull⟩
  · have hcount := h.counted .inUse s (by simp [hrest])
    exact Nat.ne_of_gt hcount.1
  · have hcount : (st.slab s).freeCount = (st.slab s).total := h.counted .empty s (by simp [hrest])
    omega
  · omega

theorem ListsOk.takeObj (hl : ListsOk st slabs lists loose) :
    ListsOk (st.takeObj s) slabs lists loose := by
  refine hl.congr takeObj_next ?_
  funext li
  cases li <;> rfl

theorem ListsOk.first (hl : ListsOk st slabs lists loose) (hli : lists li = s :: ys) :
    st.cache.head li = s := by
  have hchain := hl.chain li
  rw [hli] at hchain
  exact hchain.1

/-- The slab moves to the list that its count calls for. -/
theorem Picked.move (h : Picked kernStart kernEnd totalPages st slabs live lists s) :
    SlabInv kernStart kernEnd totalPages (moveAfterAlloc (st.takeObj s) s) slabs
        ((st.slab s).freelist :: live) ∧
      SameSizes st.cache (moveAfterAlloc (st.takeObj s) s).cache := by
  obtain ⟨hpos, hle, htwo⟩ := h.freeCount_pos
  obtain ⟨-, -, htake⟩ := h.slabsOk.takeObj h.mem hpos
  have hobjs := h.slabsOk.fits.objs_lt
  have htotal := (h.slabsOk.each s h.mem).total
  have hcount : ((st.takeObj s).slab s).freeCount = (st.slab s).freeCount - 1 := by
    rw [takeObj_slab]
    exact sub32_of_le (by omega) (by omega)
  have htotal' : ((st.takeObj s).slab s).total = (st.slab s).total := by rw [takeObj_slab]
  have hminus : sub32 ((st.takeObj s).slab s).total 1 = (st.slab s).total - 1 := by
    rw [htotal']
    exact sub32_of_le (by omega) (by omega)
  have hsizes : SameSizes st.cache (st.takeObj s).cache := ⟨rfl, rfl, rfl, rfl⟩
  have hsame : ∀ t, t ≠ s → ((st.takeObj s).slab t).freeCount = (st.slab t).freeCount ∧
      ((st.takeObj s).slab t).total = (st.slab t).total := by
    intro t hts
    have hother : (st.takeObj s).slab t = st.slab t := Function.update_of_ne hts _ _
    rw [hother]
    exact ⟨rfl, rfl⟩
  unfold moveAfterAlloc
  rw [hcount, hminus]
  by_cases hlast : (st.slab s).freeCount - 1 = 0
  · -- the last free object: only a slab in use has as few
    rw [if_pos hlast]
    have hfits : SlabList.full.Counts ((st.takeObj s).slab s) := hcount.trans hlast
    rcases h.place with ⟨hl, ⟨rest, hrest⟩ | ⟨rest, hrest⟩⟩ | ⟨-, -, hfull⟩
    · have hhead : (st.takeObj s).cache.partialSlabs = s := hl.takeObj.first hrest
      rw [if_pos hhead]
      exact ⟨SlabInv.push h.counted (hl.takeObj.dropHead hrest) htake.dropHead hsame
        (fun _ _ => mem_of_tail hrest) hfits, (hsizes.trans sameSizes_setHead).trans sameSizes_setHead⟩
    · have hall : (st.slab s).freeCount = (st.slab s).total :=
        h.counted .empty s (by simp [hrest])
      omega
    · omega
  rw [if_neg hlast]
  by_cases hone : (st.slab s).freeCount - 1 = (st.slab s).total - 1
  · -- the first object taken: the slab was empty or is new
    rw [if_pos hone]
    have hfits : SlabList.inUse.Counts ((st.takeObj s).slab s) := by
      unfold SlabList.Counts
      rw [hcount, htotal']
      omega
    rcases h.place with ⟨hl, ⟨rest, hrest⟩ | ⟨rest, hrest⟩⟩ | ⟨hl, hempty, -⟩
    · have hless : (st.slab s).freeCount < (st.slab s).total :=
        (h.counted .inUse s (by simp [hrest])).2
      omega
    · have hhead : (st.takeObj s).cache.emptySlabs = s := hl.takeObj.first hrest
      rw [if_pos hhead]
      exact ⟨SlabInv.push h.counted (hl.takeObj.dropHead hrest) htake.dropHead hsame
        (fun _ _ => mem_of_tail hrest) hfits, (hsizes.trans sameSizes_setHead).trans sameSizes_setHead⟩
    · have hne : (st.takeObj s).cache.emptySlabs ≠ s := fun heq => h.nonzero (heq.symm.trans hempty)
      rw [if_neg hne]
      exact ⟨SlabInv.push h.counted hl.takeObj htake hsame (fun _ _ ht => ht) hfits,
        hsizes.trans sameSizes_setHead⟩
  · -- neither: the slab stays where it is, in use
    rw [if_neg hone]
    rcases h.place with ⟨hl, ⟨rest, hrest⟩ | ⟨rest, hrest⟩⟩ | ⟨-, -, hfull⟩
    · have hless : (st.slab s).freeCount < (st.slab s).total :=
        (h.counted .inUse s (by simp [hrest])).2
      refine ⟨⟨lists, hl.takeObj, htake, h.counted.move hsame (fun _ _ ht _ => ht) ?_⟩, hsizes⟩
      · intro li hmem
        obtain rfl : li = .inUse := hl.once s li .inUse hmem (by simp [hrest])
        unfold SlabList.Counts
        rw [hcount, htotal']
        omega
    · have hall : (st.slab s).freeCount = (st.slab s).total :=
        h.counted .empty s (by simp [hrest])
      omega
    · omega

theorem slabAlloc_eq {desc : Nat} {starved : Bool} (hpick : pickSlab st desc starved = (s, st'))
    (hs : s ≠ 0) (hobj : (st'.slab s).freelist ≠ 0) :
    slabAlloc st desc starved = some ((st'.slab s).freelist,
      { moveAfterAlloc (st'.takeObj s) s with
        pmm := { (moveAfterAlloc (st'.takeObj s) s).pmm with
          mem := zeroBytes (moveAfterAlloc (st'.takeObj s) s).pmm.mem (st'.slab s).freelist
            (moveAfterAlloc (st'.takeObj s) s).cache.objSize } }) := by
  unfold slabAlloc
  rw [hpick]
  dsimp only
  rw [if_neg hs, if_neg hobj]

/-- `memset` of a live object. -/
theorem SlabInv.zeroObj (h : SlabInv kernStart kernEnd totalPages st slabs live) (ho : o ∈ live) :
    SlabInv kernStart kernEnd totalPages
      { st with pmm := { st.pmm with mem := zeroBytes st.pmm.mem o st.cache.objSize } } slabs live := by
  obtain ⟨lists, hl, hok, hcounted⟩ := h
  exact ⟨lists, hl.congr rfl rfl, hok.zeroObj ho, hcounted⟩

theorem SlabInv.alloc {desc : Nat} {starved : Bool}
    (h : SlabInv kernStart kernEnd totalPages st slabs live) (hdesc : desc ∉ slabs) :
    ∃ obj st', slabAlloc st desc starved = some (obj, st') ∧
      SlabInv kernStart kernEnd totalPages st'
        (if (st.cache.partialSlabs = 0 && st.cache.emptySlabs = 0 &&
          (slabNew st desc starved).1 ≠ 0) then desc :: slabs else slabs)
        (if obj = 0 then live else obj :: live) ∧
      SameSizes st.cache st'.cache := by
  obtain ⟨lists, hl, hok, hcounted⟩ := h
  rcases @pickSlab_cases _ _ _ st slabs live lists desc starved hl hok hcounted hdesc with
    ⟨hpick, -, -, hnull⟩ | ⟨s, st₁, hpick, hsizes, hpicked⟩
  · have hnone : slabAlloc st desc starved = some (0, st) := by
      unfold slabAlloc
      rw [hpick]
      rfl
    rw [hnone, if_neg (by simp [hnull])]
    exact ⟨0, st, rfl, ⟨lists, hl, hok, hcounted⟩, rfl, rfl, rfl, rfl⟩
  · obtain ⟨hpos, -, -⟩ := hpicked.freeCount_pos
    obtain ⟨hobj, -, -⟩ := hpicked.slabsOk.takeObj hpicked.mem hpos
    obtain ⟨hinv, hsizes'⟩ := hpicked.move
    refine ⟨_, _, slabAlloc_eq hpick hpicked.nonzero hobj, ?_, hsizes.trans hsizes'⟩
    rw [if_neg hobj]
    exact hinv.zeroObj List.mem_cons_self

/-- The rest of the kernel works on pages and objects of its own. -/
theorem SlabInv.elsewhere {p : Pmm} (h : SlabInv kernStart kernEnd totalPages st slabs live)
    (hsane : Sane kernStart kernEnd totalPages p)
    (hused : ∀ s ∈ slabs, ∀ j, (st.slab s).base / pageSize ≤ j →
      j < (st.slab s).base / pageSize + st.cache.slabPages → bitmapTest p j = true)
    (hbytes : ∀ s ∈ slabs, ∀ a, (st.slab s).base ≤ a →
      a < (st.slab s).base + st.cache.slabPages * pageSize →
      (∀ o ∈ live, ¬ (o ≤ a ∧ a < o + st.cache.objSize)) → byte p.mem a = byte st.pmm.mem a) :
    SlabInv kernStart kernEnd totalPages { st with pmm := p } slabs live := by
  obtain ⟨lists, hl, hok, hcounted⟩ := h
  refine ⟨lists, hl.congr rfl rfl, hok.elsewhere hsane hused ?_, hcounted⟩
  intro s hs o hslot hdead
  have hbounds := hok.fits.slot hslot
  have hptr := hok.fits.stride_pos
  have hsize := hok.fits.stride
  refine readPtr_congr fun j hj => hbytes s hs (o + j) (by omega) (by omega) ?_
  intro x hx hmeet
  obtain ⟨t, ht, hslot'⟩ := hok.liveIn x hx
  have hap := hok.slots_apart hs ht hslot hslot' (ne_of_mem_of_not_mem hx hdead).symm
  omega

theorem SlabRun.step_alloc {desc : Nat} {starved : Bool}
    (h : slabAlloc r.st desc starved = some (obj, st)) : r.step (.alloc desc starved) = some
      { st := st
        live := if obj = 0 then r.live else obj :: r.live
        slabs := if r.makesSlab desc starved then desc :: r.slabs else r.slabs } := by
  unfold SlabRun.step
  dsimp only
  rw [h]
  rfl

theorem SlabRun.step_free (h : slabFree r.st obj = some st) :
    r.step (.free obj) = some { r with st := st, live := r.live.erase obj } := by
  unfold SlabRun.step
  dsimp only
  rw [h]
  rfl

/-- Every call is possible and keeps the invariant. -/
theorem SlabRun.step_inv (h : SlabInv kernStart kernEnd totalPages r.st r.slabs r.live)
    (hcall : r.Allowed kernStart kernEnd totalPages call) :
    ∃ r', r.step call = some r' ∧ SlabInv kernStart kernEnd totalPages r'.st r'.slabs r'.live ∧
      SameSizes r.st.cache r'.st.cache := by
  cases call with
  | alloc desc starved =>
    obtain ⟨obj, st', halloc, hinv, hsizes⟩ := @SlabInv.alloc _ _ _ _ _ _ desc starved h hcall
    exact ⟨_, SlabRun.step_alloc halloc, hinv, hsizes⟩
  | free obj =>
    by_cases hnull : obj = 0
    · have hdead : obj ∉ r.live := by
        obtain ⟨lists, -, hok, -⟩ := h
        exact fun hlive => hok.live_ne_zero hlive hnull
      have hfree : slabFree r.st obj = some r.st := if_pos hnull
      refine ⟨_, SlabRun.step_free hfree, ?_, rfl, rfl, rfl, rfl⟩
      change SlabInv _ _ _ r.st r.slabs (r.live.erase obj)
      rwa [List.erase_of_not_mem hdead]
    · obtain ⟨st', hfree, hinv, hsizes⟩ := h.free (hcall.resolve_left hnull)
      exact ⟨_, SlabRun.step_free hfree, hinv, hsizes⟩
  | elsewhere p =>
    exact ⟨_, rfl, h.elsewhere hcall.1 (fun s hs => (hcall.2 s hs).1)
      fun s hs => (hcall.2 s hs).2, rfl, rfl, rfl, rfl⟩

end PinguinOS.Mm
