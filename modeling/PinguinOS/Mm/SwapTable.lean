import Mathlib.Data.Set.Function
import PinguinOS.Lib.Run
import PinguinOS.Mm.PagingRun
import PinguinOS.Mm.Swap

/-! Swap bookkeeping: the slots in use and the live entries of the table are in bijection. -/
namespace PinguinOS.Mm

/-- The entry says where a page is. -/
def Swap.Live (s : Swap) (i : Nat) : Prop :=
  i < swapLookupSize ∧ (s.lookup i).virt ≠ 0 ∧ 0 ≤ (s.lookup i).slot

def Swap.slotOf (s : Swap) (i : Nat) : Nat := (s.lookup i).slot.toNat

/-- Every slot marked in the bitmap belongs to exactly one live entry, and the other way round. -/
def Swap.Booked (s : Swap) : Prop :=
  Set.BijOn s.slotOf {i | s.Live i} {slot | slot < swapSlotsMax ∧ s.slotTest slot = true}

/-- Entries in use come first, each for a page of its own. -/
structure TableOk (s : Swap) : Prop where
  packed : ∃ n ≤ swapLookupSize, (∀ i < n, (s.lookup i).virt ≠ 0) ∧
    ∀ i, n ≤ i → i < swapLookupSize → (s.lookup i).virt = 0
  aligned : ∀ i < swapLookupSize, (s.lookup i).virt % 4096 = 0
  once : ∀ i < swapLookupSize, ∀ j < swapLookupSize, (s.lookup i).virt = (s.lookup j).virt →
    (s.lookup i).virt ≠ 0 → i = j

structure SwapInv (s : Swap) : Prop where
  table : TableOk s
  count : s.slotCount ≤ swapSlotsMax
  small : ∀ i < swapLookupSize, -1 ≤ (s.lookup i).slot ∧ (s.lookup i).slot < 2 ^ 32
  inRange : ∀ i, s.Live i → s.slotOf i < s.slotCount
  booked : s.Booked

variable {s : Swap} {st : SwapState} {i j k page virt good : Nat} {x : Int}

/-! The table. -/

theorem lookupGet_cases (s : Swap) (page : Nat) :
    (∃ i < swapLookupSize, (s.lookup i).virt = page ∧ lookupGet s page = (s.lookup i).slot) ∨
      lookupGet s page = -1 ∧ ∀ i < swapLookupSize, (s.lookup i).virt ≠ page := by
  unfold lookupGet
  cases hfind : (List.range swapLookupSize).find? fun i => (s.lookup i).virt = page with
  | some i =>
    rw [List.find?_range_eq_some] at hfind
    obtain ⟨hvirt, hi, -⟩ := hfind
    exact Or.inl ⟨i, List.mem_range.mp hi, of_decide_eq_true hvirt, rfl⟩
  | none =>
    rw [List.find?_range_eq_none] at hfind
    exact Or.inr ⟨rfl, fun i hi => by simpa using hfind i hi⟩

theorem TableOk.lookupGet_eq (h : TableOk s) (hi : i < swapLookupSize)
    (hvirt : (s.lookup i).virt = page) (hpage : page ≠ 0) :
    lookupGet s page = (s.lookup i).slot := by
  rcases lookupGet_cases s page with ⟨j, hj, hvirt', hget⟩ | ⟨-, hnone⟩
  · have hij := h.once i hi j hj (hvirt.trans hvirt'.symm) (hvirt ▸ hpage)
    rw [hget, hij]
  · exact absurd hvirt (hnone i hi)

/-- The entry `i` is for `page` from now on. -/
def Swap.enter (s : Swap) (i page : Nat) (x : Int) : Swap :=
  { s with lookup := Function.update s.lookup i ⟨page, x⟩ }

/-- `lookup_set` writes the entry of the page, or the first empty one, or finds neither. -/
inductive Records (s : Swap) (page : Nat) (x : Int) : Swap → Prop
  | known (i : Nat) (hi : i < swapLookupSize) (h : (s.lookup i).virt = page) :
    Records s page x (s.enter i page x)
  | fresh (i : Nat) (hi : i < swapLookupSize) (h : (s.lookup i).virt = 0)
    (hbefore : ∀ j < i, (s.lookup j).virt ≠ 0)
    (hnone : page ≠ 0 → ∀ j < swapLookupSize, (s.lookup j).virt ≠ page) :
    Records s page x (s.enter i page x)
  | full (h : ∀ j < swapLookupSize, (s.lookup j).virt ≠ 0 ∧ (s.lookup j).virt ≠ page) :
    Records s page x s

theorem TableOk.records (h : TableOk s) (page : Nat) (x : Int) :
    Records s page x (lookupSet s page x) := by
  unfold lookupSet
  cases hfind : (List.range swapLookupSize).find? fun i =>
      (s.lookup i).virt = 0 || (s.lookup i).virt = page with
  | some i =>
    rw [List.find?_range_eq_some] at hfind
    obtain ⟨hfits, hi, hbefore⟩ := hfind
    have hlt := List.mem_range.mp hi
    have hearlier : ∀ j < i, (s.lookup j).virt ≠ 0 ∧ (s.lookup j).virt ≠ page := by
      intro j hj
      simpa using hbefore j hj
    by_cases hpage : (s.lookup i).virt = page
    · exact .known i hlt hpage
    · have hempty : (s.lookup i).virt = 0 := by simpa [hpage] using hfits
      refine .fresh i hlt hempty (fun j hj => (hearlier j hj).1) fun hne j hj => ?_
      by_cases hji : j < i
      · exact (hearlier j hji).2
      · -- behind the first empty entry all are empty
        obtain ⟨n, -, hused, hrest⟩ := h.packed
        have hni : n ≤ i := Nat.le_of_not_lt fun hin => hused i hin hempty
        rw [hrest j (by omega) hj]
        exact hne.symm
  | none =>
    rw [List.find?_range_eq_none] at hfind
    exact .full fun j hj => by simpa using hfind j hj

theorem TableOk.congr {s' : Swap} (h : TableOk s)
    (hvirt : ∀ i, (s'.lookup i).virt = (s.lookup i).virt) : TableOk s' := by
  obtain ⟨hpacked, haligned, honce⟩ := h
  refine ⟨?_, ?_, ?_⟩
  · simpa only [hvirt] using hpacked
  · simpa only [hvirt] using haligned
  · simpa only [hvirt] using honce

theorem enter_lookup : (s.enter i page x).lookup i = ⟨page, x⟩ := Function.update_self _ _ _

theorem enter_lookup_of_ne (h : j ≠ i) : (s.enter i page x).lookup j = s.lookup j :=
  Function.update_of_ne h _ _

/-- An entry that is rewritten for the same page. -/
theorem enter_virt (h : (s.lookup i).virt = page) (j : Nat) :
    ((s.enter i page x).lookup j).virt = (s.lookup j).virt := by
  by_cases hj : j = i
  · rw [hj, enter_lookup, h]
  · rw [enter_lookup_of_ne hj]

theorem TableOk.lookupSet (h : TableOk s) (hpage : page % 4096 = 0) (x : Int) :
    TableOk (lookupSet s page x) := by
  have hrecords := h.records page x
  generalize PinguinOS.Mm.lookupSet s page x = s' at hrecords ⊢
  cases hrecords with
  | known i hi hvirt => exact h.congr (enter_virt hvirt)
  | full hfull => exact h
  | fresh i hi hempty hbefore hnone =>
    by_cases hzero : page = 0
    · exact h.congr (enter_virt (hempty.trans hzero.symm))
    have hnone := hnone hzero
    obtain ⟨n, hn, hused, hrest⟩ := h.packed
    have hni : n = i := by
      rcases Nat.lt_trichotomy n i with hlt | heq | hlt
      · exact absurd (hrest n (Nat.le_refl n) (by omega)) (hbefore n hlt)
      · exact heq
      · exact absurd hempty (hused i hlt)
    refine ⟨⟨i + 1, hi, fun j hj => ?_, fun j hj hj' => ?_⟩, fun j hj => ?_, ?_⟩
    · by_cases hji : j = i
      · rw [hji, enter_lookup]
        exact hzero
      · rw [enter_lookup_of_ne hji]
        exact hused j (by omega)
    · rw [enter_lookup_of_ne (by omega)]
      exact hrest j (by omega) hj'
    · by_cases hji : j = i
      · rw [hji, enter_lookup]
        exact hpage
      · rw [enter_lookup_of_ne hji]
        exact h.aligned j hj
    · intro j hj l hl hvirt hne
      by_cases hji : j = i
      · by_cases hli : l = i
        · exact hji.trans hli.symm
        · rw [hji, enter_lookup, enter_lookup_of_ne hli] at hvirt
          exact absurd hvirt.symm (hnone l hl)
      · by_cases hli : l = i
        · rw [hli, enter_lookup, enter_lookup_of_ne hji] at hvirt
          exact absurd hvirt (hnone j hj)
        · rw [enter_lookup_of_ne hji, enter_lookup_of_ne hli] at hvirt
          rw [enter_lookup_of_ne hji] at hne
          exact h.once j hj l hl hvirt hne

/-! The bijection. -/

theorem enter_live : (s.enter i page x).Live j ↔
    j = i ∧ i < swapLookupSize ∧ page ≠ 0 ∧ 0 ≤ x ∨ j ≠ i ∧ s.Live j := by
  unfold Swap.Live
  by_cases hj : j = i
  · subst hj
    rw [enter_lookup]
    simp
  · rw [enter_lookup_of_ne hj]
    simp [hj]

theorem enter_slotOf_of_ne (h : j ≠ i) : (s.enter i page x).slotOf j = s.slotOf j := by
  unfold Swap.slotOf
  rw [enter_lookup_of_ne h]

/-- Only the entries and the bits count. -/
theorem SwapInv.congr {s' : Swap} (h : SwapInv s) (hlookup : s'.lookup = s.lookup)
    (hcount : s'.slotCount = s.slotCount) (htest : ∀ k, s'.slotTest k = s.slotTest k) :
    SwapInv s' := by
  have hlive : ∀ i, s'.Live i ↔ s.Live i := by
    intro i
    unfold Swap.Live
    rw [hlookup]
  have hslot : s'.slotOf = s.slotOf := by
    unfold Swap.slotOf
    rw [hlookup]
  refine ⟨h.table.congr fun i => by rw [hlookup], hcount ▸ h.count, hlookup.symm ▸ h.small,
    fun i hi => ?_, ?_⟩
  · rw [hslot, hcount]
    exact h.inRange i ((hlive i).mp hi)
  · unfold Swap.Booked
    rw [hslot]
    simp only [hlive, htest]
    exact h.booked

theorem SwapInv.enter_small (h : SwapInv s) (hx : -1 ≤ x ∧ x < 2 ^ 32) :
    ∀ j < swapLookupSize, -1 ≤ ((s.enter i page x).lookup j).slot ∧
      ((s.enter i page x).lookup j).slot < 2 ^ 32 := by
  intro j hj
  by_cases hji : j = i
  · rw [hji, enter_lookup]
    exact hx
  · rw [enter_lookup_of_ne hji]
    exact h.small j hj

/-- An entry that is not live loses its slot. -/
theorem SwapInv.enterDead (h : SwapInv s) (ht : TableOk (s.enter i page (-1))) (hi : ¬ s.Live i) :
    SwapInv (s.enter i page (-1)) := by
  have hlive : ∀ j, (s.enter i page (-1)).Live j ↔ s.Live j := by
    intro j
    rw [enter_live]
    constructor
    · rintro (⟨-, -, -, hneg⟩ | ⟨-, hj⟩)
      · omega
      · exact hj
    · intro hj
      exact Or.inr ⟨fun heq => hi (heq ▸ hj), hj⟩
  have hslot : ∀ j, s.Live j → (s.enter i page (-1)).slotOf j = s.slotOf j := fun j hj =>
    enter_slotOf_of_ne fun heq => hi (heq ▸ hj)
  refine ⟨ht, h.count, h.enter_small (by decide), fun j hj => ?_, ?_⟩
  · have hj := (hlive j).mp hj
    rw [hslot j hj]
    exact h.inRange j hj
  · unfold Swap.Booked
    simp only [hlive]
    exact h.booked.congr fun j hj => (hslot j hj).symm

/-- A free slot is taken and entered. -/
theorem SwapInv.enterLive (h : SwapInv s) (ht : TableOk (s.enter i page k)) (hi : ¬ s.Live i)
    (hlt : i < swapLookupSize) (hpage : page ≠ 0) (hk : k < s.slotCount)
    (hfree : s.slotTest k = false) : SwapInv ((s.take k).enter i page k) := by
  have hlive : {j | ((s.take k).enter i page k).Live j} = insert i {j | s.Live j} := by
    ext j
    rw [Set.mem_ofPred_eq, enter_live, Set.mem_insert_iff]
    constructor
    · rintro (⟨hji, -⟩ | ⟨-, hj⟩)
      · exact Or.inl hji
      · exact Or.inr hj
    · rintro (hji | hj)
      · exact Or.inl ⟨hji, hlt, hpage, Int.natCast_nonneg k⟩
      · exact Or.inr ⟨fun heq => hi (heq ▸ hj), hj⟩
  have hmarks : {slot | slot < swapSlotsMax ∧ ((s.take k).enter i page k).slotTest slot = true} =
      insert k {slot | slot < swapSlotsMax ∧ s.slotTest slot = true} := by
    ext j
    change j < swapSlotsMax ∧ (s.take k).slotTest j = true ↔ _
    rw [take_slotTest, Set.mem_insert_iff, Set.mem_ofPred_eq, Bool.or_eq_true, decide_eq_true_eq]
    have hcount := h.count
    constructor
    · rintro ⟨hj, rfl | hset⟩
      · exact Or.inl rfl
      · exact Or.inr ⟨hj, hset⟩
    · rintro (rfl | ⟨hj, hset⟩)
      · exact ⟨by omega, Or.inl rfl⟩
      · exact ⟨hj, Or.inr hset⟩
  have hself : ((s.take k).enter i page k).slotOf i = k := by
    unfold Swap.slotOf
    rw [enter_lookup]
    exact Int.toNat_natCast k
  have hslot : ∀ j, s.Live j → ((s.take k).enter i page k).slotOf j = s.slotOf j := fun j hj =>
    enter_slotOf_of_ne fun heq => hi (heq ▸ hj)
  have hcount := h.count
  have hsmall : -1 ≤ (k : Int) ∧ (k : Int) < 2 ^ 32 := by
    simp only [swapSlotsMax] at hcount
    omega
  refine ⟨ht.congr fun _ => rfl, h.count, h.enter_small hsmall, fun j hj => ?_, ?_⟩
  · have hj : j ∈ insert i {j | s.Live j} := hlive ▸ hj
    rcases Set.mem_insert_iff.mp hj with rfl | hj
    · rw [hself]
      exact hk
    · rw [hslot j hj]
      exact h.inRange j hj
  · have hbij := h.booked.congr fun j hj => (hslot j hj).symm
    have hnew : ((s.take k).enter i page k).slotOf i ∉
        {slot | slot < swapSlotsMax ∧ s.slotTest slot = true} := by
      rw [hself]
      rintro ⟨-, hset⟩
      rw [hfree] at hset
      cases hset
    unfold Swap.Booked
    rw [hlive, hmarks]
    have hinsert := hbij.insert hnew
    rwa [hself] at hinsert

/-- A slot is given back with its entry. -/
theorem live_cleared :
    ((slotFreigeben s k).enter i page (-1)).Live j ↔ j ≠ i ∧ s.Live j := by
  have hlookup : (slotFreigeben s k).Live j ↔ s.Live j := by
    unfold Swap.Live
    rw [slotFreigeben_lookup]
  rw [enter_live, hlookup]
  constructor
  · rintro (⟨-, -, -, hneg⟩ | hj)
    · omega
    · exact hj
  · exact Or.inr

theorem lookup_cleared (hji : j ≠ i) :
    ((slotFreigeben s k).enter i page (-1)).lookup j = s.lookup j := by
  rw [enter_lookup_of_ne hji, slotFreigeben_lookup]

/-- The slot of a live entry is given back. -/
theorem SwapInv.release (h : SwapInv s) (ht : TableOk (s.enter i page (-1))) (hi : s.Live i) :
    SwapInv ((slotFreigeben s (s.slotOf i)).enter i page (-1)) := by
  have hlive : {j | ((slotFreigeben s (s.slotOf i)).enter i page (-1)).Live j} =
      {j | s.Live j} \ {i} := by
    ext j
    rw [Set.mem_ofPred_eq, live_cleared, Set.mem_sdiff, Set.mem_singleton_iff]
    exact and_comm
  have hmarks : {slot | slot < swapSlotsMax ∧
        ((slotFreigeben s (s.slotOf i)).enter i page (-1)).slotTest slot = true} =
      {slot | slot < swapSlotsMax ∧ s.slotTest slot = true} \ {s.slotOf i} := by
    have hrange := h.inRange i hi
    ext j
    change j < swapSlotsMax ∧ (slotFreigeben s (s.slotOf i)).slotTest j = true ↔ _
    rw [slotFreigeben_slotTest, Set.mem_sdiff, Set.mem_ofPred_eq, Set.mem_singleton_iff]
    simp only [hrange, true_and, Bool.and_eq_true, Bool.not_eq_true', decide_eq_false_iff_not]
    constructor
    · rintro ⟨hj, hne, hset⟩
      exact ⟨⟨hj, hset⟩, Ne.symm hne⟩
    · rintro ⟨⟨hj, hset⟩, hne⟩
      exact ⟨hj, Ne.symm hne, hset⟩
  have hslot : ∀ j, j ≠ i →
      ((slotFreigeben s (s.slotOf i)).enter i page (-1)).slotOf j = s.slotOf j :=
    fun j hj => congrArg (fun e => e.slot.toNat) (lookup_cleared hj)
  have hentries : ((slotFreigeben s (s.slotOf i)).enter i page (-1)).lookup =
      (s.enter i page (-1)).lookup := by
    unfold Swap.enter
    rw [slotFreigeben_lookup]
  refine ⟨ht.congr fun j => by rw [hentries], slotFreigeben_slotCount.symm ▸ h.count,
    hentries.symm ▸ h.enter_small (by decide), fun j hj => ?_, ?_⟩
  · have hj : j ∈ {j | s.Live j} \ {i} := hlive ▸ hj
    rw [hslot j hj.2]
    change s.slotOf j < (slotFreigeben s (s.slotOf i)).slotCount
    rw [slotFreigeben_slotCount]
    exact h.inRange j hj.1
  · unfold Swap.Booked
    rw [hlive, hmarks]
    exact (h.booked.sdiff_singleton hi).congr fun j hj => (hslot j hj.2).symm

/-! The calls. -/

/-- The page has no live entry, and the table has an entry for it. -/
def Swap.Recordable (s : Swap) (page : Nat) : Prop :=
  page ≠ 0 ∧ lookupGet s page < 0 ∧
    ∃ i < swapLookupSize, (s.lookup i).virt = 0 ∨ (s.lookup i).virt = page

/-- `swap_in(virt, lookup_get(virt))` gives back the slot of its own page only: for address 0 the
slot in the empty entry is not marked, and an address inside a page has a page without slot. -/
def Swap.Returnable (s : Swap) (virt : Nat) : Prop :=
  if virt = 0 then ¬ (0 ≤ lookupGet s 0 ∧ s.slotTest (lookupGet s 0).toNat = true)
  else virt % 4096 = 0 ∨ pageAddr virt = 0 ∨ lookupGet s (pageAddr virt) < 0

theorem SwapInv.live_iff (h : SwapInv s) (hi : i < swapLookupSize)
    (hvirt : (s.lookup i).virt = page) (hpage : page ≠ 0) :
    s.Live i ↔ 0 ≤ lookupGet s page := by
  rw [h.table.lookupGet_eq hi hvirt hpage]
  exact ⟨fun hl => hl.2.2, fun hpos => ⟨hi, hvirt ▸ hpage, hpos⟩⟩

theorem SwapInv.lookupSet_dead (h : SwapInv s) (hpage : page % 4096 = 0)
    (hdead : page = 0 ∨ lookupGet s page < 0) : SwapInv (lookupSet s page (-1)) := by
  have ht := h.table.lookupSet hpage (-1)
  have hrecords := h.table.records page (-1)
  generalize lookupSet s page (-1) = s' at ht hrecords ⊢
  cases hrecords with
  | known i hi hvirt =>
    refine h.enterDead ht fun hl => ?_
    rcases hdead with hzero | hneg
    · exact hl.2.1 (hvirt.trans hzero)
    · have hpos := (h.live_iff hi hvirt (hvirt ▸ hl.2.1)).mp hl
      omega
  | fresh i hi hempty => exact h.enterDead ht fun hl => hl.2.1 hempty
  | full => exact h

/-- The entry that a page gets when it is swapped out. -/
theorem SwapInv.out_enter (h : SwapInv s) (hrec : s.Recordable page) :
    ∃ i < swapLookupSize, ¬ s.Live i ∧ lookupSet (s.take k) page x = (s.take k).enter i page x := by
  obtain ⟨hzero, hdead, i, hi, hroom⟩ := hrec
  have htake : TableOk (s.take k) := h.table.congr fun _ => rfl
  have hrecords := htake.records page x
  generalize lookupSet (s.take k) page x = s' at hrecords ⊢
  cases hrecords with
  | known j hj hvirt =>
    refine ⟨j, hj, ?_, rfl⟩
    rw [h.live_iff hj hvirt hzero]
    omega
  | fresh j hj hempty => exact ⟨j, hj, fun hl => hl.2.1 hempty, rfl⟩
  | full hfull =>
    rcases hroom with hempty | hvirt
    · exact absurd hempty (hfull i hi).1
    · exact absurd hvirt (hfull i hi).2

theorem SwapInv.out (h : SwapInv s) (hpage : page % 4096 = 0) (hrec : s.Recordable page)
    (hk : k < s.slotCount) (hfree : s.slotTest k = false) :
    SwapInv (lookupSet (s.take k) page k) ∧ lookupGet (lookupSet (s.take k) page k) page = k := by
  have htake : TableOk (s.take k) := h.table.congr fun _ => rfl
  have ht := htake.lookupSet hpage k
  obtain ⟨i, hi, hdead, henter⟩ := h.out_enter hrec
  rw [henter] at ht ⊢
  refine ⟨h.enterLive (ht.congr fun _ => rfl) hdead hi hrec.1 hk hfree, ?_⟩
  rw [ht.lookupGet_eq hi (by rw [enter_lookup]) hrec.1, enter_lookup]

theorem u32OfInt_of_nonneg {n : Nat} (h : n < 2 ^ 32) : u32OfInt n = n := by
  unfold u32OfInt
  omega

/-- Giving back a slot that is not marked, or that does not exist, changes no bit. -/
theorem SwapInv.freigeben (h : SwapInv s)
    (hk : k < s.slotCount → s.slotTest k = false) : SwapInv (slotFreigeben s k) := by
  refine h.congr slotFreigeben_lookup slotFreigeben_slotCount fun j => ?_
  rw [slotFreigeben_slotTest]
  by_cases hkj : k < s.slotCount ∧ k = j
  · rw [← hkj.2, hk hkj.1]
    exact Bool.and_false _
  · simp [hkj]

theorem u32OfInt_neg : u32OfInt (-1) = 2 ^ 32 - 1 := by decide

/-- The slot number that `lookup_get` gives for no slot names none. -/
theorem SwapInv.freigeben_none (h : SwapInv s) : slotFreigeben s (u32OfInt (-1)) = s := by
  have hcount := h.count
  rw [u32OfInt_neg]
  refine if_neg ?_
  simp only [swapSlotsMax] at hcount
  omega

theorem SwapInv.lookupGet_small (h : SwapInv s) (page : Nat) :
    -1 ≤ lookupGet s page ∧ lookupGet s page < 2 ^ 32 := by
  rcases lookupGet_cases s page with ⟨i, hi, -, hget⟩ | ⟨hget, -⟩
  · rw [hget]
    exact h.small i hi
  · rw [hget]
    decide

/-- The slot of the live entry `i` goes back, and the entry is found again. -/
theorem SwapInv.returned_enter (h : SwapInv s) (hi : s.Live i) :
    lookupSet (slotFreigeben s (s.slotOf i)) (s.lookup i).virt (-1) =
      (slotFreigeben s (s.slotOf i)).enter i (s.lookup i).virt (-1) := by
  have hfreed : TableOk (slotFreigeben s (s.slotOf i)) :=
    h.table.congr fun j => by rw [slotFreigeben_lookup]
  have hrecords := hfreed.records (s.lookup i).virt (-1)
  generalize lookupSet (slotFreigeben s (s.slotOf i)) (s.lookup i).virt (-1) = s' at hrecords ⊢
  cases hrecords with
  | known j hj hvirt =>
    rw [slotFreigeben_lookup] at hvirt
    obtain rfl := h.table.once j hj i hi.1 hvirt (hvirt ▸ hi.2.1)
    rfl
  | fresh j hj hempty hbefore hnone =>
    exact absurd (by rw [slotFreigeben_lookup]) (hnone hi.2.1 i hi.1)
  | full hfull => exact absurd (by rw [slotFreigeben_lookup]) (hfull i hi.1).2

theorem SwapInv.returned (h : SwapInv s) (hi : s.Live i) :
    SwapInv (lookupSet (slotFreigeben s (s.slotOf i)) (s.lookup i).virt (-1)) := by
  rw [h.returned_enter hi]
  exact h.release (h.table.congr (enter_virt rfl)) hi

/-- The entry that `lookup_get` finds, and its slot as it is passed on. -/
theorem SwapInv.recorded (h : SwapInv s) (hpage : page ≠ 0) (hpos : 0 ≤ lookupGet s page) :
    ∃ i, s.Live i ∧ (s.lookup i).virt = page ∧ u32OfInt (lookupGet s page) = s.slotOf i := by
  rcases lookupGet_cases s page with ⟨i, hi, hentry, hget⟩ | ⟨hnone, -⟩
  · refine ⟨i, (h.live_iff hi hentry hpage).mpr hpos, hentry, ?_⟩
    have hsmall := h.small i hi
    unfold Swap.slotOf
    rw [hget] at hpos ⊢
    obtain ⟨k, hk⟩ := Int.eq_ofNat_of_zero_le hpos
    rw [hk] at hsmall ⊢
    rw [u32OfInt_of_nonneg (by omega)]
    rfl
  · omega

theorem SwapInv.in_ (h : SwapInv s) (hret : s.Returnable virt) (hvirt : virt < 2 ^ 32) :
    SwapInv (lookupSet (slotFreigeben s (u32OfInt (lookupGet s virt))) (pageAddr virt) (-1)) := by
  have haligned := pageAddr_aligned virt
  have hpage : pageAddr virt = virt / 4096 * 4096 := by rw [pageAddr_eq, u32_of_lt hvirt]
  obtain ⟨hlow, hhigh⟩ := h.lookupGet_small virt
  unfold Swap.Returnable at hret
  by_cases hzero : virt = 0
  · subst hzero
    rw [if_pos rfl] at hret
    by_cases hpos : 0 ≤ lookupGet s 0
    · obtain ⟨k, hk⟩ := Int.eq_ofNat_of_zero_le hpos
      rw [hk] at hret hhigh ⊢
      have hfree : s.slotTest k = false := by simpa using hret
      rw [u32OfInt_of_nonneg (by omega)]
      exact (h.freigeben fun _ => hfree).lookupSet_dead haligned (Or.inl rfl)
    · have hnone : lookupGet s 0 = -1 := by omega
      rw [hnone, h.freigeben_none]
      exact h.lookupSet_dead haligned (Or.inl rfl)
  rw [if_neg hzero] at hret
  by_cases hpos : 0 ≤ lookupGet s virt
  · -- the entry of the page is live, and so the address is the page's
    obtain ⟨i, hlive, hentry, hslot⟩ := h.recorded hzero hpos
    have hown : pageAddr virt = (s.lookup i).virt := by
      have hmod := h.table.aligned i hlive.1
      omega
    rw [hslot, hown]
    exact h.returned hlive
  · have hnone : lookupGet s virt = -1 := by omega
    rw [hnone, h.freigeben_none]
    refine h.lookupSet_dead haligned ?_
    rcases hret with hmod | hpage' | hdead
    · have hsame : pageAddr virt = virt := by omega
      rw [hsame, hnone]
      exact Or.inr (by decide)
    · exact Or.inl hpage'
    · exact Or.inr hdead

/-! The runs. -/

inductive SwapCall
  /-- `swap_out(virt)`; the drive is good for `good` sectors. -/
  | out (virt good : Nat)
  /-- `swap_in(virt, lookup_get(virt))` -/
  | in_ (virt good : Nat)
  /-- The rest of the kernel leaves mappings and memory like this. -/
  | elsewhere (vm : Vm)

def SwapState.call (st : SwapState) : SwapCall → SwapState
  | .out virt good => (swapOut st virt good).2
  | .in_ virt good => (swapIn st virt (u32OfInt (lookupGet st.swap virt)) good).2
  | .elsewhere vm => { st with vm := vm }

def SwapState.step (st : SwapState) (c : SwapCall) : Option SwapState := some (st.call c)

/-- After a successful `swap_out`, `lookup_get` knows the slot that the page was written to. -/
def SwapRecorded (st : SwapState) (c : SwapCall) (st' : SwapState) : Prop :=
  ∀ virt good, c = .out virt good → (swapOut st virt good).1 = 0 →
    lookupGet st'.swap (pageAddr virt) = (slotAllozieren st.swap).1

/-- If the call gets as far as the table, the table is ready for it. -/
def SwapOrderly (st : SwapState) : SwapCall → Prop
  | .out virt good => st.swap.bereit = true → st.frame virt ≠ 0 →
    (∃ k < st.swap.slotCount, st.swap.slotTest k = false) → sektorenProSlot ≤ good →
      st.swap.Recordable (pageAddr virt)
  | .in_ virt good => virt < 2 ^ 32 ∧ (st.swap.bereit = true → st.vm.allocPage.1 ≠ 0 →
    sektorenProSlot ≤ good → st.swap.Returnable virt)
  | .elsewhere _ => True

/-- A slot that is taken and given back. -/
theorem giveBack_slotTest (hk : k < s.slotCount) (hfree : s.slotTest k = false) :
    (slotFreigeben (s.take k) k).slotTest j = s.slotTest j := by
  have hcount : k < (s.take k).slotCount := hk
  rw [slotFreigeben_slotTest, take_slotTest]
  by_cases hkj : k = j
  · subst hkj
    simp [hcount, hfree]
  · simp [hkj]

theorem SwapInv.giveBack (h : SwapInv s) (hk : k < s.slotCount) (hfree : s.slotTest k = false) :
    SwapInv (slotFreigeben (s.take k) k) :=
  h.congr slotFreigeben_lookup slotFreigeben_slotCount fun _ => giveBack_slotTest hk hfree

theorem swapInv_empty {bereit : Bool} {lbaStart slotCount : Nat} (hcount : slotCount ≤ swapSlotsMax) :
    SwapInv ⟨bereit, lbaStart, slotCount, fun _ => 0, fun _ => ⟨0, 0⟩⟩ := by
  have hsmall : -1 ≤ (0 : Int) ∧ (0 : Int) < 2 ^ 32 := by decide
  refine ⟨⟨⟨0, Nat.zero_le _, fun i hi => absurd hi (Nat.not_lt_zero i), fun _ _ _ => rfl⟩,
    fun _ _ => rfl, fun _ _ _ _ _ hne => absurd rfl hne⟩, hcount, fun _ _ => hsmall,
    fun i hi => absurd rfl hi.2.1, ?_⟩
  refine ⟨fun i hi => absurd rfl hi.2.1, fun i hi => absurd rfl hi.2.1, ?_⟩
  rintro k ⟨-, hset⟩
  have hzero : (0 : BitVec 8).getLsbD (k &&& 7) = true := hset
  simp at hzero

theorem swapInv_swapInit {vm : Vm} {disk : Disk} {lba sizeSectors : Nat} :
    SwapInv (swapInit ⟨vm, Swap.start, disk⟩ lba sizeSectors good).swap := by
  unfold swapInit
  by_cases hsize : sizeSectors < sektorenProSlot
  · rw [if_pos hsize]
    exact swapInv_empty (Nat.zero_le _)
  · rw [if_neg hsize]
    exact swapInv_empty (Nat.min_le_right _ _)

theorem SwapInv.call {c : SwapCall} (h : SwapInv st.swap) (horderly : SwapOrderly st c) :
    SwapInv (st.call c).swap ∧ SwapRecorded st c (st.call c) := by
  cases c with
  | out virt good =>
    have houts := swapOut_outs st virt good
    unfold SwapRecorded SwapState.call
    dsimp only
    generalize hr : swapOut st virt good = r at houts ⊢
    have hrec : (r.1 = 0 → lookupGet r.2.swap (pageAddr virt) = (slotAllozieren st.swap).1) →
        ∀ virt' good', SwapCall.out virt good = .out virt' good' →
          (swapOut st virt' good').1 = 0 →
            lookupGet r.2.swap (pageAddr virt') = (slotAllozieren st.swap).1 := by
      rintro himp virt' good' hc hres
      cases hc
      rw [hr] at hres
      exact himp hres
    have hfail : ¬ (-1 : Int) = 0 := by decide
    cases houts with
    | unready => exact ⟨h, hrec fun hres => absurd hres hfail⟩
    | unmapped => exact ⟨h, hrec fun hres => absurd hres hfail⟩
    | noSlot => exact ⟨h, hrec fun hres => absurd hres hfail⟩
    | failed _ _ k hk hfree => exact ⟨h.giveBack hk hfree, hrec fun hres => absurd hres hfail⟩
    | done hready hframe k hk hfree hgood hslot =>
      obtain ⟨hinv, hget⟩ := h.out (pageAddr_aligned virt)
        (horderly hready hframe ⟨k, hk, hfree⟩ hgood) hk hfree
      dsimp only at hrec ⊢
      refine ⟨hinv, hrec fun _ => ?_⟩
      rw [hslot]
      exact hget
  | in_ virt good =>
    refine ⟨?_, fun _ _ hc => by cases hc⟩
    have hins := swapIn_ins st virt (u32OfInt (lookupGet st.swap virt)) good
    unfold SwapState.call
    dsimp only
    generalize swapIn st virt (u32OfInt (lookupGet st.swap virt)) good = r at hins ⊢
    cases hins with
    | unready => exact h
    | noPage => exact h
    | failed => exact h
    | done hready hpage hgood =>
      dsimp only
      exact h.in_ (horderly.2 hready hpage hgood) horderly.1
  | elsewhere vm => exact ⟨h, fun _ _ hc => by cases hc⟩

/-- From `swap_init` on, in every run of orderly calls, slots and live entries are in bijection and
every page that is swapped out is recorded. -/
theorem booked_of_orderly {vm : Vm} {disk : Disk} {lba sizeSectors : Nat} {calls : List SwapCall}
    (horderly : Run.EveryStep SwapState.step (fun st c _ => SwapOrderly st c)
      (swapInit ⟨vm, Swap.start, disk⟩ lba sizeSectors good) calls) :
    Run.EveryState SwapState.step (fun st => st.swap.Booked)
        (swapInit ⟨vm, Swap.start, disk⟩ lba sizeSectors good) calls ∧
      Run.EveryStep SwapState.step SwapRecorded
        (swapInit ⟨vm, Swap.start, disk⟩ lba sizeSectors good) calls := by
  constructor
  · refine horderly.everyState (I := fun st => SwapInv st.swap) ?_ (fun st h => h.booked)
      swapInv_swapInit
    rintro st c _ h ⟨⟩ hc
    exact (h.call hc).1
  · refine horderly.mono (I := fun st => SwapInv st.swap) ?_ swapInv_swapInit
    rintro st c _ h ⟨⟩ hc
    exact h.call hc

/-! A swap partition of 16 MB on the small machine. -/

def smallSwap : SwapState :=
  swapInit ⟨(smallVm fun _ => false).paging (.mapPage 0x40000000 0x105000 7), Swap.start,
    fun _ _ => 0⟩ 0x800 0x8000 1

theorem smallSwap_recordable : smallSwap.swap.Recordable (pageAddr 0x40000000) :=
  ⟨by decide, by decide +kernel, 0, by decide, Or.inl rfl⟩

theorem booked_of_orderly_small :
    Run.EveryState SwapState.step (fun st => st.swap.Booked) smallSwap
        [.out 0x40000000 8, .in_ 0x40000000 8] ∧
      Run.EveryStep SwapState.step SwapRecorded smallSwap
        [.out 0x40000000 8, .in_ 0x40000000 8] := by
  refine booked_of_orderly ?_
  intro st hst
  refine ⟨fun _ _ _ _ => smallSwap_recordable, fun st' hst' => ⟨⟨by decide, fun _ _ _ => ?_⟩, trivial⟩⟩
  exact Or.inl rfl

/-- The page lies in a 4 MB page: it stays mapped, and a second `swap_out` takes another slot for
the same entry. -/
theorem smallSwap_twice :
    let st := (smallSwap.call (.out 0x105000 8)).call (.out 0x105000 8)
    st.swap.slotTest 0 = true ∧
      (List.range swapLookupSize).all fun i =>
        (st.swap.lookup i).virt = 0 || (st.swap.lookup i).slot ≠ 0 := by
  unfold smallSwap
  rw [smallVm_eq]
  decide +kernel

theorem not_booked_small :
    ¬ ∀ (vm : Vm) (disk : Disk) (lba sizeSectors good : Nat) (calls : List SwapCall),
      Run.EveryState SwapState.step (fun st => st.swap.Booked)
        (swapInit ⟨vm, Swap.start, disk⟩ lba sizeSectors good) calls := by
  intro hall
  have hstates : Run.EveryState SwapState.step (fun st => st.swap.Booked) smallSwap
      [.out 0x105000 8, .out 0x105000 8] := hall _ _ _ _ _ _
  obtain ⟨hmarked, hnone⟩ := smallSwap_twice
  have hbooked := (hstates.2 _ rfl).2 _ rfl
  obtain ⟨i, hlive, hslot⟩ := hbooked.surjOn ⟨by decide, hmarked⟩
  have hfree := List.all_eq_true.mp hnone i (List.mem_range.mpr hlive.1)
  obtain ⟨hlt, hvirt, hpos⟩ := hlive
  unfold Swap.slotOf at hslot
  simp only [Bool.or_eq_true, decide_eq_true_eq] at hfree
  rcases hfree with hzero | hne
  · exact hvirt hzero
  · omega

end PinguinOS.Mm
