import PinguinOS.Lib.Bytes
import PinguinOS.Mm.Frames
import PinguinOS.Mm.PageFault

/-! Bytes that the kernel writes through its page tables, and what mapped pages hold. -/
namespace PinguinOS.Mm

/-- The kernel may write to the page; its write protection is on. -/
def Vm.Writable (v : Vm) (addr : Nat) : Prop :=
  v.Grants addr pdePresent ∧ v.Grants addr pdeWritable

instance {v : Vm} {addr : Nat} : Decidable (v.Writable addr) :=
  inferInstanceAs (Decidable (v.Grants addr pdePresent ∧ v.Grants addr pdeWritable))

/-- The error code of a write that the kernel tries. -/
def writeErr (v : Vm) (addr : Nat) : BitVec 32 :=
  if v.Grants addr pdePresent then errPresent ||| errWrite else errWrite

/-- A write faults until the page can be written, at most `faults` times; `none` is `kpanic`, or
one more fault. -/
def faultIn (current : Option Process) (addr : Nat) : (faults : Nat) → Vm → Option Vm
  | 0, v => if v.Writable addr then some v else none
  | faults + 1, v =>
    if v.Writable addr then some v
    else do
      let v ← pageFaultHandler v current (writeErr v addr) addr
      faultIn current addr faults v

def writeByte (current : Option Process) (faults : Nat) (v : Vm) (addr : Nat) (b : BitVec 8) :
    Option Vm :=
  (faultIn current addr faults v).map fun v =>
    v.withMem (Bytes.setByte v.pmm.mem (pagingGetPhys v addr) b)

/-- The address is mapped, and `b` is there. -/
def Vm.Shows (v : Vm) (addr : Nat) (b : BitVec 8) : Prop :=
  v.Grants addr pdePresent ∧ Bytes.byte v.pmm.mem (pagingGetPhys v addr) = b

/-- The page of the address goes to a frame that has `b` there. -/
def Vm.Holds (v : Vm) (addr : Nat) (b : BitVec 8) : Prop :=
  ∃ f, v.MapsTo (addr / 4096) f ∧ Bytes.byte v.pmm.mem (f * 4096 + addr % 4096) = b

/-- The pages of `U` that are mapped have frames of their own. -/
structure Region (kernStart kernEnd totalPages : Nat) (U : Nat → Prop) (v : Vm) : Prop where
  tables : TablesOk kernStart kernEnd totalPages v
  frame : ∀ n, U n → pagingGetPhys v (n * 4096 + 1) ≠ 0 → ∃ f, v.MapsTo n f
  own : ∀ n f, U n → v.MapsTo n f → FreshPage kernStart kernEnd totalPages v f
  apart : ∀ m n f, U m → U n → v.MapsTo m f → v.MapsTo n f → m = n

variable {kernStart kernEnd totalPages addr a n f g d x faults : Nat} {v u t : Vm} {U : Nat → Prop}
  {b c : BitVec 8} {flags : BitVec 32} {current : Option Process}

/-! What is mapped, by the translations. -/

theorem or_low_ne_zero {p : BitVec 32} {k : Nat} (hk : k % 2 = 1) {m : BitVec 32}
    (hm : m.getLsbD 0 = true) : (p ||| (BitVec.ofNat 32 k &&& m)).toNat ≠ 0 := by
  intro hzero
  have hbit : (p ||| (BitVec.ofNat 32 k &&& m)).getLsbD 0 = false := by
    rw [BitVec.getLsbD, hzero]
    rfl
  have hodd : (BitVec.ofNat 32 k).getLsbD 0 = true := by
    rw [BitVec.getLsbD, BitVec.toNat_ofNat, Nat.testBit_zero]
    simp
    omega
  rw [BitVec.getLsbD_or, BitVec.getLsbD_and, hodd, hm] at hbit
  simp at hbit

/-- The second byte of a page tells whether it is mapped. -/
theorem grants_present_iff : v.Grants addr pdePresent ↔
    pagingGetPhys v (addr / 4096 * 4096 + 1) ≠ 0 := by
  have hodd : (addr / 4096 * 4096 + 1) % 2 = 1 := by omega
  have hpage : (addr / 4096 * 4096 + 1) / 4096 = addr / 4096 := by omega
  obtain ⟨hd, hi⟩ := samePage_iff.mp hpage
  unfold Vm.Grants Vm.pte Vm.Huge pagingGetPhys
  dsimp only
  rw [hd, hi]
  by_cases hpresent : v.kernelPd (pdIndex addr) &&& pdePresent = 0
  · rw [if_pos hpresent]
    simp [hpresent]
  · rw [if_neg hpresent, and_iff_right hpresent, and_iff_right hpresent]
    by_cases hhuge : v.kernelPd (pdIndex addr) &&& pdeHuge = 0
    · rw [if_neg (not_not.mpr hhuge), or_iff_right (not_not.mpr hhuge)]
      split
      case isTrue hzero => exact iff_of_false (not_not.mpr hzero) (not_not.mpr rfl)
      case isFalse hset => exact iff_of_true hset (or_low_ne_zero hodd rfl)
    · rw [if_pos hhuge]
      exact iff_of_true (Or.inl hhuge) (or_low_ne_zero hodd rfl)

theorem pte_translation (pte : BitVec 32) (virt : Nat) :
    ((pte &&& pageMask) ||| (BitVec.ofNat 32 virt &&& 0xFFF)).toNat =
      pte.toNat / 4096 * 4096 + virt % 4096 := by
  have hoffset : virt % 4096 < 2 ^ 12 := Nat.mod_lt _ (by decide)
  rw [BitVec.toNat_or, toNat_and_pageMask, toNat_and_low, BitVec.toNat_ofNat,
    Nat.mod_mod_of_dvd virt (by decide), Nat.mul_comm]
  exact (Nat.two_pow_add_eq_or_of_lt hoffset _).symm

theorem Vm.MapsTo.getPhys (h : v.MapsTo n f) (ha : addr / 4096 = n) :
    pagingGetPhys v addr = f * 4096 + addr % 4096 := by
  obtain ⟨htable, hframe, hpos⟩ := h
  rw [← @page_pdIndex n] at htable
  have hpage : addr / 4096 = n * 4096 / 4096 := by omega
  obtain ⟨hd, hi⟩ := samePage_iff.mp hpage
  rw [pagingGetPhys_table htable rfl] at hframe
  rw [pagingGetPhys_table (hd ▸ htable) rfl, hd, hi]
  by_cases hset : v.pmm.mem (v.tablePfn (pdIndex (n * 4096)) * 1024 + ptIndex (n * 4096)) &&&
      pdePresent = 0
  · rw [if_pos hset] at hframe
    omega
  · rw [if_neg hset, pte_translation] at hframe
    rw [if_neg hset, pte_translation]
    omega

theorem Vm.MapsTo.unique (h : v.MapsTo n f) (h' : v.MapsTo n g) : f = g := by
  have hsame := h.2.1.symm.trans h'.2.1
  omega

theorem Vm.MapsTo.present (h : v.MapsTo (addr / 4096) f) : v.Grants addr pdePresent := by
  rw [grants_present_iff, h.getPhys (by omega)]
  omega

theorem Vm.Holds.unique (h : v.Holds a b) (h' : v.Holds a c) : b = c := by
  obtain ⟨f, hmap, rfl⟩ := h
  obtain ⟨g, hmap', rfl⟩ := h'
  rw [hmap.unique hmap']

theorem Vm.Holds.shows (h : v.Holds a b) : v.Shows a b := by
  obtain ⟨f, hmap, hbyte⟩ := h
  refine ⟨hmap.present, ?_⟩
  rw [hmap.getPhys rfl]
  exact hbyte

theorem Region.frame_of_present (h : Region kernStart kernEnd totalPages U v) (ha : U (a / 4096))
    (hp : v.Grants a pdePresent) : ∃ f, v.MapsTo (a / 4096) f :=
  h.frame _ ha (grants_present_iff.mp hp)

theorem Region.shows_iff (h : Region kernStart kernEnd totalPages U v) (ha : U (a / 4096)) :
    v.Shows a b ↔ v.Holds a b := by
  refine ⟨?_, Vm.Holds.shows⟩
  rintro ⟨hpresent, hbyte⟩
  obtain ⟨f, hmap⟩ := h.frame_of_present ha hpresent
  refine ⟨f, hmap, ?_⟩
  rw [← hmap.getPhys rfl]
  exact hbyte

/-- Pages that are not mapped. -/
theorem TablesOk.region (h : TablesOk kernStart kernEnd totalPages v)
    (hU : ∀ n, U n → ¬ v.Grants (n * 4096) pdePresent) :
    Region kernStart kernEnd totalPages U v := by
  have hpage : ∀ n, n * 4096 / 4096 = n := fun n => Nat.mul_div_cancel n (by decide)
  have hnone : ∀ n f, U n → ¬ v.MapsTo n f := by
    intro n f hn hmap
    rw [← hpage n] at hmap
    exact hU n hn hmap.present
  refine ⟨h, fun n hn hphys => ?_, fun n f hn hmap => absurd hmap (hnone n f hn),
    fun m n f hm hn hmap => absurd hmap (hnone m f hm)⟩
  refine absurd (grants_present_iff.mpr ?_) (hU n hn)
  rwa [hpage]

/-! A new frame is mapped. -/

theorem SamePage.byte (h : SamePage v u x) : Bytes.byte u.pmm.mem (x * 4096 + a % 4096) =
    Bytes.byte v.pmm.mem (x * 4096 + a % 4096) := by
  unfold Bytes.byte
  rw [h _ (by omega)]

section MapNew

variable {w : Vm} {i m : Nat} (hnew : NewFrame kernStart kernEnd totalPages v w f)
  (ht : t = (pagingMapPage w (n * 4096) (f * pageSize) flags).2)

include hnew ht

/-- There is no memory for the table, or the page goes to the new frame and no other page changes. -/
theorem NewFrame.map_cases :
    (pagingMapPage w (n * 4096) (f * pageSize) flags).1 = -1 ∧
        (∀ m i, t.MapsTo m i ↔ v.MapsTo m i) ∧
        (∀ a, pagingGetPhys t a = pagingGetPhys v a) ∨
      (pagingMapPage w (n * 4096) (f * pageSize) flags).1 = 0 ∧
        (∀ m i, t.MapsTo m i ↔ m = n ∧ i = f ∨ m ≠ n ∧ v.MapsTo m i) ∧
        ∀ a, a / 4096 ≠ n → pagingGetPhys t a = pagingGetPhys v a := by
  have hlimit := hnew.tablesOk.sane.limit
  have hrange := hnew.fresh.inRange
  have hphys : f * pageSize < 2 ^ 32 := by
    simp only [pageSize]
    omega
  have hmaps := @mapsTo_mapPage _ _ _ n w flags f hnew.tablesOk hnew.fresh.pos (by omega)
  have hgets := @TablesOk.pagingMapPage _ _ _ (n * 4096) w flags (f * pageSize) hnew.tablesOk hphys
  rw [← ht] at hmaps hgets
  rcases hmaps with ⟨hfail, hmaps⟩ | ⟨hdone, hmaps⟩
  · rcases hgets with ⟨-, hgets⟩ | ⟨hdone, -⟩
    · refine Or.inl ⟨hfail, fun m i => ?_, fun a => ?_⟩
      · rw [hmaps, hnew.same.mapsTo]
      · rw [hgets, hnew.same.getPhys]
    · rw [hdone] at hfail
      exact absurd hfail (by decide)
  · rcases hgets with ⟨hfail, -⟩ | ⟨-, hgets⟩
    · rw [hdone] at hfail
      exact absurd hfail (by decide)
    · refine Or.inr ⟨hdone, fun m i => ?_, fun a hne => ?_⟩
      · rw [hmaps, hnew.same.mapsTo]
      · rw [hgets, if_neg (by omega), hnew.same.getPhys]

theorem NewFrame.mapsTo_other (hne : m ≠ n) : t.MapsTo m i ↔ v.MapsTo m i := by
  rcases hnew.map_cases ht with ⟨-, hmaps, -⟩ | ⟨-, hmaps, -⟩
  · exact hmaps m i
  · rw [hmaps, or_iff_right fun hboth => hne hboth.1, and_iff_right hne]

theorem NewFrame.mapsTo_new (hi : t.MapsTo m i) : m = n ∧ i = f ∨ v.MapsTo m i := by
  rcases hnew.map_cases ht with ⟨-, hmaps, -⟩ | ⟨-, hmaps, -⟩
  · exact Or.inr ((hmaps m i).mp hi)
  · exact ((hmaps m i).mp hi).imp_right And.right

/-- A page that is mapped after it was mapped before, or is the new one. -/
theorem NewFrame.frame_of_present
    (hframe : pagingGetPhys v (m * 4096 + 1) ≠ 0 → ∃ i, v.MapsTo m i)
    (hpresent : pagingGetPhys t (m * 4096 + 1) ≠ 0) : ∃ i, t.MapsTo m i := by
  rcases hnew.map_cases ht with ⟨-, hmaps, hgets⟩ | ⟨-, hmaps, hgets⟩
  · rw [hgets] at hpresent
    obtain ⟨i, hi⟩ := hframe hpresent
    exact ⟨i, (hmaps m i).mpr hi⟩
  · by_cases hmn : m = n
    · exact ⟨f, (hmaps m f).mpr (Or.inl ⟨hmn, rfl⟩)⟩
    · rw [hgets _ (by omega)] at hpresent
      obtain ⟨i, hi⟩ := hframe hpresent
      exact ⟨i, (hmaps m i).mpr (Or.inr ⟨hmn, hi⟩)⟩

/-- The frames that were in use keep their bytes. -/
theorem NewFrame.keepsOld (hx : FreshPage kernStart kernEnd totalPages v x) :
    Keeps kernStart kernEnd totalPages v t x ∧ x ≠ f := by
  obtain ⟨hkeep, hne⟩ := hnew.keeps x hx
  rw [ht]
  exact ⟨hkeep.trans (hkeep.fresh.mapPage hnew.tablesOk), hne⟩

theorem Region.mapped (h : Region kernStart kernEnd totalPages U v) :
    Region kernStart kernEnd totalPages U t := by
  constructor
  case tables => exact ht ▸ hnew.tablesOk.mapPage
  case frame =>
    intro m hm
    exact hnew.frame_of_present ht (h.frame m hm)
  case own =>
    intro m i hm hi
    rcases hnew.mapsTo_new ht hi with ⟨-, rfl⟩ | hbefore
    · rw [ht]
      exact (hnew.fresh.mapPage hnew.tablesOk).fresh
    · exact (hnew.keepsOld ht (h.own m i hm hbefore)).1.fresh
  case apart =>
    intro m m' i hm hm' hi hi'
    rcases hnew.mapsTo_new ht hi with ⟨rfl, rfl⟩ | hbefore
    · rcases hnew.mapsTo_new ht hi' with ⟨rfl, -⟩ | hbefore'
      · rfl
      · exact absurd rfl (hnew.keepsOld ht (h.own m' i hm' hbefore')).2
    · rcases hnew.mapsTo_new ht hi' with ⟨rfl, rfl⟩ | hbefore'
      · exact absurd rfl (hnew.keepsOld ht (h.own m i hm hbefore)).2
      · exact h.apart m m' i hm hm' hbefore hbefore'

/-- With a table the mapping is made, and the page holds what the frame does. -/
theorem NewFrame.holds_new (htable : v.HasTable (n / 1024)) (ha : a / 4096 = n) :
    t.Holds a (Bytes.byte w.pmm.mem (f * 4096 + a % 4096)) := by
  subst ha
  have hfresh : Keeps kernStart kernEnd totalPages w t f := ht ▸ hnew.fresh.mapPage hnew.tablesOk
  have htable' : w.HasTable (pdIndex (a / 4096 * 4096)) := by
    rw [page_pdIndex]
    exact (hasTable_congr (congrFun hnew.same.1 _)).mpr htable
  have hdone := @mapPage_present _ _ _ (a / 4096 * 4096) (f * pageSize) w flags hnew.tablesOk
    htable'
  refine ⟨f, ?_, hfresh.same.byte⟩
  rcases hnew.map_cases ht with ⟨hfail, -⟩ | ⟨-, hmaps, -⟩
  · rw [hdone] at hfail
    exact absurd hfail (by decide)
  · exact (hmaps _ f).mpr (Or.inl ⟨rfl, rfl⟩)

theorem Region.mapNew (h : Region kernStart kernEnd totalPages U v) :
    Region kernStart kernEnd totalPages U t ∧
      (∀ a b, U (a / 4096) → a / 4096 ≠ n → v.Holds a b → t.Holds a b) ∧
      (v.HasTable (n / 1024) → ∀ a, a / 4096 = n →
        t.Holds a (Bytes.byte w.pmm.mem (f * 4096 + a % 4096))) := by
  refine ⟨h.mapped hnew ht, ?_, fun htable a => hnew.holds_new ht htable⟩
  rintro a b ha hne ⟨i, hi, rfl⟩
  refine ⟨i, (hnew.mapsTo_other ht hne).mpr hi, ?_⟩
  exact (hnew.keepsOld ht (h.own _ i ha hi)).1.same.byte

end MapNew

/-! A fault, and the write after it. -/

theorem copyPage_byte : Bytes.byte (v.copyPage (g * pageSize) (f * 4096)).pmm.mem
    (g * 4096 + a % 4096) = Bytes.byte v.pmm.mem (f * 4096 + a % 4096) := by
  have hin : g * pageSize / 4 ≤ (g * 4096 + a % 4096) / 4 ∧
      (g * 4096 + a % 4096) / 4 < g * pageSize / 4 + 1024 := by
    simp only [pageSize]
    omega
  have hword : f * 4096 / 4 + ((g * 4096 + a % 4096) / 4 - g * pageSize / 4) =
      (f * 4096 + a % 4096) / 4 := by
    simp only [pageSize]
    omega
  have hbyte : (g * 4096 + a % 4096) % 4 = (f * 4096 + a % 4096) % 4 := by omega
  unfold Bytes.byte Vm.copyPage
  dsimp only
  rw [if_pos hin, hword, hbyte]

theorem NewFrame.copy {w : Vm} (h : NewFrame kernStart kernEnd totalPages v w g) (src : Nat) :
    NewFrame kernStart kernEnd totalPages v (w.copyPage (g * pageSize) src) g := by
  refine h.fill fun x hx => if_neg ?_
  simp only [pageSize]
  omega

theorem Region.fault (h : Region kernStart kernEnd totalPages U v) (ha : a < 2 ^ 32)
    (hU : U (a / 4096)) (ht : pageFaultHandler v current (writeErr v a) a = some t) :
    Region kernStart kernEnd totalPages U t ∧
      ∀ a' b, U (a' / 4096) → v.Holds a' b → t.Holds a' b := by
  have halign := alignDown_page ha
  by_cases hpresent : v.Grants a pdePresent
  · have herr : writeErr v a = errPresent ||| errWrite := if_pos hpresent
    obtain ⟨f, hmap⟩ := h.frame_of_present hU hpresent
    have hold : pagingGetPhys v (alignDown a pageSize) = f * 4096 := by
      rw [halign]
      exact hmap.2.1
    have hne : ¬ f * 4096 = 0 := by
      have hpos := hmap.2.2
      omega
    have hfail : ¬ (-1 : Int) = 0 := by decide
    have hbits : (errPresent ||| errWrite) &&& errPresent ≠ 0 ∧
        (errPresent ||| errWrite) &&& errWrite ≠ 0 := by decide
    unfold pageFaultHandler pagingCopyOnWrite at ht
    dsimp only at ht
    rw [herr, if_pos hbits, hold, if_neg hne] at ht
    by_cases hsome : v.allocPage.1 = 0
    · rw [if_pos hsome, if_neg hfail] at ht
      cases ht
    rw [if_neg hsome] at ht
    obtain ⟨g, haddr, hnew⟩ := h.tables.newFrame hsome
    rw [haddr, halign] at ht
    split_ifs at ht with hdone
    cases ht
    obtain ⟨hregion, hothers, hself⟩ := h.mapNew (hnew.copy (f * 4096)) rfl
    refine ⟨hregion, fun a' b hU' hholds => ?_⟩
    by_cases hpage : a' / 4096 = a / 4096
    · obtain ⟨i, hi, rfl⟩ := hholds
      rw [hpage] at hi
      obtain rfl := hmap.unique hi
      have hkeep := (hnew.keeps f (h.own _ f hU hmap)).1.same.byte (a := a')
      have hnow := hself hmap.1 a' hpage
      rw [copyPage_byte, hkeep] at hnow
      exact hnow
    · exact hothers a' b hU' hpage hholds
  · have herr : writeErr v a &&& errPresent = 0 := by
      unfold writeErr
      rw [if_neg hpresent]
      decide
    obtain ⟨hsome, flags, rfl⟩ := fault_notPresent herr ht
    obtain ⟨g, haddr, hnew⟩ := h.tables.newFrame hsome
    rw [haddr, halign]
    obtain ⟨hregion, hothers, -⟩ := h.mapNew hnew rfl
    refine ⟨hregion, fun a' b hU' hholds => hothers a' b hU' (fun hpage => ?_) hholds⟩
    obtain ⟨i, hi, -⟩ := hholds
    rw [hpage] at hi
    exact hpresent hi.present

theorem Region.faultIn (h : Region kernStart kernEnd totalPages U v) (ha : a < 2 ^ 32)
    (hU : U (a / 4096)) (ht : PinguinOS.Mm.faultIn current a faults v = some t) :
    Region kernStart kernEnd totalPages U t ∧ t.Writable a ∧
      ∀ a' b, U (a' / 4096) → v.Holds a' b → t.Holds a' b := by
  induction faults generalizing v with
  | zero =>
    unfold PinguinOS.Mm.faultIn at ht
    split_ifs at ht with hw
    cases ht
    exact ⟨h, hw, fun _ _ _ hholds => hholds⟩
  | succ faults ih =>
    unfold PinguinOS.Mm.faultIn at ht
    split_ifs at ht with hw
    · cases ht
      exact ⟨h, hw, fun _ _ _ hholds => hholds⟩
    · obtain ⟨u, hu, hrest⟩ := Option.bind_eq_some_iff.mp ht
      obtain ⟨hregion, hkeep⟩ := h.fault ha hU hu
      obtain ⟨hlast, hw, hkeep'⟩ := ih hregion hrest
      exact ⟨hlast, hw, fun a' b hU' hholds => hkeep' a' b hU' (hkeep a' b hU' hholds)⟩

/-- One byte of a frame is written. -/
theorem Region.setByte (h : Region kernStart kernEnd totalPages U v) (hU : U (a / 4096))
    (hmap : v.MapsTo (a / 4096) f)
    (ht : t = v.withMem (Bytes.setByte v.pmm.mem (f * 4096 + a % 4096) c)) :
    Region kernStart kernEnd totalPages U t ∧ t.Holds a c ∧
      ∀ a' b, a' ≠ a → U (a' / 4096) → v.Holds a' b → t.Holds a' b := by
  have hframe := h.own _ f hU hmap
  have hout : ∀ w, w / 1024 ≠ f →
      Bytes.setByte v.pmm.mem (f * 4096 + a % 4096) c w = v.pmm.mem w :=
    fun w hw => Bytes.setByte_word (by omega)
  obtain ⟨hok, hsame, hfresh⟩ := h.tables.fill hframe hout
  rw [← ht] at hok hsame hfresh
  have hbyte : ∀ x, Bytes.byte t.pmm.mem x =
      if x = f * 4096 + a % 4096 then c else Bytes.byte v.pmm.mem x := by
    intro x
    rw [ht]
    exact Bytes.byte_setByte
  refine ⟨⟨hok, fun n hn hphys => ?_, fun n i hn hi => ?_, fun m n i hm hn hi hi' => ?_⟩,
    ⟨f, hsame.mapsTo.mpr hmap, ?_⟩, ?_⟩
  · rw [hsame.getPhys] at hphys
    obtain ⟨i, hi⟩ := h.frame n hn hphys
    exact ⟨i, hsame.mapsTo.mpr hi⟩
  · exact hfresh i (h.own n i hn (hsame.mapsTo.mp hi))
  · exact h.apart m n i hm hn (hsame.mapsTo.mp hi) (hsame.mapsTo.mp hi')
  · rw [hbyte, if_pos rfl]
  · rintro a' b hne hU' ⟨g, hg, rfl⟩
    refine ⟨g, hsame.mapsTo.mpr hg, ?_⟩
    rw [hbyte, if_neg]
    intro heq
    have hgf : g = f := by omega
    subst hgf
    have hpage := h.apart _ _ g hU' hU hg hmap
    exact hne (by omega)

theorem Region.writeByte (h : Region kernStart kernEnd totalPages U v) (ha : a < 2 ^ 32)
    (hU : U (a / 4096)) (ht : PinguinOS.Mm.writeByte current faults v a c = some t) :
    Region kernStart kernEnd totalPages U t ∧ t.Holds a c ∧
      ∀ a' b, a' ≠ a → U (a' / 4096) → v.Holds a' b → t.Holds a' b := by
  obtain ⟨u, hu, hwrite⟩ := Option.map_eq_some_iff.mp ht
  obtain ⟨hregion, hw, hkeep⟩ := h.faultIn ha hU hu
  obtain ⟨f, hmap⟩ := hregion.frame_of_present hU hw.1
  rw [hmap.getPhys rfl] at hwrite
  obtain ⟨hlast, hself, hothers⟩ := hregion.setByte hU hmap hwrite.symm
  exact ⟨hlast, hself, fun a' b hne hU' hholds => hothers a' b hne hU' (hkeep a' b hU' hholds)⟩

/-! A page of zeros is mapped. -/

theorem allocPage_zero (h : TablesOk kernStart kernEnd totalPages v)
    (haddr : v.allocPage.1 = f * pageSize) (hf : 0 < f) :
    Bytes.byte v.allocPage.2.pmm.mem (f * 4096 + a % 4096) = 0 := by
  rcases v.allocPage_cases h.sane.placed.total with ⟨hzero, -⟩ | ⟨i, hphys, hpmm, -⟩
  · rw [haddr] at hzero
    simp only [pageSize] at hzero
    omega
  · have hif : i = f := by
      rw [haddr] at hphys
      simp only [pageSize] at hphys
      omega
    have hword : (takePages v.pmm f 1).mem ((f * 4096 + a % 4096) / 4) = 0 := by
      refine if_pos ?_
      simp only [pageSize]
      omega
    unfold Bytes.byte
    rw [hpmm, hif, hword]
    unfold Bytes.byteOf
    exact BitVec.extractLsb'_zero

/-- `pmm_alloc_page`, then `paging_map_page`: what the page held is gone. -/
theorem Region.mapZero (h : Region kernStart kernEnd totalPages U v) (hsome : v.allocPage.1 ≠ 0)
    (ht : t = (pagingMapPage v.allocPage.2 (n * 4096) v.allocPage.1 flags).2) :
    Region kernStart kernEnd totalPages U t ∧
      ∀ a b, U (a / 4096) → v.Holds a b → t.Holds a (if a / 4096 = n then 0 else b) := by
  obtain ⟨f, haddr, hnew⟩ := h.tables.newFrame hsome
  rw [haddr] at ht
  obtain ⟨hregion, hothers, hself⟩ := h.mapNew hnew ht
  refine ⟨hregion, fun a b hU hholds => ?_⟩
  by_cases hpage : a / 4096 = n
  · obtain ⟨i, hi, -⟩ := hholds
    have htable := hi.1
    rw [hpage] at htable
    have hnow := hself htable a hpage
    rw [allocPage_zero h.tables haddr hnew.fresh.pos] at hnow
    rw [if_pos hpage]
    exact hnow
  · rw [if_neg hpage]
    exact hothers a b hU hpage hholds

end PinguinOS.Mm
