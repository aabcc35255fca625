import PinguinOS.Mm.PhysAlloc
import Mathlib.Logic.Function.Basic

/-! The page directory and the page tables: two-level translation over physical memory. -/
namespace PinguinOS.Mm

def pdePresent : BitVec 32 := 1
def pdeWritable : BitVec 32 := 2
def pdeUser : BitVec 32 := 4
def pdeNocache : BitVec 32 := 16
def pdeHuge : BitVec 32 := 128
def pageMask : BitVec 32 := 0xFFFFF000

/-- The page allocator and `kernel_pd`. -/
structure Vm where
  pmm : Pmm
  kernelPd : Nat → BitVec 32
  /-- Whether the n-th call of `pmm_alloc_page` from here on fails whatever the bitmap says. -/
  starved : Nat → Bool

/-- `pmm_alloc_page`, which may fail at any call. -/
def Vm.allocPage (v : Vm) : Nat × Vm :=
  let later := fun n => v.starved (n + 1)
  if v.starved 0 then (0, { v with starved := later })
  else
    let (phys, pmm) := pmmAllocPage v.pmm
    (phys, { v with pmm := pmm, starved := later })

/-- `pmm_free_page` -/
def Vm.freePage (v : Vm) (phys : Nat) : Vm := { v with pmm := pmmFreePage v.pmm phys }

def Vm.withMem (v : Vm) (m : Mem) : Vm := { v with pmm := { v.pmm with mem := m } }

/-- `((uint32_t *)base)[i]` -/
def Vm.word (v : Vm) (base i : Nat) : BitVec 32 := v.pmm.mem (base / 4 + i)

/-- `((uint32_t *)base)[i] = w` -/
def Vm.setWord (v : Vm) (base i : Nat) (w : BitVec 32) : Vm :=
  { v with pmm := { v.pmm with mem := Function.update v.pmm.mem (base / 4 + i) w } }

/-- The address of the page table, 0 for NULL. -/
def getOrAllocPt (v : Vm) (pdIdx : Nat) (create : Bool) (flags : BitVec 32) : Nat × Vm :=
  let pde := v.kernelPd pdIdx
  if pde &&& pdePresent ≠ 0 then
    if pde &&& pdeHuge ≠ 0 then (0, v) else ((pde &&& pageMask).toNat, v)
  else if !create then (0, v)
  else
    let (ptPhys, v) := v.allocPage
    if ptPhys = 0 then (0, v)
    else
      let entry := BitVec.ofNat 32 ptPhys ||| pdePresent ||| pdeWritable ||| (flags &&& pdeUser)
      (ptPhys,
        { v with
          pmm := { v.pmm with mem := memset v.pmm.mem ptPhys 0 pageSize }
          kernelPd := Function.update v.kernelPd pdIdx entry })

def pdIndex (virt : Nat) : Nat := virt >>> 22
def ptIndex (virt : Nat) : Nat := (virt >>> 12) &&& 0x3FF

/-- Returns 0, or -1 when there is no page table. -/
def pagingMapPage (v : Vm) (virt phys : Nat) (flags : BitVec 32) : Int × Vm :=
  let (pt, v) := getOrAllocPt v (pdIndex virt) true flags
  if pt = 0 then (-1, v)
  else
    let pte := (BitVec.ofNat 32 phys &&& pageMask) ||| pdePresent ||| (flags &&& 0xFFF)
    (0, v.setWord pt (ptIndex virt) pte)

/-- The loop of `paging_map_range` from page `i` on, with `n` pages to go. -/
def mapRangeFrom (v : Vm) (virt phys : Nat) (flags : BitVec 32) (i : Nat) : (n : Nat) → Int × Vm
  | 0 => (0, v)
  | n + 1 =>
    let (result, v) :=
      pagingMapPage v (u32 (virt + u32 (i * pageSize))) (u32 (phys + u32 (i * pageSize))) flags
    if result ≠ 0 then (-1, v) else mapRangeFrom v virt phys flags (i + 1) n

def pagingMapRange (v : Vm) (virt phys count : Nat) (flags : BitVec 32) : Int × Vm :=
  mapRangeFrom v virt phys flags 0 count

def pagingUnmapPage (v : Vm) (virt : Nat) : Vm :=
  let (pt, v) := getOrAllocPt v (pdIndex virt) false 0
  if pt = 0 then v else v.setWord pt (ptIndex virt) 0

def pagingGetPhys (v : Vm) (virt : Nat) : Nat :=
  let pde := v.kernelPd (pdIndex virt)
  if pde &&& pdePresent = 0 then 0
  else if pde &&& pdeHuge ≠ 0 then
    ((pde &&& 0xFFC00000) ||| (BitVec.ofNat 32 virt &&& 0x3FFFFF)).toNat
  else
    let pte := v.word (pde &&& pageMask).toNat (ptIndex virt)
    if pte &&& pdePresent = 0 then 0
    else ((pte &&& pageMask) ||| (BitVec.ofNat 32 virt &&& 0xFFF)).toNat

/-- `memcpy((void *)dst, (void *)src, PAGE_SIZE)` -/
def Vm.copyPage (v : Vm) (dst src : Nat) : Vm :=
  { v with
    pmm := { v.pmm with
      mem := fun w =>
        if dst / 4 ≤ w ∧ w < dst / 4 + 1024 then v.pmm.mem (src / 4 + (w - dst / 4))
        else v.pmm.mem w } }

def pagingCopyOnWrite (v : Vm) (virt : Nat) : Int × Vm :=
  let oldPhys := pagingGetPhys v (alignDown virt pageSize)
  if oldPhys = 0 then (-1, v)
  else
    let (newPhys, v) := v.allocPage
    if newPhys = 0 then (-1, v)
    else pagingMapPage (v.copyPage newPhys oldPhys) (alignDown virt pageSize) newPhys
      (pdePresent ||| pdeWritable ||| pdeUser)

/-- `for (i = lo; i < hi; i++) kernel_pd[offset + i] = entry(i)` -/
def fillPdes (pd : Nat → BitVec 32) (offset lo hi : Nat) (entry : Nat → BitVec 32) :
    Nat → BitVec 32 :=
  (List.range' lo (hi - lo)).foldl (fun pd i => Function.update pd (offset + i) (entry i)) pd

/-- A 4 MB page that maps `i * 4 MB`. -/
def hugePde (flags : BitVec 32) (i : Nat) : BitVec 32 :=
  BitVec.ofNat 32 (i * 0x400000) ||| pdePresent ||| pdeWritable ||| pdeHuge ||| flags

/-- `paging_init`; turning paging on and the gate of the fault handler are left out. -/
def pagingInit (v : Vm) : Vm :=
  let pd := fun _ => 0
  let pd := fillPdes pd 0 0 64 (hugePde 0)
  let pd := fillPdes pd 0 224 240 (hugePde pdeNocache)
  let pd := fillPdes pd 0 240 256 (hugePde pdeNocache)
  let pd := fillPdes pd 768 0 64 (hugePde 0)
  { v with kernelPd := pd }

/-! Entries: a page-aligned address with flags below it. -/

variable {v : Vm} {w f t m : BitVec 32} {a d i n k lo hi offset virt : Nat}
  {pd entry : Nat → BitVec 32}

theorem toNat_and_high (hk : k ≤ 32) (hm : m.toNat = not32 (2 ^ k - 1)) :
    (w &&& m).toNat = w.toNat / 2 ^ k * 2 ^ k := by
  rw [BitVec.toNat_and, hm]
  exact and_not32 hk w.isLt

theorem toNat_and_pageMask : (w &&& pageMask).toNat = w.toNat / 4096 * 4096 :=
  toNat_and_high (k := 12) (by decide) rfl

theorem toNat_and_low : (w &&& 0xFFF).toNat = w.toNat % 4096 :=
  Nat.and_two_pow_sub_one_eq_mod w.toNat 12

theorem entry_toNat (ha : a % 4096 = 0) (hlt : a < 2 ^ 32) (hf : f.toNat < 4096) :
    (BitVec.ofNat 32 a ||| f).toNat = a + f.toNat := by
  have hbase : a = 2 ^ 12 * (a / 4096) := by omega
  rw [BitVec.toNat_or, BitVec.toNat_ofNat, Nat.mod_eq_of_lt hlt, hbase,
    ← Nat.two_pow_add_eq_or_of_lt hf]

theorem entry_pageMask (ha : a % 4096 = 0) (hlt : a < 2 ^ 32) (hf : f.toNat < 4096) :
    ((BitVec.ofNat 32 a ||| f) &&& pageMask).toNat = a := by
  rw [toNat_and_pageMask, entry_toNat ha hlt hf]
  omega

/-- The flags of an entry do not depend on its address. -/
theorem entry_flag (ha : a % 4096 = 0) (hlt : a < 2 ^ 32) (hf : f.toNat < 4096)
    (ht : 0xFFF &&& t = t) : (BitVec.ofNat 32 a ||| f) &&& t = f &&& t := by
  have hlow : (BitVec.ofNat 32 a ||| f) &&& 0xFFF = f := by
    apply BitVec.eq_of_toNat_eq
    rw [toNat_and_low, entry_toNat ha hlt hf]
    omega
  rw [← ht, ← BitVec.and_assoc, hlow, ht]

/-! The directory that `paging_init` writes. -/

theorem fillPdes_apply : fillPdes pd offset lo hi entry d =
    if offset + lo ≤ d ∧ d < offset + hi then entry (d - offset) else pd d := by
  have hfold : ∀ (n : Nat) (pd : Nat → BitVec 32) (lo : Nat),
      (List.range' lo n).foldl (fun pd i => Function.update pd (offset + i) (entry i)) pd d =
        if offset + lo ≤ d ∧ d < offset + (lo + n) then entry (d - offset) else pd d := by
    intro n
    induction n with
    | zero =>
      intro pd lo
      rw [if_neg (by omega)]
      rfl
    | succ n ih =>
      intro pd lo
      rw [List.range'_succ, List.foldl_cons, ih]
      by_cases hd : d = offset + lo
      · subst hd
        rw [if_neg (by omega), if_pos (by omega), Function.update_self, Nat.add_sub_cancel_left]
      · rw [Function.update_of_ne hd]
        refine if_congr ?_ rfl rfl
        omega
  rw [fillPdes, hfold]
  refine if_congr ?_ rfl rfl
  omega

theorem pagingInit_pd : (pagingInit v).kernelPd d =
    if 768 ≤ d ∧ d < 832 then hugePde 0 (d - 768)
    else if 224 ≤ d ∧ d < 256 then hugePde pdeNocache d
    else if d < 64 then hugePde 0 d
    else 0 := by
  simp only [pagingInit, fillPdes_apply, Nat.zero_add, Nat.add_zero, Nat.sub_zero, Nat.zero_le,
    true_and]
  split_ifs <;> first | rfl | omega

/-- The flags of a 4 MB page that `paging_init` enters. -/
def hugeFlags (f : BitVec 32) : BitVec 32 := pdePresent ||| pdeWritable ||| pdeHuge ||| f

theorem hugePde_eq : hugePde f i = BitVec.ofNat 32 (i * 0x400000) ||| hugeFlags f := by
  simp only [hugePde, hugeFlags, BitVec.or_assoc]

theorem hugeFlags_low (hf : f = 0 ∨ f = pdeNocache) : (hugeFlags f).toNat < 4096 := by
  rcases hf with rfl | rfl
  · decide
  · decide

theorem hugePde_flag (hf : f = 0 ∨ f = pdeNocache) (hi : i < 1024) (ht : 0xFFF &&& t = t) :
    hugePde f i &&& t = hugeFlags f &&& t := by
  rw [hugePde_eq]
  exact entry_flag (by omega) (by omega) (hugeFlags_low hf) ht

/-- Translation through a 4 MB page. -/
theorem pagingGetPhys_huge (hf : f = 0 ∨ f = pdeNocache) (hi : i < 1024) (hvirt : virt < 2 ^ 32)
    (hpd : v.kernelPd (pdIndex virt) = hugePde f i) :
    pagingGetPhys v virt = i * 0x400000 + virt % 0x400000 := by
  have hpresent : hugePde f i &&& pdePresent ≠ 0 := by
    rw [hugePde_flag hf hi (by decide)]
    rcases hf with rfl | rfl <;> decide
  have hhuge : hugePde f i &&& pdeHuge ≠ 0 := by
    rw [hugePde_flag hf hi (by decide)]
    rcases hf with rfl | rfl <;> decide
  have hbase : (hugePde f i &&& 0xFFC00000).toNat = i * 0x400000 := by
    have hlow := hugeFlags_low hf
    rw [toNat_and_high (k := 22) (by decide) rfl, hugePde_eq,
      entry_toNat (by omega) (by omega) hlow]
    omega
  have hoffset : (BitVec.ofNat 32 virt &&& 0x3FFFFF).toNat = virt % 0x400000 := by
    rw [BitVec.toNat_and, BitVec.toNat_ofNat, Nat.mod_eq_of_lt hvirt]
    exact Nat.and_two_pow_sub_one_eq_mod virt 22
  rw [pagingGetPhys]
  dsimp only
  rw [hpd, if_neg hpresent, if_pos hhuge, BitVec.toNat_or, hbase, hoffset]
  have hlow : virt % 0x400000 < 2 ^ 22 := Nat.mod_lt _ (by decide)
  rw [Nat.mul_comm i]
  exact (Nat.two_pow_add_eq_or_of_lt hlow i).symm

theorem pdIndex_eq : pdIndex virt = virt / 0x400000 := Nat.shiftRight_eq_div_pow virt 22

end PinguinOS.Mm
