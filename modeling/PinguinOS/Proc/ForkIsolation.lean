import PinguinOS.Mm.Frames
import PinguinOS.Mm.PageFault
import PinguinOS.Proc.TableRun

/-! The two address spaces after a fork: which stores of one the other can see. -/
namespace PinguinOS.Proc

open Mm

/-- The directory in CR3, which the parent runs in, and the one of the child. -/
inductive Side
  | parent
  | child

def Side.other : Side → Side
  | .parent => .child
  | .child => .parent

structure Spaces where
  vm : Vm
  childPd : Nat

def Spaces.pd (s : Spaces) : Side → Nat → BitVec 32
  | .parent => s.vm.kernelPd
  | .child => s.vm.word s.childPd

/-- The processor's way through a directory: the rights that both entries give, and the address. -/
def walk (v : Vm) (pd : Nat → BitVec 32) (virt : Nat) : Option (BitVec 32 × Nat) :=
  let pde := pd (pdIndex virt)
  if pde &&& pdePresent = 0 then none
  else if pde &&& pdeHuge ≠ 0 then
    some (pde, ((pde &&& 0xFFC00000) ||| (BitVec.ofNat 32 virt &&& 0x3FFFFF)).toNat)
  else
    let pte := v.word (pde &&& pageMask).toNat (ptIndex virt)
    if pte &&& pdePresent = 0 then none
    else some (pde &&& pte, ((pte &&& pageMask) ||| (BitVec.ofNat 32 virt &&& 0xFFF)).toNat)

/-- The word that a user access reads; `none` is a fault. -/
def userRead (s : Spaces) (side : Side) (virt : Nat) : Option (BitVec 32) :=
  match walk s.vm (s.pd side) virt with
  | none => none
  | some (rights, phys) => if rights &&& pdeUser ≠ 0 then some (s.vm.word phys 0) else none

/-- A user store. A store of fewer bytes is one that leaves the rest of the word as it is. -/
structure Store where
  side : Side
  virt : Nat
  value : BitVec 32
  lt : virt < 2 ^ 32

/-- The store is made, or it faults and the handler returns; it may be made again then. -/
def storeStep (current : Option Process) (s : Spaces) (st : Store) : Option Spaces :=
  match walk s.vm (s.pd st.side) st.virt with
  | none =>
    (pageFaultHandler s.vm current (errWrite ||| errUser) st.virt).map fun vm =>
      { s with vm := vm }
  | some (rights, phys) =>
    if rights &&& pdeUser ≠ 0 ∧ rights &&& pdeWritable ≠ 0 then
      some { s with vm := s.vm.setWord phys 0 st.value }
    else
      (pageFaultHandler s.vm current (errPresent ||| errWrite ||| errUser) st.virt).map fun vm =>
        { s with vm := vm }

/-- What can be read through the other directory is the same before and after. -/
def Unseen (s : Spaces) (st : Store) (t : Spaces) : Prop :=
  ∀ virt < 2 ^ 32, userRead t st.side.other virt = userRead s st.side.other virt

/-- `proc_current()` -/
def procCurrent {σ : Type} (s : ProcSys σ) : Option Process :=
  s.currentProc.map fun slot => (s.procTable slot).toProcess

def UserEntry (pde : BitVec 32) : Prop := pde &&& pdePresent ≠ 0 ∧ pde &&& pdeUser ≠ 0

/-- Under directory entries that are open to the user nothing is mapped; none of them is in the
heap. -/
def NoUserPages (v : Vm) : Prop :=
  ∀ virt < 2 ^ 32, UserEntry (v.kernelPd (pdIndex virt)) →
    pagingGetPhys v virt = 0 ∧ ¬ InHeap virt

/-- The page is mapped writable for the user. -/
def UserWritable (v : Vm) (virt : Nat) : Prop :=
  ∃ rights phys, walk v v.kernelPd virt = some (rights, phys) ∧
    rights &&& pdeUser ≠ 0 ∧ rights &&& pdeWritable ≠ 0

/-! What the processor finds. -/

variable {kernStart kernEnd totalPages virt phys f i d : Nat} {v u : Vm} {pd : Nat → BitVec 32}
  {rights flags : BitVec 32} {s t : Spaces} {st : Store} {side : Side}

/-- The second byte of the page of an address. -/
def pageProbe (virt : Nat) : Nat := virt / 4096 * 4096 + 1

theorem pageProbe_indices : pdIndex (pageProbe virt) = pdIndex virt ∧
    ptIndex (pageProbe virt) = ptIndex virt ∧ pageProbe virt % 4096 = 1 := by
  unfold pageProbe
  rw [pdIndex_eq, pdIndex_eq, ptIndex_eq, ptIndex_eq]
  omega

theorem or_ne_zero_of_odd {a b : BitVec 32} (h : b &&& 1 ≠ 0) : (a ||| b).toNat ≠ 0 := by
  intro hzero
  have hor : a ||| b = 0#32 := BitVec.eq_of_toNat_eq hzero
  obtain ⟨-, hb⟩ := BitVec.or_eq_zero_iff.mp hor
  rw [hb] at h
  exact h (by decide)

theorem probe_and {m : BitVec 32} (hm : m &&& 1 = 1) :
    BitVec.ofNat 32 (pageProbe virt) &&& m &&& 1 ≠ 0 := by
  rw [BitVec.and_assoc, hm]
  intro hzero
  have hbit := congrArg BitVec.toNat hzero
  rw [BitVec.toNat_and, BitVec.toNat_ofNat] at hbit
  have hodd : pageProbe virt % 2 ^ 32 % 2 = 1 := by
    unfold pageProbe
    omega
  have hone : (1 : BitVec 32).toNat = 1 := rfl
  rw [hone, Nat.and_one_is_mod, hodd] at hbit
  cases hbit

/-- Where `paging_get_phys` finds nothing in a page, the processor finds nothing. -/
theorem walk_none (hpd : pd (pdIndex virt) = v.kernelPd (pdIndex virt))
    (h : pagingGetPhys v (pageProbe virt) = 0) : walk v pd virt = none := by
  obtain ⟨hd, hi, -⟩ := @pageProbe_indices virt
  unfold pagingGetPhys at h
  unfold walk
  dsimp only at h ⊢
  rw [hd, hi] at h
  rw [hpd]
  by_cases hpresent : v.kernelPd (pdIndex virt) &&& pdePresent = 0
  · rw [if_pos hpresent]
  · rw [if_neg hpresent] at h ⊢
    by_cases hhuge : v.kernelPd (pdIndex virt) &&& pdeHuge ≠ 0
    · rw [if_pos hhuge] at h
      exact absurd h (or_ne_zero_of_odd (probe_and (by decide)))
    · rw [if_neg hhuge] at h ⊢
      by_cases hpte : v.word (v.kernelPd (pdIndex virt) &&& pageMask).toNat (ptIndex virt) &&&
          pdePresent = 0
      · rw [if_pos hpte]
      · rw [if_neg hpte] at h
        exact absurd h (or_ne_zero_of_odd (probe_and (by decide)))

/-- An entry that is closed to the user closes all that is behind it. -/
theorem walk_user (h : walk v pd virt = some (rights, phys)) (hright : rights &&& pdeUser ≠ 0) :
    UserEntry (pd (pdIndex virt)) := by
  unfold walk at h
  dsimp only at h
  split_ifs at h with hpresent hhuge hpte
  · obtain ⟨rfl, -⟩ := Prod.mk.inj (Option.some.inj h)
    exact ⟨hpresent, hright⟩
  · obtain ⟨rfl, -⟩ := Prod.mk.inj (Option.some.inj h)
    refine ⟨hpresent, fun hzero => hright ?_⟩
    rw [BitVec.and_assoc, BitVec.and_comm _ pdeUser, ← BitVec.and_assoc, hzero]
    exact BitVec.zero_and

/-- `paging_map_page` makes at most the entry of its own region, with the user bit of its flags. -/
theorem mapPage_entry (h : TablesOk kernStart kernEnd totalPages v) (d : Nat) :
    (pagingMapPage v virt phys flags).2.kernelPd d = v.kernelPd d ∨
      d = pdIndex virt ∧ v.kernelPd d &&& pdePresent = 0 ∧
        (pagingMapPage v virt phys flags).2.kernelPd d &&& pdeUser = flags &&& pdeUser := by
  have hlimit := h.sane.limit
  have hget := h.getsTable (pdIndex virt) flags
  unfold pagingMapPage
  dsimp only
  generalize getOrAllocPt v (pdIndex virt) true flags = r at hget ⊢
  have hpd : r.2.kernelPd d = v.kernelPd d ∨ d = pdIndex virt ∧ v.kernelPd d &&& pdePresent = 0 ∧
      r.2.kernelPd d &&& pdeUser = flags &&& pdeUser := by
    cases hget with
    | huge => exact Or.inl rfl
    | present => exact Or.inl rfl
    | noPage => exact Or.inl (congrFun allocPage_kernelPd d)
    | create habsent i haddr hfresh =>
      have hrange := hfresh.inRange
      by_cases hd : d = pdIndex virt
      · subst hd
        exact Or.inr ⟨rfl, habsent, (newTable_flag (by omega) (by decide)).trans tableFlags_user⟩
      · exact Or.inl ((newTable_of_ne hd).trans (congrFun allocPage_kernelPd d))
  split_ifs
  · exact hpd
  · exact hpd

/-! Between two stores, while nothing is open to the user. -/

/-- `pd` is the directory that the fork copied. -/
structure Sealed (kernStart kernEnd totalPages : Nat) (pd : Nat → BitVec 32) (s : Spaces) :
    Prop where
  tables : TablesOk kernStart kernEnd totalPages s.vm
  child : ∃ i, s.childPd = i * pageSize ∧ FreshPage kernStart kernEnd totalPages s.vm i
  copy : ∀ d < 1024, s.pd .child d = pd d
  grown : ∀ d, s.vm.kernelPd d = pd d ∨
    pd d &&& pdePresent = 0 ∧ s.vm.kernelPd d &&& pdeUser = 0
  unmapped : ∀ virt < 2 ^ 32, UserEntry (pd (pdIndex virt)) →
    pagingGetPhys s.vm virt = 0 ∧ ¬ InHeap virt

theorem pdIndex_lt (h : virt < 2 ^ 32) : pdIndex virt < 1024 := by
  rw [pdIndex_eq]
  omega

/-- Neither directory lets the user through. -/
theorem Sealed.closed (h : Sealed kernStart kernEnd totalPages pd s) (hvirt : virt < 2 ^ 32)
    (hwalk : walk s.vm (s.pd side) virt = some (rights, phys)) : rights &&& pdeUser = 0 := by
  by_contra hright
  have huser := walk_user hwalk hright
  have hentry : UserEntry (pd (pdIndex virt)) ∧
      s.pd side (pdIndex virt) = s.vm.kernelPd (pdIndex virt) := by
    rcases h.grown (pdIndex virt) with hsame | ⟨habsent, hclosed⟩
    · cases side with
      | parent =>
        refine ⟨?_, rfl⟩
        rw [← hsame]
        exact huser
      | child =>
        rw [h.copy _ (pdIndex_lt hvirt)] at huser ⊢
        exact ⟨huser, hsame.symm⟩
    · cases side with
      | parent => exact absurd hclosed huser.2
      | child =>
        rw [h.copy _ (pdIndex_lt hvirt)] at huser
        exact absurd habsent huser.1
  obtain ⟨hd, -, -⟩ := @pageProbe_indices virt
  have hlt : pageProbe virt < 2 ^ 32 := by
    unfold pageProbe
    omega
  have hzero := (h.unmapped (pageProbe virt) hlt (hd.symm ▸ hentry.1)).1
  rw [walk_none hentry.2 hzero] at hwalk
  cases hwalk

theorem Sealed.userRead (h : Sealed kernStart kernEnd totalPages pd s) (hvirt : virt < 2 ^ 32) :
    userRead s side virt = none := by
  unfold Proc.userRead
  cases hwalk : walk s.vm (s.pd side) virt with
  | none => rfl
  | some r =>
    obtain ⟨rights, phys⟩ := r
    exact if_neg (not_not.mpr (h.closed hvirt hwalk))

/-- A new frame is mapped where nothing is open to the user, by an entry that is there or that is
made for the kernel. -/
theorem Sealed.mapped (h : Sealed kernStart kernEnd totalPages pd s) (hvirt : virt < 2 ^ 32)
    (hnew : NewFrame kernStart kernEnd totalPages s.vm u f)
    (hclosed : ¬ UserEntry (pd (pdIndex virt)))
    (hflags : flags &&& pdeUser = 0 ∨ s.vm.kernelPd (pdIndex virt) &&& pdePresent ≠ 0) :
    Sealed kernStart kernEnd totalPages pd
      { s with vm := (pagingMapPage u (alignDown virt pageSize) (f * pageSize) flags).2 } := by
  obtain ⟨i, hi, hfresh⟩ := h.child
  obtain ⟨hkeep, -⟩ := hnew.keeps i hfresh
  have hmapped := @FreshPage.mapPage _ _ _ (alignDown virt pageSize) (f * pageSize) i u flags
    hkeep.fresh hnew.tablesOk
  have hsame := hkeep.same.trans hmapped.same
  have hf := hnew.fresh.inRange
  have hlimit := h.tables.sane.limit
  have hphys : f * pageSize < 2 ^ 32 := by
    simp only [pageSize]
    omega
  have hpd : u.kernelPd = s.vm.kernelPd := hnew.same.1
  refine ⟨hnew.tablesOk.mapPage, ⟨i, hi, hmapped.fresh⟩, ?_, ?_, ?_⟩
  · intro d hd
    rw [← h.copy d hd]
    refine hsame _ ?_
    dsimp only
    rw [hi]
    simp only [pageSize]
    omega
  · intro d
    have hentry := @mapPage_entry _ _ _ (alignDown virt pageSize) (f * pageSize) u flags
      hnew.tablesOk d
    rcases hentry with hold | ⟨rfl, habsent, huser⟩
    · dsimp only
      rw [hold, hpd]
      exact h.grown d
    · rw [(page_index hvirt).1, hpd] at habsent
      rw [(page_index hvirt).1] at huser ⊢
      right
      refine ⟨?_, huser.trans (hflags.resolve_right (not_not.mpr habsent))⟩
      rcases h.grown (pdIndex virt) with heq | hgrown
      · rw [← heq]
        exact habsent
      · exact hgrown.1
  · intro a ha huser
    obtain ⟨hzero, hheap⟩ := h.unmapped a ha huser
    refine ⟨?_, hheap⟩
    have hne : a / 4096 ≠ virt / 4096 := by
      intro heq
      exact hclosed ((samePage_iff.mp heq).1 ▸ huser)
    have hold : pagingGetPhys u a = 0 := hnew.same.getPhys.trans hzero
    rcases hnew.tablesOk.pagingMapPage hphys with ⟨-, hgets⟩ | ⟨-, hgets⟩
    · exact (hgets a).trans hold
    · rw [hgets a, page_div hvirt, if_neg hne, hold]

/-- With no current process the handler returns only where it has copied a page that is mapped, or
has mapped one in the heap. -/
theorem handler_cases {err : BitVec 32} (h : TablesOk kernStart kernEnd totalPages v)
    (hh : pageFaultHandler v none err virt = some u) :
    ∃ t f flags, NewFrame kernStart kernEnd totalPages v t f ∧
      u = (pagingMapPage t (alignDown virt pageSize) (f * pageSize) flags).2 ∧
      (err &&& errPresent ≠ 0 ∧ pagingGetPhys v (alignDown virt pageSize) ≠ 0 ∨
        err &&& errPresent = 0 ∧ InHeap virt ∧ flags &&& pdeUser = 0) := by
  unfold pageFaultHandler at hh
  split_ifs at hh with hcow habsent hheap
  · unfold pagingCopyOnWrite at hh
    dsimp only at hh
    have hfail : ¬ (-1 : Int) = 0 := by decide
    by_cases hold : pagingGetPhys v (alignDown virt pageSize) = 0
    · rw [if_pos hold, if_neg hfail] at hh
      cases hh
    rw [if_neg hold] at hh
    by_cases hsome : v.allocPage.1 = 0
    · rw [if_pos hsome, if_neg hfail] at hh
      cases hh
    rw [if_neg hsome] at hh
    obtain ⟨f, haddr, hnew⟩ := h.newFrame hsome
    rw [haddr] at hh
    split_ifs at hh
    refine ⟨_, f, _, hnew.fill ?_, (Option.some.inj hh).symm, Or.inl ⟨hcow.1, hold⟩⟩
    intro w hw
    refine if_neg ?_
    simp only [pageSize]
    omega
  · unfold heapFault at hh
    rw [if_pos hheap] at hh
    dsimp only at hh
    split_ifs at hh with hsome hmapped
    obtain ⟨f, haddr, hnew⟩ := h.newFrame hsome
    rw [haddr] at hh
    exact ⟨_, f, _, hnew, (Option.some.inj hh).symm, Or.inr ⟨habsent, hheap, by decide⟩⟩
  · cases hh

theorem Sealed.handled (h : Sealed kernStart kernEnd totalPages pd s) (hvirt : virt < 2 ^ 32)
    {err : BitVec 32} (hh : pageFaultHandler s.vm none err virt = some u) :
    Sealed kernStart kernEnd totalPages pd { s with vm := u } := by
  obtain ⟨t, f, flags, hnew, rfl, hcase⟩ := handler_cases h.tables hh
  refine h.mapped hvirt hnew ?_ ?_
  · intro huser
    rcases hcase with ⟨-, hold⟩ | ⟨-, hheap, -⟩
    · have hindex := (page_index hvirt).1
      have hlt : alignDown virt pageSize < 2 ^ 32 := by
        rw [alignDown_page hvirt]
        omega
      exact hold (h.unmapped _ hlt (hindex.symm ▸ huser)).1
    · exact (h.unmapped virt hvirt huser).2 hheap
  · rcases hcase with ⟨-, hold⟩ | ⟨-, -, hflags⟩
    · right
      intro habsent
      rw [← (page_index hvirt).1] at habsent
      exact hold (pagingGetPhys_absent habsent)
    · exact Or.inl hflags

theorem Sealed.step (h : Sealed kernStart kernEnd totalPages pd s)
    (hstep : storeStep none s st = some t) :
    Sealed kernStart kernEnd totalPages pd t ∧ Unseen s st t := by
  have hkept : Sealed kernStart kernEnd totalPages pd t := by
    unfold storeStep at hstep
    cases hwalk : walk s.vm (s.pd st.side) st.virt with
    | none =>
      rw [hwalk] at hstep
      obtain ⟨u, hu, rfl⟩ := Option.map_eq_some_iff.mp hstep
      exact h.handled st.lt hu
    | some r =>
      obtain ⟨rights, phys⟩ := r
      rw [hwalk] at hstep
      have hclosed := h.closed st.lt hwalk
      dsimp only at hstep
      rw [if_neg (fun hright => hright.1 hclosed)] at hstep
      obtain ⟨u, hu, rfl⟩ := Option.map_eq_some_iff.mp hstep
      exact h.handled st.lt hu
  refine ⟨hkept, fun virt hvirt => ?_⟩
  rw [hkept.userRead hvirt, h.userRead hvirt]

/-! What `proc_fork` leaves for the child. -/

variable {σ : Type} {cache : VmaCache σ} {sys sys' : ProcSys σ} {parent child slot : Nat}
  {vmas : List Vma}

theorem setFileOffset_vm {offset : Nat} {place : Option Nat} :
    (setFileOffset sys slot offset place).vm = sys.vm ∧
      (setFileOffset sys slot offset place).currentProc = sys.currentProc := by
  cases place with
  | none => exact ⟨rfl, rfl⟩
  | some place => exact ⟨rfl, rfl⟩

theorem vmaInsert_vm {start end_ : Nat} {flags : BitVec 32} :
    (vmaInsert cache sys slot start end_ flags).2.vm = (cache.alloc sys.vm sys.slabs).2.1 ∧
      (vmaInsert cache sys slot start end_ flags).2.currentProc = sys.currentProc := by
  unfold vmaInsert
  dsimp only
  split_ifs
  · exact ⟨rfl, rfl⟩
  · exact ⟨rfl, rfl⟩

theorem copyVmas_currentProc :
    (copyVmas cache sys child vmas).currentProc = sys.currentProc := by
  induction vmas generalizing sys with
  | nil => rfl
  | cons vma rest ih =>
    unfold copyVmas
    dsimp only
    rw [ih, setFileOffset_vm.2, vmaInsert_vm.2]

theorem copyVmas_tables (h : TablesOk kernStart kernEnd totalPages sys.vm) :
    TablesOk kernStart kernEnd totalPages (copyVmas cache sys child vmas).vm := by
  induction vmas generalizing sys with
  | nil => exact h
  | cons vma rest ih =>
    unfold copyVmas
    dsimp only
    refine ih ?_
    rw [setFileOffset_vm.1, vmaInsert_vm.1]
    exact cache.tables sys.vm sys.slabs h

/-- No call makes a process the current one. -/
theorem procFork_currentProc (hcurrent : sys.currentProc = none) {parent : Option Nat} :
    (procFork cache sys parent).2.currentProc = none := by
  cases parent with
  | none => exact hcurrent
  | some parent =>
    cases hslot : freeSlot sys.procTable with
    | none =>
      rw [procFork_none hslot]
      exact hcurrent
    | some slot =>
      unfold procFork
      dsimp only
      rw [procCreate_some hslot]
      unfold giveDirectory
      dsimp only
      split_ifs
      · unfold procExit
        dsimp only
        rw [copyVmas_currentProc]
        dsimp only [inherit, ProcSys.setProc]
        rw [hcurrent]
      · dsimp only [ProcSys.setProc]
        rw [copyVmas_currentProc]
        exact hcurrent

/-- `proc_current()` is NULL in every run. -/
theorem run_currentProc {slabs : σ} {calls : List ProcCall} {r : ProcRun σ}
    (h : Run.run (procStep cache) ⟨procInit v slabs, .null⟩ calls = some r) :
    r.sys.currentProc = none := by
  refine Run.run_invariant (I := fun r : ProcRun σ => r.sys.currentProc = none) ?_ rfl h
  intro r c r' hcurrent hstep
  obtain ⟨-, rfl⟩ := procStep_some hstep
  cases c with
  | create name =>
    unfold ProcRun.call
    dsimp only
    cases hslot : freeSlot r.sys.procTable with
    | none =>
      rw [procCreate_none hslot]
      exact hcurrent
    | some slot =>
      rw [procCreate_some hslot]
      exact hcurrent
  | fork parent => exact procFork_currentProc hcurrent
  | vmaInsert proc start end_ flags => exact vmaInsert_vm.2.trans hcurrent
  | vmaRemove proc place => exact hcurrent

/-- The child's directory is a new page, a copy of the one in use. -/
structure CopiedDirectory (kernStart kernEnd totalPages : Nat) (v : Vm) (childPd : Nat) : Prop where
  tables : TablesOk kernStart kernEnd totalPages v
  child : ∃ i, childPd = i * pageSize ∧ FreshPage kernStart kernEnd totalPages v i
  copy : ∀ d < 1024, v.word childPd d = v.kernelPd d

theorem copiedDirectory (h : TablesOk kernStart kernEnd totalPages v) (hsome : v.allocPage.1 ≠ 0) :
    CopiedDirectory kernStart kernEnd totalPages (v.allocPage.2.copyDirectory v.allocPage.1)
      v.allocPage.1 := by
  obtain ⟨f, haddr, hnew⟩ := h.newFrame hsome
  rw [haddr]
  have hfilled := @NewFrame.fill _ _ _ _ _
    (v.allocPage.2.copyDirectory (f * pageSize)).pmm.mem f hnew ?_
  · refine ⟨hfilled.tablesOk, ⟨f, rfl, hfilled.fresh⟩, fun d hd => ?_⟩
    unfold Vm.word Vm.copyDirectory Vm.withMem
    dsimp only
    rw [if_pos ⟨Nat.le_add_right _ d, Nat.add_lt_add_left hd _⟩, Nat.add_sub_cancel_left]
  · intro w hw
    refine if_neg ?_
    simp only [pageSize]
    omega

theorem procFork_child (h : TablesOk kernStart kernEnd totalPages sys.vm)
    (hfork : procFork cache sys (some parent) = (.proc child, sys')) :
    CopiedDirectory kernStart kernEnd totalPages sys'.vm (sys'.procTable child).cr3 ∧
      sys'.currentProc = sys.currentProc := by
  unfold procFork at hfork
  dsimp only at hfork
  cases hslot : freeSlot sys.procTable with
  | none =>
    rw [procCreate_none hslot] at hfork
    cases hfork
  | some slot =>
    rw [procCreate_some hslot] at hfork
    dsimp only at hfork
    generalize hstart : inherit _ parent slot = start at hfork
    have hok : TablesOk kernStart kernEnd totalPages start.vm := by
      rw [← hstart]
      exact tablesOk_allocPages h
    have hcurrent : start.currentProc = sys.currentProc := by
      rw [← hstart]
      rfl
    generalize (Function.update sys.procTable slot _ parent).vmaList = vmas at hfork
    have hcopied := @copyVmas_tables kernStart kernEnd totalPages σ cache start slot vmas hok
    have hsame := @copyVmas_currentProc σ cache start slot vmas
    generalize copyVmas cache start slot vmas = copied at hfork hcopied hsame
    by_cases hsome : copied.vm.allocPage.1 = 0
    · unfold giveDirectory at hfork
      dsimp only at hfork
      rw [if_pos hsome] at hfork
      cases hfork
    · rw [giveDirectory_some hsome] at hfork
      cases hfork
      dsimp only
      rw [Function.update_self]
      exact ⟨copiedDirectory hcopied hsome, hsame.trans hcurrent⟩

theorem CopiedDirectory.sealed {childPd : Nat}
    (h : CopiedDirectory kernStart kernEnd totalPages v childPd) (hno : NoUserPages v) :
    Sealed kernStart kernEnd totalPages v.kernelPd ⟨v, childPd⟩ :=
  ⟨h.tables, h.child, h.copy, fun _ => Or.inl rfl, hno⟩

/-! A page that the user may write is shared. -/

theorem walk_congr {pd' : Nat → BitVec 32} (hpd : pd' (pdIndex virt) = pd (pdIndex virt))
    (hpte : u.word (pd (pdIndex virt) &&& pageMask).toNat (ptIndex virt) =
      v.word (pd (pdIndex virt) &&& pageMask).toNat (ptIndex virt)) :
    walk u pd' virt = walk v pd virt := by
  unfold walk
  dsimp only
  rw [hpd, hpte]

theorem walk_pde_zero (hpd : pd (pdIndex virt) = 0) : walk v pd virt = none := by
  unfold walk
  dsimp only
  rw [hpd]
  exact if_pos rfl

theorem walk_pte_zero {pd' : Nat → BitVec 32} (hpd : pd' (pdIndex virt) = pd (pdIndex virt))
    (hpte : u.word (pd (pdIndex virt) &&& pageMask).toNat (ptIndex virt) = 0)
    (hhuge : pd (pdIndex virt) &&& pdeHuge = 0) : walk u pd' virt = none := by
  unfold walk
  dsimp only
  rw [hpd, hpte]
  split_ifs with hpresent hnot hzero
  · rfl
  · exact absurd hhuge hnot
  · rfl
  · exact absurd BitVec.zero_and hzero

/-- The words through which the child reaches the address. -/
def Spaces.OnTheWay (s : Spaces) (virt w : Nat) : Prop :=
  w = s.childPd / 4 + pdIndex virt ∨
    s.vm.kernelPd (pdIndex virt) &&& pdeHuge = 0 ∧
      w = (s.vm.kernelPd (pdIndex virt) &&& pageMask).toNat / 4 + ptIndex virt

instance {w : Nat} : Decidable (s.OnTheWay virt w) :=
  inferInstanceAs (Decidable (w = s.childPd / 4 + pdIndex virt ∨
    s.vm.kernelPd (pdIndex virt) &&& pdeHuge = 0 ∧
      w = (s.vm.kernelPd (pdIndex virt) &&& pageMask).toNat / 4 + ptIndex virt))

theorem setWord_word {base k : Nat} {x : BitVec 32} :
    (v.setWord phys 0 x).word base k = if base / 4 + k = phys / 4 then x else v.word base k := by
  unfold Vm.word
  rw [setWord_mem, Nat.add_zero]

/-- A value with which the store changes what the child reads at the same address: 0 cuts the way
off, another word is read where it goes. -/
def telltale (s : Spaces) (virt phys : Nat) : BitVec 32 :=
  if s.OnTheWay virt (phys / 4) then 0 else s.vm.word phys 0 + 1

theorem add_one_ne {w : BitVec 32} : w + 1 ≠ w := by
  intro h
  bv_omega

/-- After the store the child finds no page, or the same page with the new word. -/
theorem walk_stored (hcopy : s.pd .child (pdIndex virt) = s.vm.kernelPd (pdIndex virt))
    (hwalk : walk s.vm s.vm.kernelPd virt = some (rights, phys))
    {t : Spaces} (ht : t = { s with vm := s.vm.setWord phys 0 (telltale s virt phys) }) :
    walk t.vm (t.pd .child) virt = none ∨
      walk t.vm (t.pd .child) virt = some (rights, phys) ∧
        t.vm.word phys 0 = s.vm.word phys 0 + 1 := by
  subst ht
  have hpd : ∀ d, (Spaces.mk (s.vm.setWord phys 0 (telltale s virt phys)) s.childPd).pd .child d =
      if s.childPd / 4 + d = phys / 4 then telltale s virt phys else s.vm.word s.childPd d :=
    fun d => setWord_word
  by_cases hway : s.OnTheWay virt (phys / 4)
  · have hvalue : telltale s virt phys = 0 := if_pos hway
    left
    by_cases hentry : s.childPd / 4 + pdIndex virt = phys / 4
    · refine walk_pde_zero ?_
      rw [hpd, if_pos hentry, hvalue]
    · obtain ⟨hhuge, hpte⟩ := hway.resolve_left fun heq => hentry heq.symm
      refine @walk_pte_zero _ _ s.vm.kernelPd _ ?_ ?_ hhuge
      · rw [hpd, if_neg hentry]
        exact hcopy
      · rw [setWord_word, if_pos hpte.symm, hvalue]
  · have hvalue : telltale s virt phys = s.vm.word phys 0 + 1 := if_neg hway
    obtain ⟨hentry, hpte⟩ := not_or.mp hway
    right
    refine ⟨?_, ?_⟩
    · rw [← hwalk]
      have hpde : (Spaces.mk (s.vm.setWord phys 0 (telltale s virt phys)) s.childPd).pd .child
          (pdIndex virt) = s.vm.kernelPd (pdIndex virt) := by
        rw [hpd, if_neg fun heq => hentry heq.symm]
        exact hcopy
      by_cases hhuge : s.vm.kernelPd (pdIndex virt) &&& pdeHuge = 0
      · refine walk_congr hpde ?_
        rw [setWord_word, if_neg fun heq => hpte ⟨hhuge, heq.symm⟩]
      · unfold walk
        dsimp only
        rw [hpde, if_pos hhuge, if_pos hhuge]
    · dsimp only
      rw [setWord_word, if_pos (Nat.add_zero _), hvalue]

theorem userWritable_seen {current : Option Process} (hvirt : virt < 2 ^ 32)
    (hcopy : s.pd .child (pdIndex virt) = s.vm.kernelPd (pdIndex virt))
    (hw : UserWritable s.vm virt) :
    ∃ st : Store, ¬ Run.EveryStep (storeStep current) Unseen s [st] := by
  obtain ⟨rights, phys, hwalk, huser, hwritable⟩ := hw
  refine ⟨⟨.parent, virt, telltale s virt phys, hvirt⟩, fun hsteps => ?_⟩
  have hstep : storeStep current s ⟨.parent, virt, telltale s virt phys, hvirt⟩ =
      some { s with vm := s.vm.setWord phys 0 (telltale s virt phys) } := by
    unfold storeStep
    dsimp only [Spaces.pd]
    rw [hwalk]
    exact if_pos ⟨huser, hwritable⟩
  have hsame := (hsteps _ hstep).1 virt hvirt
  have hbefore : userRead s .child virt = some (s.vm.word phys 0) := by
    unfold userRead
    rw [walk_congr (v := s.vm) hcopy rfl, hwalk]
    exact if_pos huser
  dsimp only [Side.other] at hsame
  rw [hbefore] at hsame
  unfold userRead at hsame
  rcases walk_stored hcopy hwalk rfl with hnone | ⟨hsome, hword⟩
  · rw [hnone] at hsame
    cases hsame
  · rw [hsome] at hsame
    dsimp only at hsame
    rw [if_pos huser, hword] at hsame
    exact add_one_ne (Option.some.inj hsame)

/-! The claim about forks. -/

/-- After a fork no store can be seen through the other directory if nothing is mapped for the user
when it returns; a page that the user may write can always be seen. -/
theorem fork_isolates (cache : VmaCache σ) (parent child : Nat)
    (h : TablesOk kernStart kernEnd totalPages sys.vm) (hcurrent : sys.currentProc = none)
    (hfork : procFork cache sys (some parent) = (.proc child, sys')) :
    (NoUserPages sys'.vm → ∀ stores : List Store,
      Run.EveryStep (storeStep (procCurrent sys')) Unseen ⟨sys'.vm, (sys'.procTable child).cr3⟩
        stores) ∧
    ((∃ virt < 2 ^ 32, UserWritable sys'.vm virt) → ∃ st : Store,
      ¬ Run.EveryStep (storeStep (procCurrent sys')) Unseen ⟨sys'.vm, (sys'.procTable child).cr3⟩
        [st]) := by
  obtain ⟨hcopied, hsame⟩ := procFork_child h hfork
  constructor
  · intro hno stores
    have hnone : procCurrent sys' = none := by
      unfold procCurrent
      rw [hsame, hcurrent]
      rfl
    rw [hnone]
    have hall : ∀ st ∈ stores, True := fun _ _ => trivial
    refine (Run.everyStep_of_forall hall).mono
      (I := Sealed kernStart kernEnd totalPages sys'.vm.kernelPd) ?_ (hcopied.sealed hno)
    intro s st t hsealed hstep _
    exact hsealed.step hstep
  · rintro ⟨virt, hvirt, hw⟩
    exact userWritable_seen hvirt (hcopied.copy _ (pdIndex_lt hvirt)) hw

/-- One process, on the small machine. -/
def initSys (vm : Vm) : ProcSys (Nat → Bool) :=
  (procCreate (procInit vm fun _ => true) (some "init")).2

theorem initSys_vm : (initSys v).vm = (v.allocPages 2).2 ∧ (initSys v).currentProc = none := by
  have hslot : freeSlot (procInit v fun _ : Nat => true).procTable = some 0 := rfl
  unfold initSys
  rw [procCreate_some hslot]
  exact ⟨rfl, rfl⟩

theorem eq_mk_of_fst {α β : Type} {r : α × β} {a : α} (h : r.1 = a) : r = (a, r.2) := by
  rw [← h]

theorem fork_isolates_smallVm :
    let sys := initSys (smallVm fun _ => false)
    let sys' := (procFork pageCache sys (some 0)).2
    (NoUserPages sys'.vm → ∀ stores : List Store,
      Run.EveryStep (storeStep (procCurrent sys')) Unseen ⟨sys'.vm, (sys'.procTable 1).cr3⟩
        stores) ∧
    ((∃ virt < 2 ^ 32, UserWritable sys'.vm virt) → ∃ st : Store,
      ¬ Run.EveryStep (storeStep (procCurrent sys')) Unseen ⟨sys'.vm, (sys'.procTable 1).cr3⟩
        [st]) := by
  have hresult : (procFork pageCache (initSys (smallVm fun _ => false)) (some 0)).1 = .proc 1 := by
    rw [smallVm_eq]
    decide +kernel
  obtain ⟨hvm, hcurrent⟩ := @initSys_vm (smallVm fun _ => false)
  have htables : TablesOk 0x100000 0x101000 0x109 (initSys (smallVm fun _ => false)).vm := by
    rw [hvm]
    exact tablesOk_allocPages tablesOk_smallVm
  exact fork_isolates pageCache 0 1 htables hcurrent (eq_mk_of_fst hresult)

/-- The same with a page that the user may write, mapped before the fork. -/
def sharingSys (vm : Vm) : ProcSys (Nat → Bool) :=
  { initSys vm with
    vm := (pagingMapPage (initSys vm).vm 0x40000000 0x108000
      (pdePresent ||| pdeWritable ||| pdeUser)).2 }

def forkSpaces (sys : ProcSys (Nat → Bool)) : Spaces :=
  let r := procFork pageCache sys (some 0)
  ⟨r.2.vm, (r.2.procTable 1).cr3⟩

/-- The child reads what the parent has stored. -/
theorem not_fork_isolates_sharing :
    (procFork pageCache (sharingSys (smallVm fun _ => false)) (some 0)).1 = .proc 1 ∧
      ¬ Run.EveryStep (storeStep none) Unseen (forkSpaces (sharingSys (smallVm fun _ => false)))
        [⟨.parent, 0x40000000, 1, by decide⟩] := by
  rw [smallVm_eq]
  refine ⟨by decide +kernel, fun hsteps => ?_⟩
  have hbefore : userRead (forkSpaces (sharingSys (smallVmDirect fun _ => false))) .child
      0x40000000 = some 0 := by decide +kernel
  have hafter : (storeStep none (forkSpaces (sharingSys (smallVmDirect fun _ => false)))
      ⟨.parent, 0x40000000, 1, by decide⟩).map (userRead · .child 0x40000000) = some (some 1) := by
    decide +kernel
  obtain ⟨t, ht, hread⟩ := Option.map_eq_some_iff.mp hafter
  have hsame : userRead t .child 0x40000000 =
      userRead (forkSpaces (sharingSys (smallVmDirect fun _ => false))) .child 0x40000000 :=
    (hsteps t ht).1 0x40000000 (by decide)
  rw [hread, hbefore] at hsame
  cases hsame

end PinguinOS.Proc
