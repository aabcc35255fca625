import PinguinOS.Mm.Boot
import PinguinOS.Proc.Table

/-! Runs of `proc_create` and `proc_fork`: when the process table stays sound. -/
namespace PinguinOS.Proc

open Mm KeySort

inductive ProcCall
  | create (name : Option String)
  | fork (parent : Option Nat)
  | vmaInsert (proc start end_ : Nat) (flags : BitVec 32)
  | vmaRemove (proc place : Nat)

/-- The processes, and what the last create or fork returned. -/
structure ProcRun (σ : Type) where
  sys : ProcSys σ
  result : ProcResult

def Used (procTable : Nat → Pcb) (i : Nat) : Prop := i < procMax ∧ (procTable i).state ≠ .unused

instance {procTable : Nat → Pcb} {i : Nat} : Decidable (Used procTable i) :=
  inferInstanceAs (Decidable (i < procMax ∧ (procTable i).state ≠ .unused))

/-- Processes are used slots of the table, addresses are 32-bit. -/
def ProcCall.Valid (procTable : Nat → Pcb) : ProcCall → Prop
  | .create _ | .fork none => True
  | .fork (some parent) => Used procTable parent
  | .vmaInsert proc start end_ _ => Used procTable proc ∧ start < 2 ^ 32 ∧ end_ < 2 ^ 32
  | .vmaRemove proc _ => Used procTable proc

instance {procTable : Nat → Pcb} : (c : ProcCall) → Decidable (c.Valid procTable)
  | .create _ | .fork none => isTrue trivial
  | .fork (some parent) => inferInstanceAs (Decidable (Used procTable parent))
  | .vmaInsert proc start end_ _ =>
    inferInstanceAs (Decidable (Used procTable proc ∧ start < 2 ^ 32 ∧ end_ < 2 ^ 32))
  | .vmaRemove proc _ => inferInstanceAs (Decidable (Used procTable proc))

variable {σ : Type}

def ProcRun.call (cache : VmaCache σ) (r : ProcRun σ) : ProcCall → ProcRun σ
  | .create name =>
    match procCreate r.sys name with
    | (none, sys) => ⟨sys, .null⟩
    | (some slot, sys) => ⟨sys, .proc slot⟩
  | .fork parent => ⟨(procFork cache r.sys parent).2, (procFork cache r.sys parent).1⟩
  | .vmaInsert proc start end_ flags => { r with sys := (vmaInsert cache r.sys proc start end_ flags).2 }
  | .vmaRemove proc place => { r with sys := vmaRemove r.sys proc place }

/-- No call is made after one that does not return. -/
def procStep (cache : VmaCache σ) (r : ProcRun σ) (c : ProcCall) : Option (ProcRun σ) :=
  if r.result = .halts ∨ ¬ c.Valid r.sys.procTable then none else some (r.call cache c)

/-- Every process has a pid and a kernel stack of its own. -/
structure ProcTableOk (procTable : Nat → Pcb) : Prop where
  pids : ∀ i j, Used procTable i → Used procTable j → (procTable i).pid = (procTable j).pid → i = j
  kstacks : ∀ i, Used procTable i → (procTable i).kstackPhys ≠ 0
  apart : ∀ i j, Used procTable i → Used procTable j → i ≠ j →
    (procTable i).kstackPhys + 2 * pageSize ≤ (procTable j).kstackPhys ∨
      (procTable j).kstackPhys + 2 * pageSize ≤ (procTable i).kstackPhys

/-- The call gets the memory it asks for; it asks for none when no slot is free. -/
def ProcCall.HasMemory (cache : VmaCache σ) (s : ProcSys σ) : ProcCall → Prop
  | .create _ => freeSlot s.procTable = none ∨ (s.vm.allocPages 2).1 ≠ 0
  | .fork (some parent) =>
    freeSlot s.procTable = none ∨ ForkMemory cache s (s.procTable parent).vmaList.length
  | .fork none | .vmaInsert .. | .vmaRemove .. => True

def intervals (vmas : List Vma) : List (Nat × Nat) := vmas.map fun v => (v.start, v.end_)

/-- What a call of `proc_create` or `proc_fork` has to leave. -/
structure TableKept (cache : VmaCache σ) (r : ProcRun σ) (c : ProcCall) (t : ProcRun σ) : Prop where
  table : ProcTableOk t.sys.procTable
  failed : ¬ c.HasMemory cache r.sys → t.result = .null ∧ t.sys.procTable = r.sys.procTable ∧
    t.sys.currentProc = r.sys.currentProc ∧
    ∀ pfn, bitmapTest t.sys.vm.pmm pfn = bitmapTest r.sys.vm.pmm pfn
  areas : ∀ parent child, c = .fork (some parent) → t.result = .proc child →
    intervals (t.sys.procTable child).vmaList = intervals (r.sys.procTable parent).vmaList

/-- Areas that start alike have ends that read the same in both directions. -/
def Mirrored (areas : List (Nat × Nat)) : Prop :=
  ∀ start, (group Prod.fst start areas).reverse = group Prod.fst start areas

/-- The call gets its memory, and a fork finds no areas that it would turn around. -/
def CleanCall (cache : VmaCache σ) (r : ProcRun σ) (c : ProcCall) (_ : ProcRun σ) : Prop :=
  c.HasMemory cache r.sys ∧ ∀ parent, c = .fork (some parent) → freeSlot r.sys.procTable ≠ none →
    Mirrored (intervals (r.sys.procTable parent).vmaList)

/-! The allocators clear no mark and keep the bitmap sane. -/

structure PagesKept (kernStart kernEnd totalPages : Nat) (v u : Vm) : Prop where
  sane : Sane kernStart kernEnd totalPages u.pmm
  keeps : ∀ i < totalPages, bitmapTest v.pmm i = true → bitmapTest u.pmm i = true

variable {kernStart kernEnd totalPages n : Nat} {v u t : Vm} {cache : VmaCache σ} {slabs : σ}

theorem PagesKept.trans (h : PagesKept kernStart kernEnd totalPages v u)
    (h' : PagesKept kernStart kernEnd totalPages u t) : PagesKept kernStart kernEnd totalPages v t :=
  ⟨h'.sane, fun i hi hset => h'.keeps i hi (h.keeps i hi hset)⟩

theorem allocPages_result (htotal : v.pmm.totalPages ≤ 2 ^ 18) :
    AllocResult v.pmm n ((v.allocPages n).1, (v.allocPages n).2.pmm) := by
  unfold Vm.allocPages
  dsimp only
  split_ifs
  · exact Or.inl rfl
  · exact pmmAllocPages_result htotal

theorem allocPage_result (htotal : v.pmm.totalPages ≤ 2 ^ 18) :
    AllocResult v.pmm 1 (v.allocPage.1, v.allocPage.2.pmm) := by
  unfold Vm.allocPage
  dsimp only
  split_ifs
  · exact Or.inl rfl
  · exact pmmAllocPage_allocResult htotal

theorem pagesKept_of_result {phys : Nat} (h : Sane kernStart kernEnd totalPages v.pmm)
    (hr : AllocResult v.pmm n (phys, u.pmm)) : PagesKept kernStart kernEnd totalPages v u :=
  ⟨h.allocResult hr, fun _ hi hset => hr.keeps h (h.total.symm ▸ hi) hset⟩

theorem pagesKept_allocPages (h : Sane kernStart kernEnd totalPages v.pmm) :
    PagesKept kernStart kernEnd totalPages v (v.allocPages n).2 :=
  pagesKept_of_result h (allocPages_result h.placed.total)

theorem pagesKept_allocPage (h : Sane kernStart kernEnd totalPages v.pmm) :
    PagesKept kernStart kernEnd totalPages v v.allocPage.2 :=
  pagesKept_of_result h (allocPage_result h.placed.total)

theorem tablesOk_allocPages (h : TablesOk kernStart kernEnd totalPages v) :
    TablesOk kernStart kernEnd totalPages (v.allocPages n).2 := by
  have hkept := pagesKept_allocPages h.sane (n := n)
  refine h.samePd ?_ hkept.sane hkept.keeps
  unfold Vm.allocPages
  dsimp only
  split_ifs
  · rfl
  · rfl

theorem pagesKept_alloc (h : Sane kernStart kernEnd totalPages v.pmm) :
    PagesKept kernStart kernEnd totalPages v (cache.alloc v slabs).2.1 :=
  ⟨cache.sane v slabs h, cache.keeps v slabs h⟩

theorem pagesKept_allocMany (h : Sane kernStart kernEnd totalPages v.pmm) :
    PagesKept kernStart kernEnd totalPages v (cache.allocMany n v slabs).2.1 := by
  induction n generalizing v slabs with
  | zero => exact ⟨h, fun _ _ hset => hset⟩
  | succ n ih =>
    have hfirst := @pagesKept_alloc σ kernStart kernEnd totalPages v cache slabs h
    exact hfirst.trans (ih hfirst.sane)

/-- A page that is handed out was free: it holds nothing of the kernel. -/
theorem allocPage_outside (h : Sane kernStart kernEnd totalPages v.pmm) (hsome : v.allocPage.1 ≠ 0) :
    ∃ i, v.allocPage.1 = i * pageSize ∧ 0 < i ∧ i < totalPages ∧
      bitmapTest v.pmm i = false ∧ ¬ InKernel kernStart kernEnd totalPages i := by
  rcases allocPage_result h.placed.total with hnone | ⟨i, hi, -, ha⟩
  · exact absurd (congrArg Prod.fst hnone) hsome
  · have hrange := ha.inRange
    have htotal := h.total
    have hlt : i < totalPages := by omega
    have hfree := ha.free i (Nat.le_refl i) (Nat.lt_succ_self i)
    refine ⟨i, congrArg Prod.fst hi, ha.nonzero, hlt, hfree, fun hin => ?_⟩
    have hset := h.kernel i hlt hin
    rw [hfree] at hset
    cases hset

theorem pagesKept_copyDirectory {i : Nat} (h : Sane kernStart kernEnd totalPages v.pmm)
    (hout : ¬ InKernel kernStart kernEnd totalPages i) :
    PagesKept kernStart kernEnd totalPages v (v.copyDirectory (i * pageSize)) := by
  have hmem : ∀ w, InKernel kernStart kernEnd totalPages (w / 1024) →
      (v.copyDirectory (i * pageSize)).pmm.mem w = v.pmm.mem w := by
    intro w hw
    refine if_neg ?_
    intro hin
    have hpage : w / 1024 = i := by
      simp only [pageSize] at hin
      omega
    exact hout (hpage ▸ hw)
  obtain ⟨hsane, htest⟩ := h.withMem hmem
  exact ⟨hsane, fun j hj hset => (htest j hj).trans hset⟩

/-! Between two calls that get their memory. -/

/-- The list is sorted, and its areas are made of whole pages. -/
def AreasOk (vmas : List Vma) : Prop :=
  Sorted Vma.start vmas ∧ ∀ v ∈ vmas,
    v.start < 2 ^ 32 ∧ v.start % 4096 = 0 ∧ v.end_ < 2 ^ 32 ∧ v.end_ % 4096 = 0

structure ProcSound (kernStart kernEnd totalPages : Nat) (s : ProcSys σ) : Prop where
  sane : Sane kernStart kernEnd totalPages s.vm.pmm
  /-- Slots are filled from the first on and never given back. -/
  filled : ∃ n ≤ procMax, s.nextPid = n + 1 ∧
    (∀ i < procMax, (s.procTable i).state ≠ .unused ↔ i < n) ∧ ∀ i < n, (s.procTable i).pid = i + 1
  stack : ∀ i, Used s.procTable i → ∃ k, (s.procTable i).kstackPhys = k * pageSize ∧ 0 < k ∧
    k + 1 < totalPages ∧ bitmapTest s.vm.pmm k = true ∧ bitmapTest s.vm.pmm (k + 1) = true
  apart : ∀ i j, Used s.procTable i → Used s.procTable j → i ≠ j →
    (s.procTable i).kstackPhys + 2 * pageSize ≤ (s.procTable j).kstackPhys ∨
      (s.procTable j).kstackPhys + 2 * pageSize ≤ (s.procTable i).kstackPhys
  areas : ∀ i, Used s.procTable i → AreasOk (s.procTable i).vmaList

variable {s s' : ProcSys σ} {slot parent child : Nat} {vmas : List Vma} {proc : Pcb}
  {name : Option String} {r r' : ProcRun σ} {c : ProcCall}

theorem ProcSound.tableOk (h : ProcSound kernStart kernEnd totalPages s) :
    ProcTableOk s.procTable := by
  refine ⟨?_, ?_, h.apart⟩
  · obtain ⟨n, hn, -, hused, hpid⟩ := h.filled
    intro i j hi hj heq
    rw [hpid i ((hused i hi.1).mp hi.2), hpid j ((hused j hj.1).mp hj.2)] at heq
    omega
  · intro i hi
    obtain ⟨k, hk, hpos, -⟩ := h.stack i hi
    rw [hk]
    simp only [pageSize]
    omega

theorem procSound_init (h : Sane kernStart kernEnd totalPages v.pmm) :
    ProcSound kernStart kernEnd totalPages (procInit v slabs) := by
  have hnone : ∀ i, ¬ Used (procInit v slabs).procTable i := fun i hi => hi.2 rfl
  refine ⟨h, ⟨0, by decide, rfl, ?_, ?_⟩, fun i hi => absurd hi (hnone i),
    fun i _ hi => absurd hi (hnone i), fun i hi => absurd hi (hnone i)⟩
  · intro i hi
    exact ⟨fun hused => absurd ⟨hi, hused⟩ (hnone i), fun hlt => absurd hlt (Nat.not_lt_zero i)⟩
  · intro i hi
    exact absurd hi (Nat.not_lt_zero i)

/-- The free slot is the one behind those that are filled. -/
theorem ProcSound.freeSlot (h : ProcSound kernStart kernEnd totalPages s)
    (hslot : freeSlot s.procTable = some slot) : slot < procMax ∧ s.nextPid = slot + 1 ∧
      (∀ i < procMax, (s.procTable i).state ≠ .unused ↔ i < slot) ∧
      ∀ i < slot, (s.procTable i).pid = i + 1 := by
  obtain ⟨hlt, hunused⟩ := freeSlot_some hslot
  obtain ⟨n, hn, hnext, hused, hpid⟩ := h.filled
  have hle : n ≤ slot := by
    by_contra hnot
    exact (hused slot hlt).mpr (by omega) hunused
  have hge : slot ≤ n := by
    by_contra hnot
    have hfirst := (List.find?_range_eq_some.mp hslot).2.2 n (by omega)
    have hstate : (s.procTable n).state ≠ .unused := by
      simpa only [decide_not, Bool.not_not, Bool.not_eq_true', decide_eq_false_iff_not] using hfirst
    exact absurd ((hused n (by omega)).mp hstate) (Nat.lt_irrefl n)
  obtain rfl : n = slot := by omega
  exact ⟨hlt, hnext, hused, hpid⟩

/-- A new stack lies apart from every stack that is in use. -/
theorem allocPages_stack (h : Sane kernStart kernEnd totalPages v.pmm)
    (hsome : (v.allocPages 2).1 ≠ 0) : ∃ k, (v.allocPages 2).1 = k * pageSize ∧ 0 < k ∧
      k + 1 < totalPages ∧ bitmapTest v.pmm k = false ∧ bitmapTest v.pmm (k + 1) = false ∧
      bitmapTest (v.allocPages 2).2.pmm k = true ∧
      bitmapTest (v.allocPages 2).2.pmm (k + 1) = true := by
  rcases @allocPages_result 2 v h.placed.total with hnone | ⟨k, hk, -, ha⟩
  · exact absurd (congrArg Prod.fst hnone) hsome
  · have hrange := ha.inRange
    have htotal := h.total
    have hpmm : (v.allocPages 2).2.pmm = takePages v.pmm k 2 := congrArg Prod.snd hk
    rw [hpmm]
    refine ⟨k, congrArg Prod.fst hk, ha.nonzero, by omega, ha.free k (by omega) (by omega),
      ha.free (k + 1) (by omega) (by omega), ?_, ?_⟩
    · exact (h.allocates_test ha (by omega)).mpr (Or.inl ⟨by omega, by omega⟩)
    · exact (h.allocates_test ha (by omega)).mpr (Or.inl ⟨by omega, by omega⟩)

/-- The stack of a process keeps away from pages that are free. -/
theorem ProcSound.stack_away {i k : Nat} (h : ProcSound kernStart kernEnd totalPages s)
    (hi : Used s.procTable i) (hfree : bitmapTest s.vm.pmm k = false)
    (hfree' : bitmapTest s.vm.pmm (k + 1) = false) :
    (s.procTable i).kstackPhys + 2 * pageSize ≤ k * pageSize ∨
      k * pageSize + 2 * pageSize ≤ (s.procTable i).kstackPhys := by
  obtain ⟨j, hj, -, -, hmark, hmark'⟩ := h.stack i hi
  have hkj : ∀ m, bitmapTest s.vm.pmm m = true → m ≠ k ∧ m ≠ k + 1 := by
    intro m hm
    constructor
    · rintro rfl
      rw [hfree] at hm
      cases hm
    · rintro rfl
      rw [hfree'] at hm
      cases hm
  have hj0 := hkj j hmark
  have hj1 := hkj (j + 1) hmark'
  rw [hj]
  simp only [pageSize]
  omega

theorem ProcSound.add (h : ProcSound kernStart kernEnd totalPages s)
    (hslot : Proc.freeSlot s.procTable = some slot) (hsome : (s.vm.allocPages 2).1 ≠ 0)
    (htable : s'.procTable = Function.update s.procTable slot proc)
    (hnext : s'.nextPid = u32 (s.nextPid + 1))
    (hkept : PagesKept kernStart kernEnd totalPages (s.vm.allocPages 2).2 s'.vm)
    (hstate : proc.state ≠ .unused) (hpid : proc.pid = s.nextPid)
    (hstack : proc.kstackPhys = (s.vm.allocPages 2).1) (hareas : AreasOk proc.vmaList) :
    ProcSound kernStart kernEnd totalPages s' := by
  obtain ⟨hlt, hpids, hused, hpidOf⟩ := h.freeSlot hslot
  obtain ⟨k, hk, hpos, hrange, hfree, hfree', hset, hset'⟩ := allocPages_stack h.sane hsome
  have hmax : procMax = 64 := rfl
  have hself : s'.procTable slot = proc := by
    rw [htable, Function.update_self]
  have hother : ∀ i, i ≠ slot → s'.procTable i = s.procTable i := by
    intro i hi
    rw [htable, Function.update_of_ne hi]
  have hold : ∀ i, Used s'.procTable i → i ≠ slot → Used s.procTable i := by
    intro i hi hne
    exact ⟨hi.1, hother i hne ▸ hi.2⟩
  have hkeeps : PagesKept kernStart kernEnd totalPages s.vm s'.vm :=
    (pagesKept_allocPages h.sane).trans hkept
  have haway : ∀ i, Used s'.procTable i → i ≠ slot →
      (s'.procTable i).kstackPhys + 2 * pageSize ≤ k * pageSize ∨
        k * pageSize + 2 * pageSize ≤ (s'.procTable i).kstackPhys := by
    intro i hi hne
    rw [hother i hne]
    exact h.stack_away (hold i hi hne) hfree hfree'
  refine ⟨hkept.sane, ⟨slot + 1, by omega, ?_, ?_, ?_⟩, ?_, ?_, ?_⟩
  · rw [hnext, hpids]
    exact u32_of_lt (by omega)
  · intro i hi
    by_cases hne : i = slot
    · subst hne
      rw [hself]
      exact ⟨fun _ => Nat.lt_succ_self _, fun _ => hstate⟩
    · rw [hother i hne, hused i hi]
      omega
  · intro i hi
    by_cases hne : i = slot
    · subst hne
      rw [hself, hpid, hpids]
    · rw [hother i hne]
      exact hpidOf i (by omega)
  · intro i hi
    by_cases hne : i = slot
    · subst hne
      rw [hself, hstack]
      exact ⟨k, hk, hpos, hrange, hkept.keeps k (by omega) hset, hkept.keeps (k + 1) hrange hset'⟩
    · obtain ⟨j, hj, hjpos, hjrange, hmark, hmark'⟩ := h.stack i (hold i hi hne)
      rw [hother i hne]
      exact ⟨j, hj, hjpos, hjrange, hkeeps.keeps j (by omega) hmark,
        hkeeps.keeps (j + 1) hjrange hmark'⟩
  · intro i j hi hj hij
    by_cases hni : i = slot
    · subst hni
      rw [hself, hstack, hk]
      exact (haway j hj (fun heq => hij heq.symm)).symm
    · by_cases hnj : j = slot
      · subst hnj
        rw [hself, hstack, hk]
        exact haway i hi hni
      · rw [hother i hni, hother j hnj]
        exact h.apart i j (hold i hi hni) (hold j hj hnj) hij
  · intro i hi
    by_cases hne : i = slot
    · subst hne
      rw [hself]
      exact hareas
    · rw [hother i hne]
      exact h.areas i (hold i hi hne)

/-- The areas of one process change, and pages may be taken. -/
theorem ProcSound.changeVmas (h : ProcSound kernStart kernEnd totalPages s)
    (htable : s'.procTable =
      Function.update s.procTable slot { s.procTable slot with vmaList := vmas })
    (hnext : s'.nextPid = s.nextPid)
    (hkept : PagesKept kernStart kernEnd totalPages s.vm s'.vm) (hareas : AreasOk vmas) :
    ProcSound kernStart kernEnd totalPages s' := by
  have hbody : ∀ i, (s'.procTable i).state = (s.procTable i).state ∧
      (s'.procTable i).pid = (s.procTable i).pid ∧
      (s'.procTable i).kstackPhys = (s.procTable i).kstackPhys := by
    intro i
    rw [htable]
    by_cases hi : i = slot
    · subst hi
      rw [Function.update_self]
      exact ⟨rfl, rfl, rfl⟩
    · rw [Function.update_of_ne hi]
      exact ⟨rfl, rfl, rfl⟩
  have hold : ∀ i, Used s'.procTable i → Used s.procTable i := fun i hi =>
    ⟨hi.1, (hbody i).1 ▸ hi.2⟩
  obtain ⟨n, hn, hpids, hused, hpidOf⟩ := h.filled
  refine ⟨hkept.sane, ⟨n, hn, hnext.trans hpids, ?_, ?_⟩, ?_, ?_, ?_⟩
  · intro i hi
    rw [(hbody i).1]
    exact hused i hi
  · intro i hi
    rw [(hbody i).2.1]
    exact hpidOf i hi
  · intro i hi
    obtain ⟨k, hk, hpos, hrange, hmark, hmark'⟩ := h.stack i (hold i hi)
    rw [(hbody i).2.2]
    exact ⟨k, hk, hpos, hrange, hkept.keeps k (by omega) hmark, hkept.keeps (k + 1) hrange hmark'⟩
  · intro i j hi hj hij
    rw [(hbody i).2.2, (hbody j).2.2]
    exact h.apart i j (hold i hi) (hold j hj) hij
  · intro i hi
    by_cases hne : i = slot
    · subst hne
      rw [htable, Function.update_self]
      exact hareas
    · rw [htable, Function.update_of_ne hne]
      exact h.areas i (hold i hi)

theorem AreasOk.insert {start end_ offset : Nat} {flags : BitVec 32} (h : AreasOk vmas)
    (hstart : start < 2 ^ 32) : AreasOk (insertKey Vma.start
      ⟨alignDown start pageSize, alignUp end_ pageSize, flags, offset⟩ vmas) := by
  refine ⟨h.1.insertKey, ?_⟩
  intro v hv
  rcases mem_insertKey.mp hv with rfl | hv
  · have hwrap : u32 (end_ + 4095) < 2 ^ 32 := u32_lt
    dsimp only
    rw [alignDown_page hstart, alignUp_page]
    omega
  · exact h.2 v hv

theorem AreasOk.erase (h : AreasOk vmas) (place : Nat) : AreasOk (vmas.eraseIdx place) :=
  ⟨h.1.sublist (List.eraseIdx_sublist vmas place),
    fun v hv => h.2 v (List.mem_of_mem_eraseIdx hv)⟩

theorem AreasOk.copied (h : AreasOk vmas) : AreasOk (insertAll Vma.start (vmas.map vmaCopy) []) := by
  have hnil : Sorted Vma.start ([] : List Vma) := List.Pairwise.nil
  refine ⟨hnil.insertAll, ?_⟩
  intro v hv
  rcases mem_insertAll hv with hmem | hmem
  · obtain ⟨vma, hin, rfl⟩ := List.mem_map.mp hmem
    obtain ⟨hstart, -, hend, -⟩ := h.2 vma hin
    have hwrap : u32 (vma.end_ + 4095) < 2 ^ 32 := u32_lt
    dsimp only [vmaCopy]
    rw [alignDown_page hstart, alignUp_page]
    omega
  · exact (nomatch hmem)

/-- The copied areas, in their new order. -/
theorem AreasOk.intervals_copied (h : AreasOk vmas) :
    intervals (insertAll Vma.start (vmas.map vmaCopy) []) =
      insertAll Prod.fst (intervals vmas) [] := by
  have hcopy : (vmas.map vmaCopy).map (fun v => (v.start, v.end_)) = intervals vmas := by
    rw [List.map_map]
    refine List.map_congr_left ?_
    intro vma hin
    obtain ⟨hstart, haligned, hend, halignedEnd⟩ := h.2 vma hin
    have hwrap : u32 (vma.end_ + 4095) = vma.end_ + 4095 := u32_of_lt (by omega)
    have hdown : alignDown vma.start pageSize = vma.start := by
      rw [alignDown_page hstart]
      omega
    have hup : alignUp vma.end_ pageSize = vma.end_ := by
      rw [alignUp_page, hwrap]
      omega
    simp only [Function.comp_apply, vmaCopy, hdown, hup]
  have hmap : intervals (insertAll Vma.start (vmas.map vmaCopy) []) =
      insertAll Prod.fst ((vmas.map vmaCopy).map fun v => (v.start, v.end_)) [] :=
    map_insertAll _ fun _ => rfl
  rw [hmap, hcopy]

theorem AreasOk.intervals_sorted (h : AreasOk vmas) : Sorted Prod.fst (intervals vmas) :=
  List.pairwise_map.mpr h.1

theorem AreasOk.copied_eq_iff (h : AreasOk vmas) :
    intervals (insertAll Vma.start (vmas.map vmaCopy) []) = intervals vmas ↔
      Mirrored (intervals vmas) := by
  rw [h.intervals_copied]
  exact h.intervals_sorted.insertAll_eq_iff

/-! One call. -/

theorem procStep_some (h : procStep cache r c = some r') :
    c.Valid r.sys.procTable ∧ r' = r.call cache c := by
  unfold procStep at h
  split_ifs at h with hstop
  rw [not_or, not_not] at hstop
  exact ⟨hstop.2, (Option.some.inj h).symm⟩

theorem tableKept_of_sound (h : ProcSound kernStart kernEnd totalPages r'.sys)
    (hmem : c.HasMemory cache r.sys)
    (hareas : ∀ parent child, c = .fork (some parent) → r'.result = .proc child →
      intervals (r'.sys.procTable child).vmaList = intervals (r.sys.procTable parent).vmaList) :
    TableKept cache r c r' :=
  ⟨h.tableOk, fun hnot => absurd hmem hnot, hareas⟩

theorem ProcSound.create (h : ProcSound kernStart kernEnd totalPages r.sys)
    (hmem : (ProcCall.create name).HasMemory cache r.sys) :
    ProcSound kernStart kernEnd totalPages (r.call cache (.create name)).sys := by
  unfold ProcRun.call
  dsimp only
  cases hslot : Proc.freeSlot r.sys.procTable with
  | none =>
    rw [procCreate_none hslot]
    exact h
  | some slot =>
    have hsome : (r.sys.vm.allocPages 2).1 ≠ 0 := by
      rcases hmem with hnone | hsome
      · rw [hslot] at hnone
        cases hnone
      · exact hsome
    rw [procCreate_some hslot]
    have hsane := (pagesKept_allocPages h.sane (n := 2)).sane
    have hempty : AreasOk [] := ⟨List.Pairwise.nil, nofun⟩
    exact h.add hslot hsome rfl rfl ⟨hsane, fun _ _ hset => hset⟩ nofun rfl rfl hempty

theorem ProcSound.forked (h : ProcSound kernStart kernEnd totalPages s)
    (hused : Used s.procTable parent) (hslot : Proc.freeSlot s.procTable = some child)
    (hmem : ForkMemory cache s (s.procTable parent).vmaList.length) :
    ProcSound kernStart kernEnd totalPages (forkedSys cache s parent child) := by
  have hstack := pagesKept_allocPages h.sane (n := 2)
  have hareas := @pagesKept_allocMany σ kernStart kernEnd totalPages
    (s.procTable parent).vmaList.length (s.vm.allocPages 2).2 cache s.slabs hstack.sane
  have hpd := pagesKept_allocPage hareas.sane
  obtain ⟨i, hi, -, -, -, hout⟩ := allocPage_outside hareas.sane hmem.2.2
  have hcopy := pagesKept_copyDirectory hpd.sane hout
  rw [← hi] at hcopy
  exact h.add hslot hmem.1 rfl rfl (hareas.trans (hpd.trans hcopy)) nofun rfl rfl
    (h.areas parent hused).copied

theorem forkedSys_vmaList : ((forkedSys cache s parent child).procTable child).vmaList =
    insertAll Vma.start ((s.procTable parent).vmaList.map vmaCopy) [] := by
  unfold forkedSys
  dsimp only
  rw [Function.update_self]
  rfl

theorem call_fork_none (hslot : Proc.freeSlot r.sys.procTable = none) :
    r.call cache (.fork (some parent)) = ⟨r.sys, .null⟩ := by
  unfold ProcRun.call
  dsimp only
  rw [procFork_none hslot]

theorem call_fork_some (hused : Used r.sys.procTable parent)
    (hslot : Proc.freeSlot r.sys.procTable = some child)
    (hmem : ForkMemory cache r.sys (r.sys.procTable parent).vmaList.length) :
    r.call cache (.fork (some parent)) = ⟨forkedSys cache r.sys parent child, .proc child⟩ := by
  have hne : parent ≠ child := by
    rintro rfl
    exact hused.2 (freeSlot_some hslot).2
  unfold ProcRun.call
  dsimp only
  rw [procFork_some hslot hne hmem]

/-- The memory that the call gets, in a table that has a free slot. -/
theorem forkMemory_of_hasMemory (hslot : Proc.freeSlot s.procTable = some child)
    (hmem : (ProcCall.fork (some parent)).HasMemory cache s) :
    ForkMemory cache s (s.procTable parent).vmaList.length := by
  rcases hmem with hnone | hmem
  · rw [hslot] at hnone
    cases hnone
  · exact hmem

theorem ProcSound.call (h : ProcSound kernStart kernEnd totalPages r.sys)
    (hvalid : c.Valid r.sys.procTable) (hmem : c.HasMemory cache r.sys) :
    ProcSound kernStart kernEnd totalPages (r.call cache c).sys := by
  cases c with
  | create name => exact h.create hmem
  | fork parent =>
    cases parent with
    | none => exact h
    | some parent =>
      cases hslot : Proc.freeSlot r.sys.procTable with
      | none =>
        rw [call_fork_none hslot]
        exact h
      | some child =>
        have hgets := forkMemory_of_hasMemory hslot hmem
        rw [call_fork_some hvalid hslot hgets]
        exact h.forked hvalid hslot hgets
  | vmaInsert proc start end_ flags =>
    obtain ⟨hused, hstart, -⟩ := hvalid
    have hkept := @pagesKept_alloc σ kernStart kernEnd totalPages r.sys.vm cache r.sys.slabs h.sane
    unfold ProcRun.call vmaInsert
    dsimp only
    split_ifs
    · have hsame : r.sys.procTable = Function.update r.sys.procTable proc (r.sys.procTable proc) :=
        (Function.update_eq_self _ _).symm
      exact h.changeVmas hsame rfl hkept (h.areas proc hused)
    · exact h.changeVmas rfl rfl hkept ((h.areas proc hused).insert hstart)
  | vmaRemove proc place =>
    exact h.changeVmas rfl rfl ⟨h.sane, fun _ _ hset => hset⟩ ((h.areas proc hvalid).erase place)

/-- Where a slot is free, a fork never returns NULL. -/
theorem call_fork_ne_null (hslot : Proc.freeSlot r.sys.procTable = some child) :
    (r.call cache (.fork (some parent))).result ≠ .null := procFork_ne_null hslot

theorem call_create_ne_null (hslot : Proc.freeSlot r.sys.procTable = some slot) :
    (r.call cache (.create name)).result ≠ .null := by
  unfold ProcRun.call
  dsimp only
  rw [procCreate_some hslot]
  nofun

/-- A call that cannot get its memory goes on nonetheless, or halts. -/
theorem hasMemory_of_kept (hkept : TableKept cache r c (r.call cache c)) :
    c.HasMemory cache r.sys := by
  by_contra hnot
  have hnull := (hkept.failed hnot).1
  cases c with
  | create name =>
    cases hslot : Proc.freeSlot r.sys.procTable with
    | none => exact hnot (Or.inl hslot)
    | some slot => exact call_create_ne_null hslot hnull
  | fork parent =>
    cases parent with
    | none => exact hnot trivial
    | some parent =>
      cases hslot : Proc.freeSlot r.sys.procTable with
      | none => exact hnot (Or.inl hslot)
      | some child => exact call_fork_ne_null hslot hnull
  | vmaInsert proc start end_ flags => exact hnot trivial
  | vmaRemove proc place => exact hnot trivial

theorem areas_iff_mirrored (h : ProcSound kernStart kernEnd totalPages r.sys)
    (hused : Used r.sys.procTable parent) (hslot : Proc.freeSlot r.sys.procTable = some child)
    (hmem : ForkMemory cache r.sys (r.sys.procTable parent).vmaList.length) :
    intervals ((r.call cache (.fork (some parent))).sys.procTable child).vmaList =
        intervals (r.sys.procTable parent).vmaList ↔
      Mirrored (intervals (r.sys.procTable parent).vmaList) := by
  rw [call_fork_some hused hslot hmem, forkedSys_vmaList]
  exact (h.areas parent hused).copied_eq_iff

theorem procStep_iff (h : ProcSound kernStart kernEnd totalPages r.sys)
    (hstep : procStep cache r c = some r') :
    (TableKept cache r c r' ↔ CleanCall cache r c r') ∧
      (CleanCall cache r c r' → ProcSound kernStart kernEnd totalPages r'.sys) := by
  obtain ⟨hvalid, rfl⟩ := procStep_some hstep
  refine ⟨⟨?_, ?_⟩, fun hclean => h.call hvalid hclean.1⟩
  · intro hkept
    have hmem := hasMemory_of_kept hkept
    refine ⟨hmem, ?_⟩
    rintro parent rfl hfree
    obtain ⟨child, hslot⟩ := Option.ne_none_iff_exists'.mp hfree
    have hgets := forkMemory_of_hasMemory hslot hmem
    refine (areas_iff_mirrored h hvalid hslot hgets).mp (hkept.areas parent child rfl ?_)
    rw [call_fork_some hvalid hslot hgets]
  · rintro ⟨hmem, hmirrored⟩
    refine tableKept_of_sound (h.call hvalid hmem) hmem ?_
    rintro parent child rfl hresult
    cases hslot : Proc.freeSlot r.sys.procTable with
    | none =>
      rw [call_fork_none hslot] at hresult
      cases hresult
    | some slot =>
      have hgets := forkMemory_of_hasMemory hslot hmem
      have hsame : slot = child := by
        rw [call_fork_some hvalid hslot hgets] at hresult
        exact ProcResult.proc.inj hresult
      subst hsame
      exact (areas_iff_mirrored h hvalid hslot hgets).mpr
        (hmirrored parent rfl (by rw [hslot]; nofun))

/-! The runs from `proc_init` on. -/

/-- Calls keep the table sound exactly as long as none of them runs out of memory and no fork meets
areas that start alike and would change places. -/
theorem procTable_iff (vm : Vm) (slabs : σ) (cache : VmaCache σ) (calls : List ProcCall)
    (h : Sane kernStart kernEnd totalPages vm.pmm) :
    Run.EveryStep (procStep cache) (TableKept cache) ⟨procInit vm slabs, .null⟩ calls ↔
      Run.EveryStep (procStep cache) (CleanCall cache) ⟨procInit vm slabs, .null⟩ calls := by
  refine Run.everyStep_iff (I := fun r => ProcSound kernStart kernEnd totalPages r.sys) ?_
    (procSound_init h)
  intro r c r' hsound hstep
  exact procStep_iff hsound hstep

/-- A cache whose slabs are pages: whether the n-th call from here on finds a free object. -/
def pageCache : VmaCache (Nat → Bool) where
  alloc v room :=
    let later := fun n => room (n + 1)
    if room 0 then (true, v, later)
    else
      let (phys, v) := v.allocPages 1
      (phys != 0, v, later)
  tables v room h := by
    dsimp only
    split_ifs
    · exact h
    · exact tablesOk_allocPages h
  sane v room h := by
    dsimp only
    split_ifs
    · exact h
    · exact (pagesKept_allocPages h).sane
  keeps v room h := by
    dsimp only
    split_ifs
    · exact fun _ _ hset => hset
    · exact (pagesKept_allocPages h).keeps

theorem procTable_iff_smallVm :
    Run.EveryStep (procStep pageCache) (TableKept pageCache)
        ⟨procInit (smallVm fun _ => false) fun _ => false, .null⟩
        [.create (some "init"), .vmaInsert 0 0x400000 0x401000 3, .fork (some 0)] ↔
      Run.EveryStep (procStep pageCache) (CleanCall pageCache)
        ⟨procInit (smallVm fun _ => false) fun _ => false, .null⟩
        [.create (some "init"), .vmaInsert 0 0x400000 0x401000 3, .fork (some 0)] :=
  procTable_iff (smallVm fun _ => false) (fun _ => false) pageCache _ tablesOk_smallVm.sane

/-- Without pages for a stack `proc_create` returns a process that has none. -/
theorem not_procTable_starved :
    ¬ Run.EveryStep (procStep pageCache) (TableKept pageCache)
      ⟨procInit (smallVm fun _ => true) fun _ => false, .null⟩ [.create (some "init")] := by
  intro hsteps
  obtain ⟨hkept, -⟩ := hsteps _ rfl
  refine hkept.table.kstacks 0 ⟨by decide, ?_⟩ rfl
  nofun

end PinguinOS.Proc
