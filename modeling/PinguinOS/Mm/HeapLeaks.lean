import Mathlib.Data.List.Perm.Basic
import PinguinOS.Mm.HeapRealloc

/-! The leak table beside the heap: what the tracked wrappers record, and `krealloc` does not. -/
namespace PinguinOS.Mm

def leakTableSize : Nat := 1024

/-- `alloc_record_t` -/
structure AllocRecord where
  ptr : Nat
  size : Nat
  file : Option String
  line : Nat

def AllocRecord.clear : AllocRecord := ⟨0, 0, none, 0⟩

structure LeakTable where
  /-- `leak_table`, from the first entry to the last. -/
  records : List AllocRecord
  count : Nat

/-- The loop of `leak_record`. -/
def recordIn (r : AllocRecord) : List AllocRecord → Option (List AllocRecord)
  | [] => none
  | a :: rest => if a.ptr = 0 then some (r :: rest) else (recordIn r rest).map (a :: ·)

def leakRecord (t : LeakTable) (ptr size : Nat) (file : String) (line : Nat) : LeakTable :=
  let r : AllocRecord := ⟨ptr, size, some file, line⟩
  match recordIn r t.records with
  | some records => { t with records := records }
  | none =>
    { records := t.records.set (t.count % leakTableSize) r
      count := u32 (t.count + 1) }

/-- The loop of `leak_unrecord`. -/
def unrecordIn (ptr : Nat) : List AllocRecord → List AllocRecord
  | [] => []
  | a :: rest => if a.ptr = ptr then .clear :: rest else a :: unrecordIn ptr rest

def leakUnrecord (t : LeakTable) (ptr : Nat) : LeakTable :=
  { t with records := unrecordIn ptr t.records }

def kmallocTracked (h : Heap) (t : LeakTable) (size : Nat) (file : String) (line : Nat) :
    Option (Nat × Heap × LeakTable) := do
  let (p, h) ← kmalloc h size
  some (p, h, if p ≠ 0 then leakRecord t p size file line else t)

def kzallocTracked (h : Heap) (t : LeakTable) (size : Nat) (file : String) (line : Nat) :
    Option (Nat × Heap × LeakTable) := do
  let (p, h) ← kzalloc h size
  some (p, h, if p ≠ 0 then leakRecord t p size file line else t)

def kfreeTracked (h : Heap) (t : LeakTable) (ptr : Nat) : Option (Heap × LeakTable) :=
  if ptr = 0 then some (h, t)
  else do
    let t := leakUnrecord t ptr
    let h ← kfree h ptr
    some (h, t)

/-- The heap, the table, and what has been allocated and not freed: pointer and size asked for. -/
structure LeakSys where
  heap : Heap
  leaks : LeakTable
  live : List (Nat × Nat)

inductive LeakCall
  | kmalloc (size : Nat) (file : String) (line : Nat)
  | kzalloc (size : Nat) (file : String) (line : Nat)
  | krealloc (ptr size : Nat)
  | kfree (ptr : Nat)

/-- An allocation that returned `p`. -/
def gained (live : List (Nat × Nat)) (p size : Nat) : List (Nat × Nat) :=
  if p = 0 then live else (p, size) :: live

/-- The allocations but the one at `ptr`. -/
def dropped (live : List (Nat × Nat)) (ptr : Nat) : List (Nat × Nat) :=
  live.filter fun r => r.1 ≠ ptr

/-- A `krealloc` that returned `p`. -/
def moved (live : List (Nat × Nat)) (ptr size p : Nat) : List (Nat × Nat) :=
  if ptr = 0 then gained live p size
  else if size = 0 then dropped live ptr
  else if p = 0 then live
  else (p, size) :: dropped live ptr

/-- The pointer passed is NULL or live. -/
def LeakSys.Allowed (s : LeakSys) : LeakCall → Prop
  | .krealloc ptr _ => ptr = 0 ∨ ptr ∈ s.live.map Prod.fst
  | .kfree ptr => ptr = 0 ∨ ptr ∈ s.live.map Prod.fst
  | _ => True

instance {s : LeakSys} {c : LeakCall} : Decidable (s.Allowed c) :=
  match c with
  | .krealloc ptr _ => inferInstanceAs (Decidable (ptr = 0 ∨ ptr ∈ s.live.map Prod.fst))
  | .kfree ptr => inferInstanceAs (Decidable (ptr = 0 ∨ ptr ∈ s.live.map Prod.fst))
  | .kmalloc _ _ _ => isTrue trivial
  | .kzalloc _ _ _ => isTrue trivial

def LeakSys.exec (s : LeakSys) : LeakCall → Option LeakSys
  | .kmalloc size file line => do
    let (p, h, t) ← kmallocTracked s.heap s.leaks size file line
    some ⟨h, t, gained s.live p size⟩
  | .kzalloc size file line => do
    let (p, h, t) ← kzallocTracked s.heap s.leaks size file line
    some ⟨h, t, gained s.live p size⟩
  | .krealloc ptr size => do
    let (p, h) ← krealloc s.heap ptr size
    some ⟨h, s.leaks, moved s.live ptr size p⟩
  | .kfree ptr => do
    let (h, t) ← kfreeTracked s.heap s.leaks ptr
    some ⟨h, t, dropped s.live ptr⟩

/-- A call on a live pointer that leaves no more allocations than the table has entries. -/
def LeakSys.step (s : LeakSys) (c : LeakCall) : Option LeakSys :=
  if s.Allowed c then (s.exec c).filter fun t => t.live.length ≤ leakTableSize else none

/-- The entries in use: pointer and size. -/
def entries (records : List AllocRecord) : List (Nat × Nat) :=
  (records.filter fun r => r.ptr ≠ 0).map fun r => (r.ptr, r.size)

/-- The entries in use are the live allocations, each once. -/
def LeakSys.Exact (s : LeakSys) : Prop :=
  (entries s.leaks.records).Perm s.live ∧ (s.live.map Prod.fst).Nodup

/-- The heap has no block for the size. -/
def Refused (h : Heap) (size : Nat) : Prop := ∃ g, kmalloc h size = some (0, g)

/-- `krealloc` fails, or leaves pointer and size as they are. -/
def LeakSys.Quiet (s : LeakSys) : LeakCall → Prop
  | .krealloc ptr size =>
    (ptr = 0 → Refused s.heap size) ∧
      ∀ b ∈ s.heap.blocks, ptr = b.addr + headerSize →
        size ≠ 0 ∧ if size ≤ b.size then (ptr, size) ∈ s.live else Refused s.heap size
  | _ => True

/-- `heap_init`, with a table of cleared entries. -/
def LeakSys.init (h : Heap) : LeakSys where
  heap := h
  leaks := ⟨List.replicate leakTableSize .clear, 0⟩
  live := []

/-- The heap's own call. -/
def LeakCall.call : LeakCall → HeapCall
  | .kmalloc size _ _ => .kmalloc size
  | .kzalloc size _ _ => .kzalloc size
  | .krealloc ptr size => .krealloc ptr size
  | .kfree ptr => .kfree ptr

/-- What no call breaks, whatever the table holds. -/
structure LeakSys.Tracked (s : LeakSys) : Prop where
  shape : HeapOk (· ≤ ·) s.heap
  alive : ∀ r ∈ s.live, s.heap.Live r.1
  nodup : (s.live.map Prod.fst).Nodup
  length : s.leaks.records.length = leakTableSize

variable {h h' : Heap} {t : LeakTable} {ptr size p line : Nat} {file : String} {r : AllocRecord}
  {records records' : List AllocRecord} {live : List (Nat × Nat)} {e : Nat × Nat}

/-! The table. -/

theorem entries_cons :
    entries (r :: records) = if r.ptr = 0 then entries records
      else (r.ptr, r.size) :: entries records := by
  unfold entries
  by_cases hr : r.ptr = 0
  · simp [hr]
  · simp [hr]

@[simp] theorem entries_clear : entries (.clear :: records) = entries records := by
  rw [entries_cons]
  exact if_pos rfl

theorem recordIn_some (hptr : r.ptr ≠ 0) (hrec : recordIn r records = some records') :
    (entries records').Perm ((r.ptr, r.size) :: entries records) ∧
      records'.length = records.length := by
  induction records generalizing records' with
  | nil => cases hrec
  | cons a rest ih =>
    unfold recordIn at hrec
    split_ifs at hrec with ha
    · cases hrec
      rw [entries_cons, if_neg hptr, entries_cons, if_pos ha]
      exact ⟨List.Perm.refl _, rfl⟩
    · obtain ⟨rest', hrest, rfl⟩ := Option.map_eq_some_iff.mp hrec
      obtain ⟨hperm, hlength⟩ := ih hrest
      rw [entries_cons, if_neg ha, entries_cons, if_neg ha]
      refine ⟨(hperm.cons _).trans (List.Perm.swap _ _ _), ?_⟩
      rw [List.length_cons, List.length_cons, hlength]

/-- Every entry is in use. -/
theorem recordIn_none (hrec : recordIn r records = none) :
    (entries records).length = records.length := by
  induction records with
  | nil => rfl
  | cons a rest ih =>
    unfold recordIn at hrec
    split_ifs at hrec with ha
    rw [entries_cons, if_neg ha, List.length_cons, List.length_cons,
      ih (Option.map_eq_none_iff.mp hrec)]

theorem length_unrecordIn : (unrecordIn ptr records).length = records.length := by
  induction records with
  | nil => rfl
  | cons a rest ih =>
    unfold unrecordIn
    split_ifs
    · rfl
    · rw [List.length_cons, List.length_cons, ih]

/-- The first entry of a pointer is its only one. -/
theorem entries_unrecordIn (hptr : ptr ≠ 0)
    (hnodup : ((entries records).map Prod.fst).Nodup) :
    entries (unrecordIn ptr records) = dropped (entries records) ptr := by
  induction records with
  | nil => rfl
  | cons a rest ih =>
    unfold unrecordIn
    rw [entries_cons] at hnodup
    by_cases ha : a.ptr = ptr
    · rw [if_pos ha, entries_clear, entries_cons, if_neg (ha ▸ hptr)]
      rw [if_neg (ha ▸ hptr), List.map_cons, List.nodup_cons] at hnodup
      unfold dropped
      rw [List.filter_cons_of_neg (by simp [ha]), List.filter_eq_self.mpr]
      intro e he
      refine decide_eq_true ?_
      intro heq
      have hmap := List.mem_map_of_mem (f := Prod.fst) he
      rw [heq, ← ha] at hmap
      exact hnodup.1 hmap
    · rw [if_neg ha, entries_cons, entries_cons]
      split_ifs at hnodup ⊢ with hzero
      · exact ih hnodup
      · rw [List.map_cons, List.nodup_cons] at hnodup
        unfold dropped at ih ⊢
        rw [List.filter_cons_of_pos (by simp [ha]), ih hnodup.2]

/-- A record that finds a free entry. -/
theorem leakRecord_entries (hptr : ptr ≠ 0)
    (hroom : (entries t.records).length < t.records.length) :
    (entries (leakRecord t ptr size file line).records).Perm
        ((ptr, size) :: entries t.records) ∧
      (leakRecord t ptr size file line).records.length = t.records.length := by
  unfold leakRecord
  dsimp only
  cases hrec : recordIn ⟨ptr, size, some file, line⟩ t.records with
  | none =>
    have hfull := recordIn_none hrec
    omega
  | some records => exact recordIn_some hptr hrec

theorem mem_dropped : e ∈ dropped live ptr ↔ e ∈ live ∧ e.1 ≠ ptr := by
  unfold dropped
  rw [List.mem_filter, decide_eq_true_eq]

theorem nodup_dropped (h : (live.map Prod.fst).Nodup) :
    ((dropped live ptr).map Prod.fst).Nodup :=
  h.sublist (List.filter_sublist.map Prod.fst)

/-- Without its one allocation at `ptr`, and with it again. -/
theorem perm_dropped (h : (live.map Prod.fst).Nodup) (hmem : (ptr, size) ∈ live) :
    ((ptr, size) :: dropped live ptr).Perm live := by
  induction live with
  | nil => cases hmem
  | cons a live ih =>
    rw [List.map_cons, List.nodup_cons] at h
    unfold dropped at ih ⊢
    rcases List.mem_cons.mp hmem with rfl | hmem
    · rw [List.filter_cons_of_neg (by simp), List.filter_eq_self.mpr]
      intro e he
      refine decide_eq_true ?_
      intro heq
      have hmap := List.mem_map_of_mem (f := Prod.fst) he
      rw [heq] at hmap
      exact h.1 hmap
    · have hne : a.1 ≠ ptr := fun heq => h.1 (heq ▸ List.mem_map_of_mem (f := Prod.fst) hmem)
      rw [List.filter_cons_of_pos (by simpa using hne)]
      exact (List.Perm.swap _ _ _).trans ((ih h.2 hmem).cons a)

theorem length_recordIn (hrec : recordIn r records = some records') :
    records'.length = records.length := by
  induction records generalizing records' with
  | nil => cases hrec
  | cons a rest ih =>
    unfold recordIn at hrec
    split_ifs at hrec
    · cases hrec
      rfl
    · obtain ⟨rest', hrest, rfl⟩ := Option.map_eq_some_iff.mp hrec
      rw [List.length_cons, List.length_cons, ih hrest]

theorem length_leakRecord :
    (leakRecord t ptr size file line).records.length = t.records.length := by
  unfold leakRecord
  dsimp only
  cases hrec : recordIn ⟨ptr, size, some file, line⟩ t.records with
  | none => exact List.length_set
  | some records => exact length_recordIn hrec

/-! One call. -/

variable {s s' : LeakSys} {c : LeakCall} {g : Heap}

theorem Heap.Live.ne_zero (hlive : h.Live p) : p ≠ 0 := by
  obtain ⟨b, -, -, rfl⟩ := hlive
  unfold headerSize
  omega

theorem kmalloc_fresh (hok : HeapOk (· ≤ ·) h) (hlt : size ≤ maxRequest)
    (halloc : kmalloc h size = some (p, g)) : p = 0 ∨ g.Live p ∧ ¬ h.Live p := by
  by_cases hzero : size = 0
  · subst hzero
    exact Or.inl (kmalloc_zero_keeps halloc).1
  obtain ⟨-, hserved⟩ := kmalloc_keeps hok hzero hlt halloc
  rcases hserved with hnull | ⟨c, hc, hcused, rfl, -, hapart⟩
  · exact Or.inl hnull
  · refine Or.inr ⟨⟨c, hc, hcused, rfl⟩, ?_⟩
    rintro ⟨b, hb, hused, heq⟩
    exact hapart b hb hused (Nat.add_right_cancel heq).symm

theorem kzalloc_fresh_or_null (hok : HeapOk (· ≤ ·) h) (hlt : size ≤ maxRequest)
    (halloc : kzalloc h size = some (p, g)) : p = 0 ∨ g.Live p ∧ ¬ h.Live p := by
  by_cases hzero : size = 0
  · subst hzero
    cases halloc
    exact Or.inl rfl
  · exact kzalloc_fresh hok hzero hlt halloc

theorem LeakSys.Tracked.allowed (hs : s.Tracked) (hallowed : s.Allowed c) :
    s.heap.Allowed c.call := by
  have hlive : ∀ ptr, ptr = 0 ∨ ptr ∈ s.live.map Prod.fst → ptr = 0 ∨ s.heap.Live ptr := by
    rintro ptr (hzero | hmem)
    · exact Or.inl hzero
    · obtain ⟨r, hr, rfl⟩ := List.mem_map.mp hmem
      exact Or.inr (hs.alive r hr)
  cases c with
  | kmalloc size file line => trivial
  | kzalloc size file line => trivial
  | krealloc ptr size => exact hlive ptr hallowed
  | kfree ptr => exact hlive ptr hallowed

theorem length_gained (hp : p ≠ 0) : (gained live p size).length = live.length + 1 := by
  unfold gained
  rw [if_neg hp, List.length_cons]

/-- A new allocation. -/
theorem LeakSys.Tracked.gain (hs : s.Tracked) (hok : HeapOk (· ≤ ·) g)
    (hkeep : ∀ r ∈ s.live, g.Live r.1) (hfresh : p = 0 ∨ g.Live p ∧ ¬ s.heap.Live p)
    (hlength : t.records.length = leakTableSize) :
    LeakSys.Tracked ⟨g, t, gained s.live p size⟩ := by
  unfold gained
  split_ifs with hp
  · exact ⟨hok, hkeep, hs.nodup, hlength⟩
  obtain ⟨hlive, hnew⟩ := hfresh.resolve_left hp
  refine ⟨hok, ?_, ?_, hlength⟩
  · intro r hr
    rcases List.mem_cons.mp hr with rfl | hr
    · exact hlive
    · exact hkeep r hr
  · refine List.nodup_cons.mpr ⟨?_, hs.nodup⟩
    intro hmem
    obtain ⟨r, hr, heq⟩ := List.mem_map.mp hmem
    have hsame : r.1 = p := heq
    exact hnew (hsame ▸ hs.alive r hr)

/-- The allocations but one, and perhaps one more. -/
theorem LeakSys.Tracked.drop (hs : s.Tracked) (hok : HeapOk (· ≤ ·) g)
    (hkeep : ∀ r ∈ s.live, r.1 ≠ ptr → g.Live r.1)
    (hlength : t.records.length = leakTableSize) :
    LeakSys.Tracked ⟨g, t, dropped s.live ptr⟩ := by
  refine ⟨hok, ?_, nodup_dropped hs.nodup, hlength⟩
  intro r hr
  obtain ⟨hr, hne⟩ := mem_dropped.mp hr
  exact hkeep r hr hne

/-- What the wrappers do. -/
theorem LeakSys.exec_kmalloc (hres : s.exec (.kmalloc size file line) = some s') :
    ∃ p g, kmalloc s.heap size = some (p, g) ∧ s' =
      ⟨g, if p ≠ 0 then leakRecord s.leaks p size file line else s.leaks,
        gained s.live p size⟩ := by
  obtain ⟨⟨p, g, t⟩, htracked, hend⟩ := Option.bind_eq_some_iff.mp hres
  obtain ⟨⟨q, g'⟩, halloc, hrest⟩ := Option.bind_eq_some_iff.mp htracked
  cases hrest
  cases hend
  exact ⟨p, g, halloc, rfl⟩

theorem LeakSys.exec_kzalloc (hres : s.exec (.kzalloc size file line) = some s') :
    ∃ p g, kzalloc s.heap size = some (p, g) ∧ s' =
      ⟨g, if p ≠ 0 then leakRecord s.leaks p size file line else s.leaks,
        gained s.live p size⟩ := by
  obtain ⟨⟨p, g, t⟩, htracked, hend⟩ := Option.bind_eq_some_iff.mp hres
  obtain ⟨⟨q, g'⟩, halloc, hrest⟩ := Option.bind_eq_some_iff.mp htracked
  cases hrest
  cases hend
  exact ⟨p, g, halloc, rfl⟩

theorem LeakSys.exec_kfree (hres : s.exec (.kfree ptr) = some s') :
    ptr = 0 ∧ s' = ⟨s.heap, s.leaks, dropped s.live 0⟩ ∨
      ptr ≠ 0 ∧ ∃ g, kfree s.heap ptr = some g ∧
        s' = ⟨g, leakUnrecord s.leaks ptr, dropped s.live ptr⟩ := by
  obtain ⟨⟨g, t⟩, htracked, hend⟩ := Option.bind_eq_some_iff.mp hres
  cases hend
  unfold kfreeTracked at htracked
  split_ifs at htracked with hptr
  · cases htracked
    subst hptr
    exact Or.inl ⟨rfl, rfl⟩
  · obtain ⟨g', hfree, hrest⟩ := Option.bind_eq_some_iff.mp htracked
    cases hrest
    exact Or.inr ⟨hptr, g, hfree, rfl⟩

/-- What the calls do to the heap alone. -/
theorem LeakSys.exec_heap (hres : s.exec c = some s') :
    ∃ p, s.heap.exec c.call = some (p, s'.heap) := by
  cases c with
  | kmalloc size file line =>
    obtain ⟨p, g, halloc, rfl⟩ := LeakSys.exec_kmalloc hres
    exact ⟨p, halloc⟩
  | kzalloc size file line =>
    obtain ⟨p, g, halloc, rfl⟩ := LeakSys.exec_kzalloc hres
    exact ⟨p, halloc⟩
  | krealloc ptr size =>
    obtain ⟨⟨p, g⟩, hrealloc, hend⟩ := Option.bind_eq_some_iff.mp hres
    cases hend
    exact ⟨p, hrealloc⟩
  | kfree ptr =>
    rcases LeakSys.exec_kfree hres with ⟨rfl, rfl⟩ | ⟨-, g, hfree, rfl⟩
    · exact ⟨0, rfl⟩
    · exact ⟨0, Option.map_eq_some_iff.mpr ⟨g, hfree, rfl⟩⟩

/-- The heap after a call, and the allocations that the call does not pass. -/
theorem LeakSys.Tracked.heap (hs : s.Tracked) (hlt : c.call.size ≤ maxRequest)
    (hallowed : s.Allowed c) (hres : s.exec c = some s') :
    HeapOk (· ≤ ·) s'.heap ∧ ∀ r ∈ s.live, r.1 ≠ c.call.pointer → s'.heap.Live r.1 := by
  obtain ⟨p, hheap⟩ := LeakSys.exec_heap hres
  refine ⟨hs.shape.exec hlt (Or.inl fun _ _ hle => hle) hheap, ?_⟩
  intro r hr hne
  exact (hs.alive r hr).exec hs.shape hlt (hs.allowed hallowed) hne.symm hheap

theorem dropped_zero (hs : s.Tracked) : dropped s.live 0 = s.live := by
  refine List.filter_eq_self.mpr ?_
  intro r hr
  exact decide_eq_true (hs.alive r hr).ne_zero

/-- The two allocating wrappers. -/
theorem LeakSys.Tracked.record (hs : s.Tracked) (hexact : s.Exact) (hok : HeapOk (· ≤ ·) g)
    (hkeep : ∀ r ∈ s.live, g.Live r.1) (hfresh : p = 0 ∨ g.Live p ∧ ¬ s.heap.Live p)
    (hroom : (gained s.live p size).length ≤ leakTableSize) :
    LeakSys.Tracked ⟨g, if p ≠ 0 then leakRecord s.leaks p size file line else s.leaks,
        gained s.live p size⟩ ∧
      LeakSys.Exact ⟨g, if p ≠ 0 then leakRecord s.leaks p size file line else s.leaks,
        gained s.live p size⟩ := by
  by_cases hp : p = 0
  · subst hp
    rw [if_neg (not_not.mpr rfl)]
    exact ⟨hs.gain hok hkeep hfresh hs.length, hexact⟩
  rw [if_pos hp]
  have htracked : LeakSys.Tracked
      ⟨g, leakRecord s.leaks p size file line, gained s.live p size⟩ :=
    hs.gain hok hkeep hfresh (length_leakRecord.trans hs.length)
  refine ⟨htracked, ?_, htracked.nodup⟩
  rw [length_gained hp, ← hexact.1.length_eq, ← hs.length] at hroom
  refine (leakRecord_entries hp (Nat.lt_of_succ_le hroom)).1.trans ?_
  unfold gained
  rw [if_neg hp]
  exact hexact.1.cons _

theorem LeakSys.Tracked.kfree (hs : s.Tracked) (hexact : s.Exact)
    (hallowed : s.Allowed (.kfree ptr)) (hres : s.exec (.kfree ptr) = some s') :
    s'.Tracked ∧ s'.Exact := by
  obtain ⟨hok, hkeep⟩ := hs.heap (Nat.zero_le _) hallowed hres
  rcases LeakSys.exec_kfree hres with ⟨rfl, rfl⟩ | ⟨hptr, g, -, rfl⟩
  · have hdrop := hs.drop hok hkeep hs.length
    refine ⟨hdrop, ?_, hdrop.nodup⟩
    dsimp only
    rw [dropped_zero hs]
    exact hexact.1
  · have hdrop : LeakSys.Tracked ⟨g, leakUnrecord s.leaks ptr, dropped s.live ptr⟩ :=
      hs.drop hok hkeep (length_unrecordIn.trans hs.length)
    refine ⟨hdrop, ?_, hdrop.nodup⟩
    have hentries : entries (leakUnrecord s.leaks ptr).records =
        dropped (entries s.leaks.records) ptr :=
      entries_unrecordIn hptr ((hexact.1.map Prod.fst).nodup_iff.mpr hexact.2)
    dsimp only
    rw [hentries]
    exact hexact.1.filter _

/-- One allocation in the place of another. -/
theorem LeakSys.Tracked.replace (hs : s.Tracked) (hok : HeapOk (· ≤ ·) g)
    (hkeep : ∀ r ∈ s.live, r.1 ≠ ptr → g.Live r.1) (hlive : g.Live p)
    (hfresh : p ≠ ptr → ¬ s.heap.Live p) (hlength : t.records.length = leakTableSize) :
    LeakSys.Tracked ⟨g, t, (p, size) :: dropped s.live ptr⟩ := by
  have hdrop := hs.drop (t := t) hok hkeep hlength
  refine ⟨hok, ?_, ?_, hlength⟩
  · intro r hr
    rcases List.mem_cons.mp hr with rfl | hr
    · exact hlive
    · exact hdrop.alive r hr
  · refine List.nodup_cons.mpr ⟨?_, hdrop.nodup⟩
    intro hmem
    obtain ⟨r, hr, heq⟩ := List.mem_map.mp hmem
    have hsame : r.1 = p := heq
    obtain ⟨hold, hne⟩ := mem_dropped.mp hr
    exact hfresh (hsame ▸ hne) (hsame ▸ hs.alive r hold)

/-! `krealloc`. -/

/-- More or fewer allocations than entries in use. -/
theorem LeakSys.Exact.length_ne (hexact : s.Exact) (hne : live.length ≠ s.live.length) :
    ¬ (entries s.leaks.records).Perm live := by
  intro hperm
  exact hne (hperm.length_eq.symm.trans hexact.1.length_eq)

theorem length_dropped (h : (live.map Prod.fst).Nodup) (hmem : (ptr, size) ∈ live) :
    (dropped live ptr).length + 1 = live.length := (perm_dropped h hmem).length_eq

/-- For a NULL pointer. -/
theorem quiet_null : s.Quiet (.krealloc 0 size) ↔ Refused s.heap size := by
  constructor
  · intro hquiet
    exact hquiet.1 rfl
  · intro hrefused
    refine ⟨fun _ => hrefused, ?_⟩
    intro b _ hptr
    unfold headerSize at hptr
    omega

/-- For the pointer of a block. -/
theorem LeakSys.Tracked.quiet_block {b : Block} (hs : s.Tracked) (hb : b ∈ s.heap.blocks) :
    s.Quiet (.krealloc (b.addr + headerSize) size) ↔ size ≠ 0 ∧
      if size ≤ b.size then (b.addr + headerSize, size) ∈ s.live else Refused s.heap size := by
  constructor
  · intro hquiet
    exact hquiet.2 b hb rfl
  · intro hsize
    refine ⟨?_, ?_⟩
    · intro hptr
      unfold headerSize at hptr
      omega
    · intro d hd heq
      have hsame : d = b := hs.shape.eq_of_addr hd hb (Nat.add_right_cancel heq).symm
      rw [hsame]
      exact hsize

/-- `krealloc` of a live block. -/
theorem LeakSys.Tracked.krealloc_block {b : Block} (hs : s.Tracked) (hexact : s.Exact)
    (hb : b ∈ s.heap.blocks) (hused : b.free = false) (hsize : size ≠ 0)
    (hlt : size ≤ maxRequest)
    (hres : krealloc s.heap (b.addr + headerSize) size = some (p, g)) :
    (if size ≤ b.size then (b.addr + headerSize, size) ∈ s.live else Refused s.heap size) ↔
      (entries s.leaks.records).Perm (moved s.live (b.addr + headerSize) size p) := by
  have hptr : b.addr + headerSize ≠ 0 := by
    unfold headerSize
    omega
  unfold moved
  rw [if_neg hptr, if_neg hsize]
  rcases krealloc_cases hs.shape hb hused hsize hlt hres with ⟨rfl, -, hlarge⟩ | ⟨rfl, halloc⟩ |
    ⟨g', vm, d, halloc, hd, hdused, rfl, hsmall, -, hother, -⟩
  · rw [if_pos hlarge, if_neg hptr]
    constructor
    · intro hsame
      exact hexact.1.trans (perm_dropped hs.nodup hsame).symm
    · intro hperm
      exact (hexact.1.symm.trans hperm).mem_iff.mpr List.mem_cons_self
  · rw [if_pos rfl]
    have hsmall : ¬ size ≤ b.size := by
      intro hlarge
      rw [krealloc_inPlace hs.shape hb hsize hlarge] at hres
      exact hptr (Prod.mk.inj (Option.some.inj hres)).1
    rw [if_neg hsmall]
    exact iff_of_true ⟨g, halloc⟩ hexact.1
  · have hnew : d.addr + headerSize ≠ 0 := by
      unfold headerSize
      omega
    rw [if_neg (Nat.not_le.mpr hsmall), if_neg hnew]
    refine iff_of_false ?_ ?_
    · rintro ⟨g'', hrefused⟩
      rw [halloc] at hrefused
      exact hnew (Prod.mk.inj (Option.some.inj hrefused)).1
    · intro hperm
      -- the new pointer has no entry
      have hold := (hexact.1.symm.trans hperm).mem_iff.mpr List.mem_cons_self
      obtain ⟨c, hc, hcused, heq⟩ := hs.alive _ hold
      exact hother c hc hcused (Nat.add_right_cancel heq).symm

theorem LeakSys.Tracked.krealloc_tracked {b : Block} (hs : s.Tracked) (hb : b ∈ s.heap.blocks)
    (hused : b.free = false) (hsize : size ≠ 0) (hlt : size ≤ maxRequest) (hok : HeapOk (· ≤ ·) g)
    (hkeep : ∀ r ∈ s.live, r.1 ≠ b.addr + headerSize → g.Live r.1)
    (hres : krealloc s.heap (b.addr + headerSize) size = some (p, g)) :
    LeakSys.Tracked ⟨g, s.leaks, moved s.live (b.addr + headerSize) size p⟩ := by
  have hptr : b.addr + headerSize ≠ 0 := by
    unfold headerSize
    omega
  unfold moved
  rw [if_neg hptr, if_neg hsize]
  obtain ⟨-, hkept⟩ := krealloc_keeps hs.shape hb hused hsize hlt hres
  split_ifs with hp
  · refine ⟨hok, ?_, hs.nodup, hs.length⟩
    intro r hr
    by_cases hsame : r.1 = b.addr + headerSize
    · rcases hkept with ⟨-, hb', -⟩ | ⟨c, -, -, rfl, -⟩
      · exact ⟨b, hb', hused, hsame⟩
      · unfold headerSize at hp
        omega
    · exact hkeep r hr hsame
  · rcases hkept with ⟨hnull, -⟩ | ⟨c, hc, hcused, hpc, -⟩
    · exact absurd hnull hp
    refine hs.replace hok hkeep ⟨c, hc, hcused, hpc⟩ ?_ hs.length
    intro hne
    rcases krealloc_cases hs.shape hb hused hsize hlt hres with ⟨heq, -⟩ | ⟨hnull, -⟩ |
      ⟨-, -, d, -, -, -, hpd, -, -, hother, -⟩
    · exact absurd heq hne
    · exact absurd hnull hp
    · rintro ⟨e, he, heused, hpe⟩
      exact hother e he heused (Nat.add_right_cancel (hpe.symm.trans hpd))

theorem LeakSys.Tracked.krealloc (hs : s.Tracked) (hexact : s.Exact)
    (hallowed : s.Allowed (.krealloc ptr size)) (hlt : size ≤ maxRequest)
    (hres : s.exec (.krealloc ptr size) = some s') :
    s'.Tracked ∧ (s.Quiet (.krealloc ptr size) ↔ s'.Exact) := by
  obtain ⟨hok, hkeep⟩ := hs.heap (c := .krealloc ptr size) hlt hallowed hres
  obtain ⟨⟨p, g⟩, hrealloc, hend⟩ := Option.bind_eq_some_iff.mp hres
  cases hend
  dsimp only at hok hkeep
  by_cases hptr : ptr = 0
  · subst hptr
    have halloc : kmalloc s.heap size = some (p, g) := hrealloc
    have hmoved : moved s.live 0 size p = gained s.live p size := if_pos rfl
    rw [hmoved, quiet_null]
    have htracked : LeakSys.Tracked ⟨g, s.leaks, gained s.live p size⟩ :=
      hs.gain hok (fun r hr => hkeep r hr (hs.alive r hr).ne_zero)
        (kmalloc_fresh hs.shape hlt halloc) hs.length
    refine ⟨htracked, ?_⟩
    by_cases hp : p = 0
    · subst hp
      exact iff_of_true ⟨g, halloc⟩ hexact
    · refine iff_of_false ?_ ?_
      · rintro ⟨g', hrefused⟩
        rw [halloc] at hrefused
        exact hp (Prod.mk.inj (Option.some.inj hrefused)).1
      · intro hafter
        refine hexact.length_ne ?_ hafter.1
        rw [length_gained hp]
        omega
  obtain ⟨⟨ptr, old⟩, hmem, rfl⟩ := List.mem_map.mp (hallowed.resolve_left hptr)
  dsimp only at hkeep hrealloc hptr ⊢
  obtain ⟨b, hb, hused, heq⟩ := hs.alive _ hmem
  have heq : ptr = b.addr + headerSize := heq
  subst heq
  rw [hs.quiet_block hb]
  by_cases hsize : size = 0
  · subst hsize
    have hmoved : moved s.live (b.addr + headerSize) 0 p = dropped s.live (b.addr + headerSize) :=
      (if_neg hptr).trans (if_pos rfl)
    rw [hmoved]
    refine ⟨hs.drop hok hkeep hs.length, iff_of_false (fun hquiet => hquiet.1 rfl) ?_⟩
    intro hafter
    refine hexact.length_ne ?_ hafter.1
    have hlength := length_dropped hs.nodup hmem
    dsimp only
    omega
  have hiff := hs.krealloc_block hexact hb hused hsize hlt hrealloc
  have htracked := hs.krealloc_tracked hb hused hsize hlt hok hkeep hrealloc
  refine ⟨htracked, ?_⟩
  rw [hiff]
  constructor
  · rintro ⟨-, hperm⟩
    exact ⟨hperm, htracked.nodup⟩
  · rintro ⟨hperm, -⟩
    exact ⟨hsize, hperm⟩

/-! Runs. -/

theorem LeakSys.Tracked.step (hlt : c.call.size ≤ maxRequest) (hs : s.Tracked)
    (hexact : s.Exact) (hstep : s.step c = some s') :
    s'.Tracked ∧ (s.Quiet c ↔ s'.Exact) := by
  unfold LeakSys.step at hstep
  split_ifs at hstep with hallowed
  obtain ⟨hres, hroom⟩ := Option.filter_eq_some_iff.mp hstep
  have hroom := of_decide_eq_true hroom
  obtain ⟨hok, hkeep⟩ := hs.heap hlt hallowed hres
  cases c with
  | kmalloc size file line =>
    obtain ⟨p, g, halloc, rfl⟩ := LeakSys.exec_kmalloc hres
    obtain ⟨hafter, hexact'⟩ := hs.record hexact hok
      (fun r hr => hkeep r hr (hs.alive r hr).ne_zero) (kmalloc_fresh hs.shape hlt halloc) hroom
    exact ⟨hafter, iff_of_true trivial hexact'⟩
  | kzalloc size file line =>
    obtain ⟨p, g, halloc, rfl⟩ := LeakSys.exec_kzalloc hres
    obtain ⟨hafter, hexact'⟩ := hs.record hexact hok
      (fun r hr => hkeep r hr (hs.alive r hr).ne_zero)
      (kzalloc_fresh_or_null hs.shape hlt halloc) hroom
    exact ⟨hafter, iff_of_true trivial hexact'⟩
  | krealloc ptr size => exact hs.krealloc hexact hallowed hlt hres
  | kfree ptr =>
    obtain ⟨hafter, hexact'⟩ := hs.kfree hexact hallowed hres
    exact ⟨hafter, iff_of_true trivial hexact'⟩

theorem entries_replicate (n : Nat) : entries (List.replicate n .clear) = [] := by
  induction n with
  | zero => rfl
  | succ n ih => exact entries_clear.trans ih

theorem leakSys_init {v : Vm} (hinit : heapInit v = some h) :
    (LeakSys.init h).Tracked ∧ (LeakSys.init h).Exact := by
  refine ⟨⟨shape_heapInit hinit, ?_, List.nodup_nil, List.length_replicate⟩, ?_, List.nodup_nil⟩
  · intro r hr
    cases hr
  · unfold LeakSys.init
    dsimp only
    rw [entries_replicate]

/-- A run from the start keeps the table exact exactly if every `krealloc` fails or leaves
pointer and size as they are. -/
theorem exact_iff_quiet {v : Vm} {calls : List LeakCall} (hinit : heapInit v = some h)
    (hsizes : ∀ c ∈ calls, c.call.size ≤ maxRequest) :
    Run.EveryState LeakSys.step LeakSys.Exact (LeakSys.init h) calls ↔
      Run.EveryStep LeakSys.step (fun s c _ => s.Quiet c) (LeakSys.init h) calls := by
  obtain ⟨htracked, hexact⟩ := leakSys_init hinit
  refine Run.everyState_iff (A := fun c => c.call.size ≤ maxRequest) (I := LeakSys.Tracked)
    hsizes ?_ htracked hexact
  intro s c t hlt hs hexact hstep
  exact hs.step hlt hexact hstep

/-- An allocation and its release. -/
theorem exact_iff_quiet_smallVm : ∃ h, heapInit (smallVm fun _ => false) = some h ∧
    (Run.EveryState LeakSys.step LeakSys.Exact (LeakSys.init h)
        [.kmalloc 0x100 "kernel.c" 1, .kfree 0xD0000010] ↔
      Run.EveryStep LeakSys.step (fun s c _ => s.Quiet c) (LeakSys.init h)
        [.kmalloc 0x100 "kernel.c" 1, .kfree 0xD0000010]) := by
  obtain ⟨h, hinit⟩ := Option.isSome_iff_exists.mp smallVm_init
  refine ⟨h, hinit, exact_iff_quiet hinit ?_⟩
  intro c hc
  rcases List.mem_cons.mp hc with rfl | hc
  · decide
  · rw [List.mem_singleton.mp hc]
    decide

/-- The block has moved, and its entry has stayed. -/
theorem smallVm_krealloc : ((heapInit (smallVm fun _ => false)).bind fun h =>
    (Run.run LeakSys.step (LeakSys.init h)
      [.kmalloc 0x100 "kernel.c" 1, .krealloc 0xD0000010 0x200]).map fun s =>
        (entries s.leaks.records, s.live)) =
      some ([(0xD0000010, 0x100)], [(0xD0000120, 0x200)]) := by
  rw [smallVm_eq]
  decide +kernel

theorem not_exact_smallVm :
    ¬ ∀ (mbi : MultibootInfo) (kernStart kernEnd : Nat) (mem : Mem) (starved : Nat → Bool)
      (h : Heap) (calls : List LeakCall),
      heapInit (bootVm mbi kernStart kernEnd mem starved) = some h →
        (∀ c ∈ calls, c.call.size ≤ maxRequest) →
          Run.EveryState LeakSys.step LeakSys.Exact (LeakSys.init h) calls := by
  intro hall
  obtain ⟨h, hinit, hrun⟩ := Option.bind_eq_some_iff.mp smallVm_krealloc
  obtain ⟨s, hlast, heq⟩ := Option.map_eq_some_iff.mp hrun
  obtain ⟨hentries, hlive⟩ := Prod.mk.inj heq
  have hsmall : ∀ c ∈ [LeakCall.kmalloc 0x100 "kernel.c" 1, .krealloc 0xD0000010 0x200],
      c.call.size ≤ maxRequest := by
    intro c hc
    rcases List.mem_cons.mp hc with rfl | hc
    · decide
    · rw [List.mem_singleton.mp hc]
      decide
  have hexact := (hall _ _ _ _ _ h _ hinit hsmall).last hlast
  have hperm := hexact.1
  rw [hentries, hlive, List.singleton_perm_singleton] at hperm
  cases hperm

end PinguinOS.Mm
