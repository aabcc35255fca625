import PinguinOS.Fs.Pe

/-! What the copies of `pe_load` put into the image. -/
namespace PinguinOS.Fs

open Mm (u32 sub32 Heap kzalloc kfree)

/-- The header is there, with the value expected. -/
def PeFile.Accepts (f : PeFile) (hdr : PeHeader) : Prop :=
  u32 (hdr.off + hdr.len) ≤ f.size ∧ hdr.field = hdr.magic

/-- Section `i` passes the check against the image. -/
def PeFile.Passes (f : PeFile) (i : Nat) : Prop := (f.peSection i).overflows f.sizeOfImage = false

/-- What is copied for section `i`: where to, where from, and how many bytes. -/
def PeFile.sectionCopy (f : PeFile) (i : Nat) : Nat × Nat × Nat :=
  ((f.peSection i).vaddr, (f.peSection i).foff, (f.peSection i).copyLen f.size)

/-- What the loader copies into the image. -/
def PeFile.copies (f : PeFile) : List (Nat × Nat × Nat) :=
  (0, 0, f.hdrSize) :: (List.range f.numberOfSections).map f.sectionCopy

/-- The byte that the copies put at an offset of the image; a later one covers an earlier one. -/
def PeFile.contents (f : PeFile) (o : Nat) : Option (BitVec 8) :=
  f.copies.foldl (fun b c =>
    if sub32 o c.1 < c.2.2 then some (f.at32 (c.2.1 + sub32 o c.1)) else b) none

/-- The memory with the image at `base`. -/
def PeFile.placed (f : PeFile) (base : Nat) (bytes : Buffer) : Buffer := fun a =>
  (f.contents (sub32 a base)).getD (bytes a)

variable {f : PeFile} {s : PeRun} {h : Heap} {img : PeLoadedImage} {fuel : Nat} {bytes : Buffer}
  {base n i a d off len dst src : Nat}
  {fields : List (Nat × Nat)} {cs : List (Nat × Nat × Nat)} {hdrs : List PeHeader}

theorem u32_u32 : u32 (u32 n) = u32 n := Mm.u32_of_lt Mm.u32_lt

theorem word_lt : f.word off < 2 ^ 32 := word32_lt

theorem forall_lt_succ_zero {P : Nat → Prop} : (∀ j < n + 1, P j) ↔ P 0 ∧ ∀ j < n, P (j + 1) := by
  constructor
  · intro hall
    exact ⟨hall 0 (Nat.succ_pos n), fun j hj => hall (j + 1) (Nat.succ_lt_succ hj)⟩
  · rintro ⟨hzero, hsucc⟩ j hj
    cases j with
    | zero => exact hzero
    | succ j => exact hsucc j (Nat.lt_of_succ_lt_succ hj)

@[simp] theorem PeRun.read_image : (s.read fields).image = s.image := by
  unfold PeRun.read
  rfl

@[simp] theorem PeRun.copy_image : (s.copy f dst src len).image = s.image := by
  unfold PeRun.copy
  rfl

@[simp] theorem PeRun.read_heap : (s.read fields).heap = s.heap := by
  unfold PeRun.read
  rfl

@[simp] theorem PeRun.copy_heap : (s.copy f dst src len).heap =
    { s.heap with bytes := f.copyTo s.heap.bytes dst src len } := by
  unfold PeRun.copy
  rfl

/-- The checks read only, and go through when all headers are accepted. -/
theorem checkHeaders_kept : (peCheckHeaders f.size hdrs s).1.heap = s.heap ∧
    (peCheckHeaders f.size hdrs s).1.image = s.image ∧
    (peCheckHeaders f.size hdrs s).1.writes = s.writes ∧
    ((peCheckHeaders f.size hdrs s).2 = none ↔ ∀ hdr ∈ hdrs, f.Accepts hdr) := by
  induction hdrs generalizing s with
  | nil => simp [peCheckHeaders]
  | cons hdr rest ih =>
    unfold peCheckHeaders
    rw [List.forall_mem_cons]
    dsimp only
    split
    case isTrue hsmall =>
      have hno : ¬ f.Accepts hdr := fun hacc => Nat.not_lt.mpr hacc.1 hsmall
      simp [hno]
    case isFalse hlarge =>
      split
      case isTrue hother =>
        have hno : ¬ f.Accepts hdr := fun hacc => hother hacc.2
        simp [hno, PeRun.read]
      case isFalse hsame =>
        have hyes : f.Accepts hdr := ⟨Nat.le_of_not_lt hlarge, not_not.mp hsame⟩
        obtain ⟨hheap, himage, hwrites, hnone⟩ :=
          @ih ((s.read [(hdr.off, hdr.width)]).read hdr.fields)
        exact ⟨hheap, himage, hwrites, hnone.trans (by simp [hyes])⟩

/-- The bytes after copies to the image. -/
def PeFile.copyAll (f : PeFile) (base : Nat) (bytes : Buffer) (cs : List (Nat × Nat × Nat)) :
    Buffer :=
  cs.foldl (fun m c => f.copyTo m (base + c.1) c.2.1 c.2.2) bytes

/-- The same, byte by byte. -/
def PeFile.covered (f : PeFile) (o : Nat) (b : Option (BitVec 8)) (cs : List (Nat × Nat × Nat)) :
    Option (BitVec 8) :=
  cs.foldl (fun b c => if sub32 o c.1 < c.2.2 then some (f.at32 (c.2.1 + sub32 o c.1)) else b) b

theorem sub32_add (hbase : base < 2 ^ 32) (hd : d < 2 ^ 32) :
    sub32 a (u32 (base + d)) = sub32 (sub32 a base) d := by
  unfold sub32 u32
  omega

theorem copyAll_eq (hbase : base < 2 ^ 32) (hcs : ∀ c ∈ cs, c.1 < 2 ^ 32)
    {b : Nat → Option (BitVec 8)} :
    f.copyAll base (fun a => (b (sub32 a base)).getD (bytes a)) cs = fun a =>
      (f.covered (sub32 a base) (b (sub32 a base)) cs).getD (bytes a) := by
  induction cs generalizing b with
  | nil => rfl
  | cons c cs ih =>
    obtain ⟨hc, hcs⟩ := List.forall_mem_cons.mp hcs
    unfold PeFile.copyAll PeFile.covered
    rw [List.foldl_cons]
    have hone : f.copyTo (fun a => (b (sub32 a base)).getD (bytes a)) (base + c.1) c.2.1 c.2.2 =
        fun a => ((fun o => if sub32 o c.1 < c.2.2 then some (f.at32 (c.2.1 + sub32 o c.1))
          else b o) (sub32 a base)).getD (bytes a) := by
      funext a
      unfold PeFile.copyTo
      dsimp only
      rw [sub32_add hbase hc]
      split_ifs
      · rfl
      · rfl
    rw [hone]
    exact @ih hcs fun o =>
      if sub32 o c.1 < c.2.2 then some (f.at32 (c.2.1 + sub32 o c.1)) else b o

theorem copies_lt : ∀ c ∈ f.copies, c.1 < 2 ^ 32 := by
  unfold PeFile.copies
  intro c hc
  rcases List.mem_cons.mp hc with rfl | hc
  · exact Nat.two_pow_pos 32
  · obtain ⟨i, -, rfl⟩ := List.mem_map.mp hc
    exact word_lt

theorem copyAll_copies (hbase : base < 2 ^ 32) : f.copyAll base bytes f.copies = f.placed base bytes :=
  @copyAll_eq f bytes base f.copies hbase copies_lt fun _ => none

/-- The loop over the sections changes bytes only: it makes the copies of those that pass. -/
theorem loadSections_heap (hall : ∀ j < n, f.Passes (i + j)) :
    (peLoadSections f base n i s).2.heap = { s.heap with
      bytes := f.copyAll base s.heap.bytes ((List.range' i n).map f.sectionCopy) } := by
  induction n generalizing i s with
  | zero => rfl
  | succ n ih =>
    obtain ⟨hpass, hrest⟩ := forall_lt_succ_zero.mp hall
    have hpass : (f.peSection i).overflows f.sizeOfImage = false := hpass
    unfold peLoadSections
    dsimp only
    rw [if_neg (Bool.eq_false_iff.mp hpass), ih fun j hj => by
      rw [Nat.add_assoc, Nat.add_comm 1]
      exact hrest j hj]
    rw [List.range'_succ, List.map_cons, PeRun.read_heap, PeRun.copy_heap, PeRun.read_heap]
    unfold PeFile.copyAll
    rw [List.foldl_cons]
    unfold PeFile.sectionCopy
    rfl

/-- The loop over the sections goes through when all of them pass. -/
theorem loadSections_all :
    (peLoadSections f base n i s).1 = true ↔ ∀ j < n, f.Passes (i + j) := by
  induction n generalizing i s with
  | zero => simp [peLoadSections]
  | succ n ih =>
    rw [forall_lt_succ_zero]
    unfold peLoadSections
    dsimp only
    cases hpass : (f.peSection i).overflows f.sizeOfImage with
    | true =>
      have hno : ¬ f.Passes i := fun hyes => Bool.noConfusion (hpass.symm.trans hyes)
      rw [if_pos rfl]
      simp [hno]
    | false =>
      have hyes : f.Passes i := hpass
      rw [if_neg Bool.false_ne_true, ih, and_iff_right (show f.Passes (i + 0) from hyes)]
      simp only [Nat.add_assoc, Nat.add_comm 1]

/-- The loop keeps the blocks of the heap. -/
theorem loadSections_kept : (peLoadSections f base n i s).2.heap.blocks = s.heap.blocks ∧
    (peLoadSections f base n i s).2.image = s.image := by
  induction n generalizing i s with
  | zero => exact ⟨rfl, rfl⟩
  | succ n ih =>
    unfold peLoadSections
    dsimp only
    split
    case isTrue hover => exact ⟨by rw [PeRun.read_heap], PeRun.read_image⟩
    case isFalse hover =>
      obtain ⟨hblocks, himage⟩ := @ih (((s.read [(f.sectionOff i, 24)]).copy f
        (base + (f.peSection i).vaddr) (f.peSection i).foff
        ((f.peSection i).copyLen f.size)).read [(f.sectionOff i + 36, 4)]) (i + 1)
      rw [hblocks, himage]
      simp

/-- The run after the headers have been copied to a fresh image. -/
def PeFile.headersCopied (f : PeFile) (s : PeRun) (base : Nat) (h : Heap) : PeRun :=
  ((({ s with heap := h, image := some (base, f.sizeOfImage) } : PeRun).read
    [(f.optOff + 60, 4)]).copy f base 0 f.hdrSize).read [(f.coffOff + 16, 2)]

theorem headersCopied_image : (f.headersCopied s base h).image = some (base, f.sizeOfImage) := by
  unfold PeFile.headersCopied
  rw [PeRun.read_image, PeRun.copy_image, PeRun.read_image]

theorem headersCopied_heap : (f.headersCopied s base h).heap =
    { h with bytes := f.copyTo h.bytes base 0 f.hdrSize } := by
  unfold PeFile.headersCopied
  rw [PeRun.read_heap, PeRun.copy_heap, PeRun.read_heap]

/-- The header fields that are read before the allocation. -/
def PeFile.fieldsBefore (f : PeFile) : List (Nat × Nat) :=
  [(f.optOff + 28, 4), (f.optOff + 56, 4), (f.optOff + 16, 4), (f.coffOff + 2, 2)]

/-- The outcome when the image has been loaded. -/
def PeFile.loaded (f : PeFile) (img : PeLoadedImage) (base : Nat) (s : PeRun) : PeOutcome where
  code := 0
  img := some
    { img with
      base := base
      imageSize := f.sizeOfImage
      entryPoint := u32 (base + f.addressOfEntryPoint)
      numSections := f.numberOfSections
      subsystem := f.subsystem
      loaded := true }
  run := s.read [(f.optOff + 68, 2)]

/-- The sections of a fresh image. -/
def PeFile.sectionsLoaded (f : PeFile) (s : PeRun) (base : Nat) (h : Heap) : Bool × PeRun :=
  peLoadSections f base f.numberOfSections 0 (f.headersCopied (s.read f.fieldsBefore) base h)

theorem peLoadImage_none (hnone : kzalloc s.heap f.sizeOfImage = none) :
    peLoadImage fuel f img s = none := by
  unfold peLoadImage
  dsimp only [Option.bind_eq_bind]
  rw [PeRun.read_heap, hnone]
  rfl

theorem peLoadImage_null (hnull : kzalloc s.heap f.sizeOfImage = some (0, h)) :
    peLoadImage fuel f img s =
      some ⟨peErrAlloc, img, { s.read f.fieldsBefore with heap := h }⟩ := by
  unfold peLoadImage
  dsimp only [Option.bind_eq_bind]
  rw [PeRun.read_heap, hnull]
  rfl

theorem peLoadImage_some (halloc : kzalloc s.heap f.sizeOfImage = some (base, h))
    (hbase : base ≠ 0) : peLoadImage fuel f img s =
      if (f.sectionsLoaded s base h).1 then
        (peRelocate fuel f base (f.sectionsLoaded s base h).2).map (f.loaded img base)
      else (kfree (f.sectionsLoaded s base h).2.heap base).map fun heap =>
        ⟨peErrSection, img, { (f.sectionsLoaded s base h).2 with heap := heap }⟩ := by
  unfold peLoadImage
  dsimp only [Option.bind_eq_bind]
  rw [PeRun.read_heap, halloc]
  refine (if_neg hbase).trans ?_
  have hsections : peLoadSections f base f.numberOfSections 0
      (f.headersCopied (s.read f.fieldsBefore) base h) = f.sectionsLoaded s base h := rfl
  unfold PeFile.headersCopied PeFile.fieldsBefore at hsections
  dsimp only [Option.bind_eq_bind]
  rw [hsections]
  cases (f.sectionsLoaded s base h).1 with
  | true =>
    rw [if_pos rfl]
    cases peRelocate fuel f base (f.sectionsLoaded s base h).2 with
    | none => rfl
    | some t => rfl
  | false =>
    rw [if_neg Bool.false_ne_true]
    cases kfree (f.sectionsLoaded s base h).2.heap base with
    | none => rfl
    | some t => rfl

theorem sectionsLoaded_all :
    (f.sectionsLoaded s base h).1 = true ↔ ∀ i < f.numberOfSections, f.Passes i := by
  have hloop := @loadSections_all f (f.headersCopied (s.read f.fieldsBefore) base h) base
    f.numberOfSections 0
  simp only [Nat.zero_add] at hloop
  exact hloop

/-- The heap before the relocations. -/
theorem sectionsLoaded_heap (hbase : base < 2 ^ 32)
    (hall : ∀ i < f.numberOfSections, f.Passes i) :
    (f.sectionsLoaded s base h).2.heap = { h with bytes := f.placed base h.bytes } := by
  have hcopies : f.copyAll base (f.copyTo h.bytes base 0 f.hdrSize)
      ((List.range' 0 f.numberOfSections).map f.sectionCopy) = f.placed base h.bytes := by
    rw [← copyAll_copies hbase, ← List.range_eq_range']
    unfold PeFile.copyAll PeFile.copies
    rw [List.foldl_cons, Nat.add_zero]
  unfold PeFile.sectionsLoaded
  rw [loadSections_heap (by simpa using hall), headersCopied_heap]
  dsimp only
  rw [hcopies]

theorem sectionsLoaded_kept : (f.sectionsLoaded s base h).2.heap.blocks = h.blocks ∧
    (f.sectionsLoaded s base h).2.image = some (base, f.sizeOfImage) := by
  obtain ⟨hblocks, himage⟩ := @loadSections_kept f
    (f.headersCopied (s.read f.fieldsBefore) base h) base f.numberOfSections 0
  unfold PeFile.sectionsLoaded
  rw [hblocks, himage, headersCopied_heap, headersCopied_image]
  exact ⟨rfl, rfl⟩

/-! More fuel does not change a result. -/

variable {t : PeRun} {fuel' delta stop reloc : Nat} {r : PeOutcome}

theorem relocWalk_mono (hle : fuel ≤ fuel') (h : peRelocWalk base delta stop fuel reloc s = some t) :
    peRelocWalk base delta stop fuel' reloc s = some t := by
  induction fuel generalizing fuel' reloc s with
  | zero => cases h
  | succ fuel ih =>
    obtain ⟨more, rfl⟩ := Nat.exists_eq_add_of_le' (Nat.le_of_succ_le hle)
    cases more with
    | zero => omega
    | succ more =>
      rw [Nat.succ_add]
      unfold peRelocWalk at h ⊢
      split_ifs at h ⊢ with hend
      · exact h
      · obtain ⟨⟨size, h₁⟩, hload, hrest⟩ := Option.bind_eq_some_iff.mp h
        rw [hload]
        dsimp only [Option.bind_eq_bind, Option.bind_some] at hrest ⊢
        split_ifs at hrest ⊢ with hzero
        · exact hrest
        · obtain ⟨u, hentries, hrest⟩ := Option.bind_eq_some_iff.mp hrest
          obtain ⟨⟨size', h₃⟩, hagain, hrest⟩ := Option.bind_eq_some_iff.mp hrest
          rw [hentries]
          dsimp only [Option.bind_some]
          rw [hagain]
          exact ih (by omega) hrest

theorem relocate_mono (hle : fuel ≤ fuel') (h : peRelocate fuel f base s = some t) :
    peRelocate fuel' f base s = some t := by
  unfold peRelocate peApplyRelocations at *
  dsimp only at *
  split_ifs at h ⊢
  · exact h
  · exact relocWalk_mono hle h
  · exact h
  · exact h
  · exact h

theorem peLoad_mono {heap : Heap} {data : Option PeFile} {name : Option (List (BitVec 8))}
    {img : Option PeLoadedImage} (hle : fuel ≤ fuel')
    (h : peLoad fuel heap data name img = some r) : peLoad fuel' heap data name img = some r := by
  unfold peLoad at h ⊢
  dsimp only at h ⊢
  split at h
  case h_2 => exact h
  case h_1 f img =>
    generalize peCheckHeaders f.size f.headers ⟨heap, none, [], []⟩ = checked at h ⊢
    obtain ⟨s, err⟩ := checked
    cases err with
    | some err => exact h
    | none =>
      dsimp only at h ⊢
      cases halloc : kzalloc s.heap f.sizeOfImage with
      | none =>
        rw [peLoadImage_none halloc] at h
        cases h
      | some a =>
        obtain ⟨base, h'⟩ := a
        by_cases hbase : base = 0
        · subst hbase
          rw [peLoadImage_null halloc] at h ⊢
          exact h
        · rw [peLoadImage_some halloc hbase] at h ⊢
          split_ifs at h ⊢
          · obtain ⟨t, hreloc, rfl⟩ := Option.map_eq_some_iff.mp h
            rw [relocate_mono hle hreloc]
            rfl
          · exact h

/-- `pe_load` has one result. -/
theorem peLoad_unique {heap : Heap} {data : Option PeFile} {name : Option (List (BitVec 8))}
    {img : Option PeLoadedImage} {r' : PeOutcome} (h : peLoad fuel heap data name img = some r)
    (h' : peLoad fuel' heap data name img = some r') : r = r' := by
  have hboth := peLoad_mono (Nat.le_max_left fuel fuel') h
  rw [peLoad_mono (Nat.le_max_right fuel fuel') h'] at hboth
  exact (Option.some.inj hboth).symm

end PinguinOS.Fs
