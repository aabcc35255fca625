import PinguinOS.Fs.PeImage
import PinguinOS.Mm.HeapRelease

/-! The accesses of `pe_load`: inside the file and inside the image, or not. -/
namespace PinguinOS.Fs

open Mm (u32 sub32 Heap kzalloc kfree HeapOk)

/-- `len` bytes at an offset lie in the file. -/
def PeFile.Fits (f : PeFile) (off len : Nat) : Prop := len = 0 ∨ u32 off + len ≤ f.size

def PeFile.FieldsFit (f : PeFile) (fields : List (Nat × Nat)) : Prop :=
  ∀ x ∈ fields, f.Fits x.1 x.2

/-- `len` bytes at an address lie in the `n` bytes from `base` on. -/
def InImage (base n addr len : Nat) : Prop := len = 0 ∨ sub32 addr base + len ≤ n

/-- What has been read lies in the file, and what has been written in the image. -/
structure PeRun.Ok (f : PeFile) (s : PeRun) : Prop where
  reads : f.FieldsFit s.reads
  writes : ∀ x ∈ s.writes, ∃ base n, s.image = some (base, n) ∧ InImage base n x.1 x.2

/-- The accesses are confined, and after an error the image has been freed. -/
structure PeConfined (f : PeFile) (r : PeOutcome) : Prop where
  accesses : r.run.Ok f
  freed : r.code < 0 → ∀ base n, r.run.image = some (base, n) → ¬ r.run.heap.Live base

/-! When they are. -/

/-- Of each header whose size check is passed the field that is compared lies in the file, and of
each that is accepted the other fields too. -/
def PeFile.HeadersFit (f : PeFile) : List PeHeader → Prop
  | [] => True
  | hdr :: rest => u32 (hdr.off + hdr.len) ≤ f.size → f.Fits hdr.off hdr.width ∧
      (hdr.field = hdr.magic → f.FieldsFit hdr.fields ∧ f.HeadersFit rest)

/-- The header of section `i` lies in the file, and if the section passes the check, the bytes that
are copied lie in the file and in the image. -/
def PeFile.SectionFits (f : PeFile) (i : Nat) : Prop :=
  f.Fits (f.sectionOff i) 24 ∧ (f.Passes i →
    (let sec := f.peSection i
     let len := sec.copyLen f.size
     len = 0 ∨ sec.foff + len ≤ f.size ∧ sec.vaddr + len ≤ f.sizeOfImage) ∧
    f.Fits (f.sectionOff i + 36) 4)

/-- What the entries of a block do to the heap, with each word that is patched in the image. -/
inductive EntriesFit (base n delta reloc : Nat) : List Nat → Heap → Heap → Prop
  | nil {h : Heap} : EntriesFit base n delta reloc [] h h
  | other {i entry : Nat} {is : List Nat} {h h₁ h' : Heap}
      (hload : load16 h (reloc + 8 + 2 * i) = some (entry, h₁))
      (htype : entry >>> 12 ≠ peRelBasedHighlow)
      (hrest : EntriesFit base n delta reloc is h₁ h') :
      EntriesFit base n delta reloc (i :: is) h h'
  | highlow {i entry va : Nat} {is : List Nat} {h h₁ h₂ h₃ h' : Heap}
      (hload : load16 h (reloc + 8 + 2 * i) = some (entry, h₁))
      (htype : entry >>> 12 = peRelBasedHighlow)
      (hva : load32 h₁ reloc = some (va, h₂))
      (hsite : u32 (va + (entry &&& 0x0FFF)) + 4 ≤ n)
      (hadd : add32 h₂ (peSite base va entry) delta = some h₃)
      (hrest : EntriesFit base n delta reloc is h₃ h') :
      EntriesFit base n delta reloc (i :: is) h h'

/-- From the block at an address the walk comes to the end of the directory or to a block of size
0, with each word that is patched in the image. -/
inductive BlocksFit (base n delta stop : Nat) : Nat → Heap → Prop
  | done {reloc : Nat} {h : Heap} (hend : stop ≤ reloc) : BlocksFit base n delta stop reloc h
  | empty {reloc : Nat} {h h₁ : Heap} (hmore : reloc < stop)
      (hload : load32 h (reloc + 4) = some (0, h₁)) : BlocksFit base n delta stop reloc h
  | block {reloc size size' : Nat} {h h₁ h₂ h₃ : Heap} (hmore : reloc < stop)
      (hload : load32 h (reloc + 4) = some (size, h₁)) (hsize : size ≠ 0)
      (hentries : EntriesFit base n delta reloc (List.range (numEntries size)) h₁ h₂)
      (hagain : load32 h₂ (reloc + 4) = some (size', h₃))
      (hrest : BlocksFit base n delta stop (u32 (reloc + size')) h₃) :
      BlocksFit base n delta stop reloc h

/-- The relocations, if the image has been loaded elsewhere and has any. -/
def PeFile.RelocsFit (f : PeFile) (base : Nat) (h : Heap) : Prop :=
  f.delta base ≠ 0 → f.Fits (f.optOff + 92) 4 ∧ (peDirBasereloc < f.numberOfRvaAndSizes →
    f.FieldsFit [(f.relocDir, 4), (f.relocDir + 4, 4)] ∧ (f.relocRva ≠ 0 → f.relocSize ≠ 0 →
      let reloc := u32 (base + f.relocRva)
      BlocksFit base f.sizeOfImage (f.delta base) (u32 (reloc + f.relocSize)) reloc h))

/-- The headers and sections fit, and then the relocations do. -/
def PeFile.ImageFits (f : PeFile) (base : Nat) (h : Heap) : Prop :=
  f.FieldsFit [(f.optOff + 60, 4), (f.coffOff + 16, 2)] ∧ f.hdrSize ≤ f.sizeOfImage ∧
    (∀ i < f.numberOfSections, (∀ j < i, f.Passes j) → f.SectionFits i) ∧
    ((∀ i < f.numberOfSections, f.Passes i) →
      f.RelocsFit base { h with bytes := f.placed base h.bytes } ∧ f.Fits (f.optOff + 68) 2)

/-- The headers fit; the allocation ends, and what it returns can hold the image. -/
def PeFile.LoadFits (f : PeFile) (h : Heap) : Prop :=
  f.HeadersFit f.headers ∧ ((∀ hdr ∈ f.headers, f.Accepts hdr) →
    f.FieldsFit f.fieldsBefore ∧
      ∃ base h', kzalloc h f.sizeOfImage = some (base, h') ∧ (base ≠ 0 → f.ImageFits base h'))

variable {f : PeFile} {s s' : PeRun} {h h' : Heap} {base n i off len dst src delta reloc stop : Nat}
  {fields : List (Nat × Nat)} {is : List Nat} {hdrs : List PeHeader}

/-! What one access adds. -/

theorem fits_u32 : f.Fits (u32 off) len ↔ f.Fits off len := by
  unfold PeFile.Fits
  rw [u32_u32]

theorem fieldsFit_one : f.FieldsFit [(off, len)] ↔ f.Fits off len := by
  simp [PeFile.FieldsFit]

theorem PeRun.ok_read : (s.read fields).Ok f ↔ s.Ok f ∧ f.FieldsFit fields := by
  constructor
  · intro hok
    refine ⟨⟨fun x hx => hok.reads x (List.mem_append_left _ hx), hok.writes⟩, ?_⟩
    intro x hx
    exact fits_u32.mp (hok.reads _ (List.mem_append_right _ (List.mem_map_of_mem hx)))
  · rintro ⟨hok, hfields⟩
    refine ⟨?_, hok.writes⟩
    intro x hx
    rcases List.mem_append.mp hx with hx | hx
    · exact hok.reads x hx
    · obtain ⟨y, hy, rfl⟩ := List.mem_map.mp hx
      exact fits_u32.mpr (hfields y hy)

theorem ok_of_no_write (hnone : s.writes = []) : s.Ok f ↔ f.FieldsFit s.reads := by
  constructor
  · intro hok
    exact hok.reads
  · intro hreads
    exact ⟨hreads, by simp [hnone]⟩

/-- One more write into an image that has been allocated. -/
theorem PeRun.ok_write (himage : s.image = some (base, n)) (heap : Heap) {addr : Nat} :
    ({ s with heap := heap, writes := s.writes ++ [(addr, len)] } : PeRun).Ok f ↔
      s.Ok f ∧ InImage base n addr len := by
  constructor
  · intro hok
    refine ⟨⟨hok.reads, fun x hx => hok.writes x (List.mem_append_left _ hx)⟩, ?_⟩
    obtain ⟨b, m, himg, hin⟩ := hok.writes _ (List.mem_append_right _ (List.mem_singleton_self _))
    cases himage.symm.trans himg
    exact hin
  · rintro ⟨hok, hin⟩
    refine ⟨hok.reads, ?_⟩
    intro x hx
    rcases List.mem_append.mp hx with hx | hx
    · exact hok.writes x hx
    · obtain rfl := List.mem_singleton.mp hx
      exact ⟨base, n, himage, hin⟩

theorem PeRun.ok_copy (himage : s.image = some (base, n)) :
    (s.copy f dst src len).Ok f ↔ s.Ok f ∧ f.Fits src len ∧ InImage base n (u32 dst) len := by
  have hread : (s.copy f dst src len) = { s.read [(src, len)] with
      heap := { s.heap with bytes := f.copyTo s.heap.bytes dst src len }
      writes := (s.read [(src, len)]).writes ++ [(u32 dst, len)] } := rfl
  have himage' : (s.read [(src, len)]).image = some (base, n) := PeRun.read_image.trans himage
  rw [hread, PeRun.ok_write himage', PeRun.ok_read, and_assoc]
  unfold PeFile.FieldsFit
  rw [List.forall_mem_singleton]

theorem inImage_offset (hbase : base < 2 ^ 32) :
    InImage base n (u32 (base + off)) len ↔ len = 0 ∨ u32 off + len ≤ n := by
  have hoff : sub32 (u32 (base + off)) base = u32 off := by
    unfold sub32 u32
    omega
  unfold InImage
  rw [hoff]

/-! The headers. -/

theorem checkHeaders_ok : (peCheckHeaders f.size hdrs s).1.Ok f ↔ s.Ok f ∧ f.HeadersFit hdrs := by
  induction hdrs generalizing s with
  | nil => simp [peCheckHeaders, PeFile.HeadersFit]
  | cons hdr rest ih =>
    unfold peCheckHeaders PeFile.HeadersFit
    dsimp only
    split
    case isTrue hsmall => simp [Nat.not_le.mpr hsmall]
    case isFalse hlarge =>
      rw [imp_iff_right (Nat.le_of_not_lt hlarge)]
      split
      case isTrue hother =>
        have hvacuous : hdr.field = hdr.magic → f.FieldsFit hdr.fields ∧ f.HeadersFit rest :=
          fun hsame => absurd hsame hother
        rw [PeRun.ok_read, fieldsFit_one, and_iff_left hvacuous]
      case isFalse hsame =>
        rw [ih, PeRun.ok_read, PeRun.ok_read, fieldsFit_one, imp_iff_right (not_not.mp hsame), and_assoc,
          and_assoc]

/-! The sections. -/

theorem ok_section (himage : s.image = some (base, f.sizeOfImage)) (hbase : base < 2 ^ 32)
    (hpass : f.Passes i) :
    ((((s.read [(f.sectionOff i, 24)]).copy f (base + (f.peSection i).vaddr) (f.peSection i).foff
      ((f.peSection i).copyLen f.size)).read [(f.sectionOff i + 36, 4)]).Ok f ↔
        s.Ok f ∧ f.SectionFits i) := by
  have himage' : (s.read [(f.sectionOff i, 24)]).image = some (base, f.sizeOfImage) :=
    PeRun.read_image.trans himage
  have hvaddr : u32 (f.peSection i).vaddr = (f.peSection i).vaddr := Mm.u32_of_lt word_lt
  have hfoff : u32 (f.peSection i).foff = (f.peSection i).foff := Mm.u32_of_lt word_lt
  rw [PeRun.ok_read, PeRun.ok_copy himage', PeRun.ok_read, fieldsFit_one,
    fieldsFit_one, inImage_offset hbase, hvaddr]
  unfold PeFile.SectionFits
  rw [imp_iff_right hpass]
  unfold PeFile.Fits
  rw [hfoff]
  dsimp only
  tauto

/-- A loop that is left at the first index without `P`. -/
theorem forall_until_succ {P Q : Nat → Prop} :
    (∀ j < n + 1, (∀ k < j, P k) → Q j) ↔
      Q 0 ∧ (P 0 → ∀ j < n, (∀ k < j, P (k + 1)) → Q (j + 1)) := by
  rw [forall_lt_succ_zero, imp_iff_right fun k hk => absurd hk (Nat.not_lt_zero k)]
  refine and_congr_right fun _ => ?_
  constructor
  · intro hall hzero j hj hbefore
    exact hall j hj (forall_lt_succ_zero.mpr ⟨hzero, hbefore⟩)
  · intro hall j hj hbefore
    obtain ⟨hzero, hsucc⟩ := forall_lt_succ_zero.mp hbefore
    exact hall hzero j hj hsucc

/-- The loop over the sections: what it reads and writes. -/
theorem loadSections_ok (himage : s.image = some (base, f.sizeOfImage)) (hbase : base < 2 ^ 32) :
    (peLoadSections f base n i s).2.Ok f ↔
      s.Ok f ∧ ∀ j < n, (∀ k < j, f.Passes (i + k)) → f.SectionFits (i + j) := by
  induction n generalizing i s with
  | zero => simp [peLoadSections]
  | succ n ih =>
    rw [forall_until_succ]
    unfold peLoadSections
    dsimp only
    cases hpass : (f.peSection i).overflows f.sizeOfImage with
    | true =>
      have hno : ¬ f.Passes i := fun hyes => Bool.noConfusion (hpass.symm.trans hyes)
      have hfits : f.SectionFits i ↔ f.Fits (f.sectionOff i) 24 :=
        and_iff_left fun hyes => absurd hyes hno
      rw [if_pos rfl, PeRun.ok_read, fieldsFit_one, ← hfits]
      simp [hno]
    | false =>
      have hyes : f.Passes i := hpass
      rw [if_neg Bool.false_ne_true]
      have hok := @ih (((s.read [(f.sectionOff i, 24)]).copy f
        (base + (f.peSection i).vaddr) (f.peSection i).foff
        ((f.peSection i).copyLen f.size)).read [(f.sectionOff i + 36, 4)]) (i + 1) (by simp [himage])
      simp only [Nat.add_assoc, Nat.add_comm 1] at hok
      rw [hok, ok_section himage hbase hyes, and_assoc, Nat.add_zero]
      simp [hyes]

/-! The relocation pass. -/

theorem peEntry_cases (hrun : peEntry base delta reloc s i = some s') :
    ∃ entry h₁, load16 s.heap (reloc + 8 + 2 * i) = some (entry, h₁) ∧
      (entry >>> 12 ≠ peRelBasedHighlow ∧ s' = { s with heap := h₁ } ∨
        entry >>> 12 = peRelBasedHighlow ∧ ∃ va h₂ h₃, load32 h₁ reloc = some (va, h₂) ∧
          add32 h₂ (peSite base va entry) delta = some h₃ ∧
          s' = { s with
            heap := h₃
            writes := s.writes ++ [(u32 (peSite base va entry), 4)] }) := by
  unfold peEntry at hrun
  obtain ⟨⟨entry, h₁⟩, hload, hrest⟩ := Option.bind_eq_some_iff.mp hrun
  refine ⟨entry, h₁, hload, ?_⟩
  dsimp only at hrest
  split_ifs at hrest with htype
  · obtain ⟨⟨va, h₂⟩, hva, hrest⟩ := Option.bind_eq_some_iff.mp hrest
    obtain ⟨h₃, hadd, hrest⟩ := Option.bind_eq_some_iff.mp hrest
    exact Or.inr ⟨htype, va, h₂, h₃, hva, hadd, (Option.some.inj hrest).symm⟩
  · exact Or.inl ⟨htype, (Option.some.inj hrest).symm⟩

theorem peEntry_other {entry : Nat} {h₁ : Heap}
    (hload : load16 s.heap (reloc + 8 + 2 * i) = some (entry, h₁))
    (htype : entry >>> 12 ≠ peRelBasedHighlow) :
    peEntry base delta reloc s i = some { s with heap := h₁ } := by
  unfold peEntry
  rw [hload]
  exact if_neg htype

theorem peEntry_highlow {entry va : Nat} {h₁ h₂ h₃ : Heap}
    (hload : load16 s.heap (reloc + 8 + 2 * i) = some (entry, h₁))
    (htype : entry >>> 12 = peRelBasedHighlow) (hva : load32 h₁ reloc = some (va, h₂))
    (hadd : add32 h₂ (peSite base va entry) delta = some h₃) :
    peEntry base delta reloc s i = some { s with
      heap := h₃
      writes := s.writes ++ [(u32 (peSite base va entry), 4)] } := by
  unfold peEntry
  rw [hload]
  refine (if_pos htype).trans ?_
  rw [hva]
  dsimp only [Option.bind_eq_bind, Option.bind_some]
  rw [hadd]
  rfl

theorem inImage_site {va entry : Nat} (hbase : base < 2 ^ 32) :
    InImage base n (u32 (peSite base va entry)) 4 ↔ u32 (va + (entry &&& 0x0FFF)) + 4 ≤ n := by
  have hsite : peSite base va entry = base + (va + (entry &&& 0x0FFF)) := Nat.add_assoc _ _ _
  rw [hsite, inImage_offset hbase]
  omega

/-- The entries leave what has been allocated. -/
theorem entries_image (hrun : is.foldlM (peEntry base delta reloc) s = some s') :
    s'.image = s.image := by
  induction is generalizing s with
  | nil =>
    obtain rfl := Option.some.inj hrun
    rfl
  | cons i is ih =>
    rw [List.foldlM_cons] at hrun
    obtain ⟨t, hone, hrest⟩ := Option.bind_eq_some_iff.mp hrun
    obtain ⟨entry, h₁, -, hcases⟩ := peEntry_cases hone
    have hkept := ih hrest
    rcases hcases with ⟨-, rfl⟩ | ⟨-, va, h₂, h₃, -, -, rfl⟩
    · exact hkept
    · exact hkept

/-- Entries that patch the image only. -/
theorem entriesFit_of_run (himage : s.image = some (base, n)) (hbase : base < 2 ^ 32)
    (hrun : is.foldlM (peEntry base delta reloc) s = some s') (hok : s'.Ok f) :
    EntriesFit base n delta reloc is s.heap s'.heap ∧ s.Ok f := by
  induction is generalizing s with
  | nil =>
    obtain rfl := Option.some.inj hrun
    exact ⟨EntriesFit.nil, hok⟩
  | cons i is ih =>
    rw [List.foldlM_cons] at hrun
    obtain ⟨t, hone, hrest⟩ := Option.bind_eq_some_iff.mp hrun
    obtain ⟨entry, h₁, hload, hcases⟩ := peEntry_cases hone
    rcases hcases with ⟨htype, rfl⟩ | ⟨htype, va, h₂, h₃, hva, hadd, rfl⟩
    · obtain ⟨hfit, hbefore⟩ := @ih { s with heap := h₁ } himage hrest
      exact ⟨EntriesFit.other hload htype hfit, ⟨hbefore.reads, hbefore.writes⟩⟩
    · obtain ⟨hfit, hbefore⟩ := @ih { s with
        heap := h₃
        writes := s.writes ++ [(u32 (peSite base va entry), 4)] } himage hrest
      obtain ⟨hs, hin⟩ := (PeRun.ok_write himage h₃).mp hbefore
      exact ⟨EntriesFit.highlow hload htype hva ((inImage_site hbase).mp hin) hadd hfit, hs⟩

theorem run_of_entriesFit (hfit : EntriesFit base n delta reloc is h h') (hheap : s.heap = h)
    (himage : s.image = some (base, n)) (hbase : base < 2 ^ 32) (hok : s.Ok f) :
    ∃ s', is.foldlM (peEntry base delta reloc) s = some s' ∧ s'.heap = h' ∧
      s'.image = some (base, n) ∧ s'.Ok f := by
  induction hfit generalizing s with
  | nil => exact ⟨s, rfl, hheap, himage, hok⟩
  | other hload htype _ ih =>
    rw [← hheap] at hload
    obtain ⟨s', hrun, hlast⟩ := @ih { s with heap := _ } rfl himage ⟨hok.reads, hok.writes⟩
    rw [List.foldlM_cons, peEntry_other hload htype]
    exact ⟨s', hrun, hlast⟩
  | @highlow i entry va is h h₁ h₂ h₃ h' hload htype hva hsite hadd _ ih =>
    rw [← hheap] at hload
    have hwritten := (PeRun.ok_write himage h₃).mpr ⟨hok, (inImage_site hbase).mpr hsite⟩
    obtain ⟨s', hrun, hlast⟩ := @ih { s with
      heap := h₃
      writes := s.writes ++ [(u32 (peSite base va entry), 4)] } rfl himage hwritten
    rw [List.foldlM_cons, peEntry_highlow hload htype hva hadd]
    exact ⟨s', hrun, hlast⟩

/-- A walk that ends and patches the image only. -/
theorem blocksFit_of_run {fuel : Nat} (himage : s.image = some (base, n)) (hbase : base < 2 ^ 32)
    (hrun : peRelocWalk base delta stop fuel reloc s = some s') (hok : s'.Ok f) :
    BlocksFit base n delta stop reloc s.heap ∧ s.Ok f := by
  induction fuel generalizing reloc s with
  | zero => cases hrun
  | succ fuel ih =>
    unfold peRelocWalk at hrun
    split at hrun
    case isTrue hend =>
      obtain rfl := Option.some.inj hrun
      exact ⟨BlocksFit.done hend, hok⟩
    case isFalse hmore =>
      have hmore := Nat.lt_of_not_le hmore
      obtain ⟨⟨size, h₁⟩, hload, hrest⟩ := Option.bind_eq_some_iff.mp hrun
      dsimp only at hrest
      split at hrest
      case isTrue hzero =>
        obtain rfl := Option.some.inj hrest
        rw [hzero] at hload
        exact ⟨BlocksFit.empty hmore hload, ⟨hok.reads, hok.writes⟩⟩
      case isFalse hsize =>
        obtain ⟨t, hentries, hrest⟩ := Option.bind_eq_some_iff.mp hrest
        obtain ⟨⟨size', h₃⟩, hagain, hrest⟩ := Option.bind_eq_some_iff.mp hrest
        dsimp only at hrest
        obtain ⟨hfit, hbefore⟩ := @ih { t with heap := h₃ } _ ((entries_image hentries).trans himage)
          hrest
        obtain ⟨hpatches, hs⟩ := @entriesFit_of_run _ { s with heap := h₁ } _ _ _ _ _ _ himage
          hbase hentries ⟨hbefore.reads, hbefore.writes⟩
        exact ⟨BlocksFit.block hmore hload hsize hpatches hagain hfit, ⟨hs.reads, hs.writes⟩⟩

theorem run_of_blocksFit (hfit : BlocksFit base n delta stop reloc h) (hheap : s.heap = h)
    (himage : s.image = some (base, n)) (hbase : base < 2 ^ 32) (hok : s.Ok f) :
    ∃ fuel s', peRelocWalk base delta stop fuel reloc s = some s' ∧
      s'.image = some (base, n) ∧ s'.Ok f := by
  induction hfit generalizing s with
  | done hend => exact ⟨1, s, if_pos hend, himage, hok⟩
  | @empty reloc h h₁ hmore hload =>
    rw [← hheap] at hload
    refine ⟨1, { s with heap := h₁ }, ?_, himage, ⟨hok.reads, hok.writes⟩⟩
    unfold peRelocWalk
    rw [if_neg (Nat.not_le_of_lt hmore), hload]
    rfl
  | @block reloc size size' h h₁ h₂ h₃ hmore hload hsize hentries hagain _ ih =>
    rw [← hheap] at hload
    obtain ⟨t, hrun, hheap', himage', hok'⟩ := @run_of_entriesFit f { s with heap := h₁ } _ _ _ _ _
      _ _ hentries rfl himage hbase ⟨hok.reads, hok.writes⟩
    rw [← hheap'] at hagain
    obtain ⟨fuel, s', hwalk, hlast⟩ := @ih { t with heap := h₃ } rfl himage'
      ⟨hok'.reads, hok'.writes⟩
    refine ⟨fuel + 1, s', ?_, hlast⟩
    unfold peRelocWalk
    rw [if_neg (Nat.not_le_of_lt hmore), hload]
    refine (if_neg hsize).trans ?_
    rw [hrun]
    dsimp only [Option.bind_eq_bind, Option.bind_some]
    rw [hagain]
    exact hwalk

/-- A step that returns the state it has, for any fuel. -/
theorem exists_some_iff : (∃ (_ : Nat) (s' : PeRun), some s = some s' ∧ s'.Ok f) ↔ s.Ok f := by
  constructor
  · rintro ⟨-, s', hsome, hok⟩
    rwa [Option.some.inj hsome]
  · intro hok
    exact ⟨0, s, rfl, hok⟩

/-- `pe_apply_relocations` for the directory of the file. -/
theorem applyRelocations_iff (himage : s.image = some (base, f.sizeOfImage))
    (hbase : base < 2 ^ 32) (hdelta : delta ≠ 0) (hsize : f.relocSize ≠ 0) :
    (∃ fuel s', peApplyRelocations fuel base f.relocRva f.relocSize delta s = some s' ∧ s'.Ok f) ↔
      s.Ok f ∧ BlocksFit base f.sizeOfImage delta (u32 (u32 (base + f.relocRva) + f.relocSize))
        (u32 (base + f.relocRva)) s.heap := by
  unfold peApplyRelocations
  simp only [if_neg (not_or.mpr ⟨hdelta, hsize⟩)]
  constructor
  · rintro ⟨fuel, s', hrun, hok⟩
    exact (blocksFit_of_run himage hbase hrun hok).symm
  · rintro ⟨hok, hfit⟩
    obtain ⟨fuel, s', hrun, -, hok'⟩ := run_of_blocksFit hfit rfl himage hbase hok
    exact ⟨fuel, s', hrun, hok'⟩

/-- The step for the relocations, with the image in place. -/
theorem relocate_iff (himage : s.image = some (base, f.sizeOfImage)) (hbase : base < 2 ^ 32) :
    (∃ fuel s', peRelocate fuel f base s = some s' ∧ s'.Ok f) ↔
      s.Ok f ∧ f.RelocsFit base s.heap := by
  unfold peRelocate PeFile.RelocsFit
  by_cases hdelta : f.delta base ≠ 0
  case neg =>
    simp only [if_neg hdelta]
    rw [exists_some_iff, and_iff_left fun hyes => absurd hyes hdelta]
  rw [imp_iff_right hdelta]
  simp only [if_pos hdelta]
  by_cases hmany : peDirBasereloc < f.numberOfRvaAndSizes
  case neg =>
    simp only [if_neg hmany]
    rw [exists_some_iff, PeRun.ok_read, fieldsFit_one,
      and_iff_left fun hyes => absurd hyes hmany]
  rw [imp_iff_right hmany]
  simp only [gt_iff_lt, if_pos hmany]
  by_cases hdir : f.relocRva ≠ 0 ∧ f.relocSize ≠ 0
  case neg =>
    simp only [if_neg hdir]
    rw [exists_some_iff, PeRun.ok_read, PeRun.ok_read, fieldsFit_one,
      and_iff_left fun hrva hsize => absurd ⟨hrva, hsize⟩ hdir, and_assoc]
  rw [imp_iff_right hdir.1, imp_iff_right hdir.2]
  simp only [if_pos hdir]
  rw [applyRelocations_iff (by simp [himage]) hbase hdelta hdir.2, PeRun.ok_read, PeRun.ok_read,
    fieldsFit_one, PeRun.read_heap, PeRun.read_heap, and_assoc, and_assoc]

/-! `pe_load` -/

theorem kzalloc_owned (hok : HeapOk (· ≤ ·) h) (hlt : n < 2 ^ 32)
    (halloc : kzalloc h n = some (base, h')) (hbase : base ≠ 0) : h'.Owned base := by
  unfold kzalloc at halloc
  obtain ⟨⟨p, g⟩, hraw, hrest⟩ := Option.bind_eq_some_iff.mp halloc
  dsimp only at hrest
  split at hrest
  case isTrue hzero =>
    cases hrest
    exact absurd hzero hbase
  case isFalse hsome =>
    obtain ⟨vm, -, hrest⟩ := Option.bind_eq_some_iff.mp hrest
    cases hrest
    exact (hok.distinct.alloc hlt hraw).resolve_left hbase

theorem owned_lt (howned : h.Owned base) : base < 2 ^ 32 := by
  obtain ⟨b, rfl, -⟩ := howned
  exact Mm.u32_lt

theorem headersCopied_ok (hnone : s.writes = []) (hbase : base < 2 ^ 32) :
    (f.headersCopied s base h).Ok f ↔ f.FieldsFit s.reads ∧
      f.FieldsFit [(f.optOff + 60, 4), (f.coffOff + 16, 2)] ∧ f.hdrSize ≤ f.sizeOfImage := by
  have hfresh : ({ s with heap := h, image := some (base, f.sizeOfImage) } : PeRun).Ok f ↔
      f.FieldsFit s.reads := ok_of_no_write hnone
  have hinside : f.Fits 0 f.hdrSize := Or.inr (by
    unfold PeFile.hdrSize u32
    omega)
  have himage : InImage base f.sizeOfImage (u32 base) f.hdrSize ↔ f.hdrSize ≤ f.sizeOfImage := by
    have hoff := @inImage_offset base f.sizeOfImage 0 f.hdrSize hbase
    rw [Nat.add_zero] at hoff
    rw [hoff, Mm.u32_of_lt (Nat.two_pow_pos 32)]
    omega
  unfold PeFile.headersCopied
  rw [PeRun.ok_read, PeRun.ok_copy (PeRun.read_image.trans rfl), PeRun.ok_read, hfresh,
    fieldsFit_one, fieldsFit_one, himage, and_iff_right hinside]
  have htwo : f.FieldsFit [(f.optOff + 60, 4), (f.coffOff + 16, 2)] ↔
      f.Fits (f.optOff + 60) 4 ∧ f.Fits (f.coffOff + 16) 2 := by
    simp [PeFile.FieldsFit]
  rw [htwo]
  tauto

variable {img : PeLoadedImage} {fuel : Nat} {r : PeOutcome}

theorem fieldsFit_read (hnone : s.writes = []) :
    f.FieldsFit (s.read fields).reads ↔ f.FieldsFit s.reads ∧ f.FieldsFit fields := by
  have hnone' : (s.read fields).writes = [] := hnone
  rw [← ok_of_no_write hnone', PeRun.ok_read, ok_of_no_write hnone]

/-- The sections of a fresh image: what has been read and written before the relocations. -/
theorem sectionsLoaded_ok (hnone : s.writes = []) (hbase : base < 2 ^ 32) :
    (f.sectionsLoaded s base h).2.Ok f ↔ f.FieldsFit s.reads ∧ f.FieldsFit f.fieldsBefore ∧
      f.FieldsFit [(f.optOff + 60, 4), (f.coffOff + 16, 2)] ∧ f.hdrSize ≤ f.sizeOfImage ∧
      ∀ i < f.numberOfSections, (∀ j < i, f.Passes j) → f.SectionFits i := by
  have hnone' : (s.read f.fieldsBefore).writes = [] := hnone
  have hloop := @loadSections_ok f (f.headersCopied (s.read f.fieldsBefore) base h) base
    f.numberOfSections 0 headersCopied_image hbase
  simp only [Nat.zero_add] at hloop
  unfold PeFile.sectionsLoaded
  rw [hloop, headersCopied_ok hnone' hbase, fieldsFit_read hnone]
  tauto

/-- An outcome before anything is allocated, or without an error. -/
theorem confined_iff {s : PeRun} {code : Int} {img : Option PeLoadedImage}
    (hfreed : code < 0 → ∀ base n, s.image = some (base, n) → ¬ s.heap.Live base) :
    PeConfined f ⟨code, img, s⟩ ↔ s.Ok f :=
  ⟨PeConfined.accesses, fun hok => ⟨hok, hfreed⟩⟩

/-- The run of an image that the allocator has had room for. -/
theorem image_iff (hnone : s.writes = []) (halloc : kzalloc s.heap f.sizeOfImage = some (base, h))
    (hbase : base ≠ 0) (howned : h.Owned base) :
    (∃ fuel r, peLoadImage fuel f img s = some r ∧ PeConfined f r) ↔
      (f.FieldsFit s.reads ∧ f.FieldsFit f.fieldsBefore) ∧ f.ImageFits base h := by
  have hlt := owned_lt howned
  obtain ⟨hblocks, himage⟩ := @sectionsLoaded_kept f s h base
  have hsections := @sectionsLoaded_ok f s h base hnone hlt
  simp only [peLoadImage_some halloc hbase]
  unfold PeFile.ImageFits
  by_cases hall : ∀ i < f.numberOfSections, f.Passes i
  · simp only [if_pos (sectionsLoaded_all.mpr hall)]
    have hloaded : ∀ t, PeConfined f (f.loaded img base t) ↔
        t.Ok f ∧ f.Fits (f.optOff + 68) 2 := by
      intro t
      rw [← fieldsFit_one, ← PeRun.ok_read]
      exact confined_iff fun hneg => absurd hneg (by decide)
    have hrelocs := @relocate_iff f (f.sectionsLoaded s base h).2 base himage hlt
    rw [sectionsLoaded_heap hlt hall, hsections] at hrelocs
    have hmapped : (∃ fuel r, (peRelocate fuel f base (f.sectionsLoaded s base h).2).map
        (f.loaded img base) = some r ∧ PeConfined f r) ↔
          (∃ fuel t, peRelocate fuel f base (f.sectionsLoaded s base h).2 = some t ∧ t.Ok f) ∧
            f.Fits (f.optOff + 68) 2 := by
      constructor
      · rintro ⟨fuel, r, hrun, hconf⟩
        obtain ⟨t, hreloc, rfl⟩ := Option.map_eq_some_iff.mp hrun
        obtain ⟨hok, hlast⟩ := (hloaded t).mp hconf
        exact ⟨⟨fuel, t, hreloc, hok⟩, hlast⟩
      · rintro ⟨⟨fuel, t, hreloc, hok⟩, hlast⟩
        exact ⟨fuel, _, by rw [hreloc]; rfl, (hloaded t).mpr ⟨hok, hlast⟩⟩
    rw [hmapped, hrelocs]
    simp only [imp_iff_right hall]
    tauto
  · have hstop : ¬ (f.sectionsLoaded s base h).1 = true :=
      fun hyes => hall (sectionsLoaded_all.mp hyes)
    simp only [if_neg hstop]
    have howned' : (f.sectionsLoaded s base h).2.heap.Owned base := by
      obtain ⟨b, hb⟩ := howned
      refine ⟨b, ?_⟩
      unfold Mm.Heap.blockAt
      rw [hblocks]
      exact hb
    obtain ⟨h', hfree, hdead⟩ := howned'.kfree hbase
    rw [hfree]
    have hconf : PeConfined f ⟨peErrSection, img,
        { (f.sectionsLoaded s base h).2 with heap := h' }⟩ ↔ (f.sectionsLoaded s base h).2.Ok f := by
      constructor
      · intro hconf
        exact ⟨hconf.accesses.reads, hconf.accesses.writes⟩
      · intro hok
        refine ⟨⟨hok.reads, hok.writes⟩, ?_⟩
        intro _ b n himg
        cases himage.symm.trans himg
        exact hdead
    have hone : (∃ (_ : Nat) (r : PeOutcome), (some h').map (fun heap => (⟨peErrSection, img,
        { (f.sectionsLoaded s base h).2 with heap := heap }⟩ : PeOutcome)) = some r ∧
          PeConfined f r) ↔ (f.sectionsLoaded s base h).2.Ok f := by
      rw [← hconf]
      constructor
      · rintro ⟨-, r, hrun, hr⟩
        cases hrun
        exact hr
      · intro hr
        exact ⟨0, _, rfl, hr⟩
    rw [hone, hsections]
    have hvacuous : ∀ {P : Prop}, (∀ i < f.numberOfSections, f.Passes i) → P :=
      fun hyes => absurd hyes hall
    tauto

/-- `pe_load` behind the headers. -/
theorem peLoadImage_iff (hok : HeapOk (· ≤ ·) s.heap) (hfresh : s.image = none)
    (hnone : s.writes = []) :
    (∃ fuel r, peLoadImage fuel f img s = some r ∧ PeConfined f r) ↔
      (f.FieldsFit s.reads ∧ f.FieldsFit f.fieldsBefore) ∧
        ∃ base h', kzalloc s.heap f.sizeOfImage = some (base, h') ∧
          (base ≠ 0 → f.ImageFits base h') := by
  cases halloc : kzalloc s.heap f.sizeOfImage with
  | none =>
    simp only [peLoadImage_none halloc]
    simp
  | some a =>
    obtain ⟨base, h⟩ := a
    have hunique : (∃ b h', some (base, h) = some (b, h') ∧ (b ≠ 0 → f.ImageFits b h')) ↔
        (base ≠ 0 → f.ImageFits base h) := by
      constructor
      · rintro ⟨b, h', hsame, hfits⟩
        cases hsame
        exact hfits
      · intro hfits
        exact ⟨base, h, rfl, hfits⟩
    rw [hunique]
    by_cases hbase : base = 0
    · subst hbase
      have hempty : PeConfined f ⟨peErrAlloc, img, { s.read f.fieldsBefore with heap := h }⟩ ↔
          f.FieldsFit s.reads ∧ f.FieldsFit f.fieldsBefore := by
        have hnone' : ({ s.read f.fieldsBefore with heap := h } : PeRun).writes = [] := hnone
        refine Iff.trans (confined_iff ?_) ((ok_of_no_write hnone').trans (fieldsFit_read hnone))
        intro _ b n himg
        cases hfresh.symm.trans himg
      simp only [peLoadImage_null halloc]
      rw [← hempty, and_iff_left fun hne => absurd rfl hne]
      constructor
      · rintro ⟨-, r, hrun, hr⟩
        cases hrun
        exact hr
      · intro hr
        exact ⟨0, _, rfl, hr⟩
    · rw [image_iff hnone halloc hbase (kzalloc_owned hok word_lt halloc hbase), imp_iff_right hbase]

/-- A file of 64 bytes whose `e_lfanew` is 0xFFFFFFFC. -/
def lfanewFile : PeFile where
  data off := (([(0, 0x4D), (1, 0x5A), (60, 0xFC), (61, 0xFF), (62, 0xFF), (63, 0xFF)] :
    List (Nat × BitVec 8)).lookup off).getD 0
  size := 64
  size_lt := by decide

end PinguinOS.Fs
