import PinguinOS.Fs.PeImage
import PinguinOS.Lib.Patch
import PinguinOS.Mm.HeapPages

/-! The image of a well-formed PE32 file: what `pe_load` puts at its load address. -/
namespace PinguinOS.Fs

open Mm (u32 sub32 Heap kzalloc touch TablesOk pagingGetPhys pageSize)

/-! The image before the relocations. -/

/-- `o` is an offset of section `i`. -/
def PeFile.InSection (f : PeFile) (i o : Nat) : Prop :=
  (f.peSection i).vaddr ≤ o ∧ o < (f.peSection i).vaddr + (f.peSection i).vsize

/-- `o` is an offset of the raw data of section `i`. -/
def PeFile.inRaw (f : PeFile) (i o : Nat) : Bool :=
  decide ((f.peSection i).vaddr ≤ o ∧
    o < (f.peSection i).vaddr + min (f.peSection i).rdata (f.peSection i).vsize)

/-- The raw data of the sections, the headers where no section is, and zeros. -/
def PeFile.unrelocated (f : PeFile) : Buffer := fun o =>
  match (List.range f.numberOfSections).find? fun i => f.inRaw i o with
  | some i => f.at32 ((f.peSection i).foff + (o - (f.peSection i).vaddr))
  | none => if o < f.hdrSize then f.at32 o else 0

/-! The sites. -/

/-- The blocks one after the other up to `stop`: where each of them is, and its size. -/
def relocBlocks (img : Buffer) (stop : Nat) : (fuel : Nat) → (pos : Nat) → List (Nat × Nat)
  | 0, _ => []
  | fuel + 1, pos =>
    if stop ≤ pos then []
    else (pos, word32 img (pos + 4)) :: relocBlocks img stop fuel (pos + word32 img (pos + 4))

/-- The site of entry `i` of the block at `pos`, if it is a HIGHLOW entry. -/
def entrySite (img : Buffer) (pos i : Nat) : Option Nat :=
  let entry := word16 img (pos + 8 + 2 * i)
  if entry >>> 12 = peRelBasedHighlow then some (word32 img pos + (entry &&& 0x0FFF)) else none

def blockSites (img : Buffer) (b : Nat × Nat) : List Nat :=
  (List.range ((b.2 - 8) / 2)).filterMap (entrySite img b.1)

/-- There is a relocation directory; one at RVA 0 stands for none. -/
def PeFile.HasRelocs (f : PeFile) : Prop :=
  peDirBasereloc < f.numberOfRvaAndSizes ∧ f.relocRva ≠ 0 ∧ f.relocSize ≠ 0

instance {f : PeFile} : Decidable f.HasRelocs := inferInstanceAs (Decidable (_ ∧ _))

def PeFile.blocks (f : PeFile) : List (Nat × Nat) :=
  if f.HasRelocs then relocBlocks f.unrelocated (f.relocRva + f.relocSize) f.relocSize f.relocRva
  else []

def PeFile.sites (f : PeFile) : List Nat := f.blocks.flatMap (blockSites f.unrelocated)

/-- Each site is moved by the distance from `ImageBase` to the load address. -/
def PeFile.reference (f : PeFile) (base : Nat) : Buffer :=
  Patch.added f.unrelocated f.sites (BitVec.ofNat 32 (sub32 base f.imageBase))

structure PeFile.WellFormed (f : PeFile) : Prop where
  headers : ∀ hdr ∈ f.headers, hdr.off + hdr.len ≤ f.size ∧ hdr.field = hdr.magic
  directory : peDirBasereloc < f.numberOfRvaAndSizes → f.relocDir + 8 ≤ f.size
  sectionHeaders : ∀ i < f.numberOfSections, f.sectionOff i + 40 ≤ f.size
  headersFit : f.sizeOfHeaders ≤ f.sizeOfImage
  rawData : ∀ i < f.numberOfSections, 0 < (f.peSection i).rdata →
    (f.peSection i).foff + (f.peSection i).rdata ≤ f.size
  inside : ∀ i < f.numberOfSections,
    (f.peSection i).vaddr + (f.peSection i).vsize ≤ f.sizeOfImage
  disjoint : ∀ i < f.numberOfSections, ∀ j < f.numberOfSections, i ≠ j →
    ∀ o, ¬ (f.InSection i o ∧ f.InSection j o)
  table : f.HasRelocs → f.relocRva + f.relocSize ≤ f.sizeOfImage
  blockSizes : ∀ b ∈ f.blocks, 8 ≤ b.2
  filled : f.HasRelocs → (f.blocks.map Prod.snd).sum = f.relocSize
  sitesInside : ∀ a ∈ f.sites, a + 4 ≤ f.sizeOfImage
  sitesOutside : ∀ a ∈ f.sites, a + 4 ≤ f.relocRva ∨ f.relocRva + f.relocSize ≤ a
  sitesApart : f.sites.Pairwise Patch.Apart

variable {f : PeFile} {s s' : PeRun} {h h' : Heap} {base n i j o len pos stop delta : Nat}
  {is : List Nat} {img : Buffer} {b : Option (BitVec 8)}

/-! The copies of a well-formed file. -/

theorem sizeOfImage_lt : f.sizeOfImage < 2 ^ 32 := word_lt

/-- The bytes that are copied for a section. -/
theorem covers_iff (hwf : f.WellFormed) (hi : i < f.numberOfSections) (ho : o < 2 ^ 32) :
    sub32 o (f.sectionCopy i).1 < (f.sectionCopy i).2.2 ↔ f.inRaw i o = true := by
  have hraw := hwf.rawData i hi
  have hinside := hwf.inside i hi
  have himage := @sizeOfImage_lt f
  have hsize := f.size_lt
  unfold PeFile.inRaw PeFile.sectionCopy PeSection.copyLen
  dsimp only
  rw [decide_eq_true_eq]
  generalize f.peSection i = sec at *
  by_cases hzero : sec.rdata = 0
  · rw [hzero]
    simp
  · have hfits := hraw (Nat.pos_of_ne_zero hzero)
    rw [if_pos ⟨Nat.pos_of_ne_zero hzero, by rw [Mm.u32_of_lt (by omega)]; exact hfits⟩]
    unfold sub32 u32
    split_ifs
    · omega
    · omega

/-- The last copy that covers an offset is the only one. -/
theorem covered_sections (hwf : f.WellFormed) (ho : o < 2 ^ 32)
    (his : ∀ i ∈ is, i < f.numberOfSections) (hnodup : is.Nodup) :
    f.covered o b (is.map f.sectionCopy) = match is.find? fun i => f.inRaw i o with
      | some i => some (f.at32 ((f.peSection i).foff + (o - (f.peSection i).vaddr)))
      | none => b := by
  induction is generalizing b with
  | nil => rfl
  | cons i is ih =>
    obtain ⟨hi, his⟩ := List.forall_mem_cons.mp his
    obtain ⟨hnot, hnodup⟩ := List.nodup_cons.mp hnodup
    unfold PeFile.covered at ih ⊢
    rw [List.map_cons, List.foldl_cons, ih his hnodup, List.find?_cons]
    by_cases hcovers : f.inRaw i o = true
    · have hrest : (is.find? fun j => f.inRaw j o) = none := by
        rw [List.find?_eq_none]
        intro j hj hyes
        have hne : i ≠ j := fun heq => hnot (heq ▸ hj)
        obtain ⟨hlo, hhi⟩ := of_decide_eq_true hcovers
        obtain ⟨hlo', hhi'⟩ := of_decide_eq_true hyes
        refine hwf.disjoint i hi j (his j hj) hne o ⟨⟨hlo, ?_⟩, hlo', ?_⟩
        · omega
        · omega
      obtain ⟨hlo, -⟩ := of_decide_eq_true hcovers
      rw [hrest, hcovers, if_pos ((covers_iff hwf hi ho).mpr hcovers)]
      dsimp only
      have hoff : sub32 o (f.sectionCopy i).1 = o - (f.peSection i).vaddr := Mm.sub32_of_le hlo ho
      rw [hoff]
      rfl
    · rw [if_neg (mt (covers_iff hwf hi ho).mp hcovers), Bool.eq_false_iff.mpr hcovers]

theorem contents_eq (hwf : f.WellFormed) (ho : o < 2 ^ 32) :
    (f.contents o).getD 0 = f.unrelocated o := by
  have hsections := @covered_sections f o (List.range f.numberOfSections)
    (if sub32 o 0 < f.hdrSize then some (f.at32 (0 + sub32 o 0)) else none) hwf ho
    (fun i hi => List.mem_range.mp hi) List.nodup_range
  have hcontents : f.contents o = f.covered o
      (if sub32 o 0 < f.hdrSize then some (f.at32 (0 + sub32 o 0)) else none)
      ((List.range f.numberOfSections).map f.sectionCopy) := rfl
  have hoff : sub32 o 0 = o := Mm.sub32_of_le (Nat.zero_le o) ho
  rw [hcontents, hsections, hoff]
  unfold PeFile.unrelocated
  cases (List.range f.numberOfSections).find? fun i => f.inRaw i o with
  | some i => rfl
  | none =>
    rw [Nat.zero_add]
    split_ifs
    · rfl
    · rfl

/-! The kernel's memory at the image. -/

/-- The `n` bytes from `base` on are those of `img`, and accessing them does not fault. -/
structure Shows (base n : Nat) (img : Buffer) (h : Heap) : Prop where
  bytes : ∀ o < n, h.bytes (base + o) = img o
  mapped : ∀ addr len, base ≤ addr → addr + len ≤ base + n → touch h.vm addr len = some h.vm

variable {off : Nat}

theorem Shows.touches (hshows : Shows base n img h) (hroom : base + n ≤ 2 ^ 32)
    (hoff : off + len ≤ n) (hpos : 0 < len) : touchAt h (base + off) len = some h := by
  unfold touchAt
  rw [Mm.u32_of_lt (by omega), hshows.mapped _ _ (Nat.le_add_right _ _) (by omega)]
  rfl

theorem Shows.memory_eq (hshows : Shows base n img h) (hroom : base + n ≤ 2 ^ 32) (ho : o < n) :
    memory h (base + o) = img o := by
  unfold memory
  rw [Mm.u32_of_lt (by omega)]
  exact hshows.bytes o ho

theorem Shows.loads16 (hshows : Shows base n img h) (hroom : base + n ≤ 2 ^ 32)
    (hoff : off + 2 ≤ n) : load16 h (base + off) = some (word16 img off, h) := by
  unfold load16
  rw [hshows.touches hroom hoff (by decide)]
  have hword : word16 (memory h) (base + off) = word16 img off := by
    refine word16_congr (hshows.memory_eq hroom (by omega)) ?_
    rw [Nat.add_assoc]
    exact hshows.memory_eq hroom (by omega)
  rw [← hword]
  rfl

theorem Shows.loads32 (hshows : Shows base n img h) (hroom : base + n ≤ 2 ^ 32)
    (hoff : off + 4 ≤ n) : load32 h (base + off) = some (word32 img off, h) := by
  unfold load32
  rw [hshows.touches hroom hoff (by decide)]
  have hword : word32 (memory h) (base + off) = word32 img off := by
    refine word32_congr fun k hk => ?_
    rw [Nat.add_assoc]
    exact hshows.memory_eq hroom (by omega)
  rw [← hword]
  rfl

/-- `*patch += delta` at a site of the image. -/
theorem Shows.adds32 (hshows : Shows base n img h) (hroom : base + n ≤ 2 ^ 32)
    (hoff : off + 4 ≤ n) : ∃ h', add32 h (base + off) delta = some h' ∧
      Shows base n (Patch.addWord img off (BitVec.ofNat 32 delta)) h' := by
  have hword : word32 (memory h) (base + off) = word32 img off := by
    refine word32_congr fun k hk => ?_
    rw [Nat.add_assoc]
    exact hshows.memory_eq hroom (by omega)
  unfold add32
  rw [hshows.touches hroom hoff (by decide)]
  refine ⟨_, rfl, ?_, hshows.mapped⟩
  intro o ho
  have hsum : BitVec.ofNat 32 (word32 img off + delta) =
      Patch.word img off + BitVec.ofNat 32 delta := by
    rw [BitVec.ofNat_add]
    exact congrArg (· + BitVec.ofNat 32 delta) 
      ((BitVec.ofNat_toNat 32 (Patch.word img off)).trans (BitVec.setWidth_eq _))
  have haddr : u32 (base + off) = base + off := Mm.u32_of_lt (by omega)
  unfold storeWord Patch.addWord
  dsimp only
  rw [haddr, hword, hsum]
  by_cases hcovers : Patch.Covers o off
  · have hdist : sub32 (base + o) (base + off) = o - off := by
      obtain ⟨hlo, -⟩ := hcovers
      rw [Mm.sub32_of_le (by omega) (by omega)]
      omega
    rw [if_pos hcovers, hdist, if_pos (by obtain ⟨-, hhi⟩ := hcovers; omega)]
  · have hdist : ¬ sub32 (base + o) (base + off) < 4 := by
      intro hlt
      unfold sub32 u32 at hlt
      refine hcovers ⟨?_, ?_⟩
      · omega
      · omega
    rw [if_neg hcovers, if_neg hdist, hshows.bytes o ho]

/-! The pass over a table that it does not touch. -/

/-- `img` is `table` from `lo` to `hi`. -/
def AgreesOn (lo hi : Nat) (table img : Buffer) : Prop := ∀ o, lo ≤ o → o < hi → img o = table o

variable {table : Buffer} {lo hi : Nat} {d : BitVec 32} {sites : List Nat}

theorem AgreesOn.afterWord (hagree : AgreesOn lo hi table img) {a : Nat}
    (hout : a + 4 ≤ lo ∨ hi ≤ a) : AgreesOn lo hi table (Patch.addWord img a d) := by
  intro o hlo hhi
  rw [Patch.addWord_outside, hagree o hlo hhi]
  rintro ⟨hfrom, hto⟩
  rcases hout with hbefore | hbehind
  · omega
  · omega

theorem AgreesOn.afterAll (hagree : AgreesOn lo hi table img)
    (hout : ∀ a ∈ sites, a + 4 ≤ lo ∨ hi ≤ a) : AgreesOn lo hi table (Patch.addAll img sites d) := by
  induction sites generalizing img with
  | nil => exact hagree
  | cons a rest ih =>
    obtain ⟨hfirst, hrest⟩ := List.forall_mem_cons.mp hout
    exact ih (hagree.afterWord hfirst) hrest

theorem AgreesOn.half_eq (hagree : AgreesOn lo hi table img) {off : Nat} (hlo : lo ≤ off)
    (hhi : off + 2 ≤ hi) : word16 img off = word16 table off :=
  word16_congr (hagree off hlo (by omega)) (hagree (off + 1) (by omega) (by omega))

theorem AgreesOn.word_eq (hagree : AgreesOn lo hi table img) {off : Nat} (hlo : lo ≤ off)
    (hhi : off + 4 ≤ hi) : word32 img off = word32 table off :=
  word32_congr fun k hk => hagree (off + k) (by omega) (by omega)

/-- One entry adds the distance at its site, if it has one. -/
theorem Shows.entry (hshows : Shows base n img s.heap) (hroom : base + n ≤ 2 ^ 32)
    (hagree : AgreesOn lo hi table img) (hpos : lo ≤ pos) (hend : pos + 8 + 2 * i + 2 ≤ hi)
    (hhi : hi ≤ n) (hin : ∀ a ∈ entrySite table pos i, a + 4 ≤ n) :
    ∃ s', peEntry base delta (base + pos) s i = some s' ∧
      Shows base n (Patch.addAll img (entrySite table pos i).toList (BitVec.ofNat 32 delta))
        s'.heap := by
  have hload : load16 s.heap (base + pos + 8 + 2 * i) =
      some (word16 table (pos + 8 + 2 * i), s.heap) := by
    have haddr : base + pos + 8 + 2 * i = base + (pos + 8 + 2 * i) := by omega
    rw [haddr, hshows.loads16 hroom (by omega), hagree.half_eq (by omega) hend]
  have hva : load32 s.heap (base + pos) = some (word32 table pos, s.heap) := by
    rw [hshows.loads32 hroom (by omega), hagree.word_eq hpos (by omega)]
  unfold peEntry
  rw [hload]
  dsimp only [Option.bind_eq_bind, Option.bind_some]
  unfold entrySite at hin ⊢
  dsimp only at hin ⊢
  split_ifs at hin ⊢ with htype
  · have hsite := hin _ rfl
    have haddr : peSite base (word32 table pos) (word16 table (pos + 8 + 2 * i)) =
        base + (word32 table pos + (word16 table (pos + 8 + 2 * i) &&& 0x0FFF)) :=
      Nat.add_assoc _ _ _
    obtain ⟨h', hadd, hshows'⟩ := @Shows.adds32 s.heap base n delta img _ hshows hroom hsite
    rw [hva]
    dsimp only [Option.bind_some]
    rw [haddr, hadd]
    exact ⟨_, rfl, hshows'⟩
  · exact ⟨s, rfl, hshows⟩

theorem addAll_append {xs ys : List Nat} :
    Patch.addAll img (xs ++ ys) d = Patch.addAll (Patch.addAll img xs d) ys d := List.foldl_append

/-- A site keeps clear of the table, and of what lies behind the image. -/
def Clear (n lo hi a : Nat) : Prop := a + 4 ≤ n ∧ (a + 4 ≤ lo ∨ hi ≤ a)

theorem Shows.entries (hshows : Shows base n img s.heap) (hroom : base + n ≤ 2 ^ 32)
    (hagree : AgreesOn lo hi table img) (hpos : lo ≤ pos) (hhi : hi ≤ n)
    (hend : ∀ i ∈ is, pos + 8 + 2 * i + 2 ≤ hi)
    (hclear : ∀ a ∈ is.filterMap (entrySite table pos), Clear n lo hi a) :
    ∃ s', is.foldlM (peEntry base delta (base + pos)) s = some s' ∧
      Shows base n (Patch.addAll img (is.filterMap (entrySite table pos)) (BitVec.ofNat 32 delta))
        s'.heap := by
  induction is generalizing s img with
  | nil => exact ⟨s, rfl, hshows⟩
  | cons i is ih =>
    obtain ⟨hfirst, hrest⟩ := List.forall_mem_cons.mp hend
    have hsplit : (i :: is).filterMap (entrySite table pos) =
        (entrySite table pos i).toList ++ is.filterMap (entrySite table pos) := by
      cases hsite : entrySite table pos i with
      | none => rw [List.filterMap_cons_none hsite]; rfl
      | some a => rw [List.filterMap_cons_some hsite]; rfl
    rw [hsplit] at hclear ⊢
    obtain ⟨hclear, hothers⟩ := List.forall_mem_append.mp hclear
    obtain ⟨t, hone, hshows'⟩ := @Shows.entry s base n i pos delta img table lo hi hshows hroom
      hagree hpos hfirst hhi fun a ha => (hclear a (Option.mem_toList.mpr ha)).1
    obtain ⟨s', hrun, hlast⟩ := ih hshows' (hagree.afterAll fun a ha => (hclear a ha).2) hrest hothers
    rw [List.foldlM_cons, hone, addAll_append]
    exact ⟨s', hrun, hlast⟩

/-- The walk over blocks that fill the rest of the table. -/
theorem Shows.walk {k : Nat} (hshows : Shows base n img s.heap) (hroom : base + n < 2 ^ 32)
    (hagree : AgreesOn lo stop table img) (hpos : lo ≤ pos) (hstop : stop ≤ n)
    (hsizes : ∀ b ∈ relocBlocks table stop k pos, 8 ≤ b.2)
    (hfilled : pos + ((relocBlocks table stop k pos).map Prod.snd).sum = stop)
    (hclear : ∀ a ∈ (relocBlocks table stop k pos).flatMap (blockSites table), Clear n lo stop a) :
    ∃ fuel s', peRelocWalk base delta (base + stop) fuel (base + pos) s = some s' ∧
      Shows base n (Patch.addAll img ((relocBlocks table stop k pos).flatMap (blockSites table))
        (BitVec.ofNat 32 delta)) s'.heap := by
  induction k generalizing s img pos with
  | zero =>
    have hend : base + stop ≤ base + pos := by
      rw [← hfilled]
      exact Nat.le_refl _
    exact ⟨1, s, if_pos hend, hshows⟩
  | succ k ih =>
    unfold relocBlocks at hsizes hfilled hclear ⊢
    split at hsizes
    case isTrue hend =>
      rw [if_pos hend]
      exact ⟨1, s, if_pos (Nat.add_le_add_left hend base), hshows⟩
    case isFalse hmore =>
      rw [if_neg hmore] at hfilled hclear ⊢
      rw [List.map_cons, List.sum_cons] at hfilled
      rw [List.flatMap_cons] at hclear ⊢
      obtain ⟨hsize, hsizes⟩ := List.forall_mem_cons.mp hsizes
      obtain ⟨hclear, hothers⟩ := List.forall_mem_append.mp hclear
      dsimp only at hsize hfilled
      generalize hword : word32 table (pos + 4) = size at *
      have hload : ∀ {img : Buffer} {h : Heap}, Shows base n img h → AgreesOn lo stop table img →
          load32 h (base + pos + 4) = some (size, h) := by
        intro img h hshows hagree
        rw [Nat.add_assoc, hshows.loads32 (by omega) (by omega), hagree.word_eq (by omega) (by omega),
          hword]
      have hentries : numEntries size = (size - 8) / 2 := by
        unfold numEntries
        rw [Mm.sub32_of_le hsize (by omega)]
      obtain ⟨t, hrun, hshows'⟩ := @Shows.entries s base n pos delta
        (List.range ((size - 8) / 2)) img table lo stop hshows (by omega) hagree hpos hstop
        (fun i hi => by have := List.mem_range.mp hi; omega) hclear
      have hagree' : AgreesOn lo stop table (Patch.addAll img (blockSites table (pos, size))
          (BitVec.ofNat 32 delta)) := hagree.afterAll fun a ha => (hclear a ha).2
      obtain ⟨fuel, s', hwalk, hlast⟩ := ih hshows' hagree' (by omega) hsizes (by omega) hothers
      have hnext : u32 (base + pos + size) = base + (pos + size) := by
        rw [Nat.add_assoc, Mm.u32_of_lt (by omega)]
      refine ⟨fuel + 1, s', ?_, by rw [addAll_append]; exact hlast⟩
      unfold peRelocWalk
      rw [if_neg (by omega), hload hshows hagree]
      refine (if_neg (by omega)).trans ?_
      rw [hentries, hrun]
      dsimp only [Option.bind_eq_bind, Option.bind_some]
      rw [hload hshows' hagree', ← hwalk]
      dsimp only [Option.bind_some]
      rw [hnext]

/-! `pe_load` of a well-formed file. -/

theorem blocks_nil (hno : ¬ f.HasRelocs) : f.sites = [] := by
  unfold PeFile.sites PeFile.blocks
  rw [if_neg hno]
  rfl

/-- The relocations make the reference image out of what has been copied. -/
theorem relocate_shows (hwf : f.WellFormed) (hroom : base + f.sizeOfImage < 2 ^ 32)
    (hshows : Shows base f.sizeOfImage f.unrelocated s.heap) :
    ∃ fuel s', peRelocate fuel f base s = some s' ∧
      Shows base f.sizeOfImage (f.reference base) s'.heap := by
  unfold peRelocate
  by_cases hdelta : f.delta base ≠ 0
  case neg =>
    have hsame : f.reference base = f.unrelocated := by
      have hzero : sub32 base f.imageBase = 0 := not_not.mp hdelta
      unfold PeFile.reference
      rw [hzero]
      exact Patch.added_zero
    rw [hsame]
    simp only [if_neg hdelta]
    exact ⟨0, s, rfl, hshows⟩
  simp only [if_pos hdelta]
  by_cases hrelocs : f.HasRelocs
  case neg =>
    have hsame : f.reference base = f.unrelocated := by
      unfold PeFile.reference
      rw [blocks_nil hrelocs]
      rfl
    rw [hsame]
    by_cases hmany : f.numberOfRvaAndSizes > peDirBasereloc
    · simp only [if_pos hmany, if_neg fun hdir => hrelocs ⟨hmany, hdir⟩]
      refine ⟨0, _, rfl, ?_⟩
      rwa [PeRun.read_heap, PeRun.read_heap]
    · simp only [if_neg hmany]
      refine ⟨0, _, rfl, ?_⟩
      rwa [PeRun.read_heap]
  simp only [gt_iff_lt, if_pos hrelocs.1, if_pos hrelocs.2]
  have htable := hwf.table hrelocs
  have hblocks : f.blocks = relocBlocks f.unrelocated (f.relocRva + f.relocSize) f.relocSize
      f.relocRva := if_pos hrelocs
  have hsizes := hwf.blockSizes
  have hfilled := hwf.filled hrelocs
  have hclear : ∀ a ∈ f.sites, Clear f.sizeOfImage f.relocRva (f.relocRva + f.relocSize) a :=
    fun a ha => ⟨hwf.sitesInside a ha, hwf.sitesOutside a ha⟩
  have hreference : f.reference base =
      Patch.addAll f.unrelocated f.sites (BitVec.ofNat 32 (f.delta base)) :=
    (Patch.addAll_eq hwf.sitesApart).symm
  rw [hreference]
  unfold PeFile.sites at hclear ⊢
  rw [hblocks] at hsizes hfilled hclear ⊢
  have hstart : u32 (base + f.relocRva) = base + f.relocRva := Mm.u32_of_lt (by omega)
  have hstop : u32 (base + f.relocRva + f.relocSize) = base + (f.relocRva + f.relocSize) := by
    rw [Nat.add_assoc, Mm.u32_of_lt (by omega)]
  unfold peApplyRelocations
  simp only [if_neg (not_or.mpr ⟨hdelta, hrelocs.2.2⟩)]
  rw [hstart, hstop]
  refine Shows.walk ?_ hroom (fun o _ _ => rfl) (Nat.le_refl _) htable hsizes (by omega) hclear
  rwa [PeRun.read_heap, PeRun.read_heap]

/-- What `kzalloc` has returned is mapped and zero. -/
theorem kzalloc_fresh {kernStart kernEnd totalPages : Nat}
    (htables : TablesOk kernStart kernEnd totalPages h.vm)
    (halloc : kzalloc h n = some (base, h')) (hbase : base ≠ 0) :
    Shows base n (fun _ => 0) h' := by
  unfold kzalloc at halloc
  obtain ⟨⟨p, g⟩, hraw, hrest⟩ := Option.bind_eq_some_iff.mp halloc
  dsimp only at hrest
  split at hrest
  case isTrue hzero =>
    cases hrest
    exact absurd hzero hbase
  case isFalse hsome =>
    obtain ⟨vm, htouch, hrest⟩ := Option.bind_eq_some_iff.mp hrest
    cases hrest
    constructor
    case bytes =>
      intro o ho
      exact if_pos ⟨Nat.le_add_right _ _, Nat.add_lt_add_left ho _⟩
    case mapped =>
      intro addr len hlo hhi
      exact Mm.touch_within (Mm.mapsMore_alloc htables hraw).tables htouch hlo hhi

/-- The image of a well-formed file is the reference image, wherever it has been loaded. -/
theorem peLoad_reference {kernStart kernEnd totalPages : Nat} (hwf : f.WellFormed)
    (htables : TablesOk kernStart kernEnd totalPages h.vm)
    (halloc : kzalloc h f.sizeOfImage = some (base, h')) (hbase : base ≠ 0)
    (hroom : base + f.sizeOfImage < 2 ^ 32) (name : Option (List (BitVec 8)))
    (img : PeLoadedImage) :
    ∃ fuel r img', peLoad fuel h (some f) name (some img) = some r ∧ r.code = 0 ∧
      r.img = some img' ∧ img'.base = base ∧
      ∀ o < f.sizeOfImage, r.run.heap.bytes (base + o) = f.reference base o := by
  have hlt : base < 2 ^ 32 := by omega
  have haccepts : ∀ hdr ∈ f.headers, f.Accepts hdr := by
    intro hdr hhdr
    obtain ⟨hfits, hfield⟩ := hwf.headers hdr hhdr
    have hsize := f.size_lt
    exact ⟨by rw [Mm.u32_of_lt (by omega)]; exact hfits, hfield⟩
  obtain ⟨hheap, -, -, hnone⟩ := @checkHeaders_kept f ⟨h, none, [], []⟩ f.headers
  have hchecked := hnone.mpr haccepts
  have hpasses : ∀ i < f.numberOfSections, f.Passes i := by
    intro i hi
    have hinside := hwf.inside i hi
    have himage := @sizeOfImage_lt f
    refine decide_eq_false ?_
    rw [Mm.u32_of_lt (by omega)]
    omega
  generalize hrun : peCheckHeaders f.size f.headers ⟨h, none, [], []⟩ = checked at hheap hchecked
  obtain ⟨s, err⟩ := checked
  dsimp only at hheap hchecked
  subst hchecked
  have hfresh := kzalloc_fresh htables halloc hbase
  have hshows : Shows base f.sizeOfImage f.unrelocated (f.sectionsLoaded s base h').2.heap := by
    rw [sectionsLoaded_heap hlt hpasses]
    refine ⟨?_, hfresh.mapped⟩
    intro o ho
    have hoff : sub32 (base + o) base = o := by
      rw [Mm.sub32_of_le (by omega) (by omega)]
      omega
    have hcontents := @contents_eq f o hwf (by omega)
    unfold PeFile.placed
    dsimp only
    rw [hoff, hfresh.bytes o ho, hcontents]
  obtain ⟨fuel, t, hreloc, hlast⟩ := relocate_shows hwf hroom hshows
  refine ⟨fuel, f.loaded (PeLoadedImage.named name) base t, _, ?_, rfl, rfl, rfl, ?_⟩
  · unfold peLoad
    dsimp only
    rw [hrun]
    dsimp only
    rw [peLoadImage_some (by rw [hheap]; exact halloc) hbase,
      if_pos (sectionsLoaded_all.mpr hpasses), hreloc]
    rfl
  · intro o ho
    unfold PeFile.loaded
    rw [PeRun.read_heap]
    exact hlast.bytes o ho

/-- A file with one section, which has a block of one HIGHLOW entry for a word of its own. -/
def relocFile : PeFile where
  data off := (([(0, 0x4D), (1, 0x5A), (60, 64), (64, 0x50), (65, 0x45), (68, 0x4C), (69, 0x01),
    (70, 1), (84, 144), (88, 0x0B), (89, 0x01), (118, 0x40), (144, 0x20), (145, 0x01), (180, 6),
    (225, 0x01), (228, 12), (240, 32), (245, 0x01), (248, 16), (252, 0x10), (253, 0x01), (276, 12),
    (280, 0x0C), (281, 0x31), (284, 0x78), (285, 0x56)] : List (Nat × BitVec 8)).lookup off).getD 0
  size := 288
  size_lt := by decide

theorem relocFile_wellFormed : relocFile.WellFormed := by
  have hone : relocFile.numberOfSections = 1 := by decide +kernel
  have hfirst : ∀ {P : Nat → Prop}, P 0 → ∀ i < relocFile.numberOfSections, P i := by
    intro P hzero i hi
    rw [hone, Nat.lt_one_iff] at hi
    rwa [hi]
  have hsites : relocFile.sites = [268] := by decide +kernel
  constructor
  case headers => decide +kernel
  case directory => decide +kernel
  case sectionHeaders => exact hfirst (by decide +kernel)
  case headersFit => decide +kernel
  case rawData => exact hfirst (by decide +kernel)
  case inside => exact hfirst (by decide +kernel)
  case disjoint =>
    intro i hi j hj hne
    rw [hone] at hi hj
    omega
  case table => decide +kernel
  case blockSizes => decide +kernel
  case filled => decide +kernel
  case sitesInside => rw [hsites]; decide +kernel
  case sitesOutside => rw [hsites]; decide +kernel
  case sitesApart => rw [hsites]; exact List.pairwise_singleton _ _

theorem smallVm_image : ((Mm.heapInit (Mm.smallVm fun _ => false)).bind fun h =>
    (kzalloc h relocFile.sizeOfImage).map Prod.fst) = some 0xD0000010 := by
  rw [Mm.smallVm_eq]
  decide +kernel

theorem peLoad_reference_relocFile : ∃ h fuel r img',
    Mm.heapInit (Mm.smallVm fun _ => false) = some h ∧
      peLoad fuel h (some relocFile) none (some (PeLoadedImage.named none)) = some r ∧
      r.code = 0 ∧ r.img = some img' ∧ img'.base = 0xD0000010 ∧
      ∀ o < relocFile.sizeOfImage,
        r.run.heap.bytes (0xD0000010 + o) = relocFile.reference 0xD0000010 o := by
  obtain ⟨h, hinit, hbase⟩ := Option.bind_eq_some_iff.mp smallVm_image
  obtain ⟨⟨base, h'⟩, halloc, hp⟩ := Option.map_eq_some_iff.mp hbase
  obtain rfl : base = 0xD0000010 := hp
  have htables := (Mm.mapsMore_init Mm.tablesOk_smallVm hinit).tables
  obtain ⟨fuel, r, img', hrun⟩ := peLoad_reference relocFile_wellFormed htables halloc (by decide)
    (by decide +kernel) none (PeLoadedImage.named none)
  exact ⟨h, fuel, r, img', hinit, hrun⟩

end PinguinOS.Fs
