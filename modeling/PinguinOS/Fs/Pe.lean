import PinguinOS.Fs.Medium
import PinguinOS.Mm.Heap

/-! The PE32 loader: `pe_load` and `pe_apply_relocations`. -/
namespace PinguinOS.Fs

open Mm (u32 sub32 Heap kzalloc kfree touch)

def peErrNull : Int := -1
def peErrSmall : Int := -2
def peErrMz : Int := -3
def peErrPe : Int := -4
def peErrArch : Int := -5
def peErrOpt : Int := -6
def peErrAlloc : Int := -7
def peErrSection : Int := -8

def peMzSignature : Nat := 0x5A4D
def pePeSignature : Nat := 0x00004550
def peMachineI386 : Nat := 0x014C
def peOptMagicPe32 : Nat := 0x010B
def peDirBasereloc : Nat := 5
def peRelBasedHighlow : Nat := 3

/-- The file in memory: the bytes from `data` on, and how many of them belong to the file. Nothing
but a write outside of the image can change them. -/
structure PeFile where
  data : Buffer
  size : Nat
  size_lt : size < 2 ^ 32

/-- The bytes at an offset from `data`; the pointer arithmetic wraps. -/
def PeFile.at32 (f : PeFile) : Buffer := fun off => f.data (u32 off)

def PeFile.half (f : PeFile) (off : Nat) : Nat := word16 f.at32 off
def PeFile.word (f : PeFile) (off : Nat) : Nat := word32 f.at32 off

/-! The headers. -/

/-- `pe_off` -/
def PeFile.peOff (f : PeFile) : Nat := f.word 60

def PeFile.coffOff (f : PeFile) : Nat := u32 (f.peOff + 4)
def PeFile.optOff (f : PeFile) : Nat := u32 (f.coffOff + 20)
def PeFile.numberOfSections (f : PeFile) : Nat := f.half (f.coffOff + 2)
def PeFile.sizeOfOptionalHeader (f : PeFile) : Nat := f.half (f.coffOff + 16)
def PeFile.addressOfEntryPoint (f : PeFile) : Nat := f.word (f.optOff + 16)
def PeFile.imageBase (f : PeFile) : Nat := f.word (f.optOff + 28)
def PeFile.sizeOfImage (f : PeFile) : Nat := f.word (f.optOff + 56)
def PeFile.sizeOfHeaders (f : PeFile) : Nat := f.word (f.optOff + 60)
def PeFile.subsystem (f : PeFile) : Nat := f.half (f.optOff + 68)
def PeFile.numberOfRvaAndSizes (f : PeFile) : Nat := f.word (f.optOff + 92)

/-- `&dirs[PE_DIR_BASERELOC]` -/
def PeFile.relocDir (f : PeFile) : Nat := f.optOff + 96 + 8 * peDirBasereloc

def PeFile.relocRva (f : PeFile) : Nat := f.word f.relocDir
def PeFile.relocSize (f : PeFile) : Nat := f.word (f.relocDir + 4)

/-- `hdr_size` -/
def PeFile.hdrSize (f : PeFile) : Nat := min f.sizeOfHeaders f.size

/-- `&sections[i]` -/
def PeFile.sectionOff (f : PeFile) (i : Nat) : Nat := f.optOff + f.sizeOfOptionalHeader + 40 * i

/-- The fields of a section header that the loader uses. -/
structure PeSection where
  vaddr : Nat
  vsize : Nat
  rdata : Nat
  foff : Nat
  deriving DecidableEq

def PeFile.peSection (f : PeFile) (i : Nat) : PeSection where
  vaddr := f.word (f.sectionOff i + 12)
  vsize := f.word (f.sectionOff i + 8)
  rdata := f.word (f.sectionOff i + 16)
  foff := f.word (f.sectionOff i + 20)

/-! The accesses. -/

/-- The heap of the kernel while a file is loaded, what `kzalloc` has returned for the image and
its size, the ranges read from the file, by their offset, and the ranges written, by their
address. -/
structure PeRun where
  heap : Heap
  image : Option (Nat × Nat)
  reads : List (Nat × Nat)
  writes : List (Nat × Nat)

/-- Fields of the file are read. -/
def PeRun.read (s : PeRun) (fields : List (Nat × Nat)) : PeRun :=
  { s with reads := s.reads ++ fields.map fun x => (u32 x.1, x.2) }

/-- The memory after `memcpy(dst, raw + src, len)`. -/
def PeFile.copyTo (f : PeFile) (bytes : Buffer) (dst src len : Nat) : Buffer := fun a =>
  if sub32 a (u32 dst) < len then f.at32 (src + sub32 a (u32 dst)) else bytes a

/-- `memcpy(dst, raw + src, len)` -/
def PeRun.copy (s : PeRun) (f : PeFile) (dst src len : Nat) : PeRun :=
  { s with
    heap := { s.heap with bytes := f.copyTo s.heap.bytes dst src len }
    reads := s.reads ++ [(u32 src, len)]
    writes := s.writes ++ [(u32 dst, len)] }

/-- An access through a pointer, which may fault; `none` is `kpanic`. -/
def touchAt (h : Heap) (addr len : Nat) : Option Heap :=
  (touch h.vm (u32 addr) len).map fun vm => { h with vm := vm }

/-- The kernel's memory at a pointer. -/
def memory (h : Heap) : Buffer := fun a => h.bytes (u32 a)

def load16 (h : Heap) (addr : Nat) : Option (Nat × Heap) :=
  (touchAt h addr 2).map fun h => (word16 (memory h) addr, h)

def load32 (h : Heap) (addr : Nat) : Option (Nat × Heap) :=
  (touchAt h addr 4).map fun h => (word32 (memory h) addr, h)

/-- The memory after a word has been written to `addr`. -/
def storeWord (bytes : Buffer) (addr word : Nat) : Buffer := fun a =>
  if sub32 a (u32 addr) < 4 then Bytes.byteOf (BitVec.ofNat 32 word) (sub32 a (u32 addr))
  else bytes a

/-- `*patch += delta` -/
def add32 (h : Heap) (patch delta : Nat) : Option Heap :=
  (touchAt h patch 4).map fun h =>
    { h with bytes := storeWord h.bytes patch (word32 (memory h) patch + delta) }

/-! The relocation pass. -/

/-- `patch` -/
def peSite (base virtualAddress entry : Nat) : Nat := base + virtualAddress + (entry &&& 0x0FFF)

/-- `entries[i]` of the block at `reloc` -/
def peEntry (base delta reloc : Nat) (s : PeRun) (i : Nat) : Option PeRun := do
  let (entry, heap) ← load16 s.heap (reloc + 8 + 2 * i)
  if entry >>> 12 = peRelBasedHighlow then do
    let (virtualAddress, heap) ← load32 heap reloc
    let patch := peSite base virtualAddress entry
    let heap ← add32 heap patch delta
    some { s with heap := heap, writes := s.writes ++ [(u32 patch, 4)] }
  else some { s with heap := heap }

/-- `num_entries` -/
def numEntries (sizeOfBlock : Nat) : Nat := sub32 sizeOfBlock 8 / 2

/-- `while (reloc < end)`, for less than `fuel` blocks. The size of the block is read again after
its entries. -/
def peRelocWalk (base delta stop : Nat) : (fuel : Nat) → (reloc : Nat) → PeRun → Option PeRun
  | 0, _, _ => none
  | fuel + 1, reloc, s =>
    if stop ≤ reloc then some s
    else do
      let (sizeOfBlock, heap) ← load32 s.heap (reloc + 4)
      if sizeOfBlock = 0 then some { s with heap := heap }
      else do
        let s ← (List.range (numEntries sizeOfBlock)).foldlM (peEntry base delta reloc)
          { s with heap := heap }
        let (sizeOfBlock, heap) ← load32 s.heap (reloc + 4)
        peRelocWalk base delta stop fuel (u32 (reloc + sizeOfBlock)) { s with heap := heap }

def peApplyRelocations (fuel base relocRva relocSize delta : Nat) (s : PeRun) : Option PeRun :=
  if delta = 0 ∨ relocSize = 0 then some s
  else
    let reloc := u32 (base + relocRva)
    peRelocWalk base delta (u32 (reloc + relocSize)) fuel reloc s

/-! `pe_load` -/

/-- A header of `len` bytes at `off`, whose first field of `width` bytes has to be `magic`, and the
fields of it that are read when it is. -/
structure PeHeader where
  off : Nat
  len : Nat
  width : Nat
  field : Nat
  magic : Nat
  err : Int
  fields : List (Nat × Nat)

def PeFile.dosHeader (f : PeFile) : PeHeader :=
  ⟨0, 64, 2, f.half 0, peMzSignature, peErrMz, [(60, 4)]⟩

def PeFile.signature (f : PeFile) : PeHeader :=
  ⟨f.peOff, 4, 4, f.word f.peOff, pePeSignature, peErrPe, []⟩

def PeFile.fileHeader (f : PeFile) : PeHeader :=
  ⟨f.coffOff, 20, 2, f.half f.coffOff, peMachineI386, peErrArch, []⟩

def PeFile.optionalHeader (f : PeFile) : PeHeader :=
  ⟨f.optOff, 96, 2, f.half f.optOff, peOptMagicPe32, peErrOpt, []⟩

/-- The headers in the order of the steps 1 to 4. -/
def PeFile.headers (f : PeFile) : List PeHeader :=
  [f.dosHeader, f.signature, f.fileHeader, f.optionalHeader]

/-- The checks of the headers: what has been read, and the error of the first that fails. -/
def peCheckHeaders (size : Nat) : List PeHeader → PeRun → PeRun × Option Int
  | [], s => (s, none)
  | hdr :: rest, s =>
    if u32 (hdr.off + hdr.len) > size then (s, some peErrSmall)
    else
      let s := s.read [(hdr.off, hdr.width)]
      if hdr.field ≠ hdr.magic then (s, some hdr.err)
      else peCheckHeaders size rest (s.read hdr.fields)

/-- The section does not fit into the image. -/
def PeSection.overflows (sec : PeSection) (imageSize : Nat) : Bool :=
  decide (u32 (sec.vaddr + sec.vsize) > imageSize)

/-- `copy`, or 0 where no raw data is copied. -/
def PeSection.copyLen (sec : PeSection) (size : Nat) : Nat :=
  if 0 < sec.rdata ∧ u32 (sec.foff + sec.rdata) ≤ size then
    if sec.rdata < sec.vsize then sec.rdata else sec.vsize
  else 0

/-- The next `n` turns of the loop over the sections; `false` is a section that does not fit. -/
def peLoadSections (f : PeFile) (base : Nat) : (n i : Nat) → PeRun → Bool × PeRun
  | 0, _, s => (true, s)
  | n + 1, i, s =>
    let sec := f.peSection i
    let s := s.read [(f.sectionOff i, 24)]
    if sec.overflows f.sizeOfImage then (false, s)
    else
      let s := s.copy f (base + sec.vaddr) sec.foff (sec.copyLen f.size)
      peLoadSections f base n (i + 1) (s.read [(f.sectionOff i + 36, 4)])

/-- `pe_loaded_image_t` -/
structure PeLoadedImage where
  base : Nat
  imageSize : Nat
  entryPoint : Nat
  numSections : Nat
  subsystem : Nat
  name : List (BitVec 8)
  loaded : Bool

/-- The image after `memset` and `strncpy`. -/
def PeLoadedImage.named (name : Option (List (BitVec 8))) : PeLoadedImage :=
  ⟨0, 0, 0, 0, 0, (name.getD []).take 31, false⟩

/-- What `pe_load` returns and leaves behind. -/
structure PeOutcome where
  code : Int
  img : Option PeLoadedImage
  run : PeRun

/-- `delta` -/
def PeFile.delta (f : PeFile) (base : Nat) : Nat := sub32 base f.imageBase

/-- Step 7. -/
def peRelocate (fuel : Nat) (f : PeFile) (base : Nat) (s : PeRun) : Option PeRun :=
  if f.delta base ≠ 0 then
    let s := s.read [(f.optOff + 92, 4)]
    if f.numberOfRvaAndSizes > peDirBasereloc then
      let s := s.read [(f.relocDir, 4), (f.relocDir + 4, 4)]
      if f.relocRva ≠ 0 ∧ f.relocSize ≠ 0 then
        peApplyRelocations fuel base f.relocRva f.relocSize (f.delta base) s
      else some s
    else some s
  else some s

/-- The steps 5 to 7, with all headers in order. -/
def peLoadImage (fuel : Nat) (f : PeFile) (img : PeLoadedImage) (s : PeRun) : Option PeOutcome := do
  let s := s.read [(f.optOff + 28, 4), (f.optOff + 56, 4), (f.optOff + 16, 4), (f.coffOff + 2, 2)]
  let (base, heap) ← kzalloc s.heap f.sizeOfImage
  if base = 0 then some ⟨peErrAlloc, img, { s with heap := heap }⟩
  else do
    let s := { s with heap := heap, image := some (base, f.sizeOfImage) }
    let s := (s.read [(f.optOff + 60, 4)]).copy f base 0 f.hdrSize
    let (whole, s) := peLoadSections f base f.numberOfSections 0 (s.read [(f.coffOff + 16, 2)])
    if !whole then do
      let heap ← kfree s.heap base
      some ⟨peErrSection, img, { s with heap := heap }⟩
    else do
      let s ← peRelocate fuel f base s
      some ⟨0, some
        { img with
          base := base
          imageSize := f.sizeOfImage
          entryPoint := u32 (base + f.addressOfEntryPoint)
          numSections := f.numberOfSections
          subsystem := f.subsystem
          loaded := true }, s.read [(f.optOff + 68, 2)]⟩

/-- `pe_load`, with less than `fuel` relocation blocks; `none` is a NULL pointer among the
arguments, and a call that does not return in the result. -/
def peLoad (fuel : Nat) (heap : Heap) (data : Option PeFile) (name : Option (List (BitVec 8)))
    (img : Option PeLoadedImage) : Option PeOutcome :=
  let s : PeRun := ⟨heap, none, [], []⟩
  match data, img with
  | some f, some _ =>
    let img := PeLoadedImage.named name
    match peCheckHeaders f.size f.headers s with
    | (s, some err) => some ⟨err, some img, s⟩
    | (s, none) => peLoadImage fuel f img s
  | _, _ => some ⟨peErrNull, img, s⟩

end PinguinOS.Fs
