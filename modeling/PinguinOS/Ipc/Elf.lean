import PinguinOS.Fs.Medium
import PinguinOS.Mm.Write

/-! The ELF32 loader: `elf32_load`. -/
namespace PinguinOS.Ipc

open Mm (Vm Process u32 sub32 alignUp alignDown pageSize pagingMapPage writeByte pdePresent
  pdeWritable pdeUser)
open Fs (Buffer bytesAt word16 word32)

/-- `ELF_MAGIC0` to `ELF_MAGIC3` -/
def elfMagic : List (BitVec 8) := [0x7F, 0x45, 0x4C, 0x46]
def etExec : Nat := 2
def em386 : Nat := 3
def ptLoad : Nat := 1

/-- `sizeof(elf32_hdr_t)` -/
def elfHeaderSize : Nat := 52

/-- The file in memory: the bytes from `elf_data` on, and `elf_size`. Nothing but a write outside of
the pages of the load can change them. -/
structure ElfFile where
  data : Buffer
  size : Nat
  size_lt : size < 2 ^ 32

/-- The bytes at an offset from `elf_data`; the pointer arithmetic wraps. -/
def ElfFile.at32 (f : ElfFile) : Buffer := fun off => f.data (u32 off)

def ElfFile.half (f : ElfFile) (off : Nat) : Nat := word16 f.at32 off
def ElfFile.word (f : ElfFile) (off : Nat) : Nat := word32 f.at32 off

def ElfFile.eType (f : ElfFile) : Nat := f.half 16
def ElfFile.eMachine (f : ElfFile) : Nat := f.half 18
def ElfFile.eEntry (f : ElfFile) : Nat := f.word 24
def ElfFile.ePhoff (f : ElfFile) : Nat := f.word 28
def ElfFile.ePhnum (f : ElfFile) : Nat := f.half 44

/-- `&phdrs[i]` -/
def ElfFile.phdr (f : ElfFile) (i : Nat) : Nat := f.ePhoff + 32 * i

/-- The fields of a program header that the loader uses. -/
structure ElfPhdr where
  type : Nat
  offset : Nat
  vaddr : Nat
  filesz : Nat
  memsz : Nat
  deriving DecidableEq

def ElfFile.ph (f : ElfFile) (i : Nat) : ElfPhdr where
  type := f.word (f.phdr i)
  offset := f.word (f.phdr i + 4)
  vaddr := f.word (f.phdr i + 8)
  filesz := f.word (f.phdr i + 16)
  memsz := f.word (f.phdr i + 20)

/-- `pages`; the sum and the difference wrap. -/
def ElfPhdr.pages (ph : ElfPhdr) : Nat :=
  sub32 (alignUp (u32 (ph.vaddr + ph.memsz)) pageSize) (alignDown ph.vaddr pageSize) / pageSize

/-- `vaddr + p * PAGE_SIZE` -/
def ElfPhdr.pageAddr (ph : ElfPhdr) (p : Nat) : Nat :=
  u32 (alignDown ph.vaddr pageSize + u32 (p * pageSize))

/-- What a load does to the file and to memory. -/
inductive ElfEvent
  /-- `len` bytes are read, from an offset on. -/
  | read (off len : Nat)
  /-- `paging_map_page` has entered the page with this number. -/
  | mapped (page : Nat)
  /-- A byte is written, or the write faults and does not return. -/
  | store (addr : Nat)
  deriving DecidableEq

/-- Memory during a load, and what the load has done, the last event first. -/
structure ElfRun where
  vm : Vm
  trace : List ElfEvent

def ElfRun.read (r : ElfRun) (off len : Nat) : ElfRun :=
  { r with trace := .read (u32 off) len :: r.trace }

/-- How a step of the loader ends. -/
inductive ElfEnd
  | next
  | returns (code : Int)
  /-- A write does not return. -/
  | stuck
  deriving DecidableEq

/-- The loader goes on with `k`, unless it has stopped. -/
def andThen (step : ElfEnd × ElfRun) (k : ElfRun → ElfEnd × ElfRun) : ElfEnd × ElfRun :=
  match step with
  | (.next, r) => k r
  | stopped => stopped

def elfFlags : BitVec 32 := pdePresent ||| pdeWritable ||| pdeUser

/-- The loop over the pages of a segment, from page `p` on, with `n` pages to go. -/
def elfMapPages (ph : ElfPhdr) : (n p : Nat) → ElfRun → ElfEnd × ElfRun
  | 0, _, r => (.next, r)
  | n + 1, p, r =>
    let (phys, vm) := r.vm.allocPage
    if phys = 0 then (.returns (-5), { r with vm := vm })
    else
      let (result, vm) := pagingMapPage vm (ph.pageAddr p) phys elfFlags
      let trace := if result = 0 then .mapped (ph.pageAddr p / pageSize) :: r.trace else r.trace
      elfMapPages ph n (p + 1) ⟨vm, trace⟩

/-- The bytes `i` to `i + n` from `dst` on are written: `memset` and `memcpy`. -/
def elfWrite (current : Option Process) (faults dst : Nat) (byte : Nat → BitVec 8) :
    (n i : Nat) → ElfRun → ElfEnd × ElfRun
  | 0, _, r => (.next, r)
  | n + 1, i, r =>
    let trace := .store (u32 (dst + i)) :: r.trace
    match writeByte current faults r.vm (u32 (dst + i)) (byte i) with
    | none => (.stuck, { r with trace := trace })
    | some vm => elfWrite current faults dst byte n (i + 1) ⟨vm, trace⟩

/-- `memset(dst, 0, ph->p_memsz)` -/
def elfClear (current : Option Process) (faults : Nat) (ph : ElfPhdr) (r : ElfRun) :
    ElfEnd × ElfRun :=
  elfWrite current faults ph.vaddr (fun _ => 0) ph.memsz 0 r

/-- `memcpy(dst, elf_data + ph->p_offset, ph->p_filesz)` -/
def elfCopy (current : Option Process) (faults : Nat) (f : ElfFile) (ph : ElfPhdr) (r : ElfRun) :
    ElfEnd × ElfRun :=
  elfWrite current faults ph.vaddr (fun j => f.at32 (ph.offset + j)) ph.filesz 0
    (r.read ph.offset ph.filesz)

/-- The data of the header `i` is copied, if the wrapped end lies inside the file. -/
def elfFill (current : Option Process) (faults : Nat) (f : ElfFile) (i : Nat) (r : ElfRun) :
    ElfEnd × ElfRun :=
  let r := r.read (f.phdr i + 16) 4
  if (f.ph i).filesz = 0 then (.next, r)
  else
    let r := r.read (f.phdr i + 4) 4
    if u32 ((f.ph i).offset + (f.ph i).filesz) ≤ f.size then
      elfCopy current faults f (f.ph i) r
    else (.next, r)

/-- The body of the loop over the program headers, for a header `i` of type PT_LOAD. -/
def elfLoadSegment (current : Option Process) (faults : Nat) (f : ElfFile) (i : Nat) (r : ElfRun) :
    ElfEnd × ElfRun :=
  andThen (elfMapPages (f.ph i) (f.ph i).pages 0 ((r.read (f.phdr i + 8) 4).read (f.phdr i + 20) 4))
    fun r => andThen (elfClear current faults (f.ph i) r) fun r => elfFill current faults f i r

/-- The loop over the program headers, from header `i` on, with `n` headers to go. -/
def elfLoadHeaders (current : Option Process) (faults : Nat) (f : ElfFile) :
    (n i : Nat) → ElfRun → ElfEnd × ElfRun
  | 0, _, r => (.next, r)
  | n + 1, i, r =>
    let r := r.read (f.phdr i) 4
    if (f.ph i).type ≠ ptLoad then elfLoadHeaders current faults f n (i + 1) r
    else
      andThen (elfLoadSegment current faults f i r) fun r =>
        elfLoadHeaders current faults f n (i + 1) r

/-- The checks of the ELF header. -/
def elfCheckHeader (f : ElfFile) (r : ElfRun) : ElfEnd × ElfRun :=
  let r := r.read 0 4
  if bytesAt f.at32 0 4 ≠ elfMagic then (.returns (-2), r)
  else
    let r := r.read 16 2
    if f.eType ≠ etExec then (.returns (-3), r)
    else
      let r := r.read 18 2
      if f.eMachine ≠ em386 then (.returns (-4), r)
      else (.next, (r.read 28 4).read 44 2)

/-- What `elf32_load` returns, `none` where it does not, what it stores in `*entry_out`, and what
it has done. -/
structure ElfOutcome where
  code : Option Int
  entry : Option Nat
  run : ElfRun

/-- The value returned, with `*entry_out` when all headers are done. -/
def ElfOutcome.of (f : ElfFile) (entryOut : Bool) : ElfEnd × ElfRun → ElfOutcome
  | (.next, r) => ⟨some 0, if entryOut then some f.eEntry else none, r.read 24 4⟩
  | (.returns code, r) => ⟨some code, none, r⟩
  | (.stuck, r) => ⟨none, none, r⟩

/-- `elf32_load`, when no write faults more than `faults` times; `none` is a NULL pointer. -/
def elf32Load (current : Option Process) (faults : Nat) (v : Vm) (data : Option ElfFile)
    (entryOut : Bool) : ElfOutcome :=
  let r : ElfRun := ⟨v, []⟩
  match data with
  | none => ⟨some (-1), none, r⟩
  | some f =>
    if f.size < elfHeaderSize then ⟨some (-1), none, r⟩
    else
      .of f entryOut <| andThen (elfCheckHeader f r) fun r =>
        elfLoadHeaders current faults f f.ePhnum 0 r
variable {step : ElfEnd × ElfRun} {k : ElfRun → ElfEnd × ElfRun} {r : ElfRun}

theorem andThen_next (h : andThen step k = (.next, r)) :
    ∃ r', step = (.next, r') ∧ k r' = (.next, r) := by
  obtain ⟨e, r'⟩ := step
  cases e with
  | next => exact ⟨r', rfl, h⟩
  | returns code => cases h
  | stuck => cases h

end PinguinOS.Ipc
