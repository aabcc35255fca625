import PinguinOS.Fs.Vfs
import PinguinOS.Lib.Stored
import PinguinOS.Mm.BootModules

/-! The initial RAM disk: a PIRD archive in a boot module, read in place. -/
namespace PinguinOS.Fs

open Mm (Mem Ledger BootStep MultibootInfo pmmInit Overlaps Reserved u32 u32_lt u32_of_lt pageSize
  bitmapBytes)
open Stored (StoredAt storedAt_append)

def initrdMagic : Nat := 0x50495244
def initrdNameLen : Nat := 64
def initrdMaxFiles : Nat := 64

/-- `initrd_datei_t` -/
structure InitrdDatei where
  name : CStr
  /-- The address of the data in the module. -/
  daten : Nat
  groesse : Nat

/-- What `strncpy(dateien[i].name, p, INITRD_NAME_LEN - 1)` leaves in a cleared entry. -/
def initrdName (m : Mem) (p : Nat) : CStr :=
  ((List.range (initrdNameLen - 1)).map fun i => Bytes.byte m (u32 (p + i))).takeWhile (· ≠ 0)

/-- The loop of `initrd_init`, with the number of files still to be read. -/
def initrdFiles (m : Mem) (ende : Nat) : Nat → Nat → List InitrdDatei
  | 0, _ => []
  | anzahl + 1, p =>
    if u32 (p + initrdNameLen + 4) ≤ ende then
      let name := initrdName m p
      let p := u32 (p + initrdNameLen)
      let groesse := Bytes.readPtr m p
      let p := u32 (p + 4)
      if u32 (p + groesse) > ende then []
      else ⟨name, p, groesse⟩ :: initrdFiles m ende anzahl (u32 (p + groesse))
    else []

/-- `initrd_init`: the first `datei_count` entries of the file table. -/
def initrdInit (m : Mem) (modsAddr : Nat) : List InitrdDatei :=
  if modsAddr = 0 then []
  else
    let modStart := Bytes.readPtr m modsAddr
    let modEnd := Bytes.readPtr m (u32 (modsAddr + 4))
    if modEnd ≤ u32 (modStart + 8) then []
    else
      let magic := Bytes.readPtr m modStart
      let anzahl := Bytes.readPtr m (u32 (modStart + 4))
      if magic ≠ initrdMagic then []
      else initrdFiles m modEnd (min anzahl initrdMaxFiles) (u32 (modStart + 8))

/-- `initrd_get_file`: the pointer it returns and `*size_out`. -/
def initrdGetFile (dateien : List InitrdDatei) (name : CStr) : Option (Nat × Nat) :=
  (dateien.find? fun d => d.name = name).map fun d => (d.daten, d.groesse)

/-- `initrd_read` of the node with the given `inode_num`: the bytes copied, none for -1. -/
def initrdRead (m : Mem) (dateien : List InitrdDatei) (inodeNum offset size : Nat) :
    Option CStr :=
  dateien[inodeNum]?.map fun d =>
    if offset ≥ d.groesse then []
    else
      let rest := d.groesse - offset
      let kopieren := if rest < size then rest else size
      (List.range kopieren).map fun i => Bytes.byte m (u32 (d.daten + offset + i))

/-! The archive format. -/

structure PirdFile where
  name : CStr
  data : CStr
  name_length : name.length = initrdNameLen

/-- A number as four bytes, the lowest first. -/
def le32 (n : Nat) : CStr := (List.range 4).map fun j => Bytes.byteOf (BitVec.ofNat 32 n) j

def PirdFile.bytes (f : PirdFile) : CStr := f.name ++ le32 f.data.length ++ f.data

def pirdBytes (files : List PirdFile) : CStr :=
  le32 initrdMagic ++ le32 files.length ++ files.flatMap PirdFile.bytes

/-- The name as a string, which has no room for a 64th byte. -/
def PirdFile.cname (f : PirdFile) : CStr := (f.name.take (initrdNameLen - 1)).takeWhile (· ≠ 0)

/-- `dateien` names the data of the archive, as long as `m` is the memory. -/
structure ServesArchive (dateien : List InitrdDatei) (m : Mem) (files : List PirdFile) : Prop where
  getFile : ∀ name, ((initrdGetFile dateien name).map fun d =>
      (List.range d.2).map fun i => Bytes.byte m (d.1 + i)) =
    ((files.take initrdMaxFiles).find? fun f => f.cname = name).map PirdFile.data
  read : ∀ idx offset size, initrdRead m dateien idx offset size =
    (files.take initrdMaxFiles)[idx]?.map fun f => (f.data.drop offset).take size

variable {m m' : Mem} {a n p ende modStart modEnd modsAddr : Nat} {xs ys : CStr} {f : PirdFile}
  {d : InitrdDatei} {files : List PirdFile} {dateien : List InitrdDatei}

theorem le32_length : (le32 n).length = 4 := rfl

theorem storedAt_readPtr (h : StoredAt (Bytes.byte m) a (le32 n)) (hn : n < 2 ^ 32) :
    Bytes.readPtr m a = n := by
  have hword : Bytes.ofBytes (fun j => Bytes.byte m (a + j)) = BitVec.ofNat 32 n := by
    calc Bytes.ofBytes (fun j => Bytes.byte m (a + j))
        = Bytes.ofBytes (fun j => Bytes.byteOf (BitVec.ofNat 32 n) j) := by
          refine Bytes.ofBytes_congr fun j hj => ?_
          rw [h j hj]
          simp [le32]
      _ = BitVec.ofNat 32 n := Bytes.ofBytes_byteOf
  unfold Bytes.readPtr
  rw [hword, BitVec.toNat_ofNat, Nat.mod_eq_of_lt hn]

/-! What `initrd_init` makes of an archive. -/

/-- The entry names the file's data, inside `[lo, hi)`. -/
structure Entry (m : Mem) (lo hi : Nat) (d : InitrdDatei) (f : PirdFile) : Prop where
  name : d.name = f.cname
  groesse : d.groesse = f.data.length
  low : lo ≤ d.daten
  high : d.daten + f.data.length ≤ hi
  stored : StoredAt (Bytes.byte m) d.daten f.data

theorem PirdFile.length_bytes : f.bytes.length = initrdNameLen + 4 + f.data.length := by
  unfold PirdFile.bytes
  rw [List.length_append, List.length_append, f.name_length, le32_length]

theorem length_le_flatMap : files.length ≤ (files.flatMap PirdFile.bytes).length := by
  induction files with
  | nil => exact Nat.le_refl 0
  | cons f files ih =>
    rw [List.length_cons, List.flatMap_cons, List.length_append, f.length_bytes]
    unfold initrdNameLen
    omega

theorem initrdName_stored (h : StoredAt (Bytes.byte m) p f.name) (hp : p + initrdNameLen < 2 ^ 32) :
    initrdName m p = f.cname := by
  have hlength := f.name_length
  have hnames : ((List.range (initrdNameLen - 1)).map fun i => Bytes.byte m (u32 (p + i))) =
      (List.range (initrdNameLen - 1)).map fun i => Bytes.byte m (p + i) := by
    refine List.map_congr_left fun i hi => ?_
    have hlt := List.mem_range.mp hi
    rw [u32_of_lt (by omega)]
  unfold initrdName PirdFile.cname
  rw [hnames, h.map_range (by omega)]

theorem initrdFiles_stored (h : StoredAt (Bytes.byte m) p (files.flatMap PirdFile.bytes))
    (hlo : modStart ≤ p)
    (hend : p + (files.flatMap PirdFile.bytes).length ≤ ende) (hende : ende < 2 ^ 32)
    (hn : n ≤ files.length) :
    List.Forall₂ (Entry m modStart ende) (initrdFiles m ende n p) (files.take n) := by
  induction files generalizing n p with
  | nil =>
    have hzero : n = 0 := Nat.le_zero.mp hn
    subst hzero
    exact List.Forall₂.nil
  | cons f files ih =>
    cases n with
    | zero => exact List.Forall₂.nil
    | succ n =>
      rw [List.flatMap_cons, storedAt_append] at h
      rw [List.flatMap_cons, List.length_append] at hend
      have hlength := f.length_bytes
      obtain ⟨hfile, hrest⟩ := h
      unfold PirdFile.bytes at hfile
      rw [storedAt_append, storedAt_append, List.length_append, f.name_length, le32_length] at hfile
      obtain ⟨⟨hname, hsize⟩, hdata⟩ := hfile
      have hgroesse : Bytes.readPtr m (p + initrdNameLen) = f.data.length :=
        storedAt_readPtr hsize (by omega)
      unfold initrdFiles
      dsimp only
      rw [u32_of_lt (by omega : p + initrdNameLen + 4 < 2 ^ 32), if_pos (by omega),
        u32_of_lt (by omega : p + initrdNameLen < 2 ^ 32), hgroesse,
        u32_of_lt (by omega : p + initrdNameLen + 4 < 2 ^ 32),
        u32_of_lt (by omega : p + initrdNameLen + 4 + f.data.length < 2 ^ 32),
        if_neg (by omega), List.take_succ_cons]
      refine List.Forall₂.cons ⟨?_, rfl, ?_, ?_, ?_⟩ ?_
      · exact initrdName_stored hname (by omega)
      · dsimp only
        omega
      · dsimp only
        omega
      · rwa [← Nat.add_assoc] at hdata
      · refine ih ?_ (by omega) (by omega) (Nat.le_of_succ_le_succ hn)
        rwa [hlength, ← Nat.add_assoc, ← Nat.add_assoc] at hrest

/-- The module that the descriptor at `mods_addr` names holds an archive. -/
theorem initrdInit_stored (hmods : modsAddr ≠ 0) (hstart : Bytes.readPtr m modsAddr = modStart)
    (hend : Bytes.readPtr m (u32 (modsAddr + 4)) = modEnd) (hlt : modEnd < 2 ^ 32)
    (h : StoredAt (Bytes.byte m) modStart (pirdBytes files))
    (hfits : modStart + (pirdBytes files).length ≤ modEnd) :
    List.Forall₂ (Entry m modStart modEnd) (initrdInit m modsAddr)
      (files.take initrdMaxFiles) := by
  have hlength : (pirdBytes files).length = 8 + (files.flatMap PirdFile.bytes).length := by
    unfold pirdBytes
    rw [List.length_append, List.length_append, le32_length, le32_length]
  unfold pirdBytes at h
  rw [storedAt_append, storedAt_append, List.length_append, le32_length, le32_length] at h
  obtain ⟨⟨hmagic, hanzahl⟩, hfiles⟩ := h
  unfold initrdInit
  rw [if_neg hmods, hstart, hend]
  dsimp only
  rw [u32_of_lt (by omega : modStart + 8 < 2 ^ 32), u32_of_lt (by omega : modStart + 4 < 2 ^ 32),
    storedAt_readPtr hmagic (by decide), if_neg (fun hne : initrdMagic ≠ initrdMagic => hne rfl)]
  split_ifs with hempty
  · -- a module of eight bytes has no room for a file
    have hnone : files = [] := by
      cases files with
      | nil => rfl
      | cons f files =>
        rw [List.flatMap_cons, List.length_append, f.length_bytes] at hlength
        omega
    subst hnone
    exact List.Forall₂.nil
  · have hcount := @length_le_flatMap files
    have hcount : files.length < 2 ^ 32 := by omega
    rw [storedAt_readPtr hanzahl hcount]
    have htaken : files.take initrdMaxFiles = files.take (min files.length initrdMaxFiles) := by
      rw [Nat.min_comm, ← List.take_eq_take_min]
    rw [htaken]
    exact initrdFiles_stored hfiles (by omega) (by omega) hlt (Nat.min_le_left _ _)

/-! What is read through the table, at any later time. -/

theorem Entry.later (h : Entry m modStart modEnd d f)
    (hsame : ∀ a, modStart ≤ a → a < modEnd → Bytes.byte m' a = Bytes.byte m a) :
    Entry m' modStart modEnd d f := by
  have hlow := h.low
  have hhigh := h.high
  exact ⟨h.name, h.groesse, hlow, hhigh,
    h.stored.congr fun b hge hlt => hsame b (by omega) (by omega)⟩

theorem getFile_entries (h : List.Forall₂ (Entry m modStart modEnd) dateien files) (name : CStr) :
    ((initrdGetFile dateien name).map fun d =>
      (List.range d.2).map fun i => Bytes.byte m (d.1 + i)) =
    (files.find? fun f => f.cname = name).map PirdFile.data := by
  unfold initrdGetFile
  induction h with
  | nil => rfl
  | @cons d f dateien files hd _ ih =>
    by_cases hname : f.cname = name
    · have hfound : ((d :: dateien).find? fun d => d.name = name) = some d :=
        List.find?_cons_of_pos (decide_eq_true (hd.name.trans hname))
      have hfound' : ((f :: files).find? fun f => f.cname = name) = some f :=
        List.find?_cons_of_pos (decide_eq_true hname)
      rw [hfound, hfound', Option.map_some, Option.map_some, Option.map_some, hd.groesse,
        hd.stored.map_range (Nat.le_refl _), List.take_length]
    · have hskip : ((d :: dateien).find? fun d => d.name = name) =
          dateien.find? fun d => d.name = name := by
        refine List.find?_cons_of_neg ?_
        rw [decide_eq_true_eq, hd.name]
        exact hname
      have hskip' : ((f :: files).find? fun f => f.cname = name) =
          files.find? fun f => f.cname = name := by
        refine List.find?_cons_of_neg ?_
        rw [decide_eq_true_eq]
        exact hname
      rw [hskip, hskip']
      exact ih

theorem read_entry (h : Entry m modStart modEnd d f) (hend : modEnd < 2 ^ 32) (offset size : Nat) :
    (if offset ≥ d.groesse then []
    else (List.range (if d.groesse - offset < size then d.groesse - offset else size)).map
      fun i => Bytes.byte m (u32 (d.daten + offset + i))) = (f.data.drop offset).take size := by
  have hhigh := h.high
  rw [h.groesse]
  split_ifs with hpast hrest
  · rw [List.drop_eq_nil_of_le hpast, List.take_nil]
  all_goals
    refine List.ext_getElem (by simp; omega) fun i hi hi' => ?_
    rw [List.length_map, List.length_range] at hi
    rw [List.getElem_map, List.getElem_range, List.getElem_take, List.getElem_drop,
      u32_of_lt (by omega), Nat.add_assoc]
    exact h.stored (offset + i) (by omega)

theorem read_entries (h : List.Forall₂ (Entry m modStart modEnd) dateien files)
    (hend : modEnd < 2 ^ 32) (idx offset size : Nat) :
    initrdRead m dateien idx offset size =
      files[idx]?.map fun f => (f.data.drop offset).take size := by
  unfold initrdRead
  induction h generalizing idx with
  | nil => rfl
  | @cons d f dateien files hd _ ih =>
    cases idx with
    | zero => exact congrArg some (read_entry hd hend offset size)
    | succ idx => exact ih idx

theorem servesArchive (hmods : modsAddr ≠ 0) (hstart : Bytes.readPtr m modsAddr = modStart)
    (hend : Bytes.readPtr m (u32 (modsAddr + 4)) = modEnd) (hlt : modEnd < 2 ^ 32)
    (h : StoredAt (Bytes.byte m) modStart (pirdBytes files))
    (hfits : modStart + (pirdBytes files).length ≤ modEnd)
    (hsame : ∀ a, modStart ≤ a → a < modEnd → Bytes.byte m' a = Bytes.byte m a) :
    ServesArchive (initrdInit m modsAddr) m' files := by
  have hentries : List.Forall₂ (Entry m' modStart modEnd) (initrdInit m modsAddr)
      (files.take initrdMaxFiles) :=
    (initrdInit_stored hmods hstart hend hlt h hfits).imp fun d f hd => hd.later hsame
  exact ⟨getFile_entries hentries, read_entries hentries hlt⟩

/-! Whole runs. -/

/-- What a boot module needs of every run after `pmm_init`, with `initrd_init` called somewhere in
it and the files read later. -/
def ModuleIntact (mbi : MultibootInfo) (kernStart kernEnd : Nat) (mem : Mem)
    (modStart modEnd : Nat) : Prop :=
  ∀ earlier l, Run.EveryStep Ledger.bootStep (fun l s _ => l.Permitted s)
      ⟨pmmInit mbi kernStart kernEnd mem, []⟩ earlier →
    Run.run Ledger.bootStep ⟨pmmInit mbi kernStart kernEnd mem, []⟩ earlier = some l →
    l.Avoids modStart modEnd ∧
    ∀ modsAddr files, modsAddr ≠ 0 → Bytes.readPtr l.pmm.mem modsAddr = modStart →
      Bytes.readPtr l.pmm.mem (u32 (modsAddr + 4)) = modEnd →
      StoredAt (Bytes.byte mem) modStart (pirdBytes files) → modStart + (pirdBytes files).length ≤ modEnd →
      ∀ later l', Run.EveryStep Ledger.bootStep (fun l s _ => l.Permitted s) l later →
        Run.run Ledger.bootStep l later = some l' →
        ServesArchive (initrdInit l.pmm.mem modsAddr) l'.pmm.mem files

variable {mbi : MultibootInfo} {kernStart kernEnd pfn : Nat} {mem : Mem}

/-- A page that `pmm_init` frees is handed out by some run. -/
theorem not_moduleIntact (hs : kernStart < 2 ^ 32) (he : kernEnd < 2 ^ 32)
    (halign : kernEnd % pageSize = 0) (hpfn : pfn < mbi.totalPages)
    (hover : Overlaps pfn modStart modEnd) (hfrees : mbi.Frees pfn)
    (hres : ¬ Reserved kernStart kernEnd mbi.totalPages pfn) :
    ¬ ModuleIntact mbi kernStart kernEnd mem modStart modEnd := by
  intro h
  have hclear : Mm.bitmapTest (pmmInit mbi kernStart kernEnd mem) pfn = false :=
    (Mm.pmmInit_clear_of_lt hs he halign hpfn).mpr ⟨hfrees, hres⟩
  have hpos : 0 < pfn := Nat.pos_of_ne_zero fun hzero => hres (Or.inl hzero)
  have hlt : pfn < (pmmInit mbi kernStart kernEnd mem).totalPages := by
    rwa [Mm.pmmInit_totalPages]
  obtain ⟨n, l, hrun, hmem⟩ := Mm.exists_run_outstanding
    (l := ⟨pmmInit mbi kernStart kernEnd mem, []⟩) (Mm.sane_pmmInit hs he halign) hpos hlt hclear
  have havoids := (h _ l Mm.permitted_allocPage hrun).1
  exact havoids _ hmem pfn (Nat.le_refl pfn) (Nat.lt_succ_self pfn) hover

/-- A module stays intact exactly when `pmm_init` frees none of its pages but reserved ones. -/
theorem moduleIntact_iff (hs : kernStart < 2 ^ 32) (he : kernEnd < 2 ^ 32)
    (halign : kernEnd % pageSize = 0) (hend : modEnd < 2 ^ 32)
    (hoff : modEnd ≤ kernEnd ∨ kernEnd + bitmapBytes mbi.totalPages ≤ modStart) :
    ModuleIntact mbi kernStart kernEnd mem modStart modEnd ↔
      ∀ pfn < mbi.totalPages, Overlaps pfn modStart modEnd → mbi.Frees pfn →
        Reserved kernStart kernEnd mbi.totalPages pfn := by
  constructor
  · intro h pfn hpfn hover hfrees
    by_contra hres
    exact not_moduleIntact hs he halign hpfn hover hfrees hres h
  · intro h earlier l hearlier hrun
    have hsane := @Mm.sane_pmmInit kernStart kernEnd mbi mem hs he halign
    have hshelter : Mm.Sheltered kernEnd mbi.totalPages (pmmInit mbi kernStart kernEnd mem)
        modStart modEnd := by
      refine ⟨fun pfn hpfn hover => ?_, hoff⟩
      by_contra hclear
      obtain ⟨hfrees, hres⟩ :=
        (Mm.pmmInit_clear_of_lt hs he halign hpfn).mp (eq_false_of_ne_true hclear)
      exact hres (h pfn hpfn hover hfrees)
    have hkeeps := (Mm.keepsModule_pmmInit hs he halign hoff).run hsane hshelter hearlier hrun
    refine ⟨hkeeps.traced.avoids hshelter, ?_⟩
    intro modsAddr files hmods hstart hstop hstored hfits later l' hlater hrun'
    have hkeeps' := hkeeps.run hsane hshelter hlater hrun'
    refine servesArchive hmods hstart hstop hend (hstored.congr fun b hge hlt => ?_) hfits ?_
    · exact hkeeps.holds b hge (by omega)
    · intro a hlo hhi
      exact (hkeeps'.holds a hlo hhi).trans (hkeeps.holds a hlo hhi).symm

/-- A module behind the last page of RAM that the allocator manages. -/
theorem moduleIntact_oneRegion :
    ModuleIntact (Mm.oneRegion 0x100000 0x100000) 0x100000 0x101000 (fun _ => 0)
      0x200000 0x200100 := by
  refine (moduleIntact_iff (by decide) (by decide) (by decide) (by decide) (Or.inr ?_)).mpr ?_
  · rw [Mm.oneRegion_totalPages]
    decide
  · intro pfn hpfn hover
    rw [Mm.oneRegion_totalPages] at hpfn
    unfold Overlaps pageSize at hover
    omega

/-- One MiB of RAM, a kernel and a bitmap of one page each, and a module right behind them: the
first page handed out is the module's. -/
theorem not_moduleIntact_firstPage :
    ¬ ∀ (mbi : MultibootInfo) (kernStart kernEnd : Nat) (mem : Mem) (modStart modEnd : Nat),
      kernStart < kernEnd → kernEnd < 2 ^ 32 → kernEnd % pageSize = 0 → modStart < modEnd →
      modEnd < 2 ^ 32 →
      (∀ a, modStart ≤ a → a < modEnd → ∃ e ∈ mbi.entries, e.type = Mm.multibootMmapAvailable ∧
        e.addr ≤ a ∧ a < e.addr + e.len) →
      modEnd ≤ kernStart ∨ kernEnd + bitmapBytes mbi.totalPages ≤ modStart →
      ModuleIntact mbi kernStart kernEnd mem modStart modEnd := by
  intro h
  have htotal := Mm.oneRegion_totalPages
  have hbytes : bitmapBytes 0x200 = 0x1000 := by decide
  have hmmap : (Mm.oneRegion 0x100000 0x100000).hasMmap = true := rfl
  have hfrees : (Mm.oneRegion 0x100000 0x100000).Frees 0x102 := by
    rw [MultibootInfo.Frees, if_pos hmmap, Mm.oneRegion_entries]
    exact ⟨_, List.mem_singleton_self _, rfl, by decide, by decide⟩
  have hover : Overlaps 0x102 0x102000 0x102100 := ⟨by decide, by decide⟩
  refine not_moduleIntact (by decide : 0x100000 < 2 ^ 32) (by decide : 0x101000 < 2 ^ 32)
    (by decide) (by rw [htotal]; decide) hover hfrees ?_
    (h _ _ _ (fun _ => 0) _ _ (by decide) (by decide) (by decide) (by decide) (by decide) ?_
      (Or.inr ?_))
  · rw [htotal]
    simp only [Reserved, Overlaps, hbytes, pageSize]
    omega
  · intro a hlo hhi
    rw [Mm.oneRegion_entries]
    refine ⟨_, List.mem_singleton_self _, rfl, ?_, ?_⟩
    · dsimp only
      omega
    · dsimp only
      omega
  · rw [htotal, hbytes]

end PinguinOS.Fs
