import PinguinOS.Fs.Initrd
import PinguinOS.Fs.Listing
import PinguinOS.Fs.Medium

/-! Archives of named files in the PIRD format, and what is served from them. -/
namespace PinguinOS.Fs

open Mm (Mem u32 u32_of_lt int32)
open Stored (StoredAt)

/-- A file to be put into an archive. -/
structure NamedFile where
  name : CStr
  data : CStr
  name_ne : name ≠ []
  name_nul : 0 ∉ name
  name_le : name.length ≤ 63

/-- The name is filled up with zeros. -/
def NamedFile.pird (f : NamedFile) : PirdFile where
  name := f.name ++ List.replicate (initrdNameLen - f.name.length) 0
  data := f.data
  name_length := by
    have hle := f.name_le
    rw [List.length_append, List.length_replicate]
    unfold initrdNameLen
    omega

/-- The archive of a list of files. -/
def archive (files : List NamedFile) : CStr := pirdBytes (files.map NamedFile.pird)

/-- `vfs_dirent_t` -/
structure VfsDirent where
  name : CStr
  inodeNum : Nat
  type : BitVec 32

/-- `initrd_readdir`; `rest` is what the caller's buffer holds from byte 255 of the name on. -/
def initrdReaddir (dateien : List InitrdDatei) (index : Nat) (rest : CStr) : Option VfsDirent :=
  dateien[index]?.map fun d => ⟨direntName d.name rest, index, vfsFile⟩

/-- `initrd_read`: what it returns, and the bytes that it copies. -/
def initrdReadResult (m : Mem) (dateien : List InitrdDatei) (inodeNum offset size : Nat) :
    ReadResult :=
  match initrdRead m dateien inodeNum offset size with
  | none => readFailed
  | some bytes => readTotal bytes

/-- The table serves these files, as long as `m` is the memory. -/
structure ServesFiles (dateien : List InitrdDatei) (m : Mem) (files : List NamedFile) : Prop where
  getFile : ∀ f ∈ files, ∃ p, initrdGetFile dateien f.name = some (p, f.data.length) ∧
    (List.range f.data.length).map (fun i => Bytes.byte m (p + i)) = f.data
  absent : ∀ name, (∀ f ∈ files, f.name ≠ name) → initrdGetFile dateien name = none
  read : ∀ idx (hidx : idx < files.length), ∀ offset < 2 ^ 32, ∀ size < 2 ^ 32,
    initrdReadResult m dateien idx offset size =
      ((((files[idx].data.drop offset).take size).length : Int),
        (files[idx].data.drop offset).take size)
  readdir : ∀ idx rest, initrdReaddir dateien idx rest =
    files[idx]?.map fun f => ⟨f.name, idx, vfsFile⟩

/-- The module that the descriptor at `modsAddr` names begins with the archive of these files. -/
structure HoldsArchive (m : Mem) (modsAddr modStart modEnd : Nat) (files : List NamedFile) :
    Prop where
  mods : modsAddr ≠ 0
  start : Bytes.readPtr m modsAddr = modStart
  stop : Bytes.readPtr m (u32 (modsAddr + 4)) = modEnd
  stored : StoredAt (Bytes.byte m) modStart (archive files)
  fits : modStart + (archive files).length ≤ modEnd
  below : modEnd < 2 ^ 32

variable {m : Mem} {modsAddr modStart modEnd idx offset size : Nat} {files : List NamedFile}
  {f : NamedFile} {name rest : CStr} {dateien : List InitrdDatei}

theorem cname_pird : f.pird.cname = f.name := by
  have hle := f.name_le
  have htake : f.pird.name.take (initrdNameLen - 1) =
      f.name ++ List.replicate (63 - f.name.length) 0 := by
    show (f.name ++ List.replicate (initrdNameLen - f.name.length) 0).take 63 = _
    rw [List.take_append, List.take_of_length_le hle, List.take_replicate]
    unfold initrdNameLen
    rw [Nat.min_eq_left (by omega)]
  unfold PirdFile.cname
  rw [htake, List.takeWhile_append_of_pos]
  · have hnone : (List.replicate (63 - f.name.length) (0 : BitVec 8)).takeWhile (· ≠ 0) = [] := by
      cases 63 - f.name.length with
      | zero => rfl
      | succ n => rfl
    rw [hnone, List.append_nil]
  · intro b hb
    refine decide_eq_true fun hzero => ?_
    exact f.name_nul (hzero ▸ hb)

theorem HoldsArchive.entries (h : HoldsArchive m modsAddr modStart modEnd files)
    (hcount : files.length ≤ initrdMaxFiles) :
    List.Forall₂ (Entry m modStart modEnd) (initrdInit m modsAddr) (files.map NamedFile.pird) := by
  have hentries := initrdInit_stored h.mods h.start h.stop h.below h.stored h.fits
  rwa [List.take_of_length_le (by rwa [List.length_map])] at hentries

theorem data_lt (hentries : List.Forall₂ (Entry m modStart modEnd) dateien
    (files.map NamedFile.pird)) (hend : modEnd < 2 ^ 32) (hidx : idx < files.length) :
    files[idx].data.length < 2 ^ 32 := by
  have hlength : dateien.length = files.length := by
    rw [hentries.length_eq, List.length_map]
  have hhigh := (hentries.get (hlength ▸ hidx) (by rwa [List.length_map])).high
  rw [List.get_eq_getElem, List.get_eq_getElem, List.getElem_map] at hhigh
  have hdata : files[idx].pird.data = files[idx].data := rfl
  rw [hdata] at hhigh
  omega

/-- The file that a name finds. -/
theorem find_name (hf : f ∈ files) (hnames : files.Pairwise fun f g => f.name ≠ g.name) :
    ((files.map NamedFile.pird).find? fun g => g.cname = f.name) = some f.pird := by
  induction files with
  | nil => cases hf
  | cons g files ih =>
    obtain ⟨hfirst, hrest⟩ := List.pairwise_cons.mp hnames
    rw [List.map_cons]
    rcases List.mem_cons.mp hf with rfl | hf
    · exact List.find?_cons_of_pos (decide_eq_true cname_pird)
    · refine (List.find?_cons_of_neg ?_).trans (ih hf hrest)
      rw [decide_eq_true_iff, cname_pird]
      exact hfirst f hf

theorem getFile_of_mem (hentries : List.Forall₂ (Entry m modStart modEnd) dateien
    (files.map NamedFile.pird)) (hnames : files.Pairwise fun f g => f.name ≠ g.name)
    (hf : f ∈ files) : ∃ p, initrdGetFile dateien f.name = some (p, f.data.length) ∧
      (List.range f.data.length).map (fun i => Bytes.byte m (p + i)) = f.data := by
  have hget := getFile_entries hentries f.name
  rw [find_name hf hnames] at hget
  obtain ⟨⟨p, n⟩, hfile, hbytes⟩ := Option.map_eq_some_iff.mp hget
  dsimp only at hbytes
  have hdata : f.pird.data = f.data := rfl
  rw [hdata] at hbytes
  have hn : n = f.data.length := by
    rw [← hbytes, List.length_map, List.length_range]
  rw [hn] at hfile hbytes
  exact ⟨p, hfile, hbytes⟩

theorem getFile_absent (hentries : List.Forall₂ (Entry m modStart modEnd) dateien
    (files.map NamedFile.pird)) (hname : ∀ f ∈ files, f.name ≠ name) :
    initrdGetFile dateien name = none := by
  have hget := getFile_entries hentries name
  have hnone : ((files.map NamedFile.pird).find? fun g => g.cname = name) = none := by
    rw [List.find?_eq_none]
    intro g hg
    obtain ⟨f, hf, rfl⟩ := List.mem_map.mp hg
    rw [decide_eq_true_iff, cname_pird]
    exact hname f hf
  rw [hnone, Option.map_none] at hget
  exact Option.map_eq_none_iff.mp hget

theorem readResult_eq (hentries : List.Forall₂ (Entry m modStart modEnd) dateien
    (files.map NamedFile.pird)) (hend : modEnd < 2 ^ 32) (hidx : idx < files.length) :
    initrdReadResult m dateien idx offset size =
      readTotal ((files[idx].data.drop offset).take size) := by
  unfold initrdReadResult
  rw [read_entries hentries hend, List.getElem?_map, List.getElem?_eq_getElem hidx]
  rfl

theorem readdir_entries (hentries : List.Forall₂ (Entry m modStart modEnd) dateien
    (files.map NamedFile.pird)) : initrdReaddir dateien idx rest =
      files[idx]?.map fun f => ⟨f.name, idx, vfsFile⟩ := by
  unfold initrdReaddir
  have hlength : dateien.length = files.length := by
    rw [hentries.length_eq, List.length_map]
  by_cases hidx : idx < files.length
  · have hentry := hentries.get (hlength ▸ hidx) (by rwa [List.length_map])
    have hname : dateien[idx].name = files[idx].name := by
      refine hentry.name.trans ?_
      rw [List.get_eq_getElem, List.getElem_map]
      exact cname_pird
    have hshort := files[idx].name_le
    rw [List.getElem?_eq_getElem (hlength ▸ hidx), List.getElem?_eq_getElem hidx, Option.map_some,
      Option.map_some, hname, direntName_short (by omega)]
  · rw [List.getElem?_eq_none (by omega), List.getElem?_eq_none (by omega)]
    rfl

/-- The whole content of a file that is served is counted by an `int32_t`. -/
theorem ServesFiles.small (h : HoldsArchive m modsAddr modStart modEnd files)
    (hcount : files.length ≤ initrdMaxFiles)
    (hserves : ServesFiles (initrdInit m modsAddr) m files) :
    ∀ f ∈ files, f.data.length < 2 ^ 31 := by
  have hentries := h.entries hcount
  intro f hf
  obtain ⟨idx, hidx, rfl⟩ := List.getElem_of_mem hf
  have hlt := data_lt hentries h.below hidx
  have hread := hserves.read idx hidx 0 (by decide) _ hlt
  rw [readResult_eq hentries h.below hidx, List.drop_zero, List.take_length] at hread
  have hresult : int32 files[idx].data.length = files[idx].data.length :=
    (Prod.mk.inj hread).1
  have hsmall : int32 files[idx].data.length < 2 ^ 31 := int32_lt
  omega

def zerosFile (n : Nat) : NamedFile :=
  ⟨[0x61], List.replicate n 0, by decide, by decide, by decide⟩

def archiveMem (files : List NamedFile) : Mem := Bytes.mapBytes (fun _ => 0) fun a _ =>
  if 0x1000 ≤ a then (archive files).getD (a - 0x1000) 0
  else (le32 0x1000 ++ le32 (0x1000 + (archive files).length)).getD (a - 8) 0

theorem length_archive_zeros {n : Nat} : (archive [zerosFile n]).length = 76 + n := by
  have hbytes := (zerosFile n).pird.length_bytes
  have hdata : (zerosFile n).pird.data.length = n := List.length_replicate
  unfold archive pirdBytes
  rw [List.map_singleton, List.flatMap_singleton, List.length_append, List.length_append, hbytes,
    hdata, le32_length, le32_length]
  unfold initrdNameLen
  omega

theorem storedAt_getD {mem : Nat → BitVec 8} {a : Nat} {xs : CStr}
    (h : ∀ i < xs.length, mem (a + i) = xs.getD i 0) : StoredAt mem a xs := by
  intro i hi
  rw [h i hi, List.getD_eq_getElem?_getD, List.getElem?_eq_getElem hi, Option.getD_some]

theorem holdsArchive_mem (hfits : 0x1000 + (archive files).length < 2 ^ 32) :
    HoldsArchive (archiveMem files) 8 0x1000 (0x1000 + (archive files).length) files := by
  have hdescriptor : StoredAt (Bytes.byte (archiveMem files)) 8
      (le32 0x1000 ++ le32 (0x1000 + (archive files).length)) := by
    refine storedAt_getD fun i hi => ?_
    rw [List.length_append, le32_length, le32_length] at hi
    unfold archiveMem
    rw [Bytes.byte_mapBytes, if_neg (by omega), Nat.add_sub_cancel_left]
  obtain ⟨hstart, hstop⟩ := Stored.storedAt_append.mp hdescriptor
  constructor
  case mods => decide
  case start => exact storedAt_readPtr hstart (by decide)
  case stop => exact storedAt_readPtr hstop hfits
  case stored =>
    refine storedAt_getD fun i _ => ?_
    unfold archiveMem
    rw [Bytes.byte_mapBytes, if_pos (by omega), Nat.add_sub_cancel_left]
  case fits => exact Nat.le_refl _
  case below => exact hfits

end PinguinOS.Fs
