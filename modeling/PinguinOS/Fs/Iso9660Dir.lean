import PinguinOS.Fs.InitrdArchive
import PinguinOS.Fs.Iso9660

/-! Directories of an ISO 9660 volume: what they list, and what is found in them. -/
namespace PinguinOS.Fs

open Mm (u32)

def isoFlagDir : BitVec 8 := 0x02

/-- `iso_ino_t`, without the volume that all of them share. -/
structure IsoInode where
  lba : Nat
  size : Nat
  isDir : Bool
  deriving DecidableEq

/-- A node that `iso9660_finddir` makes; its operations are those of the file system. -/
structure IsoVnode where
  name : CStr
  size : Nat
  flags : BitVec 32
  fsData : IsoInode
  deriving DecidableEq

/-- What is used of an `iso_dirrec_t`, with all `name_len` bytes of the name. -/
structure IsoDirrec where
  lbaLe : Nat
  dataLenLe : Nat
  flags : BitVec 8
  name : List (BitVec 8)
  deriving DecidableEq

/-- The sectors of 512 bytes by their LBA; some cannot be read. -/
abbrev IsoDisk := Nat → Option Buffer

/-- `iso_read_sector` into a buffer of 2048 bytes; `mem` is what is in it and behind. -/
def isoLoad (disk : IsoDisk) (lba : Nat) (mem : Buffer) : Option Buffer :=
  let ideLba := u32 (lba * isoIdeSecs)
  if (List.range isoIdeSecs).any fun s => (disk (u32 (ideLba + s))).isNone then none
  else some fun i =>
    if i < isoSectorSize then ((disk (u32 (ideLba + i / 512))).getD mem) (i % 512) else mem i

/-- `iso_clean_name`: the loop ends at `;`, and capital letters are made small. -/
def isoCleanName : List (BitVec 8) → List (BitVec 8)
  | [] => []
  | c :: rest =>
    if c = 0x3B then []
    else (if 0x41 ≤ c ∧ c ≤ 0x5A then c + 32 else c) :: isoCleanName rest

/-- The string in the array after `iso_clean_name`. -/
def IsoDirrec.cname (dr : IsoDirrec) : CStr := (isoCleanName dr.name).takeWhile (· ≠ 0)

/-- `dr->name_len && dr->name[0] != '\0' && dr->name[0] != '\1'` -/
def IsoDirrec.listed (dr : IsoDirrec) : Bool :=
  match dr.name with
  | [] => false
  | c :: _ => c ≠ 0 ∧ c ≠ 1

/-- `dr->name_len`, and `strcmp(fname, name) == 0` -/
def IsoDirrec.named (name : CStr) (dr : IsoDirrec) : Bool := dr.name ≠ [] ∧ dr.cname = name

def IsoDirrec.isDir (dr : IsoDirrec) : Bool := dr.flags &&& isoFlagDir ≠ 0

def IsoDirrec.dirent (rest : CStr) (dr : IsoDirrec) : VfsDirent :=
  ⟨direntName dr.cname rest, dr.lbaLe, if dr.isDir then vfsDir else vfsFile⟩

def IsoDirrec.inode (dr : IsoDirrec) : IsoInode := ⟨dr.lbaLe, dr.dataLenLe, dr.isDir⟩

def IsoDirrec.vnode (dr : IsoDirrec) : IsoVnode :=
  ⟨dr.cname.take 255, dr.dataLenLe, if dr.isDir then vfsDir else vfsFile, dr.inode⟩

/-- `dr->record_len` of the record at `off` -/
def isoRecordLen (sec : Buffer) (off : Nat) : Nat := (sec off).toNat

def isoNameLen (sec : Buffer) (off : Nat) : Nat := (sec (off + 32)).toNat

/-- `(iso_dirrec_t *)(sec + off)` -/
def isoDirrec (sec : Buffer) (off : Nat) : IsoDirrec :=
  ⟨word32 sec (off + 2), word32 sec (off + 10), sec (off + 25),
    bytesAt sec (off + 33) (isoNameLen sec off)⟩

/-- The `while` loop of `iso9660_readdir`: the entry, if it is here, and `dirs_seen`. Each of its
`n` rounds goes on by a byte at least. -/
def isoReaddirSector (sec : Buffer) (index : Nat) (rest : CStr) :
    (n off dirsSeen : Nat) → Option VfsDirent × Nat
  | 0, _, dirsSeen => (none, dirsSeen)
  | n + 1, off, dirsSeen =>
    if off < isoSectorSize then
      if isoRecordLen sec off = 0 then (none, dirsSeen)
      else
        let dr := isoDirrec sec off
        if dr.listed then
          if dirsSeen = index then (some (dr.dirent rest), dirsSeen)
          else isoReaddirSector sec index rest n (off + isoRecordLen sec off) (u32 (dirsSeen + 1))
        else isoReaddirSector sec index rest n (off + isoRecordLen sec off) dirsSeen
    else (none, dirsSeen)

/-- The `for` loop of `iso9660_readdir` over `n` sectors from `s` on. -/
def isoReaddirLoop (disk : IsoDisk) (mem : Buffer) (lba index : Nat) (rest : CStr) :
    (n s dirsSeen : Nat) → Option VfsDirent
  | 0, _, _ => none
  | n + 1, s, dirsSeen =>
    match isoLoad disk (u32 (lba + s)) mem with
    | none => none
    | some sec =>
      match isoReaddirSector sec index rest isoSectorSize 0 dirsSeen with
      | (some d, _) => some d
      | (none, dirsSeen) => isoReaddirLoop disk mem lba index rest n (s + 1) dirsSeen

def isoSecs (size : Nat) : Nat := u32 (size + (isoSectorSize - 1)) / isoSectorSize

/-- `iso9660_readdir`. `fails` tells which allocations fail, counted from the first one, `mem` is
what the allocated buffer holds, and `rest` what the caller's does from byte 255 of the name on. -/
def iso9660Readdir (disk : IsoDisk) (fails : Nat → Bool) (mem : Buffer) (ino : Option IsoInode)
    (index : Nat) (rest : CStr) : Option VfsDirent :=
  match ino with
  | none => none
  | some ino =>
    if ino.isDir = false ∨ fails 0 then none
    else isoReaddirLoop disk mem ino.lba index rest (isoSecs ino.size) 0 0

/-- What a search has come to: `result`, the number of its allocations so far, and how many inodes
and nodes it has made and not freed. -/
structure IsoFound where
  result : Option IsoVnode
  k : Nat
  inodes : Nat
  nodes : Nat

/-- A record with the name that was asked for; whether the loop goes on. -/
def isoTake (fails : Nat → Bool) (dr : IsoDirrec) (found : IsoFound) : Bool × IsoFound :=
  if fails found.k then (false, { found with k := found.k + 1 })
  else if fails (found.k + 1) then (false, { found with result := none, k := found.k + 2 })
  else (true, ⟨some dr.vnode, found.k + 2, found.inodes + 1, found.nodes + 1⟩)

/-- The `while` loop of `iso9660_finddir`, which a match does not end. -/
def isoFinddirSector (sec : Buffer) (fails : Nat → Bool) (name : CStr) :
    (n off : Nat) → IsoFound → IsoFound
  | 0, _, found => found
  | n + 1, off, found =>
    if off < isoSectorSize then
      if isoRecordLen sec off = 0 then found
      else
        let dr := isoDirrec sec off
        if dr.named name then
          let (more, found) := isoTake fails dr found
          if more then isoFinddirSector sec fails name n (off + isoRecordLen sec off) found
          else found
        else isoFinddirSector sec fails name n (off + isoRecordLen sec off) found
    else found

/-- The `for` loop of `iso9660_finddir` over `n` sectors from `s` on. -/
def isoFinddirLoop (disk : IsoDisk) (mem : Buffer) (lba : Nat) (fails : Nat → Bool) (name : CStr) :
    (n s : Nat) → IsoFound → IsoFound
  | 0, _, found => found
  | n + 1, s, found =>
    match isoLoad disk (u32 (lba + s)) mem with
    | none => found
    | some sec =>
      let found := isoFinddirSector sec fails name isoSectorSize 0 found
      if found.result.isSome then found
      else isoFinddirLoop disk mem lba fails name n (s + 1) found

def iso9660Finddir (disk : IsoDisk) (fails : Nat → Bool) (mem : Buffer) (ino : Option IsoInode)
    (name : CStr) : IsoFound :=
  match ino with
  | none => ⟨none, 0, 0, 0⟩
  | some ino =>
    if ino.isDir = false ∨ fails 0 then ⟨none, 0, 0, 0⟩
    else isoFinddirLoop disk mem ino.lba fails name (isoSecs ino.size) 0 ⟨none, 1, 0, 0⟩

/-- The places of the records of a sector, from `off` on. -/
def isoOffsets (sec : Buffer) : (n off : Nat) → List Nat
  | 0, _ => []
  | n + 1, off =>
    if off < isoSectorSize then
      if isoRecordLen sec off = 0 then []
      else off :: isoOffsets sec n (off + isoRecordLen sec off)
    else []

/-- The records of the `n` sectors from `s` on, up to one that cannot be read. -/
def isoSectors (disk : IsoDisk) (mem : Buffer) (lba : Nat) : (n s : Nat) → List (List IsoDirrec)
  | 0, _ => []
  | n + 1, s =>
    match isoLoad disk (u32 (lba + s)) mem with
    | none => []
    | some sec =>
      (isoOffsets sec isoSectorSize 0).map (isoDirrec sec) :: isoSectors disk mem lba n (s + 1)

/-- The records of a directory, sector by sector. -/
def IsoInode.records (disk : IsoDisk) (ino : IsoInode) : List (List IsoDirrec) :=
  isoSectors disk (fun _ => 0) ino.lba (isoSecs ino.size) 0

/-- The records that the directory lists. -/
def IsoInode.listing (disk : IsoDisk) (ino : IsoInode) : List IsoDirrec :=
  (ino.records disk).flatten.filter IsoDirrec.listed

/-- Each record ends inside its sector, and has room for its name. -/
def RecordsInside (disk : IsoDisk) (ino : IsoInode) : Prop :=
  ∀ s < isoSecs ino.size, ∀ sec ∈ isoLoad disk (u32 (ino.lba + s)) fun _ => 0,
    ∀ off ∈ isoOffsets sec isoSectorSize 0,
      33 + isoNameLen sec off ≤ isoRecordLen sec off ∧ off + isoRecordLen sec off ≤ isoSectorSize

/-- Whatever the buffers hold before: a node is found just where the name is listed, it describes
the first record that is listed with the name, and it is the only one that was made. -/
structure IsoAgrees (disk : IsoDisk) (ino : IsoInode) (name : CStr) : Prop where
  found : ∀ mem mem' rest,
    (iso9660Finddir disk (fun _ => false) mem (some ino) name).result.isSome = true ↔
      ∃ index < 2 ^ 32, (iso9660Readdir disk (fun _ => false) mem' (some ino) index rest).map
        VfsDirent.name = some name
  first : ∀ mem, ∀ node ∈ (iso9660Finddir disk (fun _ => false) mem (some ino) name).result,
    ∃ dr ∈ (ino.listing disk).find? fun dr => dr.cname = name, node = dr.vnode
  single : ∀ mem, (iso9660Finddir disk (fun _ => false) mem (some ino) name).result.isSome = true →
    (iso9660Finddir disk (fun _ => false) mem (some ino) name).inodes = 1 ∧
      (iso9660Finddir disk (fun _ => false) mem (some ino) name).nodes = 1

/-- The records with the name in the first sector that has one. -/
def IsoInode.firstNamed (disk : IsoDisk) (ino : IsoInode) (name : CStr) : Option (List IsoDirrec) :=
  ((ino.records disk).map (List.filter (IsoDirrec.named name))).find? (· ≠ [])

/-- No record has the name, or the first sector with such a record has one only, and this is the
first that is listed with the name, or describes the same as that. -/
def IsoSingle (disk : IsoDisk) (ino : IsoInode) (name : CStr) : Prop :=
  ino.firstNamed disk name = none ∨ ∃ dr dr', ino.firstNamed disk name = some [dr] ∧
    ((ino.listing disk).find? fun dr => dr.cname = name) = some dr' ∧ dr.inode = dr'.inode

variable {disk : IsoDisk} {ino : IsoInode} {name rest : CStr} {mem mem' sec sec' : Buffer}
  {dr dr' : IsoDirrec} {found : IsoFound} {n off s lba index dirsSeen : Nat}
  {recs : List IsoDirrec}

/-! What the buffer held before does not matter. -/

theorem isoLoad_same : (isoLoad disk lba mem).isSome = (isoLoad disk lba mem').isSome ∧
    ∀ sec ∈ isoLoad disk lba mem, ∀ sec' ∈ isoLoad disk lba mem',
      ∀ i < isoSectorSize, sec i = sec' i := by
  unfold isoLoad
  dsimp only
  split_ifs with hfail
  · exact ⟨rfl, fun sec hsec => by cases hsec⟩
  · refine ⟨rfl, ?_⟩
    rintro sec ⟨⟩ sec' ⟨⟩ i hi
    dsimp only
    rw [if_pos hi, if_pos hi]
    have hread : ((List.range isoIdeSecs).any fun s =>
        (disk (u32 (u32 (lba * isoIdeSecs) + s))).isNone) = false := Bool.eq_false_iff.mpr hfail
    have hs : i / 512 ∈ List.range isoIdeSecs := by
      unfold isoSectorSize at hi
      unfold isoIdeSecs
      exact List.mem_range.mpr (by omega)
    have hsome := List.any_eq_false.mp hread _ hs
    cases hdisk : disk (u32 (u32 (lba * isoIdeSecs) + i / 512)) with
    | none =>
      rw [hdisk] at hsome
      exact absurd rfl hsome
    | some buf => rfl

theorem isoOffsets_congr (h : ∀ i < isoSectorSize, sec i = sec' i) :
    isoOffsets sec n off = isoOffsets sec' n off := by
  induction n generalizing off with
  | zero => rfl
  | succ n ih =>
    unfold isoOffsets
    by_cases hoff : off < isoSectorSize
    · have hlen : isoRecordLen sec off = isoRecordLen sec' off := congrArg BitVec.toNat (h off hoff)
      rw [if_pos hoff, if_pos hoff, hlen, ih]
    · rw [if_neg hoff, if_neg hoff]

/-- A record that ends inside the sector. -/
theorem isoDirrec_congr (h : ∀ i < isoSectorSize, sec i = sec' i)
    (hname : 33 + isoNameLen sec off ≤ isoRecordLen sec off)
    (hend : off + isoRecordLen sec off ≤ isoSectorSize) : isoDirrec sec off = isoDirrec sec' off := by
  have hbyte : ∀ i < isoRecordLen sec off, sec (off + i) = sec' (off + i) :=
    fun i hi => h _ (by omega)
  have hlba : word32 sec (off + 2) = word32 sec' (off + 2) := by
    refine word32_congr fun k hk => ?_
    rw [Nat.add_assoc]
    exact hbyte (2 + k) (by omega)
  have hlen : word32 sec (off + 10) = word32 sec' (off + 10) := by
    refine word32_congr fun k hk => ?_
    rw [Nat.add_assoc]
    exact hbyte (10 + k) (by omega)
  have hcount : isoNameLen sec off = isoNameLen sec' off :=
    congrArg BitVec.toNat (hbyte 32 (by omega))
  have hbytes : bytesAt sec (off + 33) (isoNameLen sec off) =
      bytesAt sec' (off + 33) (isoNameLen sec off) := by
    refine bytesAt_congr fun i hi => ?_
    rw [Nat.add_assoc]
    exact hbyte (33 + i) (by omega)
  unfold isoDirrec
  rw [hlba, hlen, hbyte 25 (by omega), hbytes, hcount]

/-- The records of a directory, whatever is in the buffer. -/
theorem isoSectors_eq (hinside : ∀ t, s ≤ t → t < s + n →
    ∀ sec ∈ isoLoad disk (u32 (lba + t)) fun _ => 0, ∀ off ∈ isoOffsets sec isoSectorSize 0,
      33 + isoNameLen sec off ≤ isoRecordLen sec off ∧
        off + isoRecordLen sec off ≤ isoSectorSize) :
    isoSectors disk mem lba n s = isoSectors disk (fun _ => 0) lba n s := by
  induction n generalizing s with
  | zero => rfl
  | succ n ih =>
    obtain ⟨hboth, hsame⟩ := @isoLoad_same disk (fun _ => 0) mem (u32 (lba + s))
    have hrest := @ih (s + 1) fun t hlo hhi => hinside t (by omega) (by omega)
    have hfirst := hinside s (Nat.le_refl _) (by omega)
    unfold isoSectors
    cases hzero : isoLoad disk (u32 (lba + s)) fun _ => 0 with
    | none =>
      rw [hzero] at hboth
      cases hmem : isoLoad disk (u32 (lba + s)) mem with
      | none => rfl
      | some sec =>
        rw [hmem] at hboth
        cases hboth
    | some sec =>
      rw [hzero] at hboth hsame hfirst
      cases hmem : isoLoad disk (u32 (lba + s)) mem with
      | none =>
        rw [hmem] at hboth
        cases hboth
      | some sec' =>
        rw [hmem] at hsame
        have hagree := hsame sec rfl sec' rfl
        dsimp only
        rw [hrest, isoOffsets_congr hagree]
        congr 1
        refine List.map_congr_left fun off hoff => ?_
        rw [← isoOffsets_congr hagree] at hoff
        obtain ⟨hname, hend⟩ := hfirst sec rfl off hoff
        exact (isoDirrec_congr hagree hname hend).symm

/-! What is listed. -/

/-- What a list adds to a search for the entry at `index`, behind `dirsSeen` others. -/
theorem isoReaddirSector_eq (hseen : dirsSeen ≤ index) (hindex : index < 2 ^ 32) :
    isoReaddirSector sec index rest n off dirsSeen =
      let l := ((isoOffsets sec n off).map (isoDirrec sec)).filter IsoDirrec.listed
      (l[index - dirsSeen]?.map (IsoDirrec.dirent rest), min index (dirsSeen + l.length)) := by
  induction n generalizing off dirsSeen with
  | zero =>
    unfold isoReaddirSector isoOffsets
    simp [hseen]
  | succ n ih =>
    unfold isoReaddirSector isoOffsets
    by_cases hoff : off < isoSectorSize
    case neg =>
      rw [if_neg hoff, if_neg hoff]
      simp [hseen]
    rw [if_pos hoff, if_pos hoff]
    by_cases hlen : isoRecordLen sec off = 0
    case pos =>
      rw [if_pos hlen, if_pos hlen]
      simp [hseen]
    rw [if_neg hlen, if_neg hlen]
    dsimp only
    rw [List.map_cons]
    by_cases hlisted : (isoDirrec sec off).listed = true
    case neg =>
      rw [if_neg hlisted, List.filter_cons_of_neg hlisted, ih hseen]
    rw [if_pos hlisted, List.filter_cons_of_pos hlisted]
    by_cases heq : dirsSeen = index
    · rw [if_pos heq, heq, Nat.sub_self, List.getElem?_cons_zero, Option.map_some,
        Nat.min_eq_left (Nat.le_add_right _ _)]
    · have hstep : u32 (dirsSeen + 1) = dirsSeen + 1 := Mm.u32_of_lt (by omega)
      have hsub : index - dirsSeen = index - (dirsSeen + 1) + 1 := by omega
      rw [if_neg heq, hstep, ih (by omega), hsub, List.getElem?_cons_succ, List.length_cons]
      dsimp only
      congr 2
      omega

theorem isoReaddirLoop_eq (hseen : dirsSeen ≤ index) (hindex : index < 2 ^ 32) :
    isoReaddirLoop disk mem lba index rest n s dirsSeen =
      ((isoSectors disk mem lba n s).flatten.filter IsoDirrec.listed)[index - dirsSeen]?.map
        (IsoDirrec.dirent rest) := by
  induction n generalizing s dirsSeen with
  | zero => rfl
  | succ n ih =>
    unfold isoReaddirLoop isoSectors
    cases isoLoad disk (u32 (lba + s)) mem with
    | none => rfl
    | some sec =>
      dsimp only
      rw [isoReaddirSector_eq hseen hindex, List.flatten_cons, List.filter_append]
      generalize ((isoOffsets sec isoSectorSize 0).map (isoDirrec sec)).filter
        IsoDirrec.listed = l
      dsimp only
      by_cases hin : index - dirsSeen < l.length
      · rw [List.getElem?_append_left hin, List.getElem?_eq_getElem hin]
        rfl
      · have hmin : min index (dirsSeen + l.length) = dirsSeen + l.length := by omega
        rw [List.getElem?_eq_none (Nat.not_lt.mp hin), List.getElem?_append_right (Nat.not_lt.mp hin),
          hmin]
        dsimp only [Option.map_none]
        rw [ih (by omega), Nat.sub_sub]

theorem length_isoOffsets : (isoOffsets sec n off).length ≤ n := by
  induction n generalizing off with
  | zero => exact Nat.le_refl _
  | succ n ih =>
    unfold isoOffsets
    split_ifs
    · exact Nat.zero_le _
    · rw [List.length_cons]
      exact Nat.succ_le_succ ih
    · exact Nat.zero_le _

theorem length_isoSectors :
    (isoSectors disk mem lba n s).flatten.length ≤ n * isoSectorSize := by
  induction n generalizing s with
  | zero => exact Nat.zero_le _
  | succ n ih =>
    unfold isoSectors
    cases isoLoad disk (u32 (lba + s)) mem with
    | none => exact Nat.zero_le _
    | some sec =>
      dsimp only
      have hfirst := @length_isoOffsets sec isoSectorSize 0
      have hrest := @ih (s + 1)
      rw [List.flatten_cons, List.length_append, List.length_map, Nat.succ_mul]
      omega

/-- There are fewer entries than there are indices. -/
theorem length_listing : (ino.listing disk).length ≤ 2 ^ 32 := by
  have hsectors : isoSecs ino.size * isoSectorSize ≤ 2 ^ 32 := by
    unfold isoSecs isoSectorSize u32
    omega
  exact (List.length_filter_le _ _).trans (length_isoSectors.trans hsectors)

/-- The listing is what `iso9660_readdir` returns for 0, 1, 2 and so on. -/
theorem iso9660Readdir_eq (hdir : ino.isDir = true) (hinside : RecordsInside disk ino)
    (hindex : index < 2 ^ 32) :
    iso9660Readdir disk (fun _ => false) mem (some ino) index rest =
      (ino.listing disk)[index]?.map (IsoDirrec.dirent rest) := by
  have hsame : isoSectors disk mem ino.lba (isoSecs ino.size) 0 = ino.records disk :=
    isoSectors_eq fun t _ ht => hinside t (by omega)
  unfold iso9660Readdir
  dsimp only
  rw [if_neg (by simp [hdir]), isoReaddirLoop_eq (Nat.zero_le _) hindex, hsame, Nat.sub_zero]
  rfl

/-! What is found. -/

/-- What a list of records with the name adds to a search whose allocations succeed. -/
def IsoFound.add (found : IsoFound) (recs : List IsoDirrec) : IsoFound :=
  recs.foldl (fun found dr =>
    ⟨some dr.vnode, found.k + 2, found.inodes + 1, found.nodes + 1⟩) found

/-- The last record is the result, and all of them are allocated. -/
theorem add_values : (found.add recs).result = (recs.getLast?.map IsoDirrec.vnode).or found.result ∧
    (found.add recs).inodes = found.inodes + recs.length ∧
      (found.add recs).nodes = found.nodes + recs.length := by
  induction recs generalizing found with
  | nil => exact ⟨rfl, rfl, rfl⟩
  | cons dr recs ih =>
    obtain ⟨hresult, hinodes, hnodes⟩ :=
      @ih ⟨some dr.vnode, found.k + 2, found.inodes + 1, found.nodes + 1⟩
    refine ⟨hresult.trans ?_, hinodes.trans ?_, hnodes.trans ?_⟩
    · cases recs with
      | nil => rfl
      | cons dr' recs =>
        rw [List.getLast?_cons_cons, List.getLast?_cons]
        rfl
    · dsimp only
      rw [List.length_cons]
      omega
    · dsimp only
      rw [List.length_cons]
      omega

theorem isoFinddirSector_eq : isoFinddirSector sec (fun _ => false) name n off found =
    found.add (((isoOffsets sec n off).map (isoDirrec sec)).filter (IsoDirrec.named name)) := by
  induction n generalizing off found with
  | zero => rfl
  | succ n ih =>
    unfold isoFinddirSector isoOffsets
    split_ifs with hoff hlen
    · rfl
    · dsimp only
      rw [List.map_cons]
      by_cases hnamed : (isoDirrec sec off).named name = true
      · rw [if_pos hnamed, List.filter_cons_of_pos hnamed]
        exact ih
      · rw [if_neg hnamed, List.filter_cons_of_neg hnamed]
        exact ih
    · rfl

/-- The search ends with the first sector that has a record of the name. -/
theorem isoFinddirLoop_eq (hnone : found.result = none) :
    isoFinddirLoop disk mem lba (fun _ => false) name n s found =
      found.add ((((isoSectors disk mem lba n s).map (List.filter (IsoDirrec.named name))).find?
        (· ≠ [])).getD []) := by
  induction n generalizing s found with
  | zero => rfl
  | succ n ih =>
    unfold isoFinddirLoop isoSectors
    cases isoLoad disk (u32 (lba + s)) mem with
    | none => rfl
    | some sec =>
      dsimp only
      rw [isoFinddirSector_eq, List.map_cons]
      generalize ((isoOffsets sec isoSectorSize 0).map (isoDirrec sec)).filter
        (IsoDirrec.named name) = l
      by_cases hempty : l = []
      · rw [hempty, List.find?_cons_of_neg (by simp)]
        have hstill : (found.add []).result.isSome = false := by
          show found.result.isSome = false
          rw [hnone]
          rfl
        rw [hstill, if_neg Bool.false_ne_true]
        exact ih hnone
      · rw [List.find?_cons_of_pos (by simp [hempty])]
        have hfound : (found.add l).result.isSome = true := by
          rw [add_values.1, List.getLast?_eq_some_getLast hempty]
          rfl
        rw [hfound, if_pos rfl]
        rfl

theorem iso9660Finddir_eq (hdir : ino.isDir = true) (hinside : RecordsInside disk ino) :
    iso9660Finddir disk (fun _ => false) mem (some ino) name =
      IsoFound.add ⟨none, 1, 0, 0⟩ ((ino.firstNamed disk name).getD []) := by
  have hsame : isoSectors disk mem ino.lba (isoSecs ino.size) 0 = ino.records disk :=
    isoSectors_eq fun t _ ht => hinside t (by omega)
  unfold iso9660Finddir
  dsimp only
  rw [if_neg (by simp [hdir]), isoFinddirLoop_eq rfl, hsame]
  rfl

/-! Both together. -/

theorem mem_isoSectors (h : recs ∈ isoSectors disk mem lba n s) :
    ∃ t, s ≤ t ∧ t < s + n ∧ ∃ sec ∈ isoLoad disk (u32 (lba + t)) mem,
      recs = (isoOffsets sec isoSectorSize 0).map (isoDirrec sec) := by
  induction n generalizing s with
  | zero => exact (List.not_mem_nil h).elim
  | succ n ih =>
    unfold isoSectors at h
    cases hload : isoLoad disk (u32 (lba + s)) mem with
    | none =>
      rw [hload] at h
      exact (List.not_mem_nil h).elim
    | some sec =>
      rw [hload] at h
      rcases List.mem_cons.mp h with rfl | hrest
      · exact ⟨s, Nat.le_refl _, by omega, sec, hload, rfl⟩
      · obtain ⟨t, hlo, hhi, hsec⟩ := ih hrest
        exact ⟨t, by omega, by omega, hsec⟩

theorem length_isoCleanName {l : List (BitVec 8)} : (isoCleanName l).length ≤ l.length := by
  induction l with
  | nil => exact Nat.le_refl _
  | cons c l ih =>
    unfold isoCleanName
    split_ifs
    · exact Nat.zero_le _
    · exact Nat.succ_le_succ ih
    · exact Nat.succ_le_succ ih

/-- The name fits into `out->name`. -/
theorem length_cname (hinside : RecordsInside disk ino) (hdr : dr ∈ (ino.records disk).flatten) :
    dr.cname.length < 255 := by
  obtain ⟨recs, hrecs, hdr⟩ := List.mem_flatten.mp hdr
  obtain ⟨t, -, ht, sec, hsec, rfl⟩ := mem_isoSectors hrecs
  obtain ⟨off, hoff, rfl⟩ := List.mem_map.mp hdr
  obtain ⟨hname, -⟩ := hinside t (by omega) sec hsec off hoff
  have hbyte : isoRecordLen sec off < 256 := BitVec.isLt _
  have hclean := @length_isoCleanName (isoDirrec sec off).name
  have hlen : (isoDirrec sec off).name.length = isoNameLen sec off := length_bytesAt
  have htake := (List.takeWhile_sublist (· ≠ (0 : BitVec 8))
    (l := isoCleanName (isoDirrec sec off).name)).length_le
  unfold IsoDirrec.cname
  omega

theorem named_of_listed (hlisted : dr.listed = true) (hname : dr.cname = name) :
    dr.named name = true := by
  refine decide_eq_true ⟨?_, hname⟩
  intro hempty
  unfold IsoDirrec.listed at hlisted
  rw [hempty] at hlisted
  cases hlisted

theorem firstNamed_some {l : List IsoDirrec} (h : ino.firstNamed disk name = some l) :
    l ≠ [] ∧ ∀ dr ∈ l, dr.cname = name := by
  have hne := List.find?_some h
  refine ⟨by simpa using hne, ?_⟩
  obtain ⟨recs, -, rfl⟩ := List.mem_map.mp (List.mem_of_find?_eq_some h)
  intro dr hdr
  exact (of_decide_eq_true (List.mem_filter.mp hdr).2).2

/-- A name that no record has is not listed. -/
theorem firstNamed_none (h : ino.firstNamed disk name = none) :
    (ino.listing disk).find? (fun dr => dr.cname = name) = none := by
  refine List.find?_eq_none.mpr fun dr hdr hname => ?_
  obtain ⟨hmem, hlisted⟩ := List.mem_filter.mp hdr
  obtain ⟨recs, hrecs, hdr⟩ := List.mem_flatten.mp hmem
  have hempty := List.find?_eq_none.mp h _ (List.mem_map.mpr ⟨recs, hrecs, rfl⟩)
  have hin : dr ∈ recs.filter (IsoDirrec.named name) :=
    List.mem_filter.mpr ⟨hdr, named_of_listed hlisted (of_decide_eq_true hname)⟩
  refine hempty (decide_eq_true fun hnil => ?_)
  rw [hnil] at hin
  cases hin

/-- The entries that are listed have the names of the listed records. -/
theorem readdir_name_iff (hdir : ino.isDir = true) (hinside : RecordsInside disk ino) :
    (∃ index < 2 ^ 32, (iso9660Readdir disk (fun _ => false) mem (some ino) index rest).map
      VfsDirent.name = some name) ↔
        ((ino.listing disk).find? fun dr => dr.cname = name).isSome = true := by
  have hshort : ∀ dr ∈ ino.listing disk, direntName dr.cname rest = dr.cname := fun dr hdr =>
    direntName_short (length_cname hinside (List.mem_filter.mp hdr).1)
  rw [List.find?_isSome]
  constructor
  · rintro ⟨index, hindex, hname⟩
    rw [iso9660Readdir_eq hdir hinside hindex] at hname
    obtain ⟨d, hd, hname⟩ := Option.map_eq_some_iff.mp hname
    obtain ⟨dr, hdr, rfl⟩ := Option.map_eq_some_iff.mp hd
    have hmem := List.mem_of_getElem? hdr
    refine ⟨dr, hmem, decide_eq_true ?_⟩
    rw [← hshort dr hmem]
    exact hname
  · rintro ⟨dr, hmem, hname⟩
    obtain ⟨index, hlt, hdr⟩ := List.getElem_of_mem hmem
    have hindex : index < 2 ^ 32 := Nat.lt_of_lt_of_le hlt length_listing
    refine ⟨index, hindex, ?_⟩
    rw [iso9660Readdir_eq hdir hinside hindex, List.getElem?_eq_getElem hlt, hdr, Option.map_some,
      Option.map_some]
    exact congrArg some ((hshort dr hmem).trans (of_decide_eq_true hname))

theorem vnode_eq (hname : dr.cname = dr'.cname) (hinode : dr.inode = dr'.inode) :
    dr.vnode = dr'.vnode := by
  obtain ⟨-, hsize, hdir⟩ := IsoInode.mk.inj hinode
  unfold IsoDirrec.vnode
  rw [hname, hsize, hdir, hinode]

/-- A name that no record has is neither found nor listed. -/
theorem isoAgrees_of_none (hdir : ino.isDir = true) (hinside : RecordsInside disk ino)
    (hfirst : ino.firstNamed disk name = none) : IsoAgrees disk ino name := by
  have hfinddir := fun mem => @iso9660Finddir_eq disk ino name mem hdir hinside
  rw [hfirst] at hfinddir
  constructor
  case found =>
    intro mem mem' rest
    rw [readdir_name_iff hdir hinside, firstNamed_none hfirst, hfinddir]
    exact iff_of_false Bool.false_ne_true Bool.false_ne_true
  case first =>
    intro mem node hnode
    rw [hfinddir] at hnode
    cases hnode
  case single =>
    intro mem hsome
    rw [hfinddir] at hsome
    cases hsome

/-- One node and one inode are made, so the sector has one such record. -/
theorem IsoAgrees.single_record {l : List IsoDirrec} (hdir : ino.isDir = true)
    (hinside : RecordsInside disk ino) (hfirst : ino.firstNamed disk name = some l)
    (hagrees : IsoAgrees disk ino name) : IsoSingle disk ino name := by
  have hfinddir := fun mem => @iso9660Finddir_eq disk ino name mem hdir hinside
  obtain ⟨hne, -⟩ := firstNamed_some hfirst
  obtain ⟨hresult, hinodes, -⟩ := @add_values ⟨none, 1, 0, 0⟩ l
  rw [hfirst, Option.getD_some] at hfinddir
  rw [List.getLast?_eq_some_getLast hne, Option.map_some, Option.some_or] at hresult
  have hone := (hagrees.single (fun _ => 0) (by rw [hfinddir, hresult]; rfl)).1
  obtain ⟨dr', hdr', heq⟩ :=
    hagrees.first (fun _ => 0) (l.getLast hne).vnode (by rw [hfinddir, hresult]; rfl)
  rw [hfinddir, hinodes, Nat.zero_add] at hone
  obtain ⟨dr, rfl⟩ := List.length_eq_one_iff.mp hone
  exact Or.inr ⟨dr, dr', hfirst, hdr', congrArg IsoVnode.fsData heq⟩

/-- A single record that is listed, or describes the same as the one that is, is found as such. -/
theorem isoAgrees_of_record (hdir : ino.isDir = true)
    (hinside : RecordsInside disk ino) (hfirst : ino.firstNamed disk name = some [dr])
    (hlisted : ((ino.listing disk).find? fun dr => dr.cname = name) = some dr')
    (hinode : dr.inode = dr'.inode) : IsoAgrees disk ino name := by
  have hfinddir := fun mem => @iso9660Finddir_eq disk ino name mem hdir hinside
  obtain ⟨hne, hnames⟩ := firstNamed_some hfirst
  obtain ⟨hresult, hinodes, hnodes⟩ := @add_values ⟨none, 1, 0, 0⟩ [dr]
  rw [hfirst, Option.getD_some] at hfinddir
  rw [List.getLast?_eq_some_getLast hne, Option.map_some, Option.some_or] at hresult
  have hfound := List.find?_some hlisted
  have hname : dr'.cname = name := of_decide_eq_true hfound
  have hnode : dr.vnode = dr'.vnode :=
    vnode_eq ((hnames dr List.mem_cons_self).trans hname.symm) hinode
  constructor
  case found =>
    intro mem mem' rest
    rw [readdir_name_iff hdir hinside, hlisted, hfinddir, hresult]
    exact iff_of_true rfl rfl
  case first =>
    intro mem node hfound
    rw [hfinddir, hresult] at hfound
    cases hfound
    exact ⟨dr', hlisted, hnode⟩
  case single =>
    intro mem _
    rw [hfinddir, hinodes, hnodes]
    exact ⟨rfl, rfl⟩

/-- Lookup and listing agree on a name exactly when the records with the name in the first sector
that has one are a single one, and it is the first that is listed or describes the same. -/
theorem isoAgrees_iff (hdir : ino.isDir = true) (hinside : RecordsInside disk ino) :
    IsoAgrees disk ino name ↔ IsoSingle disk ino name := by
  constructor
  · intro hagrees
    cases hfirst : ino.firstNamed disk name with
    | none => exact Or.inl hfirst
    | some l => exact hagrees.single_record hdir hinside hfirst
  · rintro (hnone | ⟨dr, dr', hsingle, hlisted, hinode⟩)
    · exact isoAgrees_of_none hdir hinside hnone
    · exact isoAgrees_of_record hdir hinside hsingle hlisted hinode

/-- The bytes of a record of 36 bytes with a name of three. -/
def shortRecord (lba : BitVec 8) (name : List (BitVec 8)) : List (BitVec 8) :=
  [36, 0, lba, 0, 0, 0, 0, 0, 0, 0, 4] ++ List.replicate 21 0 ++ [3] ++ name

/-- A directory of one sector at LBA 0. -/
def sampleDir : IsoInode := ⟨0, 2048, true⟩

/-- The sector holds these records. -/
def sampleDisk (records : List (BitVec 8)) : IsoDisk :=
  fun lba => some fun i => if lba = 0 then records.getD i 0 else 0

/-- `A;1` -/
def sampleName : List (BitVec 8) := [0x41, 0x3B, 0x31]

theorem sample_inside {records : List (BitVec 8)}
    (h : ((isoLoad (sampleDisk records) 0 fun _ => 0).all fun sec =>
      (isoOffsets sec isoSectorSize 0).all fun off =>
        33 + isoNameLen sec off ≤ isoRecordLen sec off ∧
          off + isoRecordLen sec off ≤ isoSectorSize) = true) :
    RecordsInside (sampleDisk records) sampleDir := by
  intro s hs sec hsec off hoff
  have hone : isoSecs sampleDir.size = 1 := by decide
  obtain rfl : s = 0 := by omega
  have hload : isoLoad (sampleDisk records) 0 (fun _ => 0) = some sec := hsec
  rw [hload] at h
  exact of_decide_eq_true (List.all_eq_true.mp h off hoff)

/-- `a` in a directory with the one record `A;1`. -/
theorem isoAgrees_sample :
    IsoAgrees (sampleDisk (shortRecord 7 sampleName)) sampleDir [0x61] ↔
      IsoSingle (sampleDisk (shortRecord 7 sampleName)) sampleDir [0x61] :=
  isoAgrees_iff rfl (sample_inside (by decide +kernel))

/-- Two versions of a file, `A;1` and `A;2`: both are allocated, and the last one is returned. -/
theorem not_forall_isoAgrees : ¬ ∀ (disk : IsoDisk) (ino : IsoInode) (name : CStr),
    ino.isDir = true → RecordsInside disk ino → IsoAgrees disk ino name := by
  intro hall
  have htwo : (iso9660Finddir
      (sampleDisk (shortRecord 7 sampleName ++ shortRecord 8 [0x41, 0x3B, 0x32]))
      (fun _ => false) (fun _ => 0) (some sampleDir) [0x61]).inodes = 2 ∧
        (iso9660Finddir
          (sampleDisk (shortRecord 7 sampleName ++ shortRecord 8 [0x41, 0x3B, 0x32]))
          (fun _ => false) (fun _ => 0) (some sampleDir) [0x61]).result.isSome = true := by
    decide +kernel
  have hagrees := hall _ sampleDir [0x61] rfl
    (@sample_inside (shortRecord 7 sampleName ++ shortRecord 8 [0x41, 0x3B, 0x32])
      (by decide +kernel))
  have hone := (hagrees.single (fun _ => 0) htwo.2).1
  rw [htwo.1] at hone
  exact absurd hone (by decide)

end PinguinOS.Fs
