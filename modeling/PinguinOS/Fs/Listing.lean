import PinguinOS.Fs.Vfs

/-! The directories of procfs, sysfs, devfs and ramfs: what they list and what they find. -/
namespace PinguinOS.Fs

open Path (components Under)

def vfsFile : BitVec 32 := 0x01
def vfsDir : BitVec 32 := 0x02

/-- The `fs_ops_t` that `ops` points to. -/
inductive FsOps
  | procfs
  | sysfs
  | devfs
  | ramfs
  | other (k : Nat)
  deriving DecidableEq

/-- `vfs_node_t` -/
structure VfsNode where
  name : CStr
  fits : name.length ≤ 255
  inodeNum : BitVec 32
  flags : BitVec 32
  size : BitVec 32
  ops : Option FsOps
  fsData : Nat

/-- `sysfs_entry_t` -/
structure SysfsEntry where
  name : CStr
  fits : name.length ≤ 31
  belegt : Bool

/-- `devfs_dev_t` -/
structure DevfsDev where
  name : CStr
  fits : name.length ≤ 31
  type : BitVec 8
  used : Bool

def sysfsEntriesMax : Nat := 64
def sysfsValLen : BitVec 32 := 256
def devfsMaxDevices : Nat := 32

/-- The nodes by address, what `kzalloc` will return (0 when it fails), the tables of sysfs and
devfs, and the list `children` of a ramfs node by the node's `fs_data`. -/
structure FsState where
  node : Nat → VfsNode
  allocs : List Nat
  eintraege : Nat → SysfsEntry
  devTable : Nat → DevfsDev
  children : Nat → List Nat

/-- The names of `procfs_files`. -/
def procfsFiles : List CStr :=
  [cstr ['u', 'p', 't', 'i', 'm', 'e'], cstr ['m', 'e', 'm', 'i', 'n', 'f', 'o'],
    cstr ['c', 'p', 'u', 'i', 'n', 'f', 'o'], cstr ['n', 'e', 't', '/', 'd', 'e', 'v'],
    cstr ['t', 'a', 's', 'k', 's']]

/-- A node from `kzalloc` with the fields `n`. -/
def newNode (n : VfsNode) (s : FsState) : Option Nat × FsState :=
  match s.allocs with
  | [] => (none, s)
  | p :: allocs =>
    if p = 0 then (none, { s with allocs := allocs })
    else (some p, { s with allocs := allocs, node := Function.update s.node p n })

/-- `strncpy(n->name, name, 255)` into zeroed memory -/
def VfsNode.named (name : CStr) (flags size : BitVec 32) (ops : FsOps) (fsData : Nat) : VfsNode :=
  ⟨name.take 255, List.length_take_le 255 name, 0, flags, size, some ops, fsData⟩

def procfsFinddir (name : CStr) (s : FsState) : Option Nat × FsState :=
  match (List.range procfsFiles.length).find? fun i => procfsFiles.getD i [] = name with
  | none => (none, s)
  | some i => newNode (VfsNode.named name vfsFile 4096 .procfs i) s

def sysfsFinddir (name : CStr) (s : FsState) : Option Nat × FsState :=
  match (List.range sysfsEntriesMax).find? fun i =>
      (s.eintraege i).belegt ∧ (s.eintraege i).name = name with
  | none => (none, s)
  | some i => newNode (VfsNode.named (s.eintraege i).name vfsFile sysfsValLen .sysfs 0) s

def devfsFinddir (name : CStr) (s : FsState) : Option Nat × FsState :=
  match (List.range devfsMaxDevices).find? fun i =>
      (s.devTable i).used ∧ strncmpEq (s.devTable i).name name 31 with
  | none => (none, s)
  | some i => newNode (VfsNode.named name ((s.devTable i).type.setWidth 32) 0 .devfs i) s

def ramfsFinddir (node : Nat) (name : CStr) (s : FsState) : Option Nat × FsState :=
  ((s.children (s.node node).fsData).find? fun cur => (s.node cur).name = name, s)

/-- The string in `out->name` after `strncpy(out->name, name, 255)`; `rest` is what the caller's
buffer holds from byte 255 on. -/
def direntName (name rest : CStr) : CStr :=
  if name.length < 255 then name else name.take 255 ++ rest

def procfsReaddir (index : Nat) (rest : CStr) : Option CStr :=
  (procfsFiles[index]?).map fun name => direntName name rest

/-- The loop of `sysfs_readdir` and `devfs_readdir`: the entry in use that `index` others in use
stand before. -/
def usedEntry (used : Nat → Bool) : List Nat → (index : Nat) → Option Nat
  | [], _ => none
  | i :: entries, index =>
    if used i then if index = 0 then some i else usedEntry used entries (index - 1)
    else usedEntry used entries index

def sysfsReaddir (s : FsState) (index : Nat) (rest : CStr) : Option CStr :=
  (usedEntry (fun i => (s.eintraege i).belegt) (List.range sysfsEntriesMax) index).map fun i =>
    direntName (s.eintraege i).name rest

def devfsReaddir (s : FsState) (index : Nat) (rest : CStr) : Option CStr :=
  (usedEntry (fun i => (s.devTable i).used) (List.range devfsMaxDevices) index).map fun i =>
    direntName (s.devTable i).name rest

def ramfsReaddir (s : FsState) (node index : Nat) (rest : CStr) : Option CStr :=
  if index = 0 then some (cstr ['.'])
  else if index = 1 then some (cstr ['.', '.'])
  else ((s.children (s.node node).fsData)[index - 2]?).map fun cur =>
    direntName (s.node cur).name rest

/-- The `finddir` of the other file systems, where they have one. -/
abbrev OtherFs := Nat → Option (Nat → CStr → FsState → Option Nat × FsState)

def fsBackend (other : OtherFs) : Backend Nat FsState where
  isDir s node := (s.node node).flags &&& vfsDir ≠ 0
  finddir s node :=
    match (s.node node).ops with
    | none => none
    | some .procfs => some fun name => procfsFinddir name s
    | some .sysfs => some fun name => sysfsFinddir name s
    | some .devfs => some fun name => devfsFinddir name s
    | some .ramfs => some fun name => ramfsFinddir node name s
    | some (.other k) => (other k).map fun finddir name => finddir node name s

/-- `vfs_readdir` on a node of the four file systems: the name of the entry. -/
def vfsReaddir (s : FsState) (node index : Nat) (rest : CStr) : Option CStr :=
  match (s.node node).ops with
  | some .procfs => procfsReaddir index rest
  | some .sysfs => sysfsReaddir s index rest
  | some .devfs => devfsReaddir s index rest
  | some .ramfs => ramfsReaddir s node index rest
  | _ => none

variable {other : OtherFs} {t : MountTable Nat} {i j k node next index : Nat} {s s' : FsState}
  {n name rest path : CStr} {cs : List CStr}

def vfsFinddir (other : OtherFs) (node : Nat) (name : CStr) (s : FsState) : Option Nat × FsState :=
  match (fsBackend other).finddir s node with
  | none => (none, s)
  | some finddir => finddir name

/-- The path of entry `n` of mount `j`. -/
def entryPath (t : MountTable Nat) (j : Nat) (n : CStr) : CStr := (t j).path ++ slash :: n

/-- The lookup of the entry's path returns the node that `finddir` on the mount's root gives for
the entry's name. -/
def EntryOpens (other : OtherFs) (t : MountTable Nat) (j : Nat) (s : FsState) (n : CStr) : Prop :=
  ∃ node s', vfsFinddir other (t j).root n s = (some node, s') ∧
    vfsLookup (fsBackend other).logged t (entryPath t j n) (s, []) =
      (some node, s', [((t j).root, n)])

/-- Whatever the root of mount `j` lists can be opened. -/
def ListingOpens (other : OtherFs) (t : MountTable Nat) (j : Nat) (s : FsState) : Prop :=
  ∀ index rest n, vfsReaddir s (t j).root index rest = some n → EntryOpens other t j s n

/-- The mount chosen for the entry's path has the root of mount `j`, and the entry's name is the
one component that remains. -/
def NamedAlone (t : MountTable Nat) (j : Nat) (n : CStr) : Prop :=
  n.length ≤ 255 ∧ ∃ k, FirstLongest t (entryPath t j n) vfsMaxMounts k ∧
    (t k).root = (t j).root ∧ components slash ((entryPath t j n).drop (t k).path.length) = [n]

/-- procfs, sysfs and devfs need memory for a node; a ramfs root needs a child with the name. -/
def NodeFound (s : FsState) (root : Nat) (n : CStr) : Prop :=
  match (s.node root).ops with
  | some .ramfs => ∃ cur ∈ s.children (s.node root).fsData, (s.node cur).name = n
  | _ => ∃ p allocs, s.allocs = p :: allocs ∧ p ≠ 0

/-! Finding what is listed. -/

theorem direntName_short (h : name.length < 255) : direntName name rest = name := if_pos h

theorem find_range {p : Nat → Bool} {m : Nat} (hi : i < m) (hp : p i = true) :
    ∃ k, (List.range m).find? p = some k := by
  apply Option.isSome_iff_exists.mp
  rw [List.find?_isSome]
  exact ⟨i, List.mem_range.mpr hi, hp⟩

theorem usedEntry_some {used : Nat → Bool} {l : List Nat} (h : usedEntry used l index = some i) :
    i ∈ l ∧ used i = true := by
  induction l generalizing index with
  | nil => simp [usedEntry] at h
  | cons k l ih =>
    unfold usedEntry at h
    split at h
    case isTrue hk =>
      split at h
      · obtain rfl : k = i := Option.some.inj h
        exact ⟨List.mem_cons_self, hk⟩
      · exact ⟨List.mem_cons_of_mem k (ih h).1, (ih h).2⟩
    case isFalse => exact ⟨List.mem_cons_of_mem k (ih h).1, (ih h).2⟩

theorem newNode_some {v : VfsNode} : (∃ node s', newNode v s = (some node, s')) ↔
    ∃ p allocs, s.allocs = p :: allocs ∧ p ≠ 0 := by
  unfold newNode
  constructor
  · rintro ⟨node, s', h⟩
    split at h
    · simp at h
    · rename_i p allocs hallocs
      split at h
      · simp at h
      · exact ⟨p, allocs, hallocs, by assumption⟩
  · rintro ⟨p, allocs, hallocs, hp⟩
    rw [hallocs]
    exact ⟨p, _, if_neg hp⟩

theorem procfsFinddir_some (h : procfsReaddir index rest = some n) :
    (∃ node s', procfsFinddir n s = (some node, s')) ↔
      ∃ p allocs, s.allocs = p :: allocs ∧ p ≠ 0 := by
  obtain ⟨name, hname, rfl⟩ := Option.map_eq_some_iff.mp h
  obtain ⟨hindex, rfl⟩ := List.getElem?_eq_some_iff.mp hname
  have hshort : ∀ name ∈ procfsFiles, name.length < 255 := by decide
  rw [direntName_short (hshort _ (List.getElem_mem hindex))]
  have hname : procfsFiles.getD index [] = procfsFiles[index] := by
    rw [List.getD_eq_getElem?_getD, hname]
    rfl
  obtain ⟨k, hk⟩ : ∃ k, (List.range procfsFiles.length).find?
      (fun i => procfsFiles.getD i [] = procfsFiles[index]) = some k :=
    find_range hindex (decide_eq_true hname)
  unfold procfsFinddir
  rw [hk]
  exact newNode_some

theorem sysfsFinddir_some (h : sysfsReaddir s index rest = some n) :
    (∃ node s', sysfsFinddir n s = (some node, s')) ↔
      ∃ p allocs, s.allocs = p :: allocs ∧ p ≠ 0 := by
  obtain ⟨i, hi, rfl⟩ := Option.map_eq_some_iff.mp h
  obtain ⟨hmem, hused⟩ := usedEntry_some hi
  have hfits := (s.eintraege i).fits
  rw [direntName_short (by omega)]
  obtain ⟨k, hk⟩ : ∃ k, (List.range sysfsEntriesMax).find? (fun k => (s.eintraege k).belegt ∧
      (s.eintraege k).name = (s.eintraege i).name) = some k :=
    find_range (List.mem_range.mp hmem) (by simpa using hused)
  unfold sysfsFinddir
  rw [hk]
  exact newNode_some

theorem devfsFinddir_some (h : devfsReaddir s index rest = some n) :
    (∃ node s', devfsFinddir n s = (some node, s')) ↔
      ∃ p allocs, s.allocs = p :: allocs ∧ p ≠ 0 := by
  obtain ⟨i, hi, rfl⟩ := Option.map_eq_some_iff.mp h
  obtain ⟨hmem, hused⟩ := usedEntry_some hi
  have hfits := (s.devTable i).fits
  rw [direntName_short (by omega)]
  obtain ⟨k, hk⟩ : ∃ k, (List.range devfsMaxDevices).find? (fun k => (s.devTable k).used ∧
      strncmpEq (s.devTable k).name (s.devTable i).name 31) = some k :=
    find_range (List.mem_range.mp hmem) (by simpa [strncmpEq] using hused)
  unfold devfsFinddir
  rw [hk]
  exact newNode_some

theorem ramfsFinddir_some : (∃ found s', ramfsFinddir node n s = (some found, s')) ↔
    ∃ cur ∈ s.children (s.node node).fsData, (s.node cur).name = n := by
  unfold ramfsFinddir
  constructor
  · rintro ⟨found, s', h⟩
    have hfind := (Prod.mk.inj h).1
    exact ⟨found, List.mem_of_find?_eq_some hfind, by simpa using List.find?_some hfind⟩
  · rintro ⟨cur, hcur, hname⟩
    obtain ⟨found, hfound⟩ : ∃ found, (s.children (s.node node).fsData).find?
        (fun cur => (s.node cur).name = n) = some found := by
      apply Option.isSome_iff_exists.mp
      rw [List.find?_isSome]
      exact ⟨cur, hcur, by simpa using hname⟩
    exact ⟨found, s, by rw [hfound]⟩

/-- A listed entry is found where there is memory for its node, or where the ramfs directory has a
child of that name. -/
theorem vfsFinddir_some (h : vfsReaddir s node index rest = some n) :
    (∃ found s', vfsFinddir other node n s = (some found, s')) ↔ NodeFound s node n := by
  unfold vfsReaddir at h
  unfold vfsFinddir NodeFound fsBackend
  cases hops : (s.node node).ops with
  | none => simp [hops] at h
  | some ops =>
    rw [hops] at h
    simp only [hops]
    cases ops with
    | procfs => exact procfsFinddir_some h
    | sysfs => exact sysfsFinddir_some h
    | devfs => exact devfsFinddir_some h
    | ramfs => exact ramfsFinddir_some
    | other k => simp at h

/-! Opening what is found. -/

theorem entryOpens_iff : EntryOpens other t j s n ↔
    NamedAlone t j n ∧ ∃ node s', vfsFinddir other (t j).root n s = (some node, s') := by
  unfold EntryOpens NamedAlone
  rcases bestMount_cases t (entryPath t j n) vfsMaxMounts with ⟨-, hnone⟩ | ⟨k, -, hk⟩
  · constructor
    · rintro ⟨node, s', -, hlookup⟩
      rw [vfsLookup_none hnone] at hlookup
      simp at hlookup
    · rintro ⟨⟨-, k, hk, -⟩, -⟩
      exact absurd hk.2.1 (hnone k hk.1)
  · have hlookup : vfsLookup (fsBackend other).logged t (entryPath t j n) (s, []) =
        resolve (fsBackend other).anyNode.logged (t k).root
          (components slash ((entryPath t j n).drop (t k).path.length)) (s, []) :=
      vfsLookup_some hk
    simp only [hlookup, resolve_one_call]
    constructor
    · rintro ⟨node, s', hfind, ⟨hroot, hcomp, hlen⟩, -⟩
      exact ⟨⟨hlen, k, hk, hroot, hcomp⟩, node, s', hfind⟩
    · rintro ⟨⟨hlen, k', hk', hroot, hcomp⟩, node, s', hfind⟩
      obtain rfl := hk'.unique hk
      refine ⟨node, s', hfind, ⟨hroot, hcomp, hlen⟩, ?_⟩
      rw [hroot]
      unfold vfsFinddir at hfind
      cases hfd : (fsBackend other).finddir s (t j).root with
      | none => simp [hfd] at hfind
      | some finddir => exact ⟨finddir, rfl, by simpa [hfd] using hfind⟩

/-- With a root node for each mount: the name is one component, and no other mount covers it. -/
theorem namedAlone_iff
    (hroots : ∀ k < vfsMaxMounts, (t k).used → (t k).root = (t j).root → k = j) :
    NamedAlone t j n ↔ FirstLongest t (entryPath t j n) vfsMaxMounts j ∧
      n ≠ [] ∧ slash ∉ n ∧ n.length ≤ 255 := by
  have hdrop : (entryPath t j n).drop (t j).path.length = slash :: n := List.drop_left
  constructor
  · rintro ⟨hlen, k, hk, hroot, hcomp⟩
    obtain rfl := hroots k hk.1 hk.2.1.1 hroot
    rw [hdrop] at hcomp
    obtain ⟨hne, hslash⟩ := Path.components_sep_eq_single.mp hcomp
    exact ⟨hk, hne, hslash, hlen⟩
  · rintro ⟨hj, hne, hslash, hlen⟩
    refine ⟨hlen, j, hj, rfl, ?_⟩
    rw [hdrop]
    exact Path.components_sep_eq_single.mpr ⟨hne, hslash⟩

/-- What a mounted procfs, sysfs, devfs or ramfs lists can be opened just when the name is a single
component that the VFS looks for in this mount, and its node is found. -/
theorem listingOpens_iff (other : OtherFs) (t : MountTable Nat) (j : Nat) (s : FsState) :
    ListingOpens other t j s ↔ ∀ index rest n, vfsReaddir s (t j).root index rest = some n →
      NamedAlone t j n ∧ NodeFound s (t j).root n := by
  unfold ListingOpens
  refine forall_congr' fun index => forall_congr' fun rest => forall_congr' fun n => ?_
  refine forall_congr' fun hlisted => ?_
  rw [entryOpens_iff, vfsFinddir_some hlisted]

/-- procfs with the root at 1, and memory for a node at 2. -/
def procState : FsState where
  node _ := VfsNode.named (cstr ['p', 'r', 'o', 'c']) vfsDir 0 .procfs 0
  allocs := [2]
  eintraege _ := ⟨[], by decide, false⟩
  devTable _ := ⟨[], by decide, 0, false⟩
  children _ := []

def procMount : MountTable Nat := fun i => ⟨cstr ['/', 'p', 'r', 'o', 'c'], 1, i = 0⟩

/-- procfs lists `net/dev`, which the VFS takes for two components. -/
theorem not_listingOpens_procfs : ¬ ListingOpens (fun _ => none) procMount 0 procState := by
  intro h
  obtain ⟨node, s', -, hlookup⟩ :=
    h 3 [] (cstr ['n', 'e', 't', '/', 'd', 'e', 'v']) (by decide)
  have hnone : (vfsLookup (fsBackend fun _ => none).logged procMount
      (entryPath procMount 0 (cstr ['n', 'e', 't', '/', 'd', 'e', 'v'])) (procState, [])).1 =
        none := by decide
  rw [hlookup] at hnone
  exact absurd hnone (by simp)

end PinguinOS.Fs
