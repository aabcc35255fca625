import PinguinOS.Fs.Ext2Safe

/-! The searches of an ext2 directory, with every byte of the block buffer that they read. -/
namespace PinguinOS.Fs

open Mm (u32)

/-- The bytes of `a` that `strncmp` reads of the `n` from `i` on. -/
def strncmpReads (a b : Buffer) : (n i : Nat) → List Nat
  | 0, _ => []
  | n + 1, i => if a i ≠ 0 ∧ a i = b i then i :: strncmpReads a b n (i + 1) else [i]

namespace Ext2Volume

/-- `scanBlock`, and the offsets that it reads; `reads` tells which bytes of an entry `visit`
reads. -/
def tracedBlock {σ ρ : Type} (v : Ext2Volume)
    (visit : σ → Ext2Dirent → Nat → Option (Ext2Visit σ ρ × Nat))
    (reads : σ → Ext2Dirent → Nat → List Nat) (buf : Buffer) :
    (fuel pos : Nat) → σ → (k : Nat) → Option ((ρ ⊕ σ) × Nat) × List Nat
  | 0, _, s, k => (some (.inr s, k), [])
  | fuel + 1, pos, s, k =>
    if pos < v.blockSize then
      let de := ext2DirentAt buf pos
      -- `rec_len` first, then `inode`
      if de.recLen = 0 then (some (.inr s, k), [pos + 4, pos + 5])
      else
        let header := List.range' (pos + 4) 2 ++ List.range' pos 4
        if de.inode ≠ 0 then
          let body := (reads s de k).map (pos + ·)
          match visit s de k with
          | none => (none, header ++ body)
          | some (.found r, k) => (some (.inl r, k), header ++ body)
          | some (.leave s, k) => (some (.inr s, k), header ++ body)
          | some (.next s, k) =>
            let r := tracedBlock v visit reads buf fuel (u32 (pos + de.recLen)) s k
            (r.1, header ++ body ++ r.2)
        else
          let r := tracedBlock v visit reads buf fuel (u32 (pos + de.recLen)) s k
          (r.1, header ++ r.2)
    else (some (.inr s, k), [])

/-- `scanBlocks`, and the offsets that it reads. -/
def tracedBlocks {σ ρ : Type} (m : Medium) (v : Ext2Volume) (ino : Ext2Inode)
    (visit : σ → Ext2Dirent → Nat → Option (Ext2Visit σ ρ × Nat))
    (reads : σ → Ext2Dirent → Nat → List Nat) :
    List Nat → σ → Buffer → (k : Nat) → Option (Option ρ) × List Nat
  | [], _, _, _ => (some none, [])
  | bi :: rest, s, buf, k =>
    if ino.iBlock bi = 0 then (some none, [])
    else
      match readInodeBlock m v ino bi buf k with
      | none => (none, [])
      | some (none, _) => (some none, [])
      | some (some buf, k) =>
        let r := tracedBlock v visit reads buf v.blockSize 0 s k
        match r.1 with
        | none => (none, r.2)
        | some (.inl found, _) => (some (some found), r.2)
        | some (.inr s, k) =>
          let r' := tracedBlocks m v ino visit reads rest s buf k
          (r'.1, r.2 ++ r'.2)

/-- The entry that is asked for is copied, its name and its type. -/
def readdirReads (idx entryCount : Nat) (de : Ext2Dirent) (_ : Nat) : List Nat :=
  if entryCount = idx then 6 :: 7 :: List.range' 8 de.nlen else []

/-- The names are compared, and the type of the entry is copied when its node is made. -/
def finddirReads (m : Medium) (v : Ext2Volume) (name : Buffer) (s : Unit) (de : Ext2Dirent)
    (k : Nat) : List Nat :=
  6 :: (strncmpReads de.name name de.nlen 0).map (8 + ·) ++
    match finddirVisit m v name s de k with
    | some (.found _, _) => [7]
    | _ => []

/-- `ext2_vfs_readdir`, and the offsets of its block buffer that it reads -/
def tracedReaddir (m : Medium) (v : Ext2Volume) (inodeNum idx : Nat) :
    Option (Option Ext2Listed) × List Nat :=
  match readInode m v inodeNum 0 with
  | none => (none, [])
  | some (none, _) => (some none, [])
  | some (some ino, k) =>
    if ino.iMode &&& ext2SIfdir = 0 then (some none, [])
    else if v.blockSize = 0 ∨ m.fails k then (some none, [])
    else tracedBlocks m v ino.toExt2Inode (readdirVisit idx) (readdirReads idx) (List.range 12) 0
      m.fresh (k + 1)

/-- `ext2_vfs_finddir`, and the offsets of its block buffer that it reads -/
def tracedFinddir (m : Medium) (v : Ext2Volume) (inodeNum : Nat) (name : Buffer) :
    Option (Option Ext2Node) × List Nat :=
  match readInode m v inodeNum 0 with
  | none => (none, [])
  | some (none, _) => (some none, [])
  | some (some ino, k) =>
    if v.blockSize = 0 ∨ m.fails k then (some none, [])
    else tracedBlocks m v ino.toExt2Inode (finddirVisit m v name) (finddirReads m v name)
      (List.range 12) () m.fresh (k + 1)

/-- The places of the headers that the inner loop comes to. -/
def visited (v : Ext2Volume) (buf : Buffer) : (fuel pos : Nat) → List Nat
  | 0, _ => []
  | fuel + 1, pos =>
    if pos < v.blockSize then
      pos :: if (ext2DirentAt buf pos).recLen = 0 then []
        else visited v buf fuel (u32 (pos + (ext2DirentAt buf pos).recLen))
    else []

end Ext2Volume

/-- There is a name at `pos`, not the end of the block or an entry that is not used. -/
def Ext2Dirent.Live (de : Ext2Dirent) : Prop := de.recLen ≠ 0 ∧ de.inode ≠ 0

instance {de : Ext2Dirent} : Decidable de.Live := inferInstanceAs (Decidable (_ ∧ _))

/-- The entry for a reader of the directory: all the bytes of its name, its inode and its type. -/
def Ext2Dirent.entry (de : Ext2Dirent) : Ext2Listed :=
  ⟨bytesAt de.name 0 de.nlen, de.inode, de.flags⟩

/-- The entries at these places that are in use. -/
def liveAt (buf : Buffer) (l : List Nat) : List Ext2Dirent :=
  (l.map (ext2DirentAt buf)).filter fun de => de.Live

/-- What the search reads of the entry at `pos` is inside the buffer: the inode and the length, and
the name as well when the entry is in use. -/
def EntryInside (blockSize : Nat) (buf : Buffer) (pos : Nat) : Prop :=
  pos + 6 ≤ blockSize ∧
    ((ext2DirentAt buf pos).Live → pos + 8 + (ext2DirentAt buf pos).nlen ≤ blockSize)

instance {blockSize : Nat} {buf : Buffer} {pos : Nat} : Decidable (EntryInside blockSize buf pos) :=
  inferInstanceAs (Decidable (_ ∧ _))

/-- The search of a block over its entries in use. -/
def scanDirents {σ ρ : Type} (visit : σ → Ext2Dirent → Nat → Option (Ext2Visit σ ρ × Nat)) :
    List Ext2Dirent → σ → (k : Nat) → Option ((ρ ⊕ σ) × Nat)
  | [], s, k => some (.inr s, k)
  | de :: l, s, k =>
    match visit s de k with
    | none => none
    | some (.found r, k) => some (.inl r, k)
    | some (.leave s, k) => some (.inr s, k)
    | some (.next s, k) => scanDirents visit l s k

/-- What the search of a block reads along these places. -/
def readList {σ ρ : Type} (visit : σ → Ext2Dirent → Nat → Option (Ext2Visit σ ρ × Nat))
    (reads : σ → Ext2Dirent → Nat → List Nat) (buf : Buffer) :
    List Nat → σ → (k : Nat) → List Nat
  | [], _, _ => []
  | pos :: l, s, k =>
    let de := ext2DirentAt buf pos
    if de.recLen = 0 then [pos + 4, pos + 5] ++ readList visit reads buf l s k
    else
      let header := List.range' (pos + 4) 2 ++ List.range' pos 4
      if de.inode ≠ 0 then
        header ++ (reads s de k).map (pos + ·) ++
          match visit s de k with
          | some (.next s, k) => readList visit reads buf l s k
          | _ => []
      else header ++ readList visit reads buf l s k

variable {σ ρ : Type} {visit : σ → Ext2Dirent → Nat → Option (Ext2Visit σ ρ × Nat)}
  {reads : σ → Ext2Dirent → Nat → List Nat} {m : Medium} {v : Ext2Volume} {ino : Ext2Inode}
  {buf buf' name : Buffer} {de : Ext2Dirent} {l blocks : List Nat} {s : σ}
  {fuel pos k idx count x inodeNum nr n i o blockSize : Nat}

@[simp] theorem liveAt_nil : liveAt buf [] = [] := rfl

theorem liveAt_append {l' : List Nat} : liveAt buf (l ++ l') = liveAt buf l ++ liveAt buf l' := by
  unfold liveAt
  rw [List.map_append, List.filter_append]

theorem liveAt_cons_of_live (hlive : (ext2DirentAt buf pos).Live) :
    liveAt buf (pos :: l) = ext2DirentAt buf pos :: liveAt buf l :=
  List.filter_cons_of_pos (decide_eq_true hlive)

theorem liveAt_cons_of_not_live (hlive : ¬ (ext2DirentAt buf pos).Live) :
    liveAt buf (pos :: l) = liveAt buf l :=
  List.filter_cons_of_neg fun h => hlive (of_decide_eq_true h)

/-! The trace belongs to the search. -/

theorem tracedBlock_eq : v.tracedBlock visit reads buf fuel pos s k =
    (v.scanBlock visit buf fuel pos s k,
      readList visit reads buf (v.visited buf fuel pos) s k) := by
  induction fuel generalizing pos s k with
  | zero => rfl
  | succ fuel ih =>
    unfold Ext2Volume.tracedBlock Ext2Volume.scanBlock Ext2Volume.visited
    by_cases hpos : pos < v.blockSize
    case neg => simp only [if_neg hpos, readList]
    simp only [if_pos hpos, readList]
    by_cases hlen : (ext2DirentAt buf pos).recLen = 0
    case pos => simp only [if_pos hlen, readList, List.append_nil]
    simp only [if_neg hlen]
    by_cases hinode : (ext2DirentAt buf pos).inode ≠ 0
    case neg => simp only [if_neg hinode, ih]
    simp only [if_pos hinode, ih]
    rcases visit s (ext2DirentAt buf pos) k with _ | ⟨_ | _ | _, k'⟩
    · simp
    · simp
    · simp
    · simp

theorem scanBlock_eq : v.scanBlock visit buf fuel pos s k =
    scanDirents visit (liveAt buf (v.visited buf fuel pos)) s k := by
  induction fuel generalizing pos s k with
  | zero => rfl
  | succ fuel ih =>
    unfold Ext2Volume.scanBlock Ext2Volume.visited
    by_cases hpos : pos < v.blockSize
    case neg => simp only [if_neg hpos, liveAt_nil, scanDirents]
    simp only [if_pos hpos]
    by_cases hlen : (ext2DirentAt buf pos).recLen = 0
    case pos =>
      have hlive : ¬ (ext2DirentAt buf pos).Live := fun h => h.1 hlen
      simp only [if_pos hlen, liveAt_cons_of_not_live hlive, liveAt_nil, scanDirents]
    simp only [if_neg hlen]
    by_cases hinode : (ext2DirentAt buf pos).inode ≠ 0
    case neg =>
      have hlive : ¬ (ext2DirentAt buf pos).Live := fun h => hinode h.2
      simp only [if_neg hinode, liveAt_cons_of_not_live hlive, ih]
    simp only [if_pos hinode, liveAt_cons_of_live ⟨hlen, hinode⟩, scanDirents]
    rcases visit s (ext2DirentAt buf pos) k with _ | ⟨_ | _ | _, k'⟩
    · rfl
    · rfl
    · rfl
    · exact ih

theorem tracedBlocks_fst : (v.tracedBlocks m ino visit reads blocks s buf k).1 =
    v.scanBlocks m ino visit blocks s buf k := by
  induction blocks generalizing s buf k with
  | nil => rfl
  | cons bi blocks ih =>
    unfold Ext2Volume.tracedBlocks Ext2Volume.scanBlocks
    by_cases hzero : ino.iBlock bi = 0
    case pos => simp only [if_pos hzero]
    simp only [if_neg hzero]
    rcases v.readInodeBlock m ino bi buf k with _ | ⟨_ | buf, k⟩
    · rfl
    · rfl
    · dsimp only
      rw [tracedBlock_eq]
      dsimp only
      rcases v.scanBlock visit buf v.blockSize 0 s k with _ | ⟨_ | _, k⟩
      · rfl
      · rfl
      · exact ih

theorem tracedReaddir_fst : (v.tracedReaddir m inodeNum idx).1 = v.vfsReaddir m inodeNum idx := by
  unfold Ext2Volume.tracedReaddir Ext2Volume.vfsReaddir
  rcases v.readInode m inodeNum 0 with _ | ⟨_ | ino, k⟩
  · rfl
  · rfl
  · dsimp only
    split_ifs
    · rfl
    · rfl
    · exact tracedBlocks_fst

theorem tracedFinddir_fst :
    (v.tracedFinddir m inodeNum name).1 = v.vfsFinddir m inodeNum name := by
  unfold Ext2Volume.tracedFinddir Ext2Volume.vfsFinddir
  rcases v.readInode m inodeNum 0 with _ | ⟨_ | ino, k⟩
  · rfl
  · rfl
  · dsimp only
    split_ifs
    · rfl
    · exact tracedBlocks_fst

/-! The bytes that it reads. -/

theorem lt_of_mem_strncmpReads {a b : Buffer} (h : o ∈ strncmpReads a b n i) : o < i + n := by
  induction n generalizing i with
  | zero => cases h
  | succ n ih =>
    unfold strncmpReads at h
    split_ifs at h
    · rcases List.mem_cons.mp h with rfl | hmem
      · omega
      · have hlt := ih hmem
        omega
    · obtain rfl := List.mem_singleton.mp h
      omega

theorem lt_of_mem_readdirReads (h : o ∈ Ext2Volume.readdirReads idx count de k) :
    o < 8 + de.nlen := by
  unfold Ext2Volume.readdirReads at h
  split_ifs at h
  · simp only [List.mem_cons, List.mem_range'_1] at h
    omega
  · cases h

theorem lt_of_mem_finddirReads (h : o ∈ Ext2Volume.finddirReads m v name () de k) :
    o < 8 + de.nlen := by
  unfold Ext2Volume.finddirReads at h
  rcases List.mem_append.mp h with hmem | hmem
  · rcases List.mem_cons.mp hmem with rfl | hmem
    · omega
    · obtain ⟨i, hi, rfl⟩ := List.mem_map.mp hmem
      have hlt := lt_of_mem_strncmpReads hi
      omega
  · split at hmem
    · obtain rfl := List.mem_singleton.mp hmem
      omega
    · cases hmem

/-- Where the entries are inside the buffer, all that is read of them is. -/
theorem readList_lt (hreads : ∀ s de k, ∀ o ∈ reads s de k, o < 8 + de.nlen)
    (hin : ∀ pos ∈ l, EntryInside blockSize buf pos) (hx : x ∈ readList visit reads buf l s k) :
    x < blockSize := by
  induction l generalizing s k with
  | nil => cases hx
  | cons pos l ih =>
    obtain ⟨hheader, hbody⟩ := hin pos List.mem_cons_self
    have ih := fun s k => @ih s k fun p hp => hin p (List.mem_cons_of_mem pos hp)
    unfold readList at hx
    dsimp only at hx
    by_cases hlen : (ext2DirentAt buf pos).recLen = 0
    · rw [if_pos hlen] at hx
      rcases List.mem_append.mp hx with hmem | hmem
      · simp only [List.mem_cons, List.not_mem_nil, or_false] at hmem
        omega
      · exact ih s k hmem
    rw [if_neg hlen] at hx
    have hhead : x ∈ List.range' (pos + 4) 2 ++ List.range' pos 4 → x < blockSize := by
      intro hmem
      rw [List.mem_append, List.mem_range'_1, List.mem_range'_1] at hmem
      omega
    by_cases hinode : (ext2DirentAt buf pos).inode ≠ 0
    · have hname := hbody ⟨hlen, hinode⟩
      rw [if_pos hinode] at hx
      rcases List.mem_append.mp hx with hmem | hmem
      · rcases List.mem_append.mp hmem with hmem | hmem
        · exact hhead hmem
        · obtain ⟨o, ho, rfl⟩ := List.mem_map.mp hmem
          have hlt := hreads s _ k o ho
          omega
      · rcases hvisit : visit s (ext2DirentAt buf pos) k with _ | ⟨_ | _ | s', k'⟩ <;>
          rw [hvisit] at hmem
        · cases hmem
        · cases hmem
        · cases hmem
        · exact ih s' k' hmem
    · rw [if_neg hinode] at hx
      rcases List.mem_append.mp hx with hmem | hmem
      · exact hhead hmem
      · exact ih s k hmem

/-- A search that finds nothing reads the length of every entry that it comes to. -/
theorem header_mem_readList (hnext : ∀ s de k, ∃ s' k', visit s de k = some (.next s', k'))
    (hpos : pos ∈ l) : pos + 5 ∈ readList visit reads buf l s k := by
  induction l generalizing s k with
  | nil => cases hpos
  | cons p l ih =>
    have hhead : p + 5 ∈ List.range' (p + 4) 2 ++ List.range' p 4 := by
      rw [List.mem_append, List.mem_range'_1]
      omega
    unfold readList
    dsimp only
    by_cases hlen : (ext2DirentAt buf p).recLen = 0
    · rw [if_pos hlen]
      rcases List.mem_cons.mp hpos with rfl | hpos
      · exact List.mem_append_left _ (List.mem_cons_of_mem _ List.mem_cons_self)
      · exact List.mem_append_right _ (ih hpos)
    rw [if_neg hlen]
    by_cases hinode : (ext2DirentAt buf p).inode ≠ 0
    · obtain ⟨s', k', hvisit⟩ := hnext s (ext2DirentAt buf p) k
      rw [if_pos hinode, hvisit]
      rcases List.mem_cons.mp hpos with rfl | hpos
      · exact List.mem_append_left _ (List.mem_append_left _ hhead)
      · exact List.mem_append_right _ (ih hpos)
    · rw [if_neg hinode]
      rcases List.mem_cons.mp hpos with rfl | hpos
      · exact List.mem_append_left _ hhead
      · exact List.mem_append_right _ (ih hpos)

/-- A listing reads the entry with its number as a whole. -/
theorem entry_mem_readList {l' : List Nat} (hlive : (ext2DirentAt buf pos).Live)
    (hidx : count + (liveAt buf l).length = idx) (hlt : idx < 2 ^ 32)
    (ho : o ∈ 6 :: 7 :: List.range' 8 (ext2DirentAt buf pos).nlen) :
    pos + o ∈ readList (Ext2Volume.readdirVisit idx) (Ext2Volume.readdirReads idx) buf
      (l ++ pos :: l') count k := by
  induction l generalizing count with
  | nil =>
    obtain rfl : count = idx := hidx
    rw [List.nil_append]
    unfold readList
    dsimp only
    rw [if_neg hlive.1, if_pos hlive.2]
    refine List.mem_append_left _ (List.mem_append_right _ (List.mem_map_of_mem ?_))
    unfold Ext2Volume.readdirReads
    rw [if_pos rfl]
    exact ho
  | cons p l ih =>
    rw [List.cons_append]
    unfold readList
    dsimp only
    by_cases hlivep : (ext2DirentAt buf p).Live
    · rw [liveAt_cons_of_live hlivep, List.length_cons] at hidx
      have hvisit : Ext2Volume.readdirVisit idx count (ext2DirentAt buf p) k =
          some (.next (count + 1), k) := by
        unfold Ext2Volume.readdirVisit
        rw [if_neg (by omega), Mm.u32_of_lt (by omega)]
      rw [if_neg hlivep.1, if_pos hlivep.2, hvisit]
      exact List.mem_append_right _ (ih (by omega))
    · rw [liveAt_cons_of_not_live hlivep] at hidx
      split_ifs with hlen hinode
      · exact List.mem_append_right _ (ih hidx)
      · exact absurd ⟨hlen, hinode⟩ hlivep
      · exact List.mem_append_right _ (ih hidx)

end PinguinOS.Fs
