import PinguinOS.Fs.Ext2DirContent
import PinguinOS.Mm.Heap

/-! What the searches of an ext2 directory find, and which bytes of the block buffer they read. -/
namespace PinguinOS.Fs

open Mm (kheapStart kheapMax)

/-- The pointers of these blocks before the first zero. -/
def Ext2Inode.searchedOf (ino : Ext2Inode) (blocks : List Nat) : List Nat :=
  (blocks.map ino.iBlock).takeWhile (· ≠ 0)

variable {m : Medium} {v : Ext2Volume} {ino : Ext2Inode} {buf name : Buffer}
  {l : List Ext2Dirent} {blocks : List Nat} {pos k idx count nr inodeNum : Nat}

/-! The search of a block. -/

theorem scanDirents_readdir (hle : count ≤ idx) (hlt : count + l.length < 2 ^ 32) :
    scanDirents (Ext2Volume.readdirVisit idx) l count k =
      match (l.map (·.entry))[idx - count]? with
      | some e => some (.inl e.cut, k)
      | none => some (.inr (count + l.length), k) := by
  induction l generalizing count with
  | nil => rfl
  | cons de l ih =>
    rw [List.length_cons] at hlt
    unfold scanDirents Ext2Volume.readdirVisit
    by_cases hidx : count = idx
    · subst hidx
      rw [if_pos rfl, Nat.sub_self]
      rfl
    · have hsub : idx - count = idx - (count + 1) + 1 := by omega
      rw [if_neg hidx, Mm.u32_of_lt (by omega), hsub, List.map_cons, List.getElem?_cons_succ,
        List.length_cons, Nat.add_comm l.length 1, ← Nat.add_assoc]
      exact ih (by omega) (by omega)

theorem matches_entry {de : Ext2Dirent} : de.entry.Matches name ↔
    cstrOf de.name de.nlen = cstrOf name de.nlen ∧ name de.nlen = 0 := by
  unfold Ext2Listed.Matches Ext2Dirent.entry cstrOf
  rw [length_bytesAt]

/-- The search by name of entries whose inodes are there. -/
theorem scanDirents_finddir (h : v.Sound) (hm : ∀ k, m.fails k = false)
    (hinode : ∀ e ∈ l.map (·.entry), e.inodeNum < 2 ^ 32 ∧ v.HasInode e.inodeNum) :
    ∃ r k', scanDirents (Ext2Volume.finddirVisit m v name) l () k = some (r, k') ∧
      ((∃ node, r = .inl node) ∧ (∃ e ∈ l.map (·.entry), e.Matches name) ∨
        r = .inr () ∧ ∀ e ∈ l.map (·.entry), ¬ e.Matches name) := by
  induction l generalizing k with
  | nil => exact ⟨_, _, rfl, Or.inr ⟨rfl, fun _ he => nomatch he⟩⟩
  | cons de l ih =>
    have hrest := fun e he => hinode e (List.mem_cons_of_mem de.entry he)
    unfold scanDirents Ext2Volume.finddirVisit
    by_cases hmatch : de.entry.Matches name
    · obtain ⟨hlt, hhas⟩ := hinode de.entry List.mem_cons_self
      obtain ⟨child, k', hread⟩ := @readInode_ok m v k de.inode h hm hlt hhas
      rw [if_pos (matches_entry.mp hmatch), hread]
      dsimp only
      rw [hm k', if_neg Bool.false_ne_true]
      exact ⟨_, _, rfl, Or.inl ⟨⟨_, rfl⟩, de.entry, List.mem_cons_self, hmatch⟩⟩
    · rw [if_neg fun hboth => hmatch (matches_entry.mpr hboth)]
      dsimp only
      obtain ⟨r, k', hscan, hr⟩ := @ih k hrest
      refine ⟨r, k', hscan, ?_⟩
      rcases hr with ⟨hfound, e, he, hematch⟩ | ⟨hnone, hall⟩
      · exact Or.inl ⟨hfound, e, List.mem_cons_of_mem _ he, hematch⟩
      · refine Or.inr ⟨hnone, fun e he => ?_⟩
        rcases List.mem_cons.mp he with rfl | hmem
        · exact hmatch
        · exact hall e hmem

/-! The search of all blocks. -/

theorem searchedOf_cons {bi : Nat} (hne : ino.iBlock bi ≠ 0) :
    ino.searchedOf (bi :: blocks) = ino.iBlock bi :: ino.searchedOf blocks := by
  unfold Ext2Inode.searchedOf
  rw [List.map_cons, List.takeWhile_cons, if_pos (decide_eq_true hne)]

theorem searchedOf_zero {bi : Nat} (hzero : ino.iBlock bi = 0) :
    ino.searchedOf (bi :: blocks) = [] := by
  have hstop : decide (ino.iBlock bi ≠ 0) = false := decide_eq_false fun hne => hne hzero
  unfold Ext2Inode.searchedOf
  rw [List.map_cons, List.takeWhile_cons, hstop, if_neg Bool.false_ne_true]

theorem readInodeBlock_direct {bi : Nat} (hbi : bi < 12) : v.readInodeBlock m ino bi buf k =
    some (ext2BlockAt m v.blockSize (ino.iBlock bi) 0 buf k) := by
  unfold Ext2Volume.readInodeBlock
  rw [if_pos hbi]

/-- A direct block is there when no call fails. -/
theorem readDirect_ok {bi : Nat} (h : v.Sound) (hm : ∀ k, m.fails k = false) (hbi : bi < 12) :
    ∃ b k', v.readInodeBlock m ino bi buf k = some (some b, k') ∧
      ∀ i < v.blockSize, v.blockBytes m.sector (ino.iBlock bi) i = b i := by
  obtain ⟨b, k', hb⟩ := @blockAt_ok m v buf k (ino.iBlock bi) hm
  rw [readInodeBlock_direct hbi]
  exact ⟨b, k', congrArg some hb, fun i hi => (blockAt_some h hb i hi).symm⟩

/-- The entries that a search of these blocks comes to. -/
def Ext2Volume.seenIn (v : Ext2Volume) (sector : Nat → Buffer) (nrs : List Nat) :
    List Ext2Listed :=
  nrs.flatMap fun nr => v.seenEntries (v.blockBytes sector nr)

/-- What is visited of these blocks is inside the buffer. -/
def Ext2Volume.BlocksInside (v : Ext2Volume) (sector : Nat → Buffer) (nrs : List Nat) : Prop :=
  ∀ nr ∈ nrs, ∀ pos ∈ v.visited (v.blockBytes sector nr) v.blockSize 0,
    EntryInside v.blockSize (v.blockBytes sector nr) pos

theorem scanBlocks_readdir (h : v.Sound) (hm : ∀ k, m.fails k = false)
    (hblocks : ∀ bi ∈ blocks, bi < 12) (hin : v.BlocksInside m.sector (ino.searchedOf blocks))
    (hle : count ≤ idx) (hlt : count + blocks.length * v.blockSize < 2 ^ 32) :
    v.scanBlocks m ino (Ext2Volume.readdirVisit idx) blocks count buf k =
      some ((v.seenIn m.sector (ino.searchedOf blocks))[idx - count]?.map (·.cut)) := by
  induction blocks generalizing count buf k with
  | nil => rfl
  | cons bi blocks ih =>
    unfold Ext2Volume.scanBlocks
    by_cases hzero : ino.iBlock bi = 0
    · rw [if_pos hzero, searchedOf_zero hzero]
      rfl
    rw [searchedOf_cons hzero] at hin ⊢
    obtain ⟨b, k', hb, hsame⟩ := @readDirect_ok m v ino buf k bi h hm (hblocks bi List.mem_cons_self)
    have hseen := seenEntries_congr hsame (hin _ List.mem_cons_self)
    have hlen := @length_seenEntries v b h
    rw [List.length_cons, Nat.add_mul] at hlt
    have hentries : (liveAt b (v.visited b v.blockSize 0)).map (·.entry) = v.seenEntries b := rfl
    have hlive : (liveAt b (v.visited b v.blockSize 0)).length = (v.seenEntries b).length := by
      rw [← hentries, List.length_map]
    rw [if_neg hzero, hb]
    dsimp only
    rw [scanBlock_eq, scanDirents_readdir hle (by omega), hentries, hlive]
    unfold Ext2Volume.seenIn
    rw [List.flatMap_cons, ← hseen, List.getElem?_append]
    by_cases hfound : idx - count < (v.seenEntries b).length
    · rw [if_pos hfound, List.getElem?_eq_getElem hfound]
      rfl
    · rw [if_neg hfound, List.getElem?_eq_none (Nat.not_lt.mp hfound)]
      dsimp only
      rw [ih (fun bi hbi => hblocks bi (List.mem_cons_of_mem _ hbi))
        (fun nr hnr => hin nr (List.mem_cons_of_mem _ hnr)) (by omega) (by omega),
        Nat.sub_add_eq]
      rfl

theorem scanBlocks_finddir (h : v.Sound) (hm : ∀ k, m.fails k = false)
    (hblocks : ∀ bi ∈ blocks, bi < 12) (hin : v.BlocksInside m.sector (ino.searchedOf blocks))
    (hinode : ∀ e ∈ v.seenIn m.sector (ino.searchedOf blocks),
      e.inodeNum < 2 ^ 32 ∧ v.HasInode e.inodeNum) :
    (∃ node, v.scanBlocks m ino (Ext2Volume.finddirVisit m v name) blocks () buf k =
      some (some node)) ↔ ∃ e ∈ v.seenIn m.sector (ino.searchedOf blocks), e.Matches name := by
  induction blocks generalizing buf k with
  | nil =>
    constructor
    · rintro ⟨_, hnone⟩
      cases hnone
    · rintro ⟨_, he, -⟩
      cases he
  | cons bi blocks ih =>
    unfold Ext2Volume.scanBlocks
    by_cases hzero : ino.iBlock bi = 0
    · rw [if_pos hzero, searchedOf_zero hzero]
      constructor
      · rintro ⟨_, hnone⟩
        cases hnone
      · rintro ⟨_, he, -⟩
        cases he
    rw [searchedOf_cons hzero] at hin hinode ⊢
    obtain ⟨b, k', hb, hsame⟩ := @readDirect_ok m v ino buf k bi h hm (hblocks bi List.mem_cons_self)
    have hseen := seenEntries_congr hsame (hin _ List.mem_cons_self)
    unfold Ext2Volume.seenIn at hinode ⊢
    rw [List.flatMap_cons, ← hseen] at hinode
    rw [List.flatMap_cons, ← hseen, if_neg hzero, hb]
    dsimp only
    rw [scanBlock_eq]
    obtain ⟨r, k'', hscan, hr⟩ := @scanDirents_finddir m v name
      (liveAt b (v.visited b v.blockSize 0)) k' h hm
      fun e he => hinode e (List.mem_append_left _ he)
    rw [hscan]
    rcases hr with ⟨⟨node, rfl⟩, e, he, hmatch⟩ | ⟨rfl, hnone⟩
    · exact ⟨fun _ => ⟨e, List.mem_append_left _ he, hmatch⟩, fun _ => ⟨node, rfl⟩⟩
    · refine (ih (fun bi hbi => hblocks bi (List.mem_cons_of_mem _ hbi))
        (fun nr hnr => hin nr (List.mem_cons_of_mem _ hnr))
        fun e he => hinode e (List.mem_append_right _ he)).trans ⟨?_, ?_⟩
      · rintro ⟨e, he, hmatch⟩
        exact ⟨e, List.mem_append_right _ he, hmatch⟩
      · rintro ⟨e, he, hmatch⟩
        rcases List.mem_append.mp he with hmem | hmem
        · exact absurd hmatch (hnone e hmem)
        · exact ⟨e, hmem, hmatch⟩

/-! What the searches read. -/

section
variable {σ ρ : Type} {visit : σ → Ext2Dirent → Nat → Option (Ext2Visit σ ρ × Nat)}
  {reads : σ → Ext2Dirent → Nat → List Nat} {st : σ} {x : Nat}

/-- The trace of a block is a part of the trace of all. -/
theorem tracedBlocks_cons {bi : Nat} (hzero : ino.iBlock bi ≠ 0) {b : Buffer} {k' : Nat}
    (hb : v.readInodeBlock m ino bi buf k = some (some b, k')) :
    (v.tracedBlocks m ino visit reads (bi :: blocks) st buf k).2 =
      readList visit reads b (v.visited b v.blockSize 0) st k' ++
        match scanDirents visit (liveAt b (v.visited b v.blockSize 0)) st k' with
        | some (.inr s, k) => (v.tracedBlocks m ino visit reads blocks s b k).2
        | _ => [] := by
  rw [Ext2Volume.tracedBlocks, if_neg hzero, hb]
  dsimp only
  rw [tracedBlock_eq, scanBlock_eq]
  dsimp only
  rcases scanDirents visit (liveAt b (v.visited b v.blockSize 0)) st k' with _ | ⟨_ | _, k''⟩
  · exact (List.append_nil _).symm
  · exact (List.append_nil _).symm
  · rfl

theorem tracedBlocks_lt (h : v.Sound) (hreads : ∀ s de k, ∀ o ∈ reads s de k, o < 8 + de.nlen)
    (hblocks : ∀ bi ∈ blocks, bi < 12) (hin : v.BlocksInside m.sector (ino.searchedOf blocks))
    (hx : x ∈ (v.tracedBlocks m ino visit reads blocks st buf k).2) : x < v.blockSize := by
  induction blocks generalizing st buf k with
  | nil => cases hx
  | cons bi blocks ih =>
    have ih := fun buf k s => @ih buf k s (fun bi hbi => hblocks bi (List.mem_cons_of_mem _ hbi))
    by_cases hzero : ino.iBlock bi = 0
    · rw [Ext2Volume.tracedBlocks, if_pos hzero] at hx
      cases hx
    rw [searchedOf_cons hzero] at hin
    rcases hb : ext2BlockAt m v.blockSize (ino.iBlock bi) 0 buf k with ⟨_ | b, k'⟩
    · rw [Ext2Volume.tracedBlocks, if_neg hzero,
        readInodeBlock_direct (hblocks bi List.mem_cons_self), hb] at hx
      cases hx
    have hread : v.readInodeBlock m ino bi buf k = some (some b, k') :=
      (readInodeBlock_direct (hblocks bi List.mem_cons_self)).trans (congrArg some hb)
    have hblock := inside_congr (fun i hi => (blockAt_some h hb i hi).symm)
      (hin _ List.mem_cons_self)
    rw [tracedBlocks_cons hzero hread] at hx
    rcases List.mem_append.mp hx with hmem | hmem
    · exact readList_lt hreads hblock hmem
    · rcases hscan : scanDirents visit (liveAt b (v.visited b v.blockSize 0)) st k' with
        _ | ⟨_ | s', k''⟩ <;> rw [hscan] at hmem
      · cases hmem
      · cases hmem
      · exact ih b k'' s' (fun nr hnr => hin nr (List.mem_cons_of_mem _ hnr)) hmem

/-- A search that finds nothing comes to the end of every block. -/
theorem scanDirents_next (hnext : ∀ s de k, ∃ s' k', visit s de k = some (.next s', k')) :
    ∃ s' k', scanDirents visit l st k = some (.inr s', k') := by
  induction l generalizing st k with
  | nil => exact ⟨st, k, rfl⟩
  | cons de l ih =>
    obtain ⟨s', k', hvisit⟩ := hnext st de k
    unfold scanDirents
    rw [hvisit]
    exact ih

theorem header_mem_traced (h : v.Sound) (hm : ∀ k, m.fails k = false)
    (hblocks : ∀ bi ∈ blocks, bi < 12)
    (hnext : ∀ s de k, ∃ s' k', visit s de k = some (.next s', k'))
    (hnr : nr ∈ ino.searchedOf blocks) :
    ∃ b : Buffer, (∀ i < v.blockSize, b i = v.blockBytes m.sector nr i) ∧
      ∀ pos ∈ v.visited b v.blockSize 0,
        pos + 5 ∈ (v.tracedBlocks m ino visit reads blocks st buf k).2 := by
  induction blocks generalizing st buf k with
  | nil => cases hnr
  | cons bi blocks ih =>
    by_cases hzero : ino.iBlock bi = 0
    · rw [searchedOf_zero hzero] at hnr
      cases hnr
    rw [searchedOf_cons hzero] at hnr
    obtain ⟨b, k', hb, hsame⟩ := @readDirect_ok m v ino buf k bi h hm (hblocks bi List.mem_cons_self)
    rw [tracedBlocks_cons hzero hb]
    rcases List.mem_cons.mp hnr with rfl | hmem
    · exact ⟨b, fun i hi => (hsame i hi).symm, fun pos hpos =>
        List.mem_append_left _ (header_mem_readList hnext hpos)⟩
    · obtain ⟨s', k'', hscan⟩ := @scanDirents_next (liveAt b (v.visited b v.blockSize 0)) k' _ _ _
        st hnext
      rw [hscan]
      obtain ⟨c, hc, hall⟩ := @ih b k'' s' (fun bi hbi => hblocks bi (List.mem_cons_of_mem _ hbi))
        hmem
      exact ⟨c, hc, fun pos hpos => List.mem_append_right _ (hall pos hpos)⟩

end

/-- Some listing reads this entry, where the headers are inside the blocks. -/
theorem entry_mem_traced (h : v.Sound) (hm : ∀ k, m.fails k = false)
    (hblocks : ∀ bi ∈ blocks, bi < 12) (hlt : count + blocks.length * v.blockSize < 2 ^ 32)
    (hheader : ∀ nr ∈ ino.searchedOf blocks,
      ∀ p ∈ v.visited (v.blockBytes m.sector nr) v.blockSize 0, p + 6 ≤ v.blockSize)
    (hnr : nr ∈ ino.searchedOf blocks)
    (hpos : pos ∈ v.visited (v.blockBytes m.sector nr) v.blockSize 0)
    (hlive : (ext2DirentAt (v.blockBytes m.sector nr) pos).Live) :
    ∃ idx, count ≤ idx ∧ idx < 2 ^ 32 ∧
      ∃ b : Buffer, (∀ i < v.blockSize, b i = v.blockBytes m.sector nr i) ∧
        ∀ o ∈ 6 :: 7 :: List.range' 8 (ext2DirentAt b pos).nlen,
          pos + o ∈ (v.tracedBlocks m ino (Ext2Volume.readdirVisit idx)
            (Ext2Volume.readdirReads idx) blocks count buf k).2 := by
  induction blocks generalizing count buf k with
  | nil => cases hnr
  | cons bi blocks ih =>
    by_cases hzero : ino.iBlock bi = 0
    · rw [searchedOf_zero hzero] at hnr
      cases hnr
    rw [searchedOf_cons hzero] at hnr hheader
    rw [List.length_cons, Nat.add_mul] at hlt
    obtain ⟨b, k', hb, hsame⟩ := @readDirect_ok m v ino buf k bi h hm (hblocks bi List.mem_cons_self)
    have hvisited := visited_congr hsame (hheader _ List.mem_cons_self)
    have hlen : (liveAt b (v.visited b v.blockSize 0)).length ≤ v.blockSize :=
      length_liveAt.trans (length_visited h)
    rcases List.mem_cons.mp hnr with rfl | hmem
    · obtain ⟨l, l', hsplit⟩ := List.append_of_mem hpos
      have hliveb := (live_congr hsame (hheader _ List.mem_cons_self pos hpos)).mp hlive
      rw [hvisited, hsplit, liveAt_append, List.length_append, liveAt_cons_of_live hliveb,
        List.length_cons] at hlen
      refine ⟨count + (liveAt b l).length, Nat.le_add_right _ _, by omega, b,
        fun i hi => (hsame i hi).symm, fun o ho => ?_⟩
      rw [tracedBlocks_cons hzero hb, hvisited, hsplit]
      exact List.mem_append_left _ (entry_mem_readList hliveb rfl (by omega) ho)
    · obtain ⟨idx, hle, hidx, c, hc, hall⟩ := @ih b k'
        (count + (liveAt b (v.visited b v.blockSize 0)).length)
        (fun bi hbi => hblocks bi (List.mem_cons_of_mem _ hbi)) (by omega)
        (fun nr hnr => hheader nr (List.mem_cons_of_mem _ hnr)) hmem
      refine ⟨idx, by omega, hidx, c, hc, fun o ho => ?_⟩
      have hend : ((liveAt b (v.visited b v.blockSize 0)).map (·.entry))[idx - count]? = none := by
        apply List.getElem?_eq_none
        rw [List.length_map]
        omega
      rw [tracedBlocks_cons hzero hb, scanDirents_readdir (by omega) (by omega), hend]
      exact List.mem_append_right _ (hall o ho)

/-! The calls. -/

theorem SameInode.searched {r d : Ext2ModeInode} (h : SameInode r d) :
    r.toExt2Inode.searched = d.toExt2Inode.searched := by
  unfold Ext2Inode.searched
  rw [List.map_congr_left fun i hi => h.block i (by
    have hlt := List.mem_range.mp hi
    omega)]

theorem vfsReaddir_eq (h : v.Sound) (hheap : v.blockSize ≤ kheapMax - kheapStart)
    (hlt : inodeNum < 2 ^ 32) (hino : v.HasInode inodeNum) (hm : ∀ k, m.fails k = false)
    (hmode : (v.diskInode m.sector inodeNum).iMode &&& ext2SIfdir ≠ 0)
    (hin : v.BlocksInside m.sector (v.diskInode m.sector inodeNum).searched) :
    v.vfsReaddir m inodeNum idx =
      some ((v.seenIn m.sector (v.diskInode m.sector inodeNum).searched)[idx]?.map (·.cut)) := by
  obtain ⟨r, k, hread⟩ := @readInode_ok m v 0 inodeNum h hm hlt hino
  have hsame := readInode_some h hread
  have hfits : 12 * v.blockSize < 2 ^ 32 := by
    have hbound : kheapMax - kheapStart < 2 ^ 28 := by decide
    omega
  rw [← hsame.searched] at hin ⊢
  unfold Ext2Volume.vfsReaddir
  rw [hread]
  dsimp only
  rw [hsame.mode, if_neg hmode, if_neg (buffer_ok h hm)]
  exact scanBlocks_readdir h hm (fun bi hbi => List.mem_range.mp hbi) hin (Nat.zero_le _)
    (by rw [List.length_range]; omega)

theorem vfsFinddir_iff (h : v.Sound) (hlt : inodeNum < 2 ^ 32) (hino : v.HasInode inodeNum)
    (hm : ∀ k, m.fails k = false)
    (hin : v.BlocksInside m.sector (v.diskInode m.sector inodeNum).searched)
    (hinode : ∀ e ∈ v.seenIn m.sector (v.diskInode m.sector inodeNum).searched,
      e.inodeNum < 2 ^ 32 ∧ v.HasInode e.inodeNum) :
    (∃ node, v.vfsFinddir m inodeNum name = some (some node)) ↔
      ∃ e ∈ v.seenIn m.sector (v.diskInode m.sector inodeNum).searched, e.Matches name := by
  obtain ⟨r, k, hread⟩ := @readInode_ok m v 0 inodeNum h hm hlt hino
  have hsame := readInode_some h hread
  rw [← hsame.searched] at hin hinode ⊢
  unfold Ext2Volume.vfsFinddir
  rw [hread]
  dsimp only
  rw [if_neg (buffer_ok h hm)]
  exact scanBlocks_finddir h hm (fun bi hbi => List.mem_range.mp hbi) hin hinode

theorem tracedReaddir_lt {x : Nat} (h : v.Sound)
    (hin : v.BlocksInside m.sector (v.diskInode m.sector inodeNum).searched)
    (hx : x ∈ (v.tracedReaddir m inodeNum idx).2) : x < v.blockSize := by
  unfold Ext2Volume.tracedReaddir at hx
  rcases hread : v.readInode m inodeNum 0 with _ | ⟨_ | r, k⟩ <;> rw [hread] at hx
  · cases hx
  · cases hx
  dsimp only at hx
  rw [← (readInode_some h hread).searched] at hin
  split_ifs at hx
  · cases hx
  · cases hx
  · exact tracedBlocks_lt h (fun _ _ _ _ ho => lt_of_mem_readdirReads ho)
      (fun bi hbi => List.mem_range.mp hbi) hin hx

theorem tracedFinddir_lt {x : Nat} (h : v.Sound)
    (hin : v.BlocksInside m.sector (v.diskInode m.sector inodeNum).searched)
    (hx : x ∈ (v.tracedFinddir m inodeNum name).2) : x < v.blockSize := by
  unfold Ext2Volume.tracedFinddir at hx
  rcases hread : v.readInode m inodeNum 0 with _ | ⟨_ | r, k⟩ <;> rw [hread] at hx
  · cases hx
  · cases hx
  dsimp only at hx
  rw [← (readInode_some h hread).searched] at hin
  split_ifs at hx
  · cases hx
  · exact tracedBlocks_lt h (fun _ _ _ _ ho => lt_of_mem_finddirReads ho)
      (fun bi hbi => List.mem_range.mp hbi) hin hx

end PinguinOS.Fs
