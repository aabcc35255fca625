import PinguinOS.Fs.Ext2DirSearch

/-! Which ext2 directories are searched completely, and inside the block buffer. -/
namespace PinguinOS.Fs

open Mm (kheapStart kheapMax)

/-- The searches of the directory with the number `ino`. When its blocks are chains of entries, and
no call fails, they show its entries; with any content and any calls that fail, they end and read
only the block buffer. -/
structure DirSearched (v : Ext2Volume) (sector : Nat → Buffer) (ino : Nat) : Prop where
  readdir : v.WellFormedDir sector (v.diskInode sector ino).toExt2Inode →
    ∀ fresh, ∀ idx < 2 ^ 32, v.vfsReaddir ⟨sector, fresh, fun _ => false⟩ ino idx =
      some (v.dirEntries sector (v.diskInode sector ino).toExt2Inode)[idx]?
  finddir : v.WellFormedDir sector (v.diskInode sector ino).toExt2Inode →
    ∀ fresh name s, HoldsName name s →
      ((∃ node, v.vfsFinddir ⟨sector, fresh, fun _ => false⟩ ino name = some (some node)) ↔
        ∃ e ∈ v.dirEntries sector (v.diskInode sector ino).toExt2Inode, e.name = s)
  ends : ∀ buf, v.LoopEnds buf v.blockSize 0
  readdir_inside : ∀ fresh fails, ∀ idx < 2 ^ 32,
    ∀ x ∈ (v.tracedReaddir ⟨sector, fresh, fails⟩ ino idx).2, x < v.blockSize
  finddir_inside : ∀ fresh fails name s, HoldsName name s →
    ∀ x ∈ (v.tracedFinddir ⟨sector, fresh, fails⟩ ino name).2, x < v.blockSize

/-- The entries that the searches come to are inside their blocks. In a directory of chains, a block
that is not reached is empty, and so is one that is reached behind the end of the directory. -/
structure DirShown (v : Ext2Volume) (sector : Nat → Buffer) (ino : Ext2Inode) : Prop where
  inside : ∀ nr ∈ ino.searched, ∀ pos ∈ v.visited (v.blockBytes sector nr) v.blockSize 0,
    EntryInside v.blockSize (v.blockBytes sector nr) pos
  reached : v.WellFormedDir sector ino → ∀ k, ino.searched.length ≤ k → k < v.blockCount ino →
    v.blockEntries sector ino k = []
  own : v.WellFormedDir sector ino → ∀ k, v.blockCount ino ≤ k → k < ino.searched.length →
    v.seenEntries (v.blockBytes sector (ino.iBlock k)) = []

variable {m : Medium} {v : Ext2Volume} {ino : Ext2Inode} {buf name : Buffer} {e : Ext2Listed}
  {s : CStr} {sector : Nat → Buffer} {k idx nr inodeNum : Nat}

/-! The blocks of the directory. -/

/-- Lists by blocks that agree as far as both go are equal when the longer one ends with nothing. -/
theorem flatMap_range_eq_iff {α : Type*} {f g : Nat → List α} {a b : Nat}
    (hsame : ∀ k, k < a → k < b → f k = g k) :
    (List.range a).flatMap f = (List.range b).flatMap g ↔
      (∀ k, a ≤ k → k < b → g k = []) ∧ ∀ k, b ≤ k → k < a → f k = [] := by
  have hlong : ∀ {f g : Nat → List α} {a b : Nat}, (∀ k, k < a → f k = g k) → a ≤ b →
      ((List.range a).flatMap f = (List.range b).flatMap g ↔ ∀ k, a ≤ k → k < b → g k = []) := by
    intro f g a b hfg hle
    obtain ⟨c, rfl⟩ := Nat.exists_eq_add_of_le hle
    have hfirst : (List.range a).flatMap f = (List.range a).flatMap g :=
      List.flatMap_congr fun k hk => hfg k (List.mem_range.mp hk)
    rw [List.range_add, List.flatMap_append, hfirst, List.self_eq_append_right,
      List.flatMap_eq_nil_iff]
    constructor
    · intro hempty k hge hlt
      exact hempty k (List.mem_map.mpr ⟨k - a, List.mem_range.mpr (by omega), by omega⟩)
    · intro hempty k hk
      obtain ⟨i, hi, rfl⟩ := List.mem_map.mp hk
      have hi := List.mem_range.mp hi
      exact hempty _ (Nat.le_add_right a i) (by omega)
  rcases Nat.le_total a b with hle | hle
  · rw [hlong (fun k hk => hsame k hk (by omega)) hle]
    exact ⟨fun hempty => ⟨hempty, by omega⟩, And.left⟩
  · rw [eq_comm, hlong (fun k hk => (hsame k (by omega) hk).symm) hle]
    exact ⟨fun hempty => ⟨by omega, hempty⟩, And.right⟩

theorem length_searched : ino.searched.length ≤ 12 := by
  have hfirst : ino.searched <+: (List.range 12).map ino.iBlock := List.takeWhile_prefix _
  have hle := hfirst.length_le
  rw [List.length_map, List.length_range] at hle
  exact hle

theorem searched_eq : ino.searched = (List.range ino.searched.length).map ino.iBlock := by
  have hfirst : ino.searched <+: (List.range 12).map ino.iBlock := List.takeWhile_prefix _
  conv_lhs => rw [List.prefix_iff_eq_take.mp hfirst]
  rw [← List.map_take, List.take_range, Nat.min_eq_left length_searched]

theorem iBlock_ne_zero (hk : k < ino.searched.length) : ino.iBlock k ≠ 0 := by
  have hmem : ino.iBlock k ∈ ino.searched := by
    rw [searched_eq]
    exact List.mem_map_of_mem (List.mem_range.mpr hk)
  have hne : decide (ino.iBlock k ≠ 0) = true :=
    @List.mem_takeWhile_imp _ (fun nr => decide (nr ≠ 0)) _ _ hmem
  exact of_decide_eq_true hne

theorem fileBlock_direct (hk : k < ino.searched.length) :
    v.fileBlock sector ino k = some (ino.iBlock k) := by
  have hdirect : k < 12 := hk.trans_le length_searched
  unfold Ext2Volume.fileBlock Ext2Volume.blockWay
  dsimp only
  rw [if_pos hdirect]
  exact if_neg (iBlock_ne_zero hk)

theorem seenIn_searched : v.seenIn sector ino.searched =
    (List.range ino.searched.length).flatMap fun k =>
      v.seenEntries (v.blockBytes sector (ino.iBlock k)) := by
  unfold Ext2Volume.seenIn
  conv_lhs => rw [searched_eq]
  exact List.flatMap_map _ _ _

theorem inodeNum_lt (he : e ∈ v.seenEntries buf) : e.inodeNum < 2 ^ 32 := by
  obtain ⟨de, hde, rfl⟩ := List.mem_map.mp he
  obtain ⟨hmem, -⟩ := List.mem_filter.mp hde
  obtain ⟨pos, -, rfl⟩ := List.mem_map.mp hmem
  exact word32_lt

/-- In a directory of chains, the entries of a block are those that its search comes to. -/
theorem blockEntries_eq (h : v.Sound) (hdir : v.WellFormedDir sector ino)
    (hk : k < v.blockCount ino) (hnr : v.fileBlock sector ino k = some nr) :
    v.blockEntries sector ino k = v.seenEntries (v.blockBytes sector nr) ∧
      ∀ e ∈ v.blockEntries sector ino k,
        (e.inodeNum < 2 ^ 32 ∧ v.HasInode e.inodeNum) ∧ 0 ∉ e.name := by
  obtain ⟨l, hl⟩ := Option.isSome_iff_exists.mp (hdir k hk nr hnr)
  obtain ⟨hseen, hall⟩ := seenEntries_chain h hl
  have hentries : v.blockEntries sector ino k = v.seenEntries (v.blockBytes sector nr) := by
    unfold Ext2Volume.blockEntries
    rw [hnr]
    dsimp only
    rw [hl, hseen, Option.getD_some]
  rw [hentries]
  exact ⟨rfl, fun e he => ⟨⟨inodeNum_lt he, (hall e he).1⟩, (hall e he).2⟩⟩

theorem dirEntries_ok (h : v.Sound) (hdir : v.WellFormedDir sector ino)
    (he : e ∈ v.dirEntries sector ino) :
    (e.inodeNum < 2 ^ 32 ∧ v.HasInode e.inodeNum) ∧ 0 ∉ e.name := by
  obtain ⟨k, hk, he⟩ := List.mem_flatMap.mp he
  rcases hnr : v.fileBlock sector ino k with _ | nr
  · unfold Ext2Volume.blockEntries at he
    rw [hnr] at he
    cases he
  · exact (blockEntries_eq h hdir (List.mem_range.mp hk) hnr).2 e he

theorem cut_eq (hzero : 0 ∉ e.name) : e.cut = e := by
  have hname : e.name.takeWhile (· ≠ 0) = e.name := by
    rw [List.takeWhile_eq_self_iff]
    intro x hx
    refine decide_eq_true fun heq => hzero ?_
    rw [← heq]
    exact hx
  unfold Ext2Listed.cut
  rw [hname]

/-- The comparison of the names is equality, when there are no zeros in that of the entry. -/
theorem entryMatches_iff (hzero : 0 ∉ e.name) (hname : HoldsName name s) :
    e.Matches name ↔ e.name = s := by
  have hcut : e.name.takeWhile (· ≠ 0) = e.name := congrArg Ext2Listed.name (cut_eq hzero)
  unfold Ext2Listed.Matches
  rw [hcut]
  constructor
  · rintro ⟨hsame, hend⟩
    have hlen := congrArg List.length hsame
    unfold cstrOf at hsame hlen
    have hfull : (bytesAt name 0 e.name.length).takeWhile (· ≠ 0) = bytesAt name 0 e.name.length :=
      (List.takeWhile_prefix _).eq_of_length (by rw [← hlen, length_bytesAt])
    rw [hfull] at hsame
    -- `s` ends at the first zero of the buffer, which is behind the name of the entry
    have hlength : e.name.length = s.length := by
      rcases Nat.lt_trichotomy e.name.length s.length with hlt | heq | hgt
      · refine absurd ?_ hname.no_zero
        have hbyte : (bytesAt name 0 s.length)[e.name.length]? = some (name e.name.length) := by
          unfold bytesAt
          rw [List.getElem?_map, List.getElem?_range hlt, Option.map_some, Nat.zero_add]
        rw [hname.bytes, hend] at hbyte
        exact List.mem_of_getElem? hbyte
      · exact heq
      · refine absurd ?_ hzero
        have hbyte : (bytesAt name 0 e.name.length)[s.length]? = some (name s.length) := by
          unfold bytesAt
          rw [List.getElem?_map, List.getElem?_range hgt, Option.map_some, Nat.zero_add]
        rw [← hsame, hname.ended] at hbyte
        exact List.mem_of_getElem? hbyte
    rw [hsame, hlength, hname.bytes]
  · intro heq
    rw [heq] at hcut ⊢
    unfold cstrOf
    rw [hname.bytes, hcut]
    exact ⟨rfl, hname.ended⟩

/-! From the reads to the blocks. -/

/-- A name that is longer than that of any entry. -/
def longName : Buffer := fun i => if i < 256 then 1 else 0

theorem holdsName_long : HoldsName longName (List.replicate 256 1) where
  bytes := by
    rw [List.length_replicate, List.eq_replicate_iff, length_bytesAt]
    refine ⟨rfl, fun x hx => ?_⟩
    obtain ⟨i, hi, rfl⟩ := List.mem_map.mp hx
    have hlt := List.mem_range.mp hi
    exact if_pos (by omega)
  ended := by
    rw [List.length_replicate]
    rfl
  no_zero := fun hzero => absurd (List.eq_of_mem_replicate hzero) (by decide)

theorem finddirVisit_long {de : Ext2Dirent} {u : Unit} :
    Ext2Volume.finddirVisit m v longName u de k = some (.next (), k) := by
  have hnlen : de.nlen < 256 := by
    unfold Ext2Dirent.nlen
    omega
  have hne : ¬ longName de.nlen = 0 := by
    unfold longName
    rw [if_pos hnlen]
    decide
  unfold Ext2Volume.finddirVisit
  rw [if_neg fun hboth => hne hboth.2]

/-- The search for a name that is not there reads the headers of all entries. -/
theorem headers_of_searched (h : v.Sound) (hlt : inodeNum < 2 ^ 32) (hino : v.HasInode inodeNum)
    (hdir : DirSearched v sector inodeNum) :
    ∀ nr ∈ (v.diskInode sector inodeNum).searched,
      ∀ p ∈ v.visited (v.blockBytes sector nr) v.blockSize 0, p + 6 ≤ v.blockSize := by
  have hm : ∀ k, (⟨sector, fun _ => 0, fun _ => false⟩ : Medium).fails k = false := fun _ => rfl
  obtain ⟨r, k, hread⟩ := @readInode_ok ⟨sector, fun _ => 0, fun _ => false⟩ v 0 inodeNum h hm hlt
    hino
  rw [← (readInode_some h hread).searched]
  intro nr hnr p hp
  have hbound := hdir.finddir_inside (fun _ => 0) (fun _ => false) longName _ holdsName_long
  unfold Ext2Volume.tracedFinddir at hbound
  rw [hread] at hbound
  dsimp only at hbound
  rw [if_neg (buffer_ok h hm)] at hbound
  obtain ⟨b, hb, hall⟩ := header_mem_traced h hm (fun bi hbi => List.mem_range.mp hbi)
    (fun _ _ _ => ⟨(), _, finddirVisit_long⟩) hnr
  have hinside : ∀ q ∈ v.visited b v.blockSize 0, q + 6 ≤ v.blockSize := fun q hq =>
    hbound _ (hall q hq)
  rw [visited_congr hb hinside] at hp
  exact hinside p hp

/-- Searches that keep to the buffer come only to entries inside it. -/
theorem blocksInside_of_searched (h : v.Sound) (hheap : v.blockSize ≤ kheapMax - kheapStart)
    (hlt : inodeNum < 2 ^ 32) (hino : v.HasInode inodeNum)
    (hmode : (v.diskInode sector inodeNum).iMode &&& ext2SIfdir ≠ 0)
    (hdir : DirSearched v sector inodeNum) :
    v.BlocksInside sector (v.diskInode sector inodeNum).searched := by
  have hm : ∀ k, (⟨sector, fun _ => 0, fun _ => false⟩ : Medium).fails k = false := fun _ => rfl
  obtain ⟨r, k, hread⟩ := @readInode_ok ⟨sector, fun _ => 0, fun _ => false⟩ v 0 inodeNum h hm hlt
    hino
  have hsame := readInode_some h hread
  have hfits : 12 * v.blockSize < 2 ^ 32 := by
    have hbound : kheapMax - kheapStart < 2 ^ 28 := by decide
    omega
  have hheader := headers_of_searched h hlt hino hdir
  rw [← hsame.searched] at hheader ⊢
  intro nr hnr p hp
  refine ⟨hheader nr hnr p hp, fun hlive => ?_⟩
  -- the listing up to this entry reads it as a whole
  obtain ⟨idx, -, hidx, b, hb, hall⟩ := @entry_mem_traced ⟨sector, fun _ => 0, fun _ => false⟩ v
    r.toExt2Inode (fun _ => 0) (List.range 12) p (k + 1) 0 nr h hm
    (fun bi hbi => List.mem_range.mp hbi) (by rw [List.length_range]; omega) hheader hnr hp hlive
  have hbound := hdir.readdir_inside (fun _ => 0) (fun _ => false) idx hidx
  unfold Ext2Volume.tracedReaddir at hbound
  rw [hread] at hbound
  dsimp only at hbound
  rw [hsame.mode, if_neg hmode, if_neg (buffer_ok h hm)] at hbound
  have hread : ∀ o ∈ 6 :: 7 :: List.range' 8 (ext2DirentAt b p).nlen, p + o < v.blockSize :=
    fun o ho => hbound _ (hall o ho)
  have htype := hread 7 (List.mem_cons_of_mem _ List.mem_cons_self)
  rw [← nlen_congr hb (by omega)]
  rcases Nat.eq_zero_or_pos (ext2DirentAt b p).nlen with hempty | hpos
  · omega
  · have hlast := hread (8 + ((ext2DirentAt b p).nlen - 1)) (List.mem_cons_of_mem _
      (List.mem_cons_of_mem _ (List.mem_range'_1.mpr ⟨by omega, by omega⟩)))
    omega

theorem length_seenIn {nrs : List Nat} (h : v.Sound) :
    (v.seenIn sector nrs).length ≤ nrs.length * v.blockSize := by
  induction nrs with
  | nil => exact Nat.zero_le _
  | cons nr nrs ih =>
    have hlen := @length_seenEntries v (v.blockBytes sector nr) h
    unfold Ext2Volume.seenIn at ih ⊢
    rw [List.flatMap_cons, List.length_append, List.length_cons, Nat.add_mul]
    omega

theorem length_seenIn_searched (h : v.Sound) (hheap : v.blockSize ≤ kheapMax - kheapStart) :
    (v.seenIn sector ino.searched).length < 2 ^ 32 := by
  have hbound : kheapMax - kheapStart < 2 ^ 28 := by decide
  have hmul := Nat.mul_le_mul_right v.blockSize (@length_searched ino)
  have hlen := @length_seenIn v sector ino.searched h
  omega

/-- Lists that agree at the first `n` places are equal, if one of them has fewer. -/
theorem eq_of_getElem?_eq {α : Type*} {l l' : List α} {n : Nat} (hlt : l.length < n)
    (hsame : ∀ i < n, l[i]? = l'[i]?) : l = l' := by
  have hle : l'.length ≤ l.length := by
    have hend := hsame l.length hlt
    rw [List.getElem?_eq_none (Nat.le_refl _)] at hend
    exact List.getElem?_eq_none_iff.mp hend.symm
  refine List.ext_getElem? fun i => ?_
  by_cases hi : i < n
  · exact hsame i hi
  · rw [List.getElem?_eq_none (by omega), List.getElem?_eq_none (by omega)]

/-! The blocks that are searched, and those of the directory. -/

theorem seenEntries_direct (h : v.Sound) (hdir : v.WellFormedDir sector ino)
    (hk : k < ino.searched.length) (hcount : k < v.blockCount ino) :
    v.seenEntries (v.blockBytes sector (ino.iBlock k)) = v.blockEntries sector ino k :=
  (blockEntries_eq h hdir hcount (fileBlock_direct hk)).1.symm

theorem map_cut_dirEntries (h : v.Sound) (hdir : v.WellFormedDir sector ino) :
    (v.dirEntries sector ino).map (·.cut) = v.dirEntries sector ino :=
  (List.map_congr_left fun _ he => cut_eq (dirEntries_ok h hdir he).2).trans (List.map_id _)

theorem map_cut_direct (h : v.Sound) (hdir : v.WellFormedDir sector ino)
    (hk : k < ino.searched.length) (hcount : k < v.blockCount ino) :
    (v.seenEntries (v.blockBytes sector (ino.iBlock k))).map (·.cut) =
      v.blockEntries sector ino k := by
  rw [seenEntries_direct h hdir hk hcount]
  refine (List.map_congr_left fun e he => ?_).trans (List.map_id _)
  exact cut_eq ((blockEntries_eq h hdir hcount (fileBlock_direct hk)).2 e he).2

/-- A complete listing leaves no block out, and adds none. -/
theorem blocks_of_listing (h : v.Sound) (hheap : v.blockSize ≤ kheapMax - kheapStart)
    (hdir : v.WellFormedDir sector ino)
    (hlisting : ∀ idx < 2 ^ 32, (v.seenIn sector ino.searched)[idx]?.map (·.cut) =
      (v.dirEntries sector ino)[idx]?) :
    (∀ k, ino.searched.length ≤ k → k < v.blockCount ino → v.blockEntries sector ino k = []) ∧
      ∀ k, v.blockCount ino ≤ k → k < ino.searched.length →
        v.seenEntries (v.blockBytes sector (ino.iBlock k)) = [] := by
  have hlists : (v.seenIn sector ino.searched).map (·.cut) = v.dirEntries sector ino := by
    refine eq_of_getElem?_eq (n := 2 ^ 32) ?_ fun idx hidx => ?_
    · rw [List.length_map]
      exact length_seenIn_searched h hheap
    · rw [List.getElem?_map]
      exact hlisting idx hidx
  rw [seenIn_searched, List.map_flatMap] at hlists
  obtain ⟨hreached, hown⟩ :=
    (flatMap_range_eq_iff fun k hk hcount => map_cut_direct h hdir hk hcount).mp hlists
  exact ⟨hreached, fun k hge hk => List.map_eq_nil_iff.mp (hown k hge hk)⟩

/-- What is shown of the directory is all of it. -/
theorem DirShown.entries (h : v.Sound) (hshown : DirShown v sector ino)
    (hdir : v.WellFormedDir sector ino) :
    v.seenIn sector ino.searched = v.dirEntries sector ino := by
  rw [seenIn_searched]
  exact (flatMap_range_eq_iff fun k hk hcount => seenEntries_direct h hdir hk hcount).mpr
    ⟨hshown.reached hdir, hshown.own hdir⟩

theorem DirShown.readdir (h : v.Sound) (hheap : v.blockSize ≤ kheapMax - kheapStart)
    (hlt : inodeNum < 2 ^ 32) (hino : v.HasInode inodeNum) (hm : ∀ k, m.fails k = false)
    (hmode : (v.diskInode m.sector inodeNum).iMode &&& ext2SIfdir ≠ 0)
    (hshown : DirShown v m.sector (v.diskInode m.sector inodeNum).toExt2Inode)
    (hdir : v.WellFormedDir m.sector (v.diskInode m.sector inodeNum).toExt2Inode) :
    v.vfsReaddir m inodeNum idx =
      some (v.dirEntries m.sector (v.diskInode m.sector inodeNum).toExt2Inode)[idx]? := by
  rw [vfsReaddir_eq h hheap hlt hino hm hmode hshown.inside, hshown.entries h hdir,
    ← List.getElem?_map, map_cut_dirEntries h hdir]

theorem DirShown.finddir (h : v.Sound) (hlt : inodeNum < 2 ^ 32) (hino : v.HasInode inodeNum)
    (hm : ∀ k, m.fails k = false)
    (hshown : DirShown v m.sector (v.diskInode m.sector inodeNum).toExt2Inode)
    (hdir : v.WellFormedDir m.sector (v.diskInode m.sector inodeNum).toExt2Inode)
    (hname : HoldsName name s) :
    (∃ node, v.vfsFinddir m inodeNum name = some (some node)) ↔
      ∃ e ∈ v.dirEntries m.sector (v.diskInode m.sector inodeNum).toExt2Inode, e.name = s := by
  have hentries := hshown.entries h hdir
  rw [vfsFinddir_iff h hlt hino hm hshown.inside, hentries]
  · exact exists_congr fun e => and_congr_right fun he =>
      entryMatches_iff (dirEntries_ok h hdir he).2 hname
  · rw [hentries]
    exact fun e he => (dirEntries_ok h hdir he).1

/-- A directory is searched completely and safely just when its entries are shown. -/
theorem dirSearched_iff (h : v.Sound) (hheap : v.blockSize ≤ kheapMax - kheapStart)
    (hlt : inodeNum < 2 ^ 32) (hino : v.HasInode inodeNum)
    (hmode : (v.diskInode sector inodeNum).iMode &&& ext2SIfdir ≠ 0) :
    DirSearched v sector inodeNum ↔
      DirShown v sector (v.diskInode sector inodeNum).toExt2Inode := by
  constructor
  · intro hsearched
    have hin := blocksInside_of_searched h hheap hlt hino hmode hsearched
    have hblocks := fun hdir => blocks_of_listing h hheap hdir fun idx hidx => by
      have hcall := hsearched.readdir hdir (fun _ => 0) idx hidx
      rw [vfsReaddir_eq (m := ⟨sector, fun _ => 0, fun _ => false⟩) h hheap hlt hino (fun _ => rfl)
        hmode hin] at hcall
      exact Option.some.inj hcall
    exact ⟨hin, fun hdir => (hblocks hdir).1, fun hdir => (hblocks hdir).2⟩
  · intro hshown
    constructor
    case readdir =>
      exact fun hdir fresh idx _ => hshown.readdir (m := ⟨sector, fresh, fun _ => false⟩) h hheap
        hlt hino (fun _ => rfl) hmode hdir
    case finddir =>
      exact fun hdir fresh name s hname => hshown.finddir (m := ⟨sector, fresh, fun _ => false⟩) h
        hlt hino (fun _ => rfl) hdir hname
    case ends => exact fun buf => loopEnds h (Nat.le_add_left _ _)
    case readdir_inside =>
      exact fun fresh fails idx _ x hx => tracedReaddir_lt (m := ⟨sector, fresh, fails⟩) h
        hshown.inside hx
    case finddir_inside =>
      exact fun fresh fails name s _ x hx => tracedFinddir_lt (m := ⟨sector, fresh, fails⟩) h
        hshown.inside hx

/-! A volume of 1024-byte blocks with its inodes in block 3. Block 4 holds the entries "." and "..";
directory 2 has it as its only block, and directory 3 as its second one, behind a hole. -/

def dirVolume : Ext2Volume where
  blockSize := 1024
  inodesPerGroup := 8
  inodeSize := 128
  numGroups := 1
  bgdtBytes := 1024
  bgdt := fun i => if i = 8 then 3 else 0

theorem dirVolume_sound : dirVolume.Sound where
  blockSize_eq := ⟨0, by decide, rfl⟩
  inodesPerGroup_pos := by decide
  inodeSize_pos := by decide
  inodeSize_le := by decide
  descriptors := by decide
  copies := by decide

/-- The bytes that are not zero, by sector. -/
def dirBytes : List ((Nat × Nat) × BitVec 8) :=
  [((6, 129), 0x40), ((6, 133), 4), ((6, 168), 4), ((6, 257), 0x40), ((6, 261), 8), ((6, 300), 4),
    ((8, 0), 2), ((8, 4), 12), ((8, 6), 1), ((8, 7), 2), ((8, 8), 0x2E), ((8, 12), 2),
    ((8, 16), 0xF4), ((8, 17), 3), ((8, 18), 2), ((8, 19), 2), ((8, 20), 0x2E), ((8, 21), 0x2E)]

def dirSector : Nat → Buffer := fun lba i => (dirBytes.lookup (lba, i)).getD 0

theorem dirSearched_iff_plain : DirSearched dirVolume dirSector 2 := by
  have hsearched : (dirVolume.diskInode dirSector 2).searched = [4] := by decide +kernel
  have hcount : dirVolume.blockCount (dirVolume.diskInode dirSector 2).toExt2Inode = 1 := by
    decide +kernel
  refine (dirSearched_iff dirVolume_sound (by decide) (by decide) (by decide)
    (by decide +kernel)).mpr ⟨fun nr hnr => ?_, fun _ k hge hlt => ?_, fun _ k hge hlt => ?_⟩
  · rw [hsearched] at hnr
    obtain rfl := List.mem_singleton.mp hnr
    decide +kernel
  · rw [hsearched, List.length_singleton] at hge
    omega
  · rw [hsearched, List.length_singleton] at hlt
    omega

/-- The entries behind the hole are not listed. -/
theorem not_dirSearched_hole : ¬ ∀ (v : Ext2Volume) (sector : Nat → Buffer) (ino : Nat), v.Sound →
    v.blockSize ≤ kheapMax - kheapStart → ino < 2 ^ 32 → v.HasInode ino →
      (v.diskInode sector ino).iMode &&& ext2SIfdir ≠ 0 → DirSearched v sector ino := by
  intro hall
  have hdir := hall dirVolume dirSector 3 dirVolume_sound (by decide) (by decide) (by decide)
    (by decide +kernel)
  have hcount : dirVolume.blockCount (dirVolume.diskInode dirSector 3).toExt2Inode = 2 := by
    decide +kernel
  have hchains : dirVolume.WellFormedDir dirSector
      (dirVolume.diskInode dirSector 3).toExt2Inode := by
    unfold Ext2Volume.WellFormedDir
    rw [hcount]
    decide +kernel
  have hfirst := hdir.readdir hchains (fun _ => 0) 0 (by decide)
  have hnone : dirVolume.vfsReaddir ⟨dirSector, fun _ => 0, fun _ => false⟩ 3 0 = some none := by
    rfl
  have hsome : (dirVolume.dirEntries dirSector
      (dirVolume.diskInode dirSector 3).toExt2Inode)[0]?.isSome := by decide +kernel
  rw [hnone] at hfirst
  rw [← Option.some.inj hfirst] at hsome
  cases hsome

end PinguinOS.Fs
