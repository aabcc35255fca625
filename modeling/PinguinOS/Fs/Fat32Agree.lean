import Mathlib.Order.Interval.Finset.Nat
import PinguinOS.Fs.Fat32Lookup

/-! When `fat32_finddir` finds what `fat32_readdir` lists. -/
namespace PinguinOS.Fs

/-! A disk whose sectors and memory are always delivered. -/

def served (disk : Nat → Buffer) (fresh : Buffer) : Medium := ⟨disk, fresh, fun _ => false⟩

/-- Lookup and listing agree, whatever is in the buffers that they allocate. -/
def LookupAgrees (disk : Nat → Buffer) (ino : Fat32Inode) (name : CStr) : Prop :=
  ∀ fresh fresh', Agrees (served disk fresh) (served disk fresh') ino name

/-- Some 32 bytes are an entry that is found under the name. -/
def Matchable (name : CStr) : Prop :=
  ∃ buf, ¬ (direntAt buf 0).IsEnd ∧ ¬ (direntAt buf 0).Skipped ∧ Matches name (direntAt buf 0)

/-- A search for the name does not go on behind these entries, or it is in vain. -/
def Decided (l : List Fat32Dirent) (name : CStr) : Prop :=
  (∃ de ∈ visiblePart l, Matches name de) ∨ HasEnd l ∨ ¬ Matchable name

/-- The condition on a directory with this chain: no buffer is allocated, or the sectors have 512
bytes and no entry is found under a longer name than its own, or the sectors are larger and what
`ide_read` delivers of the first cluster decides the search. -/
def DirLookupOk (disk : Nat → Buffer) (ino : Fat32Inode) (chain : List Nat) (name : CStr) : Prop :=
  ino.vol.sectorsPerCluster = 0 ∨
    if ino.vol.bytesPerSector = 512 then
      NameOk (visiblePart (chain.flatMap (sectorEntries disk ino.vol))) name
    else
      ∀ c ∈ chain.head?, NameOk (visiblePart (sectorEntries disk ino.vol c)) name ∧
        Decided (sectorEntries disk ino.vol c) name

variable {σ : Type*} {pick : σ → Fat32Dirent → Nat → Picked σ × Nat}
  {l l' front back : List Fat32Dirent} {s : σ} {k : Nat} {de : Fat32Dirent} {m m' : Medium}
  {v : Fat32Vol} {buf : Buffer} {c d fuel index : Nat} {chain : List Nat} {ino : Fat32Inode}
  {name : CStr} {disk : Nat → Buffer} {fresh fresh' : Buffer} {fuel' : Nat} {entry : σ} {st : DirState σ}
  {r r' : Option Fat32Dirent} {node : Fat32Node} {chain' : List Nat}

theorem dirWalk_mono (hwalk : dirWalk m v pick fuel st = some r) (hle : fuel ≤ fuel') :
    dirWalk m v pick fuel' st = some r := by
  induction fuel generalizing fuel' st with
  | zero => cases hwalk
  | succ fuel ih =>
    obtain ⟨fuel', rfl⟩ := Nat.exists_eq_add_of_le' hle
    rw [dirWalk] at hwalk
    rw [← Nat.add_assoc, dirWalk]
    cases hstep : dirStep m v pick st with
    | ends de =>
      rw [hstep] at hwalk
      exact hwalk
    | next st' =>
      rw [hstep] at hwalk
      exact ih hwalk (by omega)

theorem dirSearch_mono (hsearch : dirSearch fuel m (some ino) pick entry = some r)
    (hle : fuel ≤ fuel') : dirSearch fuel' m (some ino) pick entry = some r := by
  unfold dirSearch at hsearch ⊢
  dsimp only at hsearch ⊢
  by_cases hnone : m.fails 0 = true ∨ ino.vol.bytesPerCluster = 0
  · rw [if_pos hnone] at hsearch ⊢
    exact hsearch
  · rw [if_neg hnone] at hsearch ⊢
    exact dirWalk_mono hsearch hle

/-- There is one result. -/
theorem dirSearch_unique (hsearch : dirSearch fuel m (some ino) pick entry = some r)
    (hsearch' : dirSearch fuel' m (some ino) pick entry = some r') : r = r' := by
  rcases Nat.le_total fuel fuel' with hle | hle
  · exact Option.some.inj ((dirSearch_mono hsearch hle).symm.trans hsearch')
  · exact Option.some.inj (hsearch.symm.trans (dirSearch_mono hsearch' hle))

theorem finds_iff (hsearch : dirSearch fuel m (some ino) (finddirPick m name) () = some r) :
    Finds m ino name node ↔ r.map foundNode = some node := by
  unfold Finds fat32Finddir
  constructor
  · rintro ⟨fuel', hfound⟩
    obtain ⟨r', hr', hnode⟩ := Option.map_eq_some_iff.mp hfound
    rw [dirSearch_unique hsearch hr']
    exact hnode
  · intro hnode
    refine ⟨fuel, ?_⟩
    rw [hsearch]
    exact congrArg some hnode

theorem lists_iff (hsearch : dirSearch fuel m (some ino) (readdirPick index) 0 = some r) :
    Lists m ino index de ↔ r = some de := by
  constructor
  · rintro ⟨fuel', hfound⟩
    exact dirSearch_unique hsearch hfound
  · rintro rfl
    exact ⟨fuel, hsearch⟩

theorem dirSearch_served (hpos : 0 < ino.vol.sectorsPerCluster) :
    dirSearch fuel (served disk fresh) (some ino) pick entry =
      dirWalk (served disk fresh) ino.vol pick fuel ⟨ino.firstCluster, entry, fresh, 1⟩ :=
  dirSearch_eq rfl hpos

/-- A directory in which nothing is found and nothing listed. -/
theorem agrees_of_none (hfind : ∀ node, ¬ Finds m ino name node)
    (hlist : ∀ index, ¬ ListsName m' ino index name) : Agrees m m' ino name := by
  constructor
  case found =>
    refine iff_of_false (fun ⟨node, hnode⟩ => hfind node hnode) ?_
    rintro ⟨index, -, hlisted⟩
    exact hlist index hlisted
  case first =>
    intro node _ _ hnode _ _ _ _
    exact absurd hnode (hfind node)

/-! The length of a chain. -/

theorem fatChain_unique (hchain : FatChain m v c chain) (hchain' : FatChain m v c chain') :
    chain = chain' := by
  induction chain generalizing c chain' with
  | nil =>
    cases chain' with
    | nil => rfl
    | cons d rest =>
      obtain ⟨rfl, hc, -⟩ := hchain'
      exact absurd hc.last (Nat.not_lt.mpr hchain)
  | cons d rest ih =>
    obtain ⟨rfl, hc, hrest⟩ := hchain
    cases chain' with
    | nil => exact absurd hc.last (Nat.not_lt.mpr hchain')
    | cons d' rest' =>
      obtain ⟨rfl, -, hrest'⟩ := hchain'
      rw [ih hrest hrest']

/-- From each of its clusters on, a chain is a chain. -/
theorem fatChain_from (hchain : FatChain m v c chain) (hd : d ∈ chain) :
    v.HasCluster d ∧ ∃ rest, FatChain m v d rest ∧ rest.length ≤ chain.length := by
  induction chain generalizing c with
  | nil => cases hd
  | cons e chain ih =>
    rcases List.mem_cons.mp hd with rfl | hrest
    · obtain ⟨rfl, hc, hnext⟩ := hchain
      exact ⟨hc, c :: chain, ⟨rfl, hc, hnext⟩, Nat.le_refl _⟩
    · obtain ⟨hc, rest, hfrom, hle⟩ := ih hchain.2.2 hrest
      exact ⟨hc, rest, hfrom, hle.trans (Nat.le_succ _)⟩

theorem fatChain_nodup (hchain : FatChain m v c chain) : chain.Nodup := by
  induction chain generalizing c with
  | nil => exact List.nodup_nil
  | cons d chain ih =>
    obtain ⟨rfl, hc, hrest⟩ := hchain
    refine List.nodup_cons.mpr ⟨fun hagain => ?_, ih hrest⟩
    obtain ⟨-, again, hfrom, hle⟩ := fatChain_from hrest hagain
    have hsame : again = c :: chain := fatChain_unique hfrom ⟨rfl, hc, hrest⟩
    rw [hsame, List.length_cons] at hle
    omega

/-- The clusters of a chain have room on the disk. -/
theorem fatChain_length (hpos : 0 < v.sectorsPerCluster) (hchain : FatChain m v c chain) :
    chain.length * v.sectorsPerCluster ≤ 2 ^ 28 := by
  have hsub : chain.toFinset ⊆ Finset.Icc 2 (2 ^ 28 / v.sectorsPerCluster + 1) := by
    intro d hd
    obtain ⟨hc, -⟩ := fatChain_from hchain (List.mem_toFinset.mp hd)
    have hbytes := (sizes_bounds v.bytes_mem).1
    have hmul := Nat.mul_le_mul_left (v.dataStart + (d - 1) * v.sectorsPerCluster) hbytes
    have hdisk := hc.disk
    have hcount : (d - 1) * v.sectorsPerCluster ≤ 2 ^ 28 := by omega
    have hlast : d - 1 ≤ 2 ^ 28 / v.sectorsPerCluster := (Nat.le_div_iff_mul_le hpos).mpr hcount
    have hfirst := hc.first
    rw [Finset.mem_Icc]
    omega
  have hcard := Finset.card_le_card hsub
  rw [List.toFinset_card_of_nodup (fatChain_nodup hchain), Nat.card_Icc] at hcard
  exact (Nat.le_div_iff_mul_le hpos).mp hcard

theorem length_visiblePart_le : (visiblePart l).length ≤ l.length := by
  induction l with
  | nil => exact Nat.le_refl 0
  | cons de l ih =>
    rw [List.length_cons]
    by_cases hend : de.IsEnd
    · rw [visiblePart_end hend]
      exact Nat.zero_le _
    · by_cases hskip : de.Skipped
      · rw [visiblePart_skip hend hskip]
        omega
      · rw [visiblePart_keep hend hskip, List.length_cons]
        omega

theorem length_sectorEntries : (sectorEntries disk v c).length = 16 * v.sectorsPerCluster := by
  unfold sectorEntries
  rw [List.length_map, List.length_range]

theorem length_chainEntries : (chain.flatMap (sectorEntries disk v)).length =
    chain.length * (16 * v.sectorsPerCluster) := by
  induction chain with
  | nil => exact (Nat.zero_mul _).symm
  | cons d chain ih =>
    rw [List.flatMap_cons, List.length_append, ih, length_sectorEntries, List.length_cons,
      Nat.succ_mul chain.length, Nat.add_comm]

theorem fatChain_served (hchain : FatChain (served disk fresh) v c chain) :
    FatChain (served disk fresh') v c chain := by
  induction chain generalizing c with
  | nil => exact hchain
  | cons d chain ih => exact ⟨hchain.1, hchain.2.1, ih hchain.2.2⟩

/-! The two ways in which a search is decided. -/

/-- With sectors of 512 bytes, by the entries of the chain. -/
theorem agrees_chain (hbytes : ino.vol.bytesPerSector = 512) (hpos : 0 < ino.vol.sectorsPerCluster)
    (hchain : FatChain (served disk fresh) ino.vol ino.firstCluster chain) :
    Agrees (served disk fresh) (served disk fresh') ino name ↔
      NameOk (visiblePart (chain.flatMap (sectorEntries disk ino.vol))) name := by
  have hserved : ∀ fresh k, (served disk fresh).fails k = false := fun _ _ => rfl
  have hroom := fatChain_length hpos hchain
  have hlength := @length_visiblePart_le (chain.flatMap (sectorEntries disk ino.vol))
  rw [length_chainEntries, Nat.mul_left_comm] at hlength
  have hfind : dirSearch (chain.length + 1) (served disk fresh) (some ino)
      (finddirPick (served disk fresh) name) () = some
        ((visiblePart (chain.flatMap (sectorEntries disk ino.vol))).find? (Matches name ·)) := by
    rw [dirSearch_served hpos, dirWalk_chain hbytes (hserved fresh) hpos
      (finddirPick_follows (hserved fresh)) hchain (Nat.lt_succ_self _), firstTaken_finddir]
    rfl
  have hlist : ∀ index < 2 ^ 32, dirSearch (chain.length + 1) (served disk fresh') (some ino)
      (readdirPick index) 0 =
        some (visiblePart (chain.flatMap (sectorEntries disk ino.vol)))[index]? := by
    intro index hindex
    rw [dirSearch_served hpos, dirWalk_chain hbytes (hserved fresh') hpos readdirPick_follows
      (fatChain_served hchain) (Nat.lt_succ_self _), firstTaken_readdir (Nat.zero_le _) hindex]
    rfl
  refine agrees_iff (by omega) (fun node => finds_iff hfind) ?_ ?_
  · intro index hindex de
    exact lists_iff (hlist index (by omega))
  · intro index hout hindex de hlists
    have hnone := List.getElem?_eq_none hout
    rw [(lists_iff (hlist index hindex)).mp hlists] at hnone
    cases hnone

theorem visiblePart_of_end (hend : HasEnd front) :
    visiblePart (front ++ back) = visiblePart front := visiblePart_append.trans (if_pos hend)

theorem visiblePart_begins : visiblePart front <+: visiblePart (front ++ back) := by
  rw [visiblePart_append]
  split
  · exact List.prefix_rfl
  · exact List.prefix_append _ _

theorem hasEnd_append (hend : HasEnd front) : HasEnd (front ++ back) := by
  obtain ⟨de, hde, hmark⟩ := hend
  exact ⟨de, List.mem_append_left _ hde, hmark⟩

/-- An entry that is found among the first ones is found among all of them. -/
theorem find?_of_begins {q : Fat32Dirent → Bool} (hbegins : l <+: l') (hsome : (l.find? q).isSome) :
    l'.find? q = l.find? q := by
  obtain ⟨back, rfl⟩ := hbegins
  rw [List.find?_append, Option.or_of_isSome hsome]

theorem served_fails (fresh : Buffer) (k : Nat) : (served disk fresh).fails k = false := rfl

/-- A lookup that comes to its end in the first cluster. -/
theorem finddir_first (hpos : 0 < ino.vol.sectorsPerCluster) (hc : ino.firstCluster < fat32Eoc)
    (hround : roundEntries (served disk fresh) ino.vol ino.firstCluster fresh = l)
    (hends : ((visiblePart l).find? (Matches name ·)).isSome ∨ HasEnd l) :
    dirSearch 1 (served disk fresh) (some ino) (finddirPick (served disk fresh) name) () =
      some ((visiblePart l).find? (Matches name ·)) := by
  subst hround
  rw [← firstTaken_finddir] at hends ⊢
  rw [dirSearch_served hpos]
  exact dirWalk_first (served_fails fresh) hpos (finddirPick_follows (served_fails fresh)) hc hends

/-- A listing that comes to its end in the first cluster. -/
theorem readdir_first (hpos : 0 < ino.vol.sectorsPerCluster) (hc : ino.firstCluster < fat32Eoc)
    (hround : roundEntries (served disk fresh) ino.vol ino.firstCluster fresh = l)
    (hindex : index < 2 ^ 32) (hends : index < (visiblePart l).length ∨ HasEnd l) :
    dirSearch 1 (served disk fresh) (some ino) (readdirPick index) 0 =
      some (visiblePart l)[index]? := by
  have htaken : (firstTaken (readdirNext index) (visiblePart l) 0).1 = (visiblePart l)[index]? :=
    firstTaken_readdir (Nat.zero_le _) hindex
  subst hround
  rw [← htaken, dirSearch_served hpos]
  refine dirWalk_first (served_fails fresh) hpos readdirPick_follows hc (hends.imp_left fun hlt => ?_)
  rw [htaken, List.getElem?_eq_getElem hlt]
  rfl

/-- By the first cluster, when the name or an end mark is among its sectors. -/
theorem agrees_first (hpos : 0 < ino.vol.sectorsPerCluster) (hc : ino.firstCluster < fat32Eoc)
    (hends : (∃ de ∈ visiblePart (sectorEntries disk ino.vol ino.firstCluster), Matches name de) ∨
      HasEnd (sectorEntries disk ino.vol ino.firstCluster)) :
    Agrees (served disk fresh) (served disk fresh') ino name ↔
      NameOk (visiblePart (sectorEntries disk ino.vol ino.firstCluster)) name := by
  obtain ⟨front, hfront⟩ : ∃ l, l = sectorEntries disk ino.vol ino.firstCluster := ⟨_, rfl⟩
  rw [← hfront] at hends ⊢
  have hround : ∀ fresh, ∃ back,
      roundEntries (served disk fresh) ino.vol ino.firstCluster fresh = front ++ back := by
    intro fresh
    rw [hfront]
    exact ⟨_, rfl⟩
  have hlength := @length_visiblePart_le front
  rw [hfront, length_sectorEntries, ← hfront] at hlength
  have hsectors := ino.vol.sectors_lt
  have hfind : dirSearch 1 (served disk fresh) (some ino) (finddirPick (served disk fresh) name) ()
      = some ((visiblePart front).find? (Matches name ·)) := by
    obtain ⟨back, hback⟩ := hround fresh
    rcases hends with hfound | hend
    · have hsome : ((visiblePart front).find? (Matches name ·)).isSome :=
        List.find?_isSome.mpr (by simpa using hfound)
      have hsame := find?_of_begins (@visiblePart_begins front back) hsome
      rw [← hsame] at hsome ⊢
      exact finddir_first hpos hc hback (.inl hsome)
    · rw [← @visiblePart_of_end front back hend]
      exact finddir_first hpos hc hback (.inr (hasEnd_append hend))
  have hlist : ∀ index < 2 ^ 32, index < (visiblePart front).length ∨ HasEnd front →
      dirSearch 1 (served disk fresh') (some ino) (readdirPick index) 0 =
        some (visiblePart front)[index]? := by
    intro index hindex hin
    obtain ⟨back, hback⟩ := hround fresh'
    by_cases hend : HasEnd front
    · rw [← @visiblePart_of_end front back hend]
      exact readdir_first hpos hc hback hindex (.inr (hasEnd_append hend))
    · have hlt := hin.resolve_right hend
      have hbegins := @visiblePart_begins front back
      rw [readdir_first hpos hc hback hindex (.inl (hlt.trans_le hbegins.length_le))]
      obtain ⟨more, hmore⟩ := hbegins
      rw [← hmore, List.getElem?_append_left hlt]
  refine agrees_iff (by omega) (fun node => finds_iff hfind) ?_ ?_
  · intro index hindex de
    exact lists_iff (hlist index (by omega) (.inl hindex))
  · intro index hout hindex de hlists
    refine hends.elim id fun hend => ?_
    have hnone := List.getElem?_eq_none hout
    rw [(lists_iff (hlist index hindex (.inr hend))).mp hlists] at hnone
    cases hnone

/-! What a search can find at all. -/

/-- An entry of some buffer, which can be listed and is the one that is wanted. -/
def Wanted (pick : σ → Fat32Dirent → Nat → Picked σ × Nat) (de : Fat32Dirent) : Prop :=
  ∃ buf, de = direntAt buf 0 ∧ ¬ de.IsEnd ∧ ¬ de.Skipped ∧ ∃ s k k', pick s de k = (.take, k')

theorem scanEntries_found {k' : Nat} (hscan : scanEntries pick l s k = (.found de, k')) :
    de ∈ l ∧ ¬ de.IsEnd ∧ ¬ de.Skipped ∧ ∃ s k k', pick s de k = (.take, k') := by
  induction l generalizing s k with
  | nil => cases hscan
  | cons d l ih =>
    unfold scanEntries at hscan
    split at hscan
    case isTrue => cases hscan
    case isFalse hend =>
      split at hscan
      case isTrue =>
        obtain ⟨hmem, hrest⟩ := ih hscan
        exact ⟨List.mem_cons_of_mem d hmem, hrest⟩
      case isFalse hskip =>
        split at hscan
        case h_1 k₁ htake =>
          cases hscan
          exact ⟨List.mem_cons_self, hend, hskip, s, k, k', htake⟩
        case h_2 => cases hscan
        case h_3 =>
          obtain ⟨hmem, hrest⟩ := ih hscan
          exact ⟨List.mem_cons_of_mem d hmem, hrest⟩

theorem dirStep_found (hstep : dirStep m v pick st = .ends (some de)) :
    Wanted pick de := by
  unfold dirStep at hstep
  split at hstep
  case isFalse => cases hstep
  case isTrue =>
    split at hstep
    case h_1 => cases hstep
    case h_2 buf k₁ _ =>
      split at hstep
      case h_1 => cases hstep
      case h_3 => cases hstep
      case h_2 d k₂ hscan =>
        obtain rfl : d = de := by
          cases hstep
          rfl
        obtain ⟨hmem, hrest⟩ := scanEntries_found hscan
        obtain ⟨i, -, hi⟩ := List.mem_map.mp hmem
        refine ⟨fun b => buf (i * 32 + b), ?_, hrest⟩
        rw [← hi]
        refine direntAt_congr fun b _ => ?_
        rw [Nat.zero_mul, Nat.zero_add]

theorem dirWalk_found (hwalk : dirWalk m v pick fuel st = some (some de)) :
    Wanted pick de := by
  induction fuel generalizing st with
  | zero => cases hwalk
  | succ fuel ih =>
    rw [dirWalk] at hwalk
    cases hstep : dirStep m v pick st with
    | next st' =>
      rw [hstep] at hwalk
      exact ih hwalk
    | ends found =>
      rw [hstep] at hwalk
      cases hwalk
      exact dirStep_found hstep

theorem dirSearch_found (hsearch : dirSearch fuel m (some ino) pick entry = some (some de)) :
    Wanted pick de := by
  unfold dirSearch at hsearch
  dsimp only at hsearch
  split at hsearch
  case isTrue => cases hsearch
  case isFalse => exact dirWalk_found hsearch

/-- A name that no entry can have is neither found nor listed. -/
theorem agrees_of_unmatchable (hname : ¬ Matchable name) : Agrees m m' ino name := by
  refine agrees_of_none ?_ ?_
  · rintro node ⟨fuel, hfound⟩
    obtain ⟨found, hsearch, hmap⟩ := Option.map_eq_some_iff.mp hfound
    obtain ⟨de, rfl, -⟩ := Option.map_eq_some_iff.mp hmap
    obtain ⟨buf, rfl, hend, hskip, s, k, k', htake⟩ := dirSearch_found hsearch
    refine hname ⟨buf, hend, hskip, ?_⟩
    by_contra hother
    have hpass : ¬ strncmpEq (fat32ShortName (direntAt buf 0)) name 12 = true := hother
    unfold finddirPick at htake
    rw [if_pos hpass] at htake
    cases htake
  · intro index hlisted
    obtain ⟨de, ⟨fuel, hsearch⟩, hsame⟩ := listsName_iff.mp hlisted
    obtain ⟨buf, rfl, hend, hskip, -⟩ := dirSearch_found hsearch
    exact hname ⟨buf, hend, hskip, (matches_of_name hsame).1⟩

/-- Behind the sectors of a cluster there is room for another entry. -/
theorem roundEntries_rest (hbytes : v.bytesPerSector ≠ 512) (hpos : 0 < v.sectorsPerCluster) :
    ∃ more, roundEntries (served disk fresh) v c buf =
      sectorEntries disk v c ++ direntAt buf (16 * v.sectorsPerCluster) :: more := by
  have hlarge : 1024 ≤ v.bytesPerSector := by
    have hmem := v.bytes_mem
    simp only [List.mem_cons, List.not_mem_nil, or_false] at hmem
    omega
  have hmul := Nat.mul_le_mul_right v.sectorsPerCluster hlarge
  have hroom : v.bytesPerCluster / 32 - 16 * v.sectorsPerCluster ≠ 0 := by
    unfold Fat32Vol.bytesPerCluster
    omega
  obtain ⟨n, hn⟩ := Nat.exists_eq_succ_of_ne_zero hroom
  unfold roundEntries
  rw [hn, List.range_succ_eq_map, List.map_cons]
  exact ⟨_, rfl⟩

/-- With larger sectors, the name may be in the rest of the buffer, for the lookup alone. -/
theorem not_lookupAgrees (hbytes : ino.vol.bytesPerSector ≠ 512)
    (hpos : 0 < ino.vol.sectorsPerCluster) (hc : ino.firstCluster < fat32Eoc)
    (hopen : ¬ Decided (sectorEntries disk ino.vol ino.firstCluster) name) :
    ¬ LookupAgrees disk ino name := by
  intro hagrees
  unfold Decided at hopen
  rw [not_or, not_or, not_not] at hopen
  obtain ⟨habsent, hend, b, hb, hskip, hmatch⟩ := hopen
  let fresh : Buffer := fun i => b (i - 512 * ino.vol.sectorsPerCluster)
  have hentry : direntAt fresh (16 * ino.vol.sectorsPerCluster) = direntAt b 0 := by
    refine direntAt_congr fun i _ => congrArg b ?_
    omega
  have hfind : ∃ node, Finds (served disk fresh) ino name node := by
    obtain ⟨more, hround⟩ := @roundEntries_rest ino.vol fresh ino.firstCluster disk fresh
      hbytes hpos
    rw [hentry] at hround
    have hsome : ((visiblePart (sectorEntries disk ino.vol ino.firstCluster ++
        direntAt b 0 :: more)).find? (Matches name ·)).isSome := by
      rw [List.find?_isSome]
      refine ⟨direntAt b 0, ?_, by simpa using hmatch⟩
      rw [visiblePart_append, if_neg hend, visiblePart_keep hb hskip]
      exact List.mem_append_right _ List.mem_cons_self
    obtain ⟨de, hde⟩ := Option.isSome_iff_exists.mp hsome
    have hsearch := finddir_first hpos hc hround (.inl hsome)
    rw [hde] at hsearch
    exact ⟨foundNode de, (finds_iff hsearch).mpr rfl⟩
  obtain ⟨index, hindex, hlisted⟩ := ((hagrees fresh fun _ => 0).found).mp hfind
  obtain ⟨de, hlists, hname⟩ := listsName_iff.mp hlisted
  obtain ⟨more, hround⟩ := @roundEntries_rest ino.vol (fun _ => 0) ino.firstCluster disk
    (fun _ => 0) hbytes hpos
  have hmark : (direntAt (fun _ => 0) (16 * ino.vol.sectorsPerCluster)).IsEnd := rfl
  have hlist := readdir_first hpos hc hround hindex
    (.inr ⟨_, List.mem_append_right _ List.mem_cons_self, hmark⟩)
  rw [visiblePart_append, if_neg hend, visiblePart_end hmark, List.append_nil] at hlist
  have hplace := (lists_iff hlist).mp hlists
  exact habsent ⟨de, List.mem_of_getElem? hplace, (matches_of_name hname).1⟩

theorem dirSearch_stop (hstop : ino.vol.sectorsPerCluster = 0 ∨ fat32Eoc ≤ ino.firstCluster) :
    dirSearch 1 (served disk fresh) (some ino) pick entry = some none := by
  by_cases hzero : ino.vol.sectorsPerCluster = 0
  · have hcluster : ino.vol.bytesPerCluster = 0 := by
      unfold Fat32Vol.bytesPerCluster
      rw [hzero, Nat.mul_zero]
    exact if_pos (.inr hcluster)
  · have hend : ¬ ino.firstCluster < fat32Eoc := Nat.not_lt.mpr (hstop.resolve_left hzero)
    rw [dirSearch_served (Nat.pos_of_ne_zero hzero), dirWalk, dirStep, if_neg hend]

/-- Without a cluster to look at, nothing is found and nothing listed. -/
theorem lookupAgrees_of_stop
    (hstop : ino.vol.sectorsPerCluster = 0 ∨ fat32Eoc ≤ ino.firstCluster) :
    LookupAgrees disk ino name := by
  intro fresh fresh'
  refine agrees_of_none ?_ ?_
  · intro node hnode
    rw [finds_iff (dirSearch_stop hstop)] at hnode
    cases hnode
  · intro index hlisted
    obtain ⟨de, hlists, -⟩ := listsName_iff.mp hlisted
    rw [lists_iff (dirSearch_stop hstop)] at hlists
    cases hlists

/-- For every directory with a chain and every name, lookup and listing agree just under the
condition. -/
theorem lookupAgrees_iff (hchain : FatChain (served disk fun _ => 0) ino.vol ino.firstCluster chain) :
    LookupAgrees disk ino name ↔ DirLookupOk disk ino chain name := by
  unfold DirLookupOk
  by_cases hzero : ino.vol.sectorsPerCluster = 0
  case pos => exact iff_of_true (lookupAgrees_of_stop (.inl hzero)) (.inl hzero)
  have hpos := Nat.pos_of_ne_zero hzero
  rw [or_iff_right hzero]
  by_cases hbytes : ino.vol.bytesPerSector = 512
  case pos =>
    rw [if_pos hbytes]
    constructor
    · intro hagrees
      exact (agrees_chain hbytes hpos hchain).mp (hagrees (fun _ => 0) fun _ => 0)
    · intro hok fresh fresh'
      exact (agrees_chain hbytes hpos (fatChain_served hchain)).mpr hok
  rw [if_neg hbytes]
  cases chain with
  | nil => exact iff_of_true (lookupAgrees_of_stop (.inr hchain)) fun _ hc => nomatch hc
  | cons c chain =>
    obtain ⟨rfl, hc, -⟩ := hchain
    have hhead : ∀ P : Nat → Prop, (∀ c ∈ (ino.firstCluster :: chain).head?, P c) ↔
        P ino.firstCluster := fun P => by simp
    rw [hhead]
    constructor
    · intro hagrees
      have hdecided : Decided (sectorEntries disk ino.vol ino.firstCluster) name := by
        by_contra hopen
        exact not_lookupAgrees hbytes hpos hc.last hopen hagrees
      refine ⟨fun de hde hmatch => ?_, hdecided⟩
      have hok := (agrees_first hpos hc.last (.inl ⟨de, hde, hmatch⟩)).mp
        (hagrees (fun _ => 0) fun _ => 0)
      exact hok de hde hmatch
    · rintro ⟨hok, hdecided⟩ fresh fresh'
      rcases hdecided with hfound | hend | hname
      · exact (agrees_first hpos hc.last (.inl hfound)).mpr hok
      · exact (agrees_first hpos hc.last (.inr hend)).mpr hok
      · exact agrees_of_unmatchable hname

/-- The boot sector of a volume with one sector of table and clusters of one sector. -/
def bootSector : Buffer := fun i =>
  if i = 12 ∨ i = 44 then 2 else if i ∈ [13, 14, 16, 36] then 1 else 0

def smallRoot : Fat32Inode :=
  ⟨⟨1, 2, 1, 512, oneSector_lt, bytes512_mem⟩, 2, 0, emptySize_lt, fun h => absurd h (Nat.lt_irrefl 0)⟩

/-- Its root holds one entry, the empty file `aaaaaaaa.aaa`. -/
def nameDisk : Nat → Buffer
  | 0 => bootSector
  | 1 => fun _ => 0xFF
  | _ => fun i => if i < 11 then 0x41 else 0

/-- The name `aaaaaaaa.aaab`. -/
def longerName : CStr := List.replicate 8 0x61 ++ 0x2E :: List.replicate 3 0x61 ++ [0x62]

theorem fatChain_nameDisk :
    FatChain (served nameDisk fun _ => 0) smallRoot.vol smallRoot.firstCluster [2] := by
  have hentry : fat32Eoc ≤ fatEntry (served nameDisk fun _ => 0) smallRoot.vol 2 := by
    decide +kernel
  exact ⟨rfl, ⟨by decide, by decide, by decide, by decide⟩, hentry⟩

theorem lookupAgrees_nameDisk : LookupAgrees nameDisk smallRoot [0x61] ↔
    DirLookupOk nameDisk smallRoot [2] [0x61] := lookupAgrees_iff fatChain_nameDisk

/-- The file is found under a name that goes on after its own. -/
theorem not_lookupAgrees_longer :
    fat32Mount (served nameDisk fun _ => 0) = some smallRoot ∧
      FatChain (served nameDisk fun _ => 0) smallRoot.vol smallRoot.firstCluster [2] ∧
      ¬ LookupAgrees nameDisk smallRoot longerName := by
  refine ⟨by rfl, fatChain_nameDisk, fun hagrees => ?_⟩
  have hok := (agrees_chain rfl (by decide) fatChain_nameDisk).mp (hagrees (fun _ => 0) fun _ => 0)
  have hfound : ∃ de ∈ visiblePart ([2].flatMap (sectorEntries nameDisk smallRoot.vol)),
      Matches longerName de := by decide +kernel
  obtain ⟨de, hde, hmatch⟩ := hfound
  exact absurd (hok de hde hmatch) (by decide)

end PinguinOS.Fs
