import PinguinOS.Fs.Fat32Dir

/-! What `fat32_readdir` and `fat32_finddir` see of the entries of a directory. -/
namespace PinguinOS.Fs

open Mm (u32)

/-- The entries that can be listed, up to the end mark. -/
def visiblePart : List Fat32Dirent → List Fat32Dirent
  | [] => []
  | de :: rest =>
    if de.IsEnd then [] else if de.Skipped then visiblePart rest else de :: visiblePart rest

def HasEnd (l : List Fat32Dirent) : Prop := ∃ de ∈ l, de.IsEnd

instance {l : List Fat32Dirent} : Decidable (HasEnd l) := inferInstanceAs (Decidable (∃ de ∈ l, _))

/-- The first entry that is taken, or the variable behind all of them. -/
def firstTaken {σ : Type*} (p : σ → Fat32Dirent → Option σ) :
    List Fat32Dirent → σ → Option Fat32Dirent × σ
  | [], s => (none, s)
  | de :: rest, s =>
    match p s de with
    | none => (some de, s)
    | some s => firstTaken p rest s

/-- Without failures, an entry is taken or passed as `p` says. -/
def Follows {σ : Type*} (pick : σ → Fat32Dirent → Nat → Picked σ × Nat)
    (p : σ → Fat32Dirent → Option σ) : Prop :=
  ∀ s de k, ∃ k', pick s de k = ((p s de).elim .take .pass, k')

variable {σ : Type*} {pick : σ → Fat32Dirent → Nat → Picked σ × Nat}
  {p : σ → Fat32Dirent → Option σ} {l l' front back : List Fat32Dirent} {s : σ}
  {k : Nat} {de : Fat32Dirent}

theorem visiblePart_end (hend : de.IsEnd) : visiblePart (de :: l) = [] := if_pos hend

theorem visiblePart_skip (hend : ¬ de.IsEnd) (hskip : de.Skipped) :
    visiblePart (de :: l) = visiblePart l := (if_neg hend).trans (if_pos hskip)

theorem visiblePart_keep (hend : ¬ de.IsEnd) (hskip : ¬ de.Skipped) :
    visiblePart (de :: l) = de :: visiblePart l := (if_neg hend).trans (if_neg hskip)

theorem hasEnd_cons : HasEnd (de :: l) ↔ de.IsEnd ∨ HasEnd l := by
  unfold HasEnd
  rw [List.exists_mem_cons_iff]

theorem not_hasEnd_nil : ¬ HasEnd [] := by
  rintro ⟨de, hde, -⟩
  cases hde

theorem visiblePart_append :
    visiblePart (front ++ back) =
      if HasEnd front then visiblePart front else visiblePart front ++ visiblePart back := by
  induction front with
  | nil =>
    rw [if_neg not_hasEnd_nil]
    rfl
  | cons de front ih =>
    rw [List.cons_append]
    by_cases hend : de.IsEnd
    · rw [visiblePart_end hend, visiblePart_end hend, if_pos (hasEnd_cons.mpr (.inl hend))]
    · have hrest : HasEnd (de :: front) ↔ HasEnd front := hasEnd_cons.trans (or_iff_right hend)
      simp only [hrest]
      by_cases hskip : de.Skipped
      · rw [visiblePart_skip hend hskip, visiblePart_skip hend hskip, ih]
      · rw [visiblePart_keep hend hskip, visiblePart_keep hend hskip, ih]
        split
        · rfl
        · rfl

theorem firstTaken_take (htake : p s de = none) : firstTaken p (de :: l) s = (some de, s) := by
  unfold firstTaken
  rw [htake]

theorem firstTaken_pass {s' : σ} (hpass : p s de = some s') :
    firstTaken p (de :: l) s = firstTaken p l s' := by
  rw [firstTaken, hpass]

theorem firstTaken_append : firstTaken p (front ++ back) s =
    match firstTaken p front s with
    | (some de, s) => (some de, s)
    | (none, s) => firstTaken p back s := by
  induction front generalizing s with
  | nil => rfl
  | cons de front ih =>
    rw [List.cons_append]
    cases hp : p s de with
    | none => rw [firstTaken_take hp, firstTaken_take hp]
    | some s' =>
      rw [firstTaken_pass hp, firstTaken_pass hp]
      exact ih

/-- The inner loop takes the first entry that can be listed. -/
theorem scanEntries_eq (hpick : Follows pick p) : ∃ k', scanEntries pick l s k =
    (match firstTaken p (visiblePart l) s with
      | (some de, _) => .found de
      | (none, s) => if HasEnd l then .done else .more s, k') := by
  induction l generalizing s k with
  | nil => exact ⟨k, rfl⟩
  | cons de l ih =>
    unfold scanEntries
    by_cases hend : de.IsEnd
    · refine ⟨k, ?_⟩
      rw [if_pos hend, visiblePart_end hend, firstTaken]
      dsimp only
      rw [if_pos (hasEnd_cons.mpr (.inl hend))]
    · have hrest : HasEnd (de :: l) ↔ HasEnd l := hasEnd_cons.trans (or_iff_right hend)
      rw [if_neg hend]
      simp only [hrest]
      by_cases hskip : de.Skipped
      · rw [if_pos hskip, visiblePart_skip hend hskip]
        exact ih
      · rw [if_neg hskip, visiblePart_keep hend hskip]
        obtain ⟨k', hk'⟩ := hpick s de k
        rw [hk']
        cases hp : p s de with
        | none =>
          rw [firstTaken_take hp]
          exact ⟨k', rfl⟩
        | some s' =>
          rw [firstTaken_pass hp]
          exact ih

/-! What the buffer of a cluster holds. -/

/-- The entries in the sectors that `ide_read` delivers for a cluster. -/
def sectorEntries (disk : Nat → Buffer) (v : Fat32Vol) (c : Nat) : List Fat32Dirent :=
  (List.range (16 * v.sectorsPerCluster)).map
    (direntAt fun i => disk (u32 (clusterToLba v c + i / 512)) (i % 512))

variable {m : Medium} {v : Fat32Vol} {buf buf' : Buffer} {c d fuel i j n : Nat} {chain : List Nat}
  {ino : Fat32Inode}

theorem direntAt_congr (h : ∀ b < 32, buf (i * 32 + b) = buf' (j * 32 + b)) :
    direntAt buf i = direntAt buf' j := by
  have hbytes : ∀ pos n, pos + n ≤ 32 →
      bytesAt buf (i * 32 + pos) n = bytesAt buf' (j * 32 + pos) n := by
    intro pos n hle
    refine bytesAt_congr fun b hb => ?_
    rw [Nat.add_assoc, Nat.add_assoc]
    exact h (pos + b) (by omega)
  have hword16 : ∀ pos, pos + 2 ≤ 32 →
      word16 buf (i * 32 + pos) = word16 buf' (j * 32 + pos) := by
    intro pos hle
    have hlow := h pos (by omega)
    have hhigh := h (pos + 1) (by omega)
    unfold word16
    rw [Nat.add_assoc, Nat.add_assoc, hlow, hhigh]
  have hword32 : word32 buf (i * 32 + 28) = word32 buf' (j * 32 + 28) := by
    refine congrArg BitVec.toNat (Bytes.ofBytes_congr fun b hb => ?_)
    rw [Nat.add_assoc, Nat.add_assoc]
    exact h (28 + b) (by omega)
  unfold direntAt
  congr 1
  · exact hbytes 0 8 (by decide)
  · exact hbytes 8 3 (by decide)
  · exact h 11 (by decide)
  · exact hword16 20 (by decide)
  · exact hword16 26 (by decide)

/-- The buffer begins with the sectors, and goes on as it was. -/
theorem dirents_batch (disk : Nat → Buffer) :
    dirents v (fun i => if i < 512 * v.sectorsPerCluster then
        disk (u32 (clusterToLba v c + i / 512)) (i % 512) else buf i) =
      sectorEntries disk v c ++
        (List.range (v.bytesPerCluster / 32 - 16 * v.sectorsPerCluster)).map fun i =>
          direntAt buf (16 * v.sectorsPerCluster + i) := by
  have hle : 16 * v.sectorsPerCluster ≤ v.bytesPerCluster / 32 := by
    have hbytes := (sizes_bounds v.bytes_mem).1
    have hmul := Nat.mul_le_mul_right v.sectorsPerCluster hbytes
    unfold Fat32Vol.bytesPerCluster
    omega
  obtain ⟨rest, hrest⟩ := Nat.exists_eq_add_of_le hle
  unfold dirents sectorEntries
  rw [hrest, Nat.add_sub_cancel_left, List.range_add, List.map_append, List.map_map]
  congr 1
  · refine List.map_congr_left fun i hi => direntAt_congr fun b hb => ?_
    rw [List.mem_range] at hi
    exact if_pos (by omega)
  · refine List.map_congr_left fun i _ => direntAt_congr fun b hb => ?_
    exact if_neg (by dsimp only; omega)

theorem bytesPerCluster_512 (hbytes : v.bytesPerSector = 512) :
    v.bytesPerCluster / 32 - 16 * v.sectorsPerCluster = 0 := by
  unfold Fat32Vol.bytesPerCluster
  rw [hbytes]
  omega

/-! The outer loop. -/

/-- The entries that a round looks through. -/
def roundEntries (m : Medium) (v : Fat32Vol) (c : Nat) (buf : Buffer) : List Fat32Dirent :=
  sectorEntries m.sector v c ++
    (List.range (v.bytesPerCluster / 32 - 16 * v.sectorsPerCluster)).map fun i =>
      direntAt buf (16 * v.sectorsPerCluster + i)

theorem dirStep_eq (hm : ∀ k, m.fails k = false) (hpos : 0 < v.sectorsPerCluster)
    (hpick : Follows pick p) (hc : c < fat32Eoc) :
    ∃ b k', (∀ i, 512 * v.sectorsPerCluster ≤ i → b i = buf i) ∧ dirStep m v pick ⟨c, s, buf, k⟩ =
      match firstTaken p (visiblePart (roundEntries m v c buf)) s with
      | (some de, _) => .ends (some de)
      | (none, s) =>
        if HasEnd (roundEntries m v c buf) then .ends none
        else .next ⟨(fat32NextCluster m v c k').1, s, b, (fat32NextCluster m v c k').2⟩ := by
  obtain ⟨k', hscan⟩ := @scanEntries_eq σ pick p (roundEntries m v c buf) s (k + 1) hpick
  obtain ⟨b, hb⟩ : ∃ b : Buffer, b = fun i =>
      if i < 512 * v.sectorsPerCluster then m.sector (u32 (clusterToLba v c + i / 512)) (i % 512)
      else buf i := ⟨_, rfl⟩
  have hdirents : dirents v b = roundEntries m v c buf := by
    rw [hb]
    exact dirents_batch m.sector
  refine ⟨b, k', ?_, ?_⟩
  · intro i hi
    rw [hb]
    exact if_neg (by omega)
  unfold dirStep
  rw [if_pos hc, readSectors_batch hm hpos, ← hb]
  dsimp only
  rw [hdirents, hscan]
  rcases firstTaken p (visiblePart (roundEntries m v c buf)) s with ⟨_ | de, s'⟩
  · by_cases hend : HasEnd (roundEntries m v c buf)
    · simp only [if_pos hend]
    · simp only [if_neg hend]
  · rfl

/-- A search that comes to its end in the first cluster. -/
theorem dirWalk_first (hm : ∀ k, m.fails k = false) (hpos : 0 < v.sectorsPerCluster)
    (hpick : Follows pick p) (hc : c < fat32Eoc)
    (hends : (firstTaken p (visiblePart (roundEntries m v c buf)) s).1.isSome ∨
      HasEnd (roundEntries m v c buf)) :
    dirWalk m v pick (fuel + 1) ⟨c, s, buf, k⟩ =
      some (firstTaken p (visiblePart (roundEntries m v c buf)) s).1 := by
  obtain ⟨b, k', -, hstep⟩ := @dirStep_eq σ pick p s k m v buf c hm hpos hpick hc
  unfold dirWalk
  rw [hstep]
  rcases htaken : firstTaken p (visiblePart (roundEntries m v c buf)) s with ⟨_ | de, s'⟩
  · rw [htaken] at hends
    rcases hends with hsome | hend
    · cases hsome
    · dsimp only
      rw [if_pos hend]
  · rfl

/-- With sectors of 512 bytes, a search goes through the entries of the chain. -/
theorem dirWalk_chain (hbytes : v.bytesPerSector = 512) (hm : ∀ k, m.fails k = false)
    (hpos : 0 < v.sectorsPerCluster) (hpick : Follows pick p) (hchain : FatChain m v c chain)
    (hfuel : chain.length < fuel) : dirWalk m v pick fuel ⟨c, s, buf, k⟩ =
      some (firstTaken p (visiblePart (chain.flatMap (sectorEntries m.sector v))) s).1 := by
  induction chain generalizing c fuel s buf k with
  | nil =>
    obtain ⟨fuel, rfl⟩ := Nat.exists_eq_succ_of_ne_zero (Nat.ne_of_gt hfuel)
    have hend : ¬ c < fat32Eoc := Nat.not_lt.mpr hchain
    unfold dirWalk dirStep
    rw [if_neg hend]
    rfl
  | cons d chain ih =>
    obtain ⟨rfl, hc, hrest⟩ := hchain
    rw [List.length_cons] at hfuel
    obtain ⟨fuel, rfl⟩ := Nat.exists_eq_succ_of_ne_zero (Nat.ne_of_gt (Nat.zero_lt_of_lt hfuel))
    have hround : roundEntries m v c buf = sectorEntries m.sector v c := by
      unfold roundEntries
      rw [bytesPerCluster_512 hbytes]
      exact List.append_nil _
    obtain ⟨b, k', -, hstep⟩ := @dirStep_eq σ pick p s k m v buf c hm hpos hpick hc.last
    rw [hround] at hstep
    unfold dirWalk
    rw [hstep, List.flatMap_cons, visiblePart_append]
    by_cases hend : HasEnd (sectorEntries m.sector v c)
    · rw [if_pos hend]
      rcases firstTaken p (visiblePart (sectorEntries m.sector v c)) s with ⟨_ | de, s'⟩
      · dsimp only
        rw [if_pos hend]
      · rfl
    · rw [if_neg hend, firstTaken_append]
      rcases firstTaken p (visiblePart (sectorEntries m.sector v c)) s with ⟨_ | de, s'⟩
      · dsimp only
        rw [if_neg hend]
        dsimp only
        rw [nextCluster_eq hbytes hm hc]
        exact ih hrest (by omega)
      · rfl

theorem bytesPerCluster_pos (hpos : 0 < v.sectorsPerCluster) : 0 < v.bytesPerCluster := by
  have hbytes := (sizes_bounds v.bytes_mem).1
  exact Nat.mul_pos (by omega) hpos

theorem dirSearch_eq (hfails : m.fails 0 = false) (hpos : 0 < ino.vol.sectorsPerCluster) :
    dirSearch fuel m (some ino) pick s =
      dirWalk m ino.vol pick fuel ⟨ino.firstCluster, s, m.fresh, 1⟩ := by
  have hbuf : ¬ (m.fails 0 = true ∨ ino.vol.bytesPerCluster = 0) := by
    rw [hfails]
    rintro (hfails | hzero)
    · cases hfails
    · exact absurd (bytesPerCluster_pos hpos) (by omega)
  exact if_neg hbuf

/-! Names and places in a list of entries. -/

/-- `strncmp(sname, name, 12) == 0` -/
def Matches (name : CStr) (de : Fat32Dirent) : Prop := strncmpEq (fat32ShortName de) name 12 = true

instance {name : CStr} {de : Fat32Dirent} : Decidable (Matches name de) :=
  inferInstanceAs (Decidable (_ = _))

def readdirNext (index entryIdx : Nat) (_ : Fat32Dirent) : Option Nat :=
  if entryIdx = index then none else some (u32 (entryIdx + 1))

def finddirNext (name : CStr) (_ : Unit) (de : Fat32Dirent) : Option Unit :=
  if Matches name de then none else some ()

variable {name : CStr} {index idx : Nat}

theorem readdirPick_follows : Follows (readdirPick index) (readdirNext index) := by
  intro idx de k
  refine ⟨k, ?_⟩
  unfold readdirPick readdirNext
  split
  · rfl
  · rfl

theorem finddirPick_follows (hm : ∀ k, m.fails k = false) :
    Follows (finddirPick m name) (finddirNext name) := by
  intro s de k
  unfold finddirPick finddirNext
  by_cases hname : Matches name de
  · have hsame : ¬ ¬ strncmpEq (fat32ShortName de) name 12 = true := not_not_intro hname
    refine ⟨k + 2, ?_⟩
    rw [if_pos hname, if_neg hsame, hm, hm, if_neg Bool.false_ne_true, if_neg Bool.false_ne_true]
    rfl
  · have hother : ¬ strncmpEq (fat32ShortName de) name 12 = true := hname
    refine ⟨k, ?_⟩
    rw [if_neg hname, if_pos hother]
    rfl

theorem firstTaken_readdir (hidx : idx ≤ index) (hindex : index < 2 ^ 32) :
    (firstTaken (readdirNext index) l idx).1 = l[index - idx]? := by
  induction l generalizing idx with
  | nil => rfl
  | cons de l ih =>
    by_cases hhere : idx = index
    · subst hhere
      have htake : readdirNext idx idx de = none := if_pos rfl
      rw [firstTaken_take htake, Nat.sub_self]
      rfl
    · have hnext : u32 (idx + 1) = idx + 1 := Mm.u32_of_lt (by omega)
      have hpass : readdirNext index idx de = some (idx + 1) := by
        rw [readdirNext, if_neg hhere, hnext]
      have hplace : index - idx = index - (idx + 1) + 1 := by omega
      rw [firstTaken_pass hpass, ih (by omega), hplace, List.getElem?_cons_succ]

theorem firstTaken_finddir :
    (firstTaken (finddirNext name) l ()).1 = l.find? (Matches name ·) := by
  induction l with
  | nil => rfl
  | cons de l ih =>
    by_cases hname : Matches name de
    · have htake : finddirNext name () de = none := if_pos hname
      rw [firstTaken_take htake, List.find?_cons_of_pos (by simpa using hname)]
    · have hpass : finddirNext name () de = some () := if_neg hname
      rw [firstTaken_pass hpass, ih, List.find?_cons_of_neg (by simpa using hname)]

theorem length_fat32ShortName_le (de : Fat32Dirent) : (fat32ShortName de).length ≤ 12 := by
  have hname := ( List.takeWhile_prefix (l := de.name) (· ≠ 0x20)).length_le
  have hext := ( List.takeWhile_prefix (l := de.ext) (· ≠ 0x20)).length_le
  have hchars : (shortNameChars de).length ≤ 12 := by
    unfold shortNameChars
    rw [List.length_map, List.length_append]
    rw [de.length_name] at hname
    rw [de.length_ext] at hext
    split
    · rw [List.length_cons]
      omega
    · rw [List.length_nil]
      omega
  exact ( List.takeWhile_prefix (l := shortNameChars de) (· ≠ 0)).length_le.trans hchars

theorem matches_iff {de : Fat32Dirent} : Matches name de ↔ fat32ShortName de = name.take 12 := by
  unfold Matches strncmpEq
  rw [decide_eq_true_iff, List.take_of_length_le (length_fat32ShortName_le de)]

theorem matches_of_name {de : Fat32Dirent} (hname : fat32ShortName de = name) :
    Matches name de ∧ name.length ≤ 12 := by
  have hshort := length_fat32ShortName_le de
  rw [hname] at hshort
  refine ⟨matches_iff.mpr ?_, hshort⟩
  rw [hname, List.take_of_length_le hshort]

theorem name_of_matches {de : Fat32Dirent} (hmatch : Matches name de) (hshort : name.length ≤ 12) :
    fat32ShortName de = name := by
  rw [matches_iff.mp hmatch, List.take_of_length_le hshort]

/-- What `fat32_readdir` writes for an entry is its short name. -/
theorem listed_name {rest : CStr} (de : Fat32Dirent) :
    (listed rest de).name = fat32ShortName de := by
  have hshort := length_fat32ShortName_le de
  exact if_pos (by omega)

/-! Lookup and listing. -/

def Finds (m : Medium) (ino : Fat32Inode) (name : CStr) (node : Fat32Node) : Prop :=
  ∃ fuel, fat32Finddir fuel m (some ino) name = some (some node)

/-- The entry is the one that `fat32_readdir` lists at the index. -/
def Lists (m : Medium) (ino : Fat32Inode) (index : Nat) (de : Fat32Dirent) : Prop :=
  ∃ fuel, dirSearch fuel m (some ino) (readdirPick index) 0 = some (some de)

def ListsName (m : Medium) (ino : Fat32Inode) (index : Nat) (name : CStr) : Prop :=
  ∃ fuel, ∀ rest, ∃ out, fat32Readdir fuel m (some ino) index rest = some (some out) ∧
    out.name = name

/-- A node is found, on the medium `m`, if the name is listed, on `m'`, and it is that of the first
entry under that name. -/
structure Agrees (m m' : Medium) (ino : Fat32Inode) (name : CStr) : Prop where
  found : (∃ node, Finds m ino name node) ↔ ∃ index < 2 ^ 32, ListsName m' ino index name
  first : ∀ node index de, Finds m ino name node → index < 2 ^ 32 → Lists m' ino index de →
    fat32ShortName de = name → (∀ i < index, ¬ ListsName m' ino i name) → node = foundNode de

/-- A longer name does not begin with one of the entries' names. -/
def NameOk (l : List Fat32Dirent) (name : CStr) : Prop :=
  ∀ de ∈ l, Matches name de → name.length ≤ 12

variable {m' : Medium}

theorem listsName_iff : ListsName m ino index name ↔
    ∃ de, Lists m ino index de ∧ fat32ShortName de = name := by
  unfold ListsName Lists fat32Readdir
  constructor
  · rintro ⟨fuel, hlist⟩
    obtain ⟨out, hout, hname⟩ := hlist []
    obtain ⟨found, hfound, hmap⟩ := Option.map_eq_some_iff.mp hout
    obtain ⟨de, rfl, rfl⟩ := Option.map_eq_some_iff.mp hmap
    exact ⟨de, ⟨fuel, hfound⟩, (listed_name de).symm.trans hname⟩
  · rintro ⟨de, ⟨fuel, hfound⟩, hname⟩
    refine ⟨fuel, fun rest => ⟨listed rest de, ?_, (listed_name de).trans hname⟩⟩
    rw [hfound]
    rfl

/-- Both searches know the entries `l`; entries behind them matter only if the name is not there. -/
theorem agrees_iff (hl : l.length ≤ 2 ^ 32)
    (hfind : ∀ node, Finds m ino name node ↔
      (l.find? (Matches name ·)).map foundNode = some node)
    (hlist : ∀ index < l.length, ∀ de, Lists m' ino index de ↔ l[index]? = some de)
    (hrest : ∀ index, l.length ≤ index → index < 2 ^ 32 → ∀ de, Lists m' ino index de →
      ∃ d ∈ l, Matches name d) :
    Agrees m m' ino name ↔ NameOk l name := by
  have hfound : (∃ node, Finds m ino name node) ↔ ∃ d ∈ l, Matches name d := by
    simp only [hfind]
    cases hfirst : l.find? (Matches name ·) with
    | none =>
      refine iff_of_false (fun ⟨node, hnode⟩ => nomatch hnode) ?_
      rintro ⟨d, hd, hmatch⟩
      exact List.find?_eq_none.mp hfirst d hd (by simpa using hmatch)
    | some d =>
      refine iff_of_true ⟨foundNode d, rfl⟩ ⟨d, List.mem_of_find?_eq_some hfirst, ?_⟩
      simpa using List.find?_some hfirst
  constructor
  · intro hagrees de hde hmatch
    obtain ⟨index, -, hlisted⟩ := hagrees.found.mp (hfound.mpr ⟨de, hde, hmatch⟩)
    obtain ⟨d, -, hname⟩ := listsName_iff.mp hlisted
    exact (matches_of_name hname).2
  · intro hok
    have hplace : ∀ d ∈ l, Matches name d →
        ∃ i, i < l.length ∧ Lists m' ino i d ∧ fat32ShortName d = name := by
      intro d hd hmatch
      obtain ⟨i, hi, hget⟩ := List.getElem_of_mem hd
      refine ⟨i, hi, (hlist i hi d).mpr ?_, name_of_matches hmatch (hok d hd hmatch)⟩
      rw [List.getElem?_eq_getElem hi, hget]
    constructor
    case found =>
      rw [hfound]
      constructor
      · rintro ⟨d, hd, hmatch⟩
        obtain ⟨i, hi, hlists, hname⟩ := hplace d hd hmatch
        exact ⟨i, by omega, listsName_iff.mpr ⟨d, hlists, hname⟩⟩
      · rintro ⟨index, hindex, hlisted⟩
        obtain ⟨de, hlists, hname⟩ := listsName_iff.mp hlisted
        by_cases hin : index < l.length
        · exact ⟨de, List.mem_of_getElem? ((hlist index hin de).mp hlists),
            (matches_of_name hname).1⟩
        · exact hrest index (by omega) hindex de hlists
    case first =>
      intro node index de hnode hindex hlists hname hbefore
      have hin : index < l.length := by
        by_contra hout
        obtain ⟨d, hd, hmatch⟩ := hrest index (by omega) hindex de hlists
        obtain ⟨i, hi, hearlier, hsame⟩ := hplace d hd hmatch
        exact hbefore i (by omega) (listsName_iff.mpr ⟨d, hearlier, hsame⟩)
      have hget := (hlist index hin de).mp hlists
      have hshort := (matches_of_name hname).2
      have hfirst : l.find? (Matches name ·) = some de := by
        rw [List.find?_eq_some_iff_getElem]
        refine ⟨by simpa using (matches_of_name hname).1, index, hin, ?_, ?_⟩
        · exact List.getElem?_eq_some_iff.mp hget |>.2
        · intro i hi
          have hi' : i < l.length := by omega
          have hd := (hlist i hi' l[i]).mpr (List.getElem?_eq_getElem hi')
          have hother : ¬ Matches name l[i] := fun hmatch => hbefore i hi
            (listsName_iff.mpr ⟨l[i], hd, name_of_matches hmatch hshort⟩)
          simpa using hother
      rw [hfind, hfirst] at hnode
      exact (Option.some.inj hnode).symm

end PinguinOS.Fs
