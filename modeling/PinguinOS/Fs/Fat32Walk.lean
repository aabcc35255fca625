import PinguinOS.Fs.Fat32Agree
import PinguinOS.Lib.Orbit

/-! Which clusters the walks over a FAT32 volume read, and when they come to an end. -/
namespace PinguinOS.Fs

open Mm (u32)

/-- A cluster that the volume has, up to the `last` one. -/
def InVolume (last c : Nat) : Prop := 2 ≤ c ∧ c ≤ last

/-- What `fat32_next_cluster` returns when it can read the table. -/
def fatLink (m : Medium) (v : Fat32Vol) (c : Nat) : Nat :=
  word32 (fun i => if i < 512 then m.sector (u32 (v.fatStart + u32 (c * 4) / v.bytesPerSector)) i
    else m.fresh i) (u32 (c * 4) % v.bytesPerSector) &&& 0x0FFFFFFF

/-! Directories. -/

/-- A round of the outer loop, unless it leaves the loop. -/
def dirNext {σ : Type*} (m : Medium) (v : Fat32Vol)
    (pick : σ → Fat32Dirent → Nat → Picked σ × Nat) (s : DirState σ) : Option (DirState σ) :=
  match dirStep m v pick s with
  | .next s => some s
  | .ends _ => none

/-- The cluster that a round reads. -/
def DirState.reads {σ : Type*} (s : DirState σ) : Option Nat :=
  if s.cluster < fat32Eoc then some s.cluster else none

/-- The search comes to an end, and reads clusters of the volume only. -/
structure DirWalkOk {σ : Type*} (m : Medium) (ino : Fat32Inode) (last : Nat)
    (pick : σ → Fat32Dirent → Nat → Picked σ × Nat) (entry : σ) : Prop where
  ends : ∃ fuel, (dirSearch fuel m (some ino) pick entry).isSome
  inside : m.fails 0 = false → Orbit.Always (dirNext m ino.vol pick)
    (fun s => ∀ c ∈ s.reads, InVolume last c) ⟨ino.firstCluster, entry, m.fresh, 1⟩

/-- All the searches of a directory, whichever of their calls fail. -/
structure DirWalksOk (m : Medium) (ino : Fat32Inode) (last : Nat) : Prop where
  readdir : ∀ fails, ∀ index < 2 ^ 32,
    DirWalkOk { m with fails := fails } ino last (readdirPick index) 0
  finddir : ∀ fails name,
    DirWalkOk { m with fails := fails } ino last (finddirPick { m with fails := fails } name) ()

/-- The cluster that follows, unless this one is none or one of its entries is an end mark. -/
def dirHop (m : Medium) (v : Fat32Vol) (c : Nat) : Option Nat :=
  if c < fat32Eoc ∧ ¬ HasEnd (roundEntries m v c m.fresh) then some (fatLink m v c) else none

/-- On the way to the end of the chain or to an end mark no cluster comes twice, and all of them
are in the volume. -/
structure DirLinksOk (m : Medium) (ino : Fat32Inode) (last : Nat) : Prop where
  simple : Orbit.Simple (dirHop m ino.vol) ino.firstCluster
  inside : Orbit.Always (dirHop m ino.vol) (fun c => c < fat32Eoc → InVolume last c)
    ino.firstCluster

/-! Files. -/

/-- The variables of the copy loop, the bytes it has copied, and the number of calls so far. -/
structure ReadState where
  size : Nat
  cluster : Nat
  intraCluster : Nat
  out : List (BitVec 8)
  k : Nat

/-- The copy loop before its first round, if `fat32_read` gets there. -/
def readStart (m : Medium) (ino : Fat32Inode) (offset size : Nat) : Option ReadState :=
  if ino.fileSize ≤ offset then none
  else
    match fat32Skip m ino.vol (offset / ino.vol.bytesPerCluster) ino.firstCluster 0 with
    | (none, _) => none
    | (some cluster, k) =>
      if m.fails k then none
      else some ⟨clampSize ino.fileSize offset size, cluster, offset % ino.vol.bytesPerCluster, [],
        k + 1⟩

/-- A round of the copy loop, unless it leaves the loop. -/
def readStep (m : Medium) (v : Fat32Vol) (s : ReadState) : Option ReadState :=
  if 0 < s.size ∧ s.cluster < fat32Eoc then
    match fat32ReadSectors m v v.sectorsPerCluster (clusterToLba v s.cluster) v.sectorsPerCluster 0
        m.fresh s.k with
    | (none, _) => none
    | (some clusterBuf, k) =>
      let chunk := min s.size (v.bytesPerCluster - s.intraCluster)
      let next := fat32NextCluster m v s.cluster k
      some ⟨s.size - chunk, next.1, 0, s.out ++ bytesAt clusterBuf s.intraCluster chunk, next.2⟩
  else none

/-- The cluster that a round reads. -/
def ReadState.reads (s : ReadState) : Option Nat :=
  if 0 < s.size ∧ s.cluster < fat32Eoc then some s.cluster else none

/-- The copy loop comes to an end, with the result of the read, and reads clusters of the volume
only. -/
structure ReadWalkOk (m : Medium) (ino : Fat32Inode) (last offset size : Nat) : Prop where
  ends : ∀ s ∈ readStart m ino offset size, ∃ n t,
    Orbit.after (readStep m ino.vol) s n = some t ∧ readStep m ino.vol t = none ∧
      fat32Read m (some ino) offset size = readTotal t.out
  inside : ∀ s ∈ readStart m ino offset size,
    Orbit.Always (readStep m ino.vol) (fun s => ∀ c ∈ s.reads, InVolume last c) s

/-- All the reads of a file, whichever of their calls fail. -/
def ReadWalksOk (m : Medium) (ino : Fat32Inode) (last : Nat) : Prop :=
  ∀ fails, ∀ offset < 2 ^ 32, ∀ size < 2 ^ 32,
    ReadWalkOk { m with fails := fails } ino last offset size

/-- The cluster that follows in the chain. -/
def chainHop (m : Medium) (v : Fat32Vol) (c : Nat) : Option Nat :=
  if fatLink m v c < fat32Eoc then some (fatLink m v c) else none

/-- The last byte that any read of the file copies: from its last byte on, `offset + size` can
wrap, and then `size` is left as it is. -/
def lastByte (fileSize : Nat) : Nat := if fileSize = 1 then 0 else fileSize + 2 ^ 32 - 3

/-- Some read of the file comes to the cluster `i` of its chain. -/
def ReadsIndex (ino : Fat32Inode) (i : Nat) : Prop :=
  0 < ino.fileSize ∧ i * ino.vol.bytesPerCluster ≤ lastByte ino.fileSize ∧
    (ino.firstCluster < fat32Eoc ∨ ino.vol.bytesPerCluster < ino.fileSize)

/-- The clusters of the chain that reads of the file come to are in the volume. -/
def ReadLinksOk (m : Medium) (ino : Fat32Inode) (last : Nat) : Prop :=
  ∀ i c, ReadsIndex ino i → Orbit.after (chainHop m ino.vol) ino.firstCluster i = some c →
    c < fat32Eoc → InVolume last c

variable {σ : Type*} {pick : σ → Fat32Dirent → Nat → Picked σ × Nat} {m : Medium} {v : Fat32Vol}
  {buf : Buffer} {c d last i j k n offset size fuel : Nat} {ino : Fat32Inode} {name : CStr}
  {st st' : DirState σ} {s t : ReadState} {entry : σ}

theorem nextCluster_cases : (fat32NextCluster m v c k).1 =
    if m.fails k then fat32Eoc else fatLink m v c := by
  unfold fat32NextCluster fatLink ideRead
  dsimp only
  cases m.fails k with
  | true => rfl
  | false =>
    refine congrArg (fun w : BitVec 32 => w.toNat &&& 0x0FFFFFFF) (Bytes.ofBytes_congr fun i _ => ?_)
    dsimp only
    by_cases hin : u32 (c * 4) % v.bytesPerSector + i < 512
    · have hsector : u32 (u32 (v.fatStart + u32 (c * 4) / v.bytesPerSector) + 0) =
          u32 (v.fatStart + u32 (c * 4) / v.bytesPerSector) := by
        unfold u32
        omega
      rw [if_pos (by omega), if_pos hin, Nat.sub_zero, Nat.div_eq_of_lt hin, Nat.mod_eq_of_lt hin,
        hsector]
    · rw [if_neg (by omega), if_neg hin]

/-! The walk through a directory. -/

/-- Behind the sectors that are read, the buffer is as it was allocated. -/
def RestFresh (m : Medium) (v : Fat32Vol) (buf : Buffer) : Prop :=
  ∀ i, 512 * v.sectorsPerCluster ≤ i → buf i = m.fresh i

theorem roundEntries_fresh (hrest : RestFresh m v buf) :
    roundEntries m v c buf = roundEntries m v c m.fresh := by
  unfold roundEntries
  refine congrArg (sectorEntries m.sector v c ++ ·) (List.map_congr_left fun i _ => ?_)
  exact direntAt_congr fun b _ => hrest _ (by omega)

theorem scanEntries_more {l : List Fat32Dirent} {s s' : σ} {k' : Nat}
    (hscan : scanEntries pick l s k = (.more s', k')) : ¬ HasEnd l := by
  induction l generalizing s k with
  | nil => exact not_hasEnd_nil
  | cons de l ih =>
    unfold scanEntries at hscan
    rw [hasEnd_cons]
    split at hscan
    case isTrue => cases hscan
    case isFalse hend =>
      rw [or_iff_right hend]
      split at hscan
      case isTrue => exact ih hscan
      case isFalse =>
        split at hscan
        case h_1 => cases hscan
        case h_2 => cases hscan
        case h_3 => exact ih hscan

/-- A round goes on with the cluster that follows, or it is the last one. -/
theorem dirNext_hop (hpos : 0 < v.sectorsPerCluster) (hrest : RestFresh m v st.clusterBuf)
    (hnext : dirNext m v pick st = some st') : RestFresh m v st'.clusterBuf ∧
      (dirHop m v st.cluster = some st'.cluster ∨ fat32Eoc ≤ st'.cluster) := by
  rcases st with ⟨c, s, buf, k⟩
  unfold dirNext at hnext
  split at hnext
  case h_2 => cases hnext
  case h_1 next hstep =>
    obtain rfl : next = st' := Option.some.inj hnext
    unfold dirStep at hstep
    dsimp only at hstep hrest
    split at hstep
    case isFalse => cases hstep
    case isTrue hc =>
      rw [readSectors_once hpos] at hstep
      cases hfails : m.fails k with
      | true =>
        rw [hfails] at hstep
        cases hstep
      | false =>
        rw [hfails, if_neg Bool.false_ne_true] at hstep
        dsimp only at hstep
        rw [dirents_batch m.sector] at hstep
        split at hstep
        case h_1 => cases hstep
        case h_2 => cases hstep
        case h_3 entry k' hscan =>
          cases hstep
          refine ⟨fun i hi => (if_neg (by omega)).trans (hrest i hi), ?_⟩
          dsimp only
          rw [nextCluster_cases]
          cases m.fails k' with
          | true => exact .inr (Nat.le_refl _)
          | false =>
            have hmore : ¬ HasEnd (roundEntries m v c m.fresh) := by
              rw [← roundEntries_fresh hrest]
              exact scanEntries_more hscan
            exact .inl (if_pos ⟨hc, hmore⟩)

theorem dirNext_stop (hend : fat32Eoc ≤ st.cluster) : dirNext m v pick st = none := by
  unfold dirNext dirStep
  rw [if_neg (Nat.not_lt.mpr hend)]

/-- The clusters of a search are those of the chain, up to its end or an end mark. -/
theorem dirNext_after (hpos : 0 < v.sectorsPerCluster) (hrest : RestFresh m v st.clusterBuf)
    (hafter : Orbit.after (dirNext m v pick) st n = some st') :
    Orbit.after (dirHop m v) st.cluster n = some st'.cluster ∨ fat32Eoc ≤ st'.cluster := by
  induction n generalizing st with
  | zero =>
    cases hafter
    exact .inl rfl
  | succ n ih =>
    obtain ⟨next, hnext, hlater⟩ := Option.bind_eq_some_iff.mp hafter
    obtain ⟨hfresh, hhop | hend⟩ := dirNext_hop hpos hrest hnext
    · rw [Orbit.after_succ_of_step hhop]
      exact ih hfresh hlater
    · cases n with
      | zero =>
        cases hlater
        exact .inr hend
      | succ n =>
        rw [Orbit.after, dirNext_stop hend] at hlater
        cases hlater

theorem dirWalk_isSome :
    (dirWalk m v pick fuel st).isSome ↔ Orbit.after (dirNext m v pick) st fuel = none := by
  induction fuel generalizing st with
  | zero => exact iff_of_false Bool.false_ne_true (Option.some_ne_none st)
  | succ fuel ih =>
    rw [dirWalk, Orbit.after, dirNext]
    cases dirStep m v pick st with
    | next st' => exact ih
    | ends de => exact iff_of_true rfl rfl

theorem dirHop_ends_iff : Orbit.Ends (dirHop m v) c ↔ Orbit.Simple (dirHop m v) c := by
  refine Orbit.ends_iff_simple (Finset.range fat32Eoc) ?_
  intro k c _ hsome
  rw [Finset.mem_range]
  by_contra hend
  have hstop : dirHop m v c = none := if_neg fun h => hend h.1
  rw [hstop] at hsome
  cases hsome

theorem dirWalkOk_of_links (hpos : 0 < ino.vol.sectorsPerCluster)
    (hlinks : DirLinksOk m ino last) : DirWalkOk m ino last pick entry := by
  have hfresh : RestFresh m ino.vol m.fresh := fun _ _ => rfl
  constructor
  case ends =>
    obtain ⟨n, hn⟩ := dirHop_ends_iff.mpr hlinks.simple
    cases hfails : m.fails 0 with
    | true => exact ⟨0, congrArg Option.isSome (if_pos (.inl hfails))⟩
    | false =>
      refine ⟨n + 1, ?_⟩
      rw [dirSearch_eq hfails hpos, dirWalk_isSome]
      cases hafter : Orbit.after (dirNext m ino.vol pick) ⟨ino.firstCluster, entry, m.fresh, 1⟩ n with
      | none => exact Orbit.after_none hafter (Nat.le_succ n)
      | some st =>
        rcases dirNext_after hpos hfresh hafter with hhop | hend
        · rw [hn] at hhop
          cases hhop
        · rw [Orbit.after_add hafter, Orbit.after, dirNext_stop hend, Option.bind_none]
  case inside =>
    intro _ n st hafter c hc
    unfold DirState.reads at hc
    split at hc
    case isFalse => cases hc
    case isTrue hlt =>
      obtain rfl : st.cluster = c := Option.some.inj hc
      rcases dirNext_after hpos hfresh hafter with hhop | hend
      · exact hlinks.inside n st.cluster hhop hlt
      · exact absurd hlt (Nat.not_lt.mpr hend)

/-! A name that no entry has: the search for it goes all the way. -/

theorem toLower_ne : ∀ c, toLower c ≠ 0x41 := by decide

theorem not_matches_capital {de : Fat32Dirent} : ¬ Matches [0x41] de := by
  rw [matches_iff]
  intro hname
  have hmem : (0x41 : BitVec 8) ∈ fat32ShortName de := by
    rw [hname]
    exact List.mem_cons_self
  obtain ⟨c, -, hc⟩ := List.mem_map.mp ((List.takeWhile_sublist _).subset hmem)
  exact toLower_ne c hc

theorem firstTaken_none {l : List Fat32Dirent} (hname : ∀ de, ¬ Matches name de) :
    firstTaken (finddirNext name) l () = (none, ()) := by
  induction l with
  | nil => rfl
  | cons de l ih =>
    have hpass : finddirNext name () de = some () := if_neg (hname de)
    rw [firstTaken_pass hpass, ih]

theorem dirHop_next {st : DirState Unit} (hm : ∀ k, m.fails k = false)
    (hpos : 0 < v.sectorsPerCluster) (hname : ∀ de, ¬ Matches name de)
    (hrest : RestFresh m v st.clusterBuf) (hhop : dirHop m v st.cluster = some d) :
    ∃ st', dirNext m v (finddirPick m name) st = some st' ∧ st'.cluster = d ∧
      RestFresh m v st'.clusterBuf := by
  rcases st with ⟨c, ⟨⟩, buf, k⟩
  dsimp only at hhop hrest
  unfold dirHop at hhop
  split at hhop
  case isFalse => cases hhop
  case isTrue hmore =>
    obtain ⟨hc, hend⟩ := hmore
    rw [← roundEntries_fresh hrest] at hend
    obtain ⟨b, k', hb, hstep⟩ := @dirStep_eq Unit _ _ () k m v buf c hm hpos
      (@finddirPick_follows m name hm) hc
    rw [firstTaken_none hname] at hstep
    dsimp only at hstep
    rw [if_neg hend] at hstep
    unfold dirNext
    rw [hstep]
    refine ⟨_, rfl, ?_, fun i hi => (hb i hi).trans (hrest i hi)⟩
    dsimp only
    rw [nextCluster_cases, hm k', if_neg Bool.false_ne_true]
    exact Option.some.inj hhop

theorem dirHop_after {st : DirState Unit} (hm : ∀ k, m.fails k = false)
    (hpos : 0 < v.sectorsPerCluster) (hname : ∀ de, ¬ Matches name de)
    (hrest : RestFresh m v st.clusterBuf)
    (hafter : Orbit.after (dirHop m v) st.cluster n = some d) :
    ∃ st', Orbit.after (dirNext m v (finddirPick m name)) st n = some st' ∧ st'.cluster = d := by
  induction n generalizing st with
  | zero => exact ⟨st, rfl, Option.some.inj hafter⟩
  | succ n ih =>
    obtain ⟨e, he, hlater⟩ := Option.bind_eq_some_iff.mp hafter
    obtain ⟨next, hnext, rfl, hfresh⟩ := dirHop_next hm hpos hname hrest he
    rw [Orbit.after_succ_of_step hnext]
    exact ih hfresh hlater

theorem dirLinksOk_of_walk (hm : ∀ k, m.fails k = false) (hpos : 0 < ino.vol.sectorsPerCluster)
    (hwalk : DirWalkOk m ino last (finddirPick m [0x41]) ()) : DirLinksOk m ino last := by
  let start : DirState Unit := ⟨ino.firstCluster, (), m.fresh, 1⟩
  have hfresh : RestFresh m ino.vol start.clusterBuf := fun _ _ => rfl
  have hafter : ∀ n d, Orbit.after (dirHop m ino.vol) start.cluster n = some d → ∃ st,
      Orbit.after (dirNext m ino.vol (finddirPick m [0x41])) start n = some st ∧ st.cluster = d :=
    fun n d hd => dirHop_after hm hpos (fun _ => not_matches_capital) hfresh hd
  constructor
  case simple =>
    obtain ⟨fuel, hsome⟩ := hwalk.ends
    rw [dirSearch_eq (hm 0) hpos, dirWalk_isSome] at hsome
    refine dirHop_ends_iff.mp ⟨fuel, Option.eq_none_iff_forall_ne_some.mpr fun d hd => ?_⟩
    obtain ⟨st, hst, -⟩ := hafter fuel d hd
    rw [hsome] at hst
    cases hst
  case inside =>
    intro n c hc hlt
    obtain ⟨st, hst, rfl⟩ := hafter n c hc
    exact hwalk.inside (hm 0) n st hst st.cluster (if_pos hlt)

/-- The links do not depend on which calls fail. -/
theorem dirLinksOk_fails {fails : Nat → Bool} :
    DirLinksOk { m with fails := fails } ino last ↔ DirLinksOk m ino last :=
  ⟨fun h => ⟨h.simple, h.inside⟩, fun h => ⟨h.simple, h.inside⟩⟩

theorem dirWalksOk_iff (hpos : 0 < ino.vol.sectorsPerCluster) :
    DirWalksOk m ino last ↔ DirLinksOk m ino last := by
  constructor
  · intro hwalks
    have hall : ∀ k, ({ m with fails := fun _ => false } : Medium).fails k = false := fun _ => rfl
    exact dirLinksOk_fails.mp (dirLinksOk_of_walk hall hpos (hwalks.finddir _ _))
  · intro hlinks
    have hlinks' : ∀ fails, DirLinksOk { m with fails := fails } ino last :=
      fun fails => dirLinksOk_fails.mpr hlinks
    exact ⟨fun fails _ _ => dirWalkOk_of_links hpos (hlinks' fails),
      fun fails _ => dirWalkOk_of_links hpos (hlinks' fails)⟩

/-! The walk of a read. -/

/-- Where the chain goes on, the next cluster is the one that is linked. -/
theorem nextCluster_hop : chainHop m v c = some (fat32NextCluster m v c k).1 ∨
    fat32Eoc ≤ (fat32NextCluster m v c k).1 := by
  rw [nextCluster_cases]
  cases m.fails k with
  | true => exact .inr (Nat.le_refl _)
  | false =>
    rw [if_neg Bool.false_ne_true]
    by_cases hlt : fatLink m v c < fat32Eoc
    · exact .inl (if_pos hlt)
    · exact .inr (Nat.le_of_not_lt hlt)

theorem chainHop_some : chainHop m v c = some d ↔ fatLink m v c = d ∧ d < fat32Eoc := by
  unfold chainHop
  constructor
  · intro hhop
    split at hhop
    case isFalse => cases hhop
    case isTrue hlt =>
      obtain rfl := Option.some.inj hhop
      exact ⟨rfl, hlt⟩
  · rintro ⟨rfl, hlt⟩
    exact if_pos hlt

theorem nextCluster_ok (hm : ∀ k, m.fails k = false) :
    (fat32NextCluster m v c k).1 = fatLink m v c := by
  rw [nextCluster_cases, hm k, if_neg Bool.false_ne_true]

theorem fat32Skip_hop (hskip : fat32Skip m v n c k = (some d, j)) :
    Orbit.after (chainHop m v) c n = some d := by
  induction n generalizing c k with
  | zero =>
    cases hskip
    rfl
  | succ n ih =>
    unfold fat32Skip at hskip
    dsimp only at hskip
    split at hskip
    case isTrue => cases hskip
    case isFalse hmore =>
      rw [Orbit.after_succ_of_step (nextCluster_hop.resolve_right hmore)]
      exact ih hskip

theorem fat32Skip_ok (hm : ∀ k, m.fails k = false)
    (hafter : Orbit.after (chainHop m v) c n = some d) : ∃ j, fat32Skip m v n c k = (some d, j) := by
  induction n generalizing c k with
  | zero =>
    cases hafter
    exact ⟨k, rfl⟩
  | succ n ih =>
    obtain ⟨e, he, hlater⟩ := Option.bind_eq_some_iff.mp hafter
    obtain ⟨rfl, hlt⟩ := chainHop_some.mp he
    unfold fat32Skip
    dsimp only
    rw [nextCluster_ok hm, if_neg (Nat.not_le.mpr hlt)]
    exact ih hlater

/-- What one round does, and the round of `fat32ReadLoop` with it. -/
structure Reads (m : Medium) (v : Fat32Vol) (s t : ReadState) : Prop where
  more : 0 < s.size ∧ s.cluster < fat32Eoc
  size : t.size = s.size - min s.size (v.bytesPerCluster - s.intraCluster)
  intra : t.intraCluster = 0
  next : ∃ k, t.cluster = (fat32NextCluster m v s.cluster k).1
  loop : ∀ n, s.out ++ fat32ReadLoop m v (n + 1) s.size s.cluster s.intraCluster s.k =
    t.out ++ fat32ReadLoop m v n t.size t.cluster t.intraCluster t.k

theorem Reads.hop (hreads : Reads m v s t) :
    chainHop m v s.cluster = some t.cluster ∨ fat32Eoc ≤ t.cluster := by
  obtain ⟨k, hk⟩ := hreads.next
  rw [hk]
  exact nextCluster_hop

theorem readStep_reads (hstep : readStep m v s = some t) : Reads m v s t := by
  unfold readStep at hstep
  split at hstep
  case isFalse => cases hstep
  case isTrue hmore =>
    split at hstep
    case h_1 => cases hstep
    case h_2 clusterBuf k hread =>
      cases hstep
      refine ⟨hmore, rfl, rfl, ⟨k, rfl⟩, ?_⟩
      intro n
      rw [fat32ReadLoop, if_pos hmore, hread, List.append_assoc]

/-- Where no round follows, `fat32ReadLoop` adds nothing. -/
theorem readLoop_of_none (hstep : readStep m v s = none) :
    fat32ReadLoop m v n s.size s.cluster s.intraCluster s.k = [] := by
  cases n with
  | zero => rfl
  | succ n =>
    unfold readStep at hstep
    unfold fat32ReadLoop
    by_cases hmore : 0 < s.size ∧ s.cluster < fat32Eoc
    · rw [if_pos hmore] at hstep ⊢
      rcases hread : fat32ReadSectors m v v.sectorsPerCluster (clusterToLba v s.cluster)
        v.sectorsPerCluster 0 m.fresh s.k with ⟨_ | b, k'⟩
      · rfl
      · rw [hread] at hstep
        cases hstep
    · exact if_neg hmore

/-- Each round copies a byte at least, so the loop comes to an end. -/
theorem readLoop_run (hpos : 0 < v.bytesPerCluster) (hintra : s.intraCluster < v.bytesPerCluster)
    (hn : s.size ≤ n) : ∃ i t, Orbit.after (readStep m v) s i = some t ∧ readStep m v t = none ∧
      s.out ++ fat32ReadLoop m v n s.size s.cluster s.intraCluster s.k = t.out := by
  induction n generalizing s with
  | zero =>
    refine ⟨0, s, rfl, if_neg (by omega), ?_⟩
    exact List.append_nil _
  | succ n ih =>
    cases hstep : readStep m v s with
    | none =>
      refine ⟨0, s, rfl, hstep, ?_⟩
      rw [readLoop_of_none hstep, List.append_nil]
    | some t =>
      have hreads := readStep_reads hstep
      have hsize := hreads.size
      have hmore := hreads.more.1
      obtain ⟨i, u, hafter, hend, hout⟩ := @ih t (by rw [hreads.intra]; exact hpos) (by omega)
      refine ⟨i + 1, u, ?_, hend, ?_⟩
      · rw [Orbit.after_succ_of_step hstep]
        exact hafter
      · rw [hreads.loop n]
        exact hout

theorem reads_of_idle (hidle : ¬ (0 < s.size ∧ s.cluster < fat32Eoc))
    (hafter : Orbit.after (readStep m v) s n = some t) : t.reads = none := by
  cases n with
  | zero =>
    cases hafter
    exact if_neg hidle
  | succ n =>
    have hstop : readStep m v s = none := if_neg hidle
    rw [Orbit.after, hstop] at hafter
    cases hafter

/-- A cluster that is read has its place in the chain before the end of the request. -/
theorem reads_place {first stop : Nat} (hintra : s.intraCluster ≤ v.bytesPerCluster)
    (hchain : Orbit.after (chainHop m v) first i = some s.cluster)
    (hstop : i * v.bytesPerCluster + s.intraCluster + s.size = stop)
    (hafter : Orbit.after (readStep m v) s n = some t) (hreads : c ∈ t.reads) :
    c < fat32Eoc ∧ ∃ q, Orbit.after (chainHop m v) first q = some c ∧
      q * v.bytesPerCluster < stop := by
  induction n generalizing s i with
  | zero =>
    obtain rfl : s = t := Option.some.inj hafter
    unfold ReadState.reads at hreads
    split at hreads
    case isFalse => cases hreads
    case isTrue hmore =>
      obtain rfl : s.cluster = c := Option.some.inj hreads
      exact ⟨hmore.2, i, hchain, by omega⟩
  | succ n ih =>
    obtain ⟨u, hu, hlater⟩ := Option.bind_eq_some_iff.mp hafter
    have hround := readStep_reads hu
    by_cases hmore : 0 < u.size ∧ u.cluster < fat32Eoc
    · have hhop := hround.hop.resolve_right (Nat.not_le.mpr hmore.2)
      have hsize := hround.size
      have hsucc : (i + 1) * v.bytesPerCluster = i * v.bytesPerCluster + v.bytesPerCluster :=
        Nat.succ_mul _ _
      have hstart := hround.intra
      refine ih (i := i + 1) ?_ ?_ ?_ hlater
      · exact (Nat.le_of_eq hround.intra).trans (Nat.zero_le _)
      · rw [Orbit.after_add hchain, Orbit.after_succ_of_step hhop]
        rfl
      · omega
    · rw [reads_of_idle hmore hlater] at hreads
      cases hreads

/-- Where the copy loop of a read begins. -/
theorem readStart_eq (hstart : readStart m ino offset size = some s) :
    offset < ino.fileSize ∧ ∃ k, fat32Skip m ino.vol (offset / ino.vol.bytesPerCluster)
        ino.firstCluster 0 = (some s.cluster, k) ∧ m.fails k = false ∧
      s = ⟨clampSize ino.fileSize offset size, s.cluster, offset % ino.vol.bytesPerCluster, [],
        k + 1⟩ := by
  unfold readStart at hstart
  split at hstart
  case isTrue => cases hstart
  case isFalse hinside =>
    split at hstart
    case h_1 => cases hstart
    case h_2 cluster k hskip =>
      split at hstart
      case isTrue => cases hstart
      case isFalse hfails =>
        cases hstart
        exact ⟨Nat.not_le.mp hinside, k, hskip, Bool.eq_false_of_not_eq_true hfails, rfl⟩

/-- The end of a request, which may wrap. -/
theorem clamp_stop {f : Nat} (hf : f < 2 ^ 32) (hsize : size < 2 ^ 32) (hlt : offset < f) :
    offset + clampSize f offset size ≤ lastByte f + 1 := by
  unfold clampSize lastByte u32
  split
  · split
    · omega
    · omega
  · split
    · omega
    · omega

theorem readWalkOk_of_links (hpos : 0 < ino.vol.sectorsPerCluster) (hsize : size < 2 ^ 32)
    (hlinks : ReadLinksOk m ino last) : ReadWalkOk m ino last offset size := by
  have hcluster := bytesPerCluster_pos hpos
  have hmod := Nat.mod_lt offset hcluster
  have hdiv := Nat.div_add_mod' offset ino.vol.bytesPerCluster
  constructor
  case ends =>
    intro s hs
    obtain ⟨hinside, k, hskip, hfails, heq⟩ := readStart_eq hs
    obtain ⟨i, t, hafter, hend, hout⟩ := readLoop_run (m := m) (s := s) (n := s.size) hcluster
      (by rw [heq]; exact hmod) (Nat.le_refl _)
    refine ⟨i, t, hafter, hend, ?_⟩
    unfold fat32Read
    dsimp only
    rw [if_neg (by omega), hskip]
    dsimp only
    rw [hfails, if_neg Bool.false_ne_true, ← hout, heq]
    rfl
  case inside =>
    intro s hs n t hafter c hc
    obtain ⟨hinside, k, hskip, -, heq⟩ := readStart_eq hs
    have hbytes : offset / ino.vol.bytesPerCluster * ino.vol.bytesPerCluster + s.intraCluster +
        s.size = offset + clampSize ino.fileSize offset size := by
      rw [heq]
      dsimp only
      omega
    have hintra : s.intraCluster ≤ ino.vol.bytesPerCluster := by
      rw [heq]
      exact Nat.le_of_lt hmod
    obtain ⟨hlt, q, hq, hplace⟩ := reads_place hintra (fat32Skip_hop hskip) hbytes hafter hc
    have hstop := clamp_stop ino.size_lt hsize hinside
    refine hlinks q c ⟨by omega, by omega, ?_⟩ hq hlt
    by_contra hnone
    obtain ⟨hfirst, hsmall⟩ := not_or.mp hnone
    have hzero : offset / ino.vol.bytesPerCluster = 0 := Nat.div_eq_of_lt (by omega)
    rw [hzero] at hskip
    have hsame : s.cluster = ino.firstCluster := (Option.some.inj (Prod.mk.inj hskip).1).symm
    have hidle : t.reads = none :=
      reads_of_idle (fun hmore => hfirst (hsame ▸ hmore.2)) hafter
    rw [hidle] at hc
    cases hc

/-- A long request gets to every cluster of the chain that begins before its end. -/
theorem readLoop_reaches (hm : ∀ k, m.fails k = false) (hpos : 0 < v.sectorsPerCluster)
    (hmore : 0 < s.size ∧ s.cluster < fat32Eoc)
    (hchain : Orbit.after (chainHop m v) s.cluster n = some c)
    (hlong : n * v.bytesPerCluster < s.intraCluster + s.size)
    (hintra : s.intraCluster ≤ v.bytesPerCluster) :
    ∃ t, Orbit.after (readStep m v) s n = some t ∧ t.reads = some c := by
  induction n generalizing s with
  | zero =>
    obtain rfl : s.cluster = c := Option.some.inj hchain
    exact ⟨s, rfl, if_pos hmore⟩
  | succ n ih =>
    obtain ⟨d, hd, hlater⟩ := Option.bind_eq_some_iff.mp hchain
    obtain ⟨t, ht⟩ : ∃ t, readStep m v s = some t := by
      unfold readStep
      rw [if_pos hmore, readSectors_batch hm hpos]
      exact ⟨_, rfl⟩
    have hround := readStep_reads ht
    have hsize := hround.size
    have hstart := hround.intra
    have hsucc : (n + 1) * v.bytesPerCluster = n * v.bytesPerCluster + v.bytesPerCluster :=
      Nat.succ_mul _ _
    obtain ⟨hlink, hlt⟩ := chainHop_some.mp hd
    obtain ⟨k, hk⟩ := hround.next
    rw [nextCluster_ok hm, hlink] at hk
    subst hk
    obtain ⟨u, hu, hreads⟩ := ih (s := t) ⟨by omega, hlt⟩ hlater (by omega) (by omega)
    refine ⟨u, ?_, hreads⟩
    rw [Orbit.after_succ_of_step ht]
    exact hu

theorem readStart_ok (hm : ∀ k, m.fails k = false) (hlt : offset < ino.fileSize)
    (hafter : Orbit.after (chainHop m ino.vol) ino.firstCluster
      (offset / ino.vol.bytesPerCluster) = some c) :
    ∃ k, readStart m ino offset size = some ⟨clampSize ino.fileSize offset size, c,
      offset % ino.vol.bytesPerCluster, [], k⟩ := by
  obtain ⟨k, hskip⟩ := @fat32Skip_ok m ino.vol ino.firstCluster c 0 _ hm hafter
  refine ⟨k + 1, ?_⟩
  unfold readStart
  rw [if_neg (Nat.not_le.mpr hlt), hskip]
  dsimp only
  rw [hm k, if_neg Bool.false_ne_true]

theorem chainHop_lt (hafter : Orbit.after (chainHop m v) c (n + 1) = some d) : d < fat32Eoc := by
  obtain ⟨e, -, hlast⟩ := Orbit.after_split hafter
  obtain ⟨d', hd, hsame⟩ := Option.bind_eq_some_iff.mp hlast
  cases hsame
  exact (chainHop_some.mp hd).2

theorem readLinksOk_of_walks (hm : ∀ k, m.fails k = false) (hpos : 0 < ino.vol.sectorsPerCluster)
    (hwalks : ∀ offset < 2 ^ 32, ∀ size < 2 ^ 32, ReadWalkOk m ino last offset size) :
    ReadLinksOk m ino last := by
  rintro i c ⟨hfile, hplace, hfirst⟩ hc hlt
  have hcluster := bytesPerCluster_pos hpos
  have hf := ino.size_lt
  by_cases hin : i * ino.vol.bytesPerCluster < ino.fileSize
  case pos =>
    -- A read of the first byte of the cluster.
    have hindex : i * ino.vol.bytesPerCluster / ino.vol.bytesPerCluster = i :=
      Nat.mul_div_cancel i hcluster
    have hone : clampSize ino.fileSize (i * ino.vol.bytesPerCluster) 1 = 1 := by
      unfold clampSize u32
      rw [if_neg (by omega)]
    obtain ⟨k, hstart⟩ := @readStart_ok m c (i * ino.vol.bytesPerCluster) 1 ino hm hin
      (by rw [hindex]; exact hc)
    have hreads : ReadState.reads ⟨clampSize ino.fileSize (i * ino.vol.bytesPerCluster) 1, c,
        i * ino.vol.bytesPerCluster % ino.vol.bytesPerCluster, [], k⟩ = some c := by
      rw [hone]
      exact if_pos ⟨Nat.one_pos, hlt⟩
    exact (hwalks _ (by omega) 1 (by decide)).inside _ hstart 0 _ rfl c hreads
  case neg =>
    -- The longest read from the last byte of the file, whose end wraps.
    unfold lastByte at hplace
    have hmore : 2 ≤ ino.fileSize := by
      by_contra hsmall
      rw [if_pos (by omega)] at hplace
      omega
    rw [if_neg (by omega)] at hplace
    have hlong : clampSize ino.fileSize (ino.fileSize - 1) (2 ^ 32 - 1) = 2 ^ 32 - 1 := by
      unfold clampSize u32
      rw [if_neg (by omega)]
    have hdiv := Nat.div_add_mod' (ino.fileSize - 1) ino.vol.bytesPerCluster
    have hmod := Nat.mod_lt (ino.fileSize - 1) hcluster
    have hle : (ino.fileSize - 1) / ino.vol.bytesPerCluster ≤ i := by
      refine Nat.le_of_mul_le_mul_right ?_ hcluster
      omega
    obtain ⟨n, rfl⟩ := Nat.exists_eq_add_of_le hle
    obtain ⟨d, hd, hlater⟩ := Orbit.after_split hc
    have hbegin : d < fat32Eoc := by
      cases hzero : (ino.fileSize - 1) / ino.vol.bytesPerCluster with
      | zero =>
        rw [hzero] at hd hdiv
        cases hd
        exact hfirst.resolve_right (by omega)
      | succ q =>
        rw [hzero] at hd
        exact chainHop_lt hd
    obtain ⟨k, hstart⟩ := @readStart_ok m d (ino.fileSize - 1) (2 ^ 32 - 1) ino hm (by omega) hd
    rw [Nat.add_mul] at hplace
    obtain ⟨t, hafter, hreads⟩ := readLoop_reaches hm hpos (s := ⟨clampSize ino.fileSize
      (ino.fileSize - 1) (2 ^ 32 - 1), d, (ino.fileSize - 1) % ino.vol.bytesPerCluster, [], k⟩)
      ⟨by dsimp only; omega, hbegin⟩ hlater (by dsimp only; omega) (Nat.le_of_lt hmod)
    exact (hwalks _ (by omega) _ (by decide)).inside _ hstart n t hafter c hreads

theorem readWalksOk_iff (hpos : 0 < ino.vol.sectorsPerCluster) :
    ReadWalksOk m ino last ↔ ReadLinksOk m ino last := by
  constructor
  · intro hwalks
    have hall : ∀ k, ({ m with fails := fun _ => false } : Medium).fails k = false := fun _ => rfl
    exact readLinksOk_of_walks (m := { m with fails := fun _ => false }) hall hpos (hwalks _)
  · intro hlinks fails offset _ size hsize
    have hlinks' : ReadLinksOk { m with fails := fails } ino last := hlinks
    exact readWalkOk_of_links hpos hsize hlinks'

/-- On every volume with clusters, the searches of a directory come to an end and keep to the
clusters of the volume just when its links do, and the reads of a file, which always come to an
end, when the clusters that they come to are in the volume. -/
theorem walksOk_iff (m : Medium) (ino : Fat32Inode) (last : Nat)
    (hpos : 0 < ino.vol.sectorsPerCluster) :
    (DirWalksOk m ino last ↔ DirLinksOk m ino last) ∧
      (ReadWalksOk m ino last ↔ ReadLinksOk m ino last) :=
  ⟨dirWalksOk_iff hpos, readWalksOk_iff hpos⟩

/-- A root of deleted entries, whose cluster goes on with itself. -/
def loopDisk : Nat → Buffer
  | 0 => bootSector
  | 1 => fun i => if i = 8 then 2 else 0
  | _ => fun _ => 0xE5

theorem walksOk_loopDisk :
    (DirWalksOk (served loopDisk fun _ => 0) smallRoot 127 ↔
      DirLinksOk (served loopDisk fun _ => 0) smallRoot 127) ∧
    (ReadWalksOk (served loopDisk fun _ => 0) smallRoot 127 ↔
      ReadLinksOk (served loopDisk fun _ => 0) smallRoot 127) :=
  walksOk_iff (served loopDisk fun _ => 0) smallRoot 127 (by decide)

/-- A search of that root for a name never comes to an end. -/
theorem not_walksOk_loopDisk : fat32Mount (served loopDisk fun _ => 0) = some smallRoot ∧
    ¬ DirWalksOk (served loopDisk fun _ => 0) smallRoot 127 := by
  refine ⟨by rfl, fun hwalks => ?_⟩
  have hlinks := (dirWalksOk_iff (by decide)).mp hwalks
  have hhop : dirHop (served loopDisk fun _ => 0) smallRoot.vol 2 = some 2 := by decide +kernel
  have hagain : Orbit.after (dirHop (served loopDisk fun _ => 0) smallRoot.vol) 2 1 = some 2 :=
    Orbit.after_succ_of_step hhop
  exact absurd (hlinks.simple 0 1 2 rfl hagain) (by decide)

end PinguinOS.Fs
