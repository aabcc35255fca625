import Mathlib.Logic.Function.Basic
import PinguinOS.Lib.Path

/-! The mount table and the path walk of the VFS. -/
namespace PinguinOS.Fs

open Path (components Under)

/-- The bytes of a C string before its NUL. -/
abbrev CStr := List (BitVec 8)

def slash : BitVec 8 := 0x2F

/-- The bytes of a string literal. -/
def cstr (s : List Char) : CStr := s.map fun c => BitVec.ofNat 8 c.toNat

/-- `strncmp(a, b, n) == 0` -/
def strncmpEq (a b : CStr) (n : Nat) : Bool := a.take n = b.take n

def vfsMaxMounts : Nat := 16
def vfsPathMax : Nat := 256

/-- `vfs_mount_t` -/
structure VfsMount (ν : Type*) where
  path : CStr
  root : ν
  used : Bool

abbrev MountTable (ν : Type*) := Nat → VfsMount ν

/-- What is seen of the nodes in the memory `σ`: the flag `VFS_DIR`, and the `finddir` of the node's
`ops` if there is one. -/
structure Backend (ν σ : Type*) where
  isDir : σ → ν → Bool
  finddir : σ → ν → Option (CStr → Option ν × σ)

variable {ν σ : Type*} {B : Backend ν σ} {t : MountTable ν} {path rel as : CStr}
  {a : BitVec 8} {i j n : Nat}
  {node : ν} {c : CStr} {cs : List CStr} {s : σ} {log : List (ν × CStr)}

/-- The loop of `vfs_lookup` over the first `n` mounts: `best` and `best_len`. -/
def bestMount (t : MountTable ν) (path : CStr) : (n : Nat) → Option Nat × Nat
  | 0 => (none, 0)
  | n + 1 =>
    let best := bestMount t path n
    let plen := (t n).path.length
    if (t n).used ∧ strncmpEq (t n).path path plen ∧ best.2 < plen then (some n, plen) else best

/-- `while (*rel == '/') rel++` -/
def skipSlashes (rel : CStr) : CStr := rel.dropWhile (· = slash)

/-- The loop of `vfs_lookup` over the components; each of its `n` rounds goes on by a byte at
least. -/
def vfsWalk (B : Backend ν σ) : (n : Nat) → ν → (rel : CStr) → σ → Option ν × σ
  | _, node, [], s => (some node, s)
  | 0, _, _ :: _, s => (none, s)
  | n + 1, node, a :: rel, s =>
    let component := (a :: rel).takeWhile (· ≠ slash)
    if 256 ≤ component.length then (none, s)
    else
      match B.finddir s node with
      | none => (none, s)
      | some finddir =>
        match finddir component with
        | (none, s) => (none, s)
        | (some node, s) => vfsWalk B n node (skipSlashes ((a :: rel).drop component.length)) s

def vfsLookup (B : Backend ν σ) (t : MountTable ν) (path : CStr) (s : σ) : Option ν × σ :=
  match bestMount t path vfsMaxMounts with
  | (none, _) => (none, s)
  | (some i, bestLen) =>
    let rel := skipSlashes (path.drop bestLen)
    vfsWalk B rel.length (t i).root rel s

/-- A `fs_ops_t` of `fs_registry`: its name and its `mount`. -/
abbrev FsType (ν σ : Type*) := CStr × Option (CStr → BitVec 32 → σ → Option ν × σ)

def vfsMount (registry : List (FsType ν σ)) (path device fsname : CStr) (flags : BitVec 32)
    (t : MountTable ν) (s : σ) : Int × MountTable ν × σ :=
  match (List.range vfsMaxMounts).find? fun i => !(t i).used with
  | none => (-1, t, s)
  | some slot =>
    match (registry.find? fun fs => fs.1 = fsname).bind Prod.snd with
    | none => (-2, t, s)
    | some mount =>
      match mount device flags s with
      | (none, s) => (-3, t, s)
      | (some root, s) => (0, Function.update t slot ⟨path.take (vfsPathMax - 1), root, true⟩, s)

def vfsUmount (path : CStr) (t : MountTable ν) : Int × MountTable ν :=
  match (List.range vfsMaxMounts).find? fun i => (t i).used ∧ (t i).path = path with
  | none => (-1, t)
  | some i => (0, Function.update t i { t i with used := false })

/-! What a path means: the nearest mount, and a node for each component below it. -/

/-- What `slot` is the choice of: the longest of the mounts that the path is under. -/
def Selects (t : MountTable ν) (path : CStr) : (slot : Option Nat) → Prop
  | none => ∀ i < vfsMaxMounts, (t i).used → ¬ Under slash (t i).path path
  | some i => i < vfsMaxMounts ∧ (t i).used ∧ Under slash (t i).path path ∧
      ∀ j < vfsMaxMounts, (t j).used → Under slash (t j).path path →
        (t j).path.length ≤ (t i).path.length

/-- Each component is looked up in the directory found so far. -/
def resolve (B : Backend ν σ) : ν → List CStr → σ → Option ν × σ
  | node, [], s => (some node, s)
  | node, c :: cs, s =>
    if c.length ≤ 255 ∧ B.isDir s node then
      match B.finddir s node with
      | none => (none, s)
      | some finddir =>
        match finddir c with
        | (none, s) => (none, s)
        | (some node, s) => resolve B node cs s
    else (none, s)

/-- The backend with a log of the calls of `finddir`. -/
def Backend.logged (B : Backend ν σ) : Backend ν (σ × List (ν × CStr)) where
  isDir s node := B.isDir s.1 node
  finddir s node := (B.finddir s.1 node).map fun finddir c =>
    ((finddir c).1, (finddir c).2, s.2 ++ [(node, c)])

/-- The lookup goes to the right mount, makes the calls of `finddir` that the path asks for and
returns what they lead to. -/
structure LookupOk (B : Backend ν σ) (t : MountTable ν) (path : CStr) (s : σ) : Prop where
  selects : Selects t path (bestMount t path vfsMaxMounts).1
  resolves : vfsLookup B.logged t path (s, []) =
    match (bestMount t path vfsMaxMounts).1 with
    | none => (none, s, [])
    | some i => resolve B.logged (t i).root (components slash (path.drop (t i).path.length)) (s, [])

/-! The condition for it. -/

/-- The path of mount `i` is a nonempty prefix of `path`, byte by byte. -/
def Prefixes (t : MountTable ν) (path : CStr) (i : Nat) : Prop :=
  (t i).used ∧ (t i).path ≠ [] ∧ (t i).path <+: path

instance : Decidable (Prefixes t path i) := inferInstanceAs (Decidable (_ ∧ _ ∧ _))

/-- The first of the longest of them. -/
def FirstLongest (t : MountTable ν) (path : CStr) (n i : Nat) : Prop :=
  i < n ∧ Prefixes t path i ∧
    (∀ j < n, Prefixes t path j → (t j).path.length ≤ (t i).path.length) ∧
    ∀ j < i, Prefixes t path j → (t j).path.length < (t i).path.length

/-- The longest prefix among the mount paths ends with a component; where there is none, there is
no mount with an empty path either that `path` would be under. -/
structure MountsClear (t : MountTable ν) (path : CStr) : Prop where
  boundary : ∀ i, FirstLongest t path vfsMaxMounts i → Under slash (t i).path path
  unnamed : (∀ i < vfsMaxMounts, ¬ Prefixes t path i) →
    ∀ i < vfsMaxMounts, (t i).used → (t i).path = [] → ¬ Under slash [] path

/-- No `finddir` is reached on a node that is not a directory. -/
def OnlyDirs (B : Backend ν σ) : ν → List CStr → σ → Prop
  | _, [], _ => True
  | node, c :: cs, s =>
    ∀ finddir, c.length ≤ 255 → B.finddir s node = some finddir →
      B.isDir s node ∧ ∀ next ∈ (finddir c).1, OnlyDirs B next cs (finddir c).2

/-! The loop over the mounts. -/

theorem strncmpEq_length : strncmpEq (t i).path path (t i).path.length = true ↔
    (t i).path <+: path := by
  unfold strncmpEq
  rw [decide_eq_true_iff, List.take_length, List.prefix_iff_eq_take]

theorem bestMount_succ : bestMount t path (n + 1) =
    if Prefixes t path n ∧ (bestMount t path n).2 < (t n).path.length then
      (some n, (t n).path.length)
    else bestMount t path n := by
  refine if_congr ?_ rfl rfl
  unfold Prefixes
  rw [strncmpEq_length, ne_eq, ← List.length_eq_zero_iff]
  constructor
  · rintro ⟨hused, hprefix, hlen⟩
    exact ⟨⟨hused, by omega, hprefix⟩, hlen⟩
  · rintro ⟨⟨hused, -, hprefix⟩, hlen⟩
    exact ⟨hused, hprefix, hlen⟩

/-- What the loop has found after `n` mounts. -/
theorem bestMount_cases (t : MountTable ν) (path : CStr) (n : Nat) :
    (bestMount t path n = (none, 0) ∧ ∀ i < n, ¬ Prefixes t path i) ∨
      ∃ i, bestMount t path n = (some i, (t i).path.length) ∧ FirstLongest t path n i := by
  induction n with
  | zero => exact Or.inl ⟨rfl, fun i hi => absurd hi (Nat.not_lt_zero i)⟩
  | succ n ih =>
    rw [bestMount_succ]
    rcases ih with ⟨hbest, hnone⟩ | ⟨i, hbest, hin, hi, hmax, hfirst⟩
    · rw [hbest]
      split
      case isTrue htake =>
        refine Or.inr ⟨n, rfl, Nat.lt_succ_self n, htake.1, ?_, ?_⟩
        · intro j hj hjp
          rcases Nat.lt_succ_iff_lt_or_eq.mp hj with hj | rfl
          · exact absurd hjp (hnone j hj)
          · exact Nat.le_refl _
        · exact fun j hj hjp => absurd hjp (hnone j hj)
      case isFalse hskip =>
        refine Or.inl ⟨rfl, ?_⟩
        intro j hj hjp
        rcases Nat.lt_succ_iff_lt_or_eq.mp hj with hj | rfl
        · exact hnone j hj hjp
        · exact hskip ⟨hjp, List.length_pos_iff.mpr hjp.2.1⟩
    · rw [hbest]
      split
      case isTrue htake =>
        obtain ⟨hn, hlonger⟩ := htake
        refine Or.inr ⟨n, rfl, Nat.lt_succ_self n, hn, ?_, ?_⟩
        · intro j hj hjp
          rcases Nat.lt_succ_iff_lt_or_eq.mp hj with hj | rfl
          · exact Nat.le_of_lt (Nat.lt_of_le_of_lt (hmax j hj hjp) hlonger)
          · exact Nat.le_refl _
        · exact fun j hj hjp => Nat.lt_of_le_of_lt (hmax j hj hjp) hlonger
      case isFalse hskip =>
        refine Or.inr ⟨i, rfl, by omega, hi, ?_, hfirst⟩
        intro j hj hjp
        rcases Nat.lt_succ_iff_lt_or_eq.mp hj with hj | rfl
        · exact hmax j hj hjp
        · exact Nat.le_of_not_lt fun hlt => hskip ⟨hjp, hlt⟩

theorem FirstLongest.unique (hi : FirstLongest t path n i) (hj : FirstLongest t path n j) :
    i = j := by
  obtain ⟨hin, hip, himax, hifirst⟩ := hi
  obtain ⟨hjn, hjp, hjmax, hjfirst⟩ := hj
  rcases Nat.lt_trichotomy i j with hlt | heq | hlt
  · have hless := hjfirst i hlt hip
    have hle := himax j hjn hjp
    omega
  · exact heq
  · have hless := hifirst j hlt hjp
    have hle := hjmax i hin hip
    omega

theorem bestMount_none (h : ∀ i < n, ¬ Prefixes t path i) : bestMount t path n = (none, 0) := by
  rcases bestMount_cases t path n with ⟨hbest, -⟩ | ⟨i, -, hi⟩
  · exact hbest
  · exact absurd hi.2.1 (h i hi.1)

theorem FirstLongest.bestMount (hi : FirstLongest t path n i) :
    bestMount t path n = (some i, (t i).path.length) := by
  rcases bestMount_cases t path n with ⟨-, hnone⟩ | ⟨j, hbest, hj⟩
  · exact absurd hi.2.1 (hnone i hi.1)
  · rw [hi.unique hj, hbest]

/-- A mount takes a free slot, or leaves the table alone. -/
theorem vfsMount_cases {registry : List (FsType ν σ)} {device fsname : CStr} {flags : BitVec 32}
    {result : Int} {t' : MountTable ν} {s' : σ}
    (h : vfsMount registry path device fsname flags t s = (result, t', s')) :
    (result < 0 ∧ t' = t) ∨ (result = 0 ∧ ∃ i < vfsMaxMounts, (t i).used = false ∧
      ∃ root, t' = Function.update t i ⟨path.take (vfsPathMax - 1), root, true⟩) := by
  unfold vfsMount at h
  cases hslot : (List.range vfsMaxMounts).find? fun i => !(t i).used with
  | none =>
    obtain ⟨rfl, rfl, -⟩ : _ ∧ _ ∧ _ := by simpa [hslot] using h
    exact Or.inl ⟨by decide, rfl⟩
  | some slot =>
    have hfree : (t slot).used = false := by simpa using List.find?_some hslot
    have hlt : slot < vfsMaxMounts := List.mem_range.mp (List.mem_of_find?_eq_some hslot)
    rw [hslot] at h
    dsimp only at h
    split at h
    · obtain ⟨rfl, rfl, -⟩ : _ ∧ _ ∧ _ := by simpa using h
      exact Or.inl ⟨by decide, rfl⟩
    · split at h
      · obtain ⟨rfl, rfl, -⟩ : _ ∧ _ ∧ _ := by simpa using h
        exact Or.inl ⟨by decide, rfl⟩
      · obtain ⟨rfl, rfl, -⟩ : _ ∧ _ ∧ _ := by simpa using h
        exact Or.inr ⟨rfl, slot, hlt, hfree, _, rfl⟩

/-! The path walk. -/

theorem skipSlashes_length_le : (skipSlashes rel).length ≤ rel.length :=
  List.length_dropWhile_le _ _

/-- Nothing but the end or a component follows the slashes. -/
theorem skipSlashes_head (h : skipSlashes rel = a :: as) : a ≠ slash := by
  have hhead := List.head?_dropWhile_not (· = slash) rel
  unfold skipSlashes at h
  rw [h] at hhead
  simpa using hhead

/-- The backend as the code sees it, which never asks whether a node is a directory. -/
def Backend.anyNode (B : Backend ν σ) : Backend ν σ := { B with isDir := fun _ _ => true }

theorem drop_component : rel.drop (rel.takeWhile (· ≠ slash)).length = rel.dropWhile (· ≠ slash) :=
  calc rel.drop (rel.takeWhile (· ≠ slash)).length
      = (rel.takeWhile (· ≠ slash) ++ rel.dropWhile (· ≠ slash)).drop
          (rel.takeWhile (· ≠ slash)).length := by rw [List.takeWhile_append_dropWhile]
    _ = rel.dropWhile (· ≠ slash) := List.drop_left

/-- The walk looks the components up in order. -/
theorem vfsWalk_eq (hn : rel.length ≤ n) (hhead : ∀ a as, rel = a :: as → a ≠ slash) :
    vfsWalk B n node rel s = resolve B.anyNode node (components slash rel) s := by
  induction n generalizing rel node s with
  | zero =>
    have hrel : rel = [] := List.length_eq_zero_iff.mp (by omega)
    rw [hrel, Path.components_nil]
    rfl
  | succ n ih =>
    cases rel with
    | nil =>
      rw [Path.components_nil]
      rfl
    | cons a rel =>
      have ha : a ≠ slash := hhead a rel rfl
      have hrest : (skipSlashes ((a :: rel).dropWhile (· ≠ slash))).length ≤ n := by
        refine skipSlashes_length_le.trans ?_
        rw [List.dropWhile_cons_of_pos (by simpa using ha)]
        have hle : (rel.dropWhile (· ≠ slash)).length ≤ rel.length := List.length_dropWhile_le _ _
        simp only [List.length_cons] at hn
        omega
      rw [Path.components_cons ha, ← Path.components_dropWhile]
      unfold vfsWalk resolve
      dsimp only
      rw [drop_component]
      by_cases hlong : 256 ≤ ((a :: rel).takeWhile (· ≠ slash)).length
      · rw [if_pos hlong, if_neg (by omega)]
      · rw [if_neg hlong, if_pos ⟨by omega, rfl⟩]
        change (match B.finddir s node with | none => _ | some finddir => _) =
          match B.finddir s node with | none => _ | some finddir => _
        cases B.finddir s node with
        | none => rfl
        | some finddir =>
          dsimp only
          rcases finddir ((a :: rel).takeWhile (· ≠ slash)) with ⟨_ | next, s'⟩
          · rfl
          · exact ih hrest fun _ _ => skipSlashes_head

theorem vfsLookup_none (h : ∀ i < vfsMaxMounts, ¬ Prefixes t path i) :
    vfsLookup B t path s = (none, s) := by
  unfold vfsLookup
  rw [bestMount_none h]

theorem vfsLookup_some (hi : FirstLongest t path vfsMaxMounts i) :
    vfsLookup B t path s =
      resolve B.anyNode (t i).root (components slash (path.drop (t i).path.length)) s := by
  unfold vfsLookup
  rw [hi.bestMount, ← Path.components_dropWhile (l := path.drop _)]
  exact vfsWalk_eq (Nat.le_refl _) fun _ _ => skipSlashes_head

/-! The calls of `finddir`. -/

theorem resolve_logged (hlen : c.length ≤ 255) : resolve B.logged node (c :: cs) (s, log) =
    if B.isDir s node then
      match B.finddir s node with
      | none => (none, s, log)
      | some finddir =>
        match finddir c with
        | (none, s) => (none, s, log ++ [(node, c)])
        | (some next, s) => resolve B.logged next cs (s, log ++ [(node, c)])
    else (none, s, log) := by
  rw [resolve]
  by_cases hdir : B.isDir s node = true
  · rw [if_pos ⟨hlen, hdir⟩, if_pos hdir]
    dsimp only [Backend.logged]
    cases B.finddir s node with
    | none => rfl
    | some finddir =>
      dsimp only [Option.map_some]
      rcases finddir c with ⟨_ | next, s'⟩
      · rfl
      · rfl
  · rw [if_neg (fun h => hdir h.2), if_neg hdir]

/-- A lookup only adds to the log. -/
theorem resolve_log (B : Backend ν σ) (node : ν) (cs : List CStr) (s : σ) (log : List (ν × CStr)) :
    ∃ calls, (resolve B.logged node cs (s, log)).2.2 = log ++ calls := by
  induction cs generalizing node s log with
  | nil => exact ⟨[], (List.append_nil log).symm⟩
  | cons c cs ih =>
    unfold resolve
    split
    case isFalse => exact ⟨[], (List.append_nil log).symm⟩
    case isTrue =>
      dsimp only [Backend.logged]
      cases B.finddir s node with
      | none => exact ⟨[], (List.append_nil log).symm⟩
      | some finddir =>
        dsimp only [Option.map_some]
        rcases finddir c with ⟨_ | next, s'⟩
        · exact ⟨[(node, c)], rfl⟩
        · obtain ⟨calls, hcalls⟩ := ih next s' (log ++ [(node, c)])
          refine ⟨(node, c) :: calls, ?_⟩
          rw [← List.append_cons] at hcalls
          exact hcalls

theorem resolve_log_ne {calls : List (ν × CStr)} (hne : calls ≠ []) :
    (resolve B.logged node cs (s, log ++ calls)).2.2 ≠ log := by
  obtain ⟨more, hmore⟩ := resolve_log B node cs s (log ++ calls)
  rw [hmore]
  intro heq
  have hlen := congrArg List.length heq
  simp only [List.length_append] at hlen
  have hpos := List.length_pos_iff.mpr hne
  omega

/-- A lookup that finds a node has looked every component up. -/
theorem resolve_some {found : ν} {s' : σ} {log' : List (ν × CStr)}
    (h : resolve B.logged node cs (s, log) = (some found, s', log')) :
    ∃ calls, log' = log ++ calls ∧ calls.map Prod.snd = cs ∧
      ∀ c ∈ cs.head?, c.length ≤ 255 ∧ calls.head? = some (node, c) := by
  induction cs generalizing node s log with
  | nil =>
    obtain ⟨-, -, rfl⟩ : _ ∧ _ ∧ _ := by simpa [resolve] using h
    exact ⟨[], (List.append_nil log).symm, rfl, by simp⟩
  | cons c cs ih =>
    by_cases hlen : c.length ≤ 255
    · rw [resolve_logged hlen] at h
      split at h
      case isFalse => simp at h
      case isTrue =>
        cases hfind : B.finddir s node with
        | none => simp [hfind] at h
        | some finddir =>
          rw [hfind] at h
          dsimp only at h
          rcases hc : finddir c with ⟨_ | next, s₁⟩
          · simp [hc] at h
          · rw [hc] at h
            obtain ⟨calls, rfl, hcalls, -⟩ := ih h
            refine ⟨(node, c) :: calls, by simp, by simp [hcalls], ?_⟩
            intro c' hc'
            obtain rfl : c = c' := by simpa using hc'
            exact ⟨hlen, rfl⟩
    · unfold resolve at h
      simp [hlen] at h

/-- A lookup that makes the one call for `n` on `start`. -/
theorem resolve_one_call {start found : ν} {s' : σ} :
    resolve B.anyNode.logged node cs (s, []) = (some found, s', [(start, c)]) ↔
      (node = start ∧ cs = [c] ∧ c.length ≤ 255) ∧
        ∃ finddir, B.finddir s node = some finddir ∧ finddir c = (some found, s') := by
  constructor
  · intro h
    obtain ⟨calls, hcalls, hcs, hhead⟩ := resolve_some h
    rw [List.nil_append] at hcalls
    obtain rfl : [c] = cs := by rw [← hcs, ← hcalls]; rfl
    obtain ⟨hlen, hfirst⟩ := hhead c rfl
    obtain rfl : start = node := by
      rw [← hcalls] at hfirst
      simpa using hfirst
    refine ⟨⟨rfl, rfl, hlen⟩, ?_⟩
    have hany : B.anyNode.isDir s start = true := rfl
    rw [resolve_logged hlen, if_pos hany] at h
    change (match B.finddir s start with | none => _ | some finddir => _) = _ at h
    cases hfind : B.finddir s start with
    | none => simp [hfind] at h
    | some finddir =>
      rw [hfind] at h
      dsimp only at h
      rcases hc : finddir c with ⟨_ | next, s₁⟩
      · simp [hc] at h
      · rw [hc] at h
        obtain ⟨rfl, rfl⟩ : _ ∧ _ := by simpa [resolve] using h
        exact ⟨finddir, rfl, hc⟩
  · rintro ⟨⟨rfl, rfl, hlen⟩, finddir, hfind, hc⟩
    have hany : B.anyNode.isDir s node = true := rfl
    rw [resolve_logged hlen, if_pos hany]
    change (match B.finddir s node with | none => _ | some finddir => _) = _
    rw [hfind]
    dsimp only
    rw [hc]
    rfl

theorem onlyDirs_cons {finddir : CStr → Option ν × σ} (hlen : c.length ≤ 255)
    (hfind : B.finddir s node = some finddir) : OnlyDirs B node (c :: cs) s ↔
      B.isDir s node ∧ ∀ next ∈ (finddir c).1, OnlyDirs B next cs (finddir c).2 := by
  constructor
  · exact fun h => h finddir hlen hfind
  · intro h finddir' _ hfind'
    rw [Option.some.inj (hfind'.symm.trans hfind)]
    exact h

/-- Asking for directories makes no difference just when no other node is reached. -/
theorem resolve_anyNode_iff : resolve B.anyNode.logged node cs (s, log) =
    resolve B.logged node cs (s, log) ↔ OnlyDirs B node cs s := by
  induction cs generalizing node s log with
  | nil => exact iff_of_true rfl trivial
  | cons c cs ih =>
    by_cases hlen : c.length ≤ 255
    · have hany : B.anyNode.isDir s node = true := rfl
      rw [resolve_logged hlen, resolve_logged hlen, if_pos hany]
      change (match B.finddir s node with | none => _ | some finddir => _) = _ ↔ _
      cases hfind : B.finddir s node with
      | none =>
        refine iff_of_true (by simp) ?_
        intro finddir _ hsome
        simp [hfind] at hsome
      | some finddir =>
        rw [onlyDirs_cons hlen hfind]
        by_cases hdir : B.isDir s node = true
        · rw [if_pos hdir, and_iff_right hdir]
          dsimp only
          rcases finddir c with ⟨_ | next, s'⟩
          · exact iff_of_true rfl (fun next hnext => by simp at hnext)
          · simpa using ih
        · rw [if_neg hdir]
          refine iff_of_false ?_ (fun h => hdir h.1)
          dsimp only
          rcases finddir c with ⟨_ | next, s'⟩
          · simp
          · intro heq
            exact resolve_log_ne (List.cons_ne_nil _ _) (congrArg (fun r => r.2.2) heq)
    · refine iff_of_true ?_ (fun _ hle => absurd hle hlen)
      unfold resolve
      rw [if_neg (fun h => hlen h.1), if_neg (fun h => hlen h.1)]

/-! The right mount. -/

theorem prefixes_of_under (hused : (t i).used) (hne : (t i).path ≠ [])
    (hunder : Under slash (t i).path path) : Prefixes t path i := ⟨hused, hne, hunder.1⟩

theorem selects_iff : Selects t path (bestMount t path vfsMaxMounts).1 ↔ MountsClear t path := by
  rcases bestMount_cases t path vfsMaxMounts with ⟨hbest, hnone⟩ | ⟨i, hbest, hi⟩
  · rw [hbest]
    constructor
    · intro h
      refine ⟨fun i hi => absurd hi.2.1 (hnone i hi.1), fun _ i hi hused hempty => ?_⟩
      exact hempty ▸ h i hi hused
    · intro h i hi hused hunder
      by_cases hempty : (t i).path = []
      · exact h.unnamed hnone i hi hused hempty (hempty ▸ hunder)
      · exact hnone i hi (prefixes_of_under hused hempty hunder)
  · rw [hbest]
    constructor
    · intro h
      refine ⟨fun j hj => hj.unique hi ▸ h.2.2.1, fun hnone => ?_⟩
      exact absurd hi.2.1 (hnone i hi.1)
    · intro h
      refine ⟨hi.1, hi.2.1.1, h.boundary i hi, fun j hj hused hunder => ?_⟩
      by_cases hempty : (t j).path = []
      · rw [hempty]
        exact Nat.zero_le _
      · exact hi.2.2.1 j hj (prefixes_of_under hused hempty hunder)

/-- A lookup goes as the path says just when the longest mount path that is a prefix of the path
ends with a component of it, and no component is looked up in a node that is not a directory. -/
theorem vfsLookup_iff (B : Backend ν σ) (t : MountTable ν) (path : CStr) (s : σ) :
    LookupOk B t path s ↔ MountsClear t path ∧ ∀ i, FirstLongest t path vfsMaxMounts i →
      OnlyDirs B (t i).root (components slash (path.drop (t i).path.length)) s := by
  rw [← selects_iff]
  rcases bestMount_cases t path vfsMaxMounts with ⟨hbest, hnone⟩ | ⟨i, hbest, hi⟩
  · constructor
    · exact fun h => ⟨h.selects, fun i hi => absurd hi.2.1 (hnone i hi.1)⟩
    · refine fun h => ⟨h.1, ?_⟩
      rw [hbest]
      exact vfsLookup_none hnone
  · have hlookup : vfsLookup B.logged t path (s, []) =
        resolve B.anyNode.logged (t i).root
          (components slash (path.drop (t i).path.length)) (s, []) := vfsLookup_some hi
    constructor
    · intro h
      refine ⟨h.selects, fun j hj => ?_⟩
      have hresolves := h.resolves
      rw [hbest, hlookup] at hresolves
      exact hj.unique hi ▸ resolve_anyNode_iff.mp hresolves
    · refine fun h => ⟨h.1, ?_⟩
      rw [hbest, hlookup]
      exact resolve_anyNode_iff.mpr (h.2 i hi)

/-- A root file system, and devices below `/dev`. -/
def devMounts : MountTable Bool := fun i =>
  if i = 0 then ⟨cstr ['/'], false, true⟩
  else if i = 1 then ⟨cstr ['/', 'd', 'e', 'v'], true, true⟩
  else ⟨[], false, false⟩

/-- Directories without entries. -/
def emptyDirs : Backend Bool Unit := ⟨fun _ _ => true, fun _ _ => some fun _ => (none, ())⟩

/-- A name that starts with the name of a mount is looked up there. -/
theorem not_lookupOk_device :
    ¬ LookupOk emptyDirs devMounts (cstr ['/', 'd', 'e', 'v', 'i', 'c', 'e']) () := by
  intro h
  have hbest : bestMount devMounts (cstr ['/', 'd', 'e', 'v', 'i', 'c', 'e']) vfsMaxMounts =
      (some 1, 4) := by decide
  have hselects := h.selects
  rw [hbest] at hselects
  exact absurd hselects.2.2.1 (by decide)

end PinguinOS.Fs
