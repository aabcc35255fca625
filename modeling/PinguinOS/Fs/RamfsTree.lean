import PinguinOS.Fs.Listing
import PinguinOS.Lib.SiblingTree
import PinguinOS.Mm.HeapKeeps

/-! The tree of ramfs: nodes in the kernel heap, linked by children, siblings and parents. -/
namespace PinguinOS.Fs

open Linked SiblingTree
open Mm (Heap HeapCall HeapOk kzalloc kfree headerSize maxRequest)

/-- What the operations on directories use of a `ramfs_node_t`; pointers are addresses. -/
structure RamfsEntry where
  name : CStr
  inodeNum : BitVec 32
  flags : BitVec 32
  fsData : Nat
  data : Nat
  children : Nat
  siblings : Nat
  parent : Nat

/-- `sizeof(ramfs_node_t)` -/
def sizeofRamfsNode : Nat := 328

/-- The heap, the nodes by address, `ramfs_inode_counter`, the node that `ramfs_mount` returned,
and the nodes that were allocated and not freed. -/
structure RamfsTree where
  heap : Heap
  entry : Nat → RamfsEntry
  counter : BitVec 32
  root : Nat
  live : List Nat

def RamfsTree.set (s : RamfsTree) (a : Nat) (e : RamfsEntry) : RamfsTree :=
  { s with entry := Function.update s.entry a e }

def ramfsNewNode (s : RamfsTree) (name : CStr) (flags : BitVec 32) :
    Option (Nat × RamfsTree) := do
  let (n, heap) ← kzalloc s.heap sizeofRamfsNode
  if n = 0 then some (0, { s with heap := heap })
  else some (n, { s with
    heap := heap
    entry := Function.update s.entry n
      { name := name.take 255, inodeNum := s.counter, flags := flags, fsData := n,
        data := 0, children := 0, siblings := 0, parent := 0 }
    counter := s.counter + 1
    live := n :: s.live })

/-- `struct vfs_dirent` -/
structure RamfsDirent where
  name : CStr
  inodeNum : BitVec 32
  type : BitVec 8

/-- `while (cur && index--) cur = cur->siblings;` -/
def RamfsTree.skip (s : RamfsTree) : (index : Nat) → (cur : Nat) → Nat
  | 0, cur => cur
  | index + 1, cur => if cur = 0 then 0 else s.skip index (s.entry cur).siblings

def RamfsTree.dirent (s : RamfsTree) (rest : CStr) (cur : Nat) : RamfsDirent where
  name := direntName (s.entry cur).name rest
  inodeNum := (s.entry cur).inodeNum
  type := (s.entry cur).flags.setWidth 8

/-- `ramfs_readdir`; `rest` is what the buffer of the caller holds after 255 bytes. -/
def RamfsTree.readdir (s : RamfsTree) (node index : Nat) (rest : CStr) : Option RamfsDirent :=
  let rn := (s.entry node).fsData
  if index = 0 then some ⟨cstr ['.'], (s.entry node).inodeNum, vfsDir.setWidth 8⟩
  else if index = 1 then
    let up := (s.entry rn).parent
    some ⟨cstr ['.', '.'], if up = 0 then 1 else (s.entry up).inodeNum, vfsDir.setWidth 8⟩
  else
    let cur := s.skip (index - 2) (s.entry rn).children
    if cur = 0 then none else some (s.dirent rest cur)

/-- More nodes than there are addresses. -/
def maxNodes : Nat := 2 ^ 32

/-- The loops of `ramfs_finddir` and `ramfs_unlink`, for less than `fuel` nodes: the node with the
name, or NULL, and the node before it. -/
def RamfsTree.search (s : RamfsTree) (name : CStr) :
    (fuel : Nat) → (prev : Option Nat) → (cur : Nat) → Option (Option Nat × Nat)
  | 0, _, _ => none
  | fuel + 1, prev, cur =>
    if cur = 0 then some (prev, 0)
    else if (s.entry cur).name = name then some (prev, cur)
    else s.search name fuel (some cur) (s.entry cur).siblings

def RamfsTree.finddir (s : RamfsTree) (node : Nat) (name : CStr) : Option Nat :=
  (s.search name maxNodes none (s.entry (s.entry node).fsData).children).map Prod.snd

/-- `ramfs_mkdir` links the new node in front of the children of `prn`. -/
def RamfsTree.addChild (s : RamfsTree) (prn dir : Nat) : RamfsTree :=
  let s := s.set dir { s.entry dir with parent := prn }
  let s := s.set dir { s.entry dir with siblings := (s.entry prn).children }
  s.set prn { s.entry prn with children := dir }

def RamfsTree.mkdir (s : RamfsTree) (parent : Nat) (name : CStr) : Option (Int × RamfsTree) := do
  let prn := (s.entry parent).fsData
  let (dir, s) ← ramfsNewNode s name vfsDir
  if dir = 0 then some (-1, s)
  else some (0, s.addChild prn dir)

/-- `*pp = x`, where `pp` points to a link of `prev`, or to the children of `prn`. -/
def RamfsTree.setLink (s : RamfsTree) (prn : Nat) (prev : Option Nat) (x : Nat) : RamfsTree :=
  match prev with
  | none => s.set prn { s.entry prn with children := x }
  | some b => s.set b { s.entry b with siblings := x }

def RamfsTree.unlink (s : RamfsTree) (parent : Nat) (name : CStr) : Option (Int × RamfsTree) := do
  let prn := (s.entry parent).fsData
  let (prev, del) ← s.search name maxNodes none (s.entry prn).children
  if del = 0 then some (-1, s)
  else
    let s := s.setLink prn prev (s.entry del).siblings
    let heap ← kfree s.heap (s.entry del).data
    let heap ← kfree heap del
    some (0, { s with heap := heap, live := s.live.filter fun a => a ≠ del })

/-- `ramfs_mount`; `none` also where there is no memory for the root. -/
def ramfsMount (heap : Heap) (entry : Nat → RamfsEntry) (counter : BitVec 32) :
    Option RamfsTree := do
  let (root, s) ← ramfsNewNode ⟨heap, entry, counter, 0, []⟩ (cstr ['/']) vfsDir
  if root = 0 then none else some { s with root := root }

/-- Calls with a node of the file system, and what other code does with the heap. -/
inductive RamfsOp
  | mkdir (parent : Nat) (name : CStr)
  | unlink (parent : Nat) (name : CStr)
  | finddir (node : Nat) (name : CStr)
  | readdir (node index : Nat)
  | heap (call : HeapCall)

/-- Other code passes pointers of its own, and sizes that leave room for the header. -/
def RamfsTree.Others (s : RamfsTree) (call : HeapCall) : Prop :=
  s.heap.Allowed call ∧ call.size ≤ maxRequest ∧ call.pointer ∉ s.live

instance RamfsTree.decidableOthers {s : RamfsTree} {call : HeapCall} : Decidable (s.Others call) :=
  inferInstanceAs (Decidable (_ ∧ _ ∧ _))

def RamfsTree.step (s : RamfsTree) : RamfsOp → Option RamfsTree
  | .mkdir parent name => if parent ∈ s.live then (s.mkdir parent name).map Prod.snd else none
  | .unlink parent name => if parent ∈ s.live then (s.unlink parent name).map Prod.snd else none
  | .finddir node name => if node ∈ s.live then (s.finddir node name).map fun _ => s else none
  | .readdir node _ => if node ∈ s.live then some s else none
  | .heap call =>
    if s.Others call then (s.heap.exec call).map fun r => { s with heap := r.2 } else none

def RamfsTree.links (s : RamfsTree) : Links Nat where
  children a := (s.entry a).children
  siblings a := (s.entry a).siblings
  parent a := (s.entry a).parent

def RamfsTree.Live (s : RamfsTree) (a : Nat) : Prop := a ∈ s.live

/-- Children of one directory have different names. -/
def RamfsTree.NamesApart (s : RamfsTree) : Prop :=
  ∀ a ∈ s.live, ∀ b ∈ s.live, (s.entry a).parent = (s.entry b).parent →
    (s.entry a).name = (s.entry b).name → a = b

/-- What the operations on directories may rely on. -/
structure RamfsTree.Intact (s : RamfsTree) : Prop where
  names : s.NamesApart
  /-- The links lead from the root to each allocated node in exactly one way. -/
  once : ∀ a ∈ s.live, ∃! w, Walk 0 s.root s.links a w
  inside : ∀ a w, Walk 0 s.root s.links a w → a ∈ s.live
  /-- From index 2 on, `readdir` lists each node whose parent pointer is `d` once. -/
  listed : ∀ d ∈ s.live, ∃ l : List Nat, l.Nodup ∧
    (∀ c, c ∈ l ↔ c ∈ s.live ∧ (s.entry c).parent = d) ∧
      ∀ i rest, s.readdir d (i + 2) rest = l[i]?.map (s.dirent rest)
  found : ∀ d ∈ s.live, ∀ name, ∃ c, s.finddir d name = some c ∧
    (c = 0 ∧ (∀ x ∈ s.live, (s.entry x).parent = d → (s.entry x).name ≠ name) ∨
      c ∈ s.live ∧ (s.entry c).parent = d ∧ (s.entry c).name = name)

/-- A new directory gets a name that no other one in its parent has, and what is unlinked has no
children. -/
def RamfsTree.Careful (s : RamfsTree) : RamfsOp → Prop
  | .mkdir parent name => ∀ dir t, ramfsNewNode s name vfsDir = some (dir, t) → dir ≠ 0 →
    ∀ c ∈ s.live, (s.entry c).parent = parent → (s.entry c).name ≠ name.take 255
  | .unlink parent name => ∀ del, s.finddir parent name = some del → del ≠ 0 →
    (s.entry del).children = 0
  | _ => True

structure RamfsTree.Sound (s : RamfsTree) : Prop where
  heap : HeapOk (· ≤ ·) s.heap
  blocks : ∀ a ∈ s.live, s.heap.Live a
  self : ∀ a ∈ s.live, (s.entry a).fsData = a
  empty : ∀ a ∈ s.live, (s.entry a).data = 0
  kept : Kept 0 s.root s.links s.Live

variable {s t : RamfsTree} {op : RamfsOp} {a cur d node parent p index fuel : Nat}
  {prev : Option Nat} {l : List Nat} {name rest : CStr} {flags : BitVec 32} {heap : Heap}

/-! The loops over the children of a directory. -/

theorem RamfsTree.Sound.ne_zero (hs : s.Sound) (ha : a ∈ s.live) : a ≠ 0 := by
  obtain ⟨b, -, -, rfl⟩ := hs.blocks a ha
  unfold headerSize
  omega

/-- The list of a directory is shorter than what the loops allow. -/
theorem RamfsTree.Sound.length_lt (hs : s.Sound) (hnodup : l.Nodup) (hl : ∀ c ∈ l, c ∈ s.live) :
    l.length < maxNodes := by
  have hsub : l ⊆ List.range Mm.kheapMax := by
    intro c hc
    obtain ⟨b, hb, -, rfl⟩ := hs.blocks c (hl c hc)
    have hbounds := (hs.heap.bounds hb).2
    have hlimit := hs.heap.limit
    have hpage := hs.heap.page
    unfold Mm.Block.stop at hbounds
    unfold Mm.kheapMax at hlimit
    rw [List.mem_range]
    unfold Mm.kheapMax
    omega
  have hle := hnodup.length_le_of_subset hsub
  rw [List.length_range] at hle
  unfold maxNodes
  unfold Mm.kheapMax at hle
  omega

theorem skip_chain (hchain : Chain 0 s.links.siblings cur l) :
    s.skip index cur = (l[index]?).getD 0 := by
  induction index generalizing cur l with
  | zero =>
    cases l with
    | nil => exact hchain
    | cons c l => exact hchain.1
  | succ index ih =>
    cases l with
    | nil =>
      obtain rfl : cur = 0 := hchain
      rfl
    | cons c l =>
      obtain ⟨rfl, hne, hrest⟩ := hchain
      unfold RamfsTree.skip
      rw [if_neg hne, List.getElem?_cons_succ]
      exact ih hrest

/-- The search finds the first node with the name, and the node before it. -/
theorem search_chain (hchain : Chain 0 s.links.siblings cur l) (hfuel : l.length < fuel) :
    ((∀ c ∈ l, (s.entry c).name ≠ name) ∧ ∃ b, s.search name fuel prev cur = some (b, 0)) ∨
      ∃ xs x ys, l = xs ++ x :: ys ∧ (s.entry x).name = name ∧
        s.search name fuel prev cur = some (xs.getLast?.or prev, x) := by
  induction l generalizing fuel prev cur with
  | nil =>
    obtain rfl : cur = 0 := hchain
    obtain ⟨fuel, rfl⟩ := Nat.exists_eq_succ_of_ne_zero (Nat.ne_zero_of_lt hfuel)
    exact Or.inl ⟨fun c hc => absurd hc List.not_mem_nil, prev, rfl⟩
  | cons c l ih =>
    obtain ⟨rfl, hne, hrest⟩ := hchain
    obtain ⟨fuel, rfl⟩ := Nat.exists_eq_succ_of_ne_zero (Nat.ne_zero_of_lt hfuel)
    have hshort : l.length < fuel := Nat.lt_of_succ_lt_succ hfuel
    unfold RamfsTree.search
    rw [if_neg hne]
    split_ifs with hname
    · exact Or.inr ⟨[], cur, l, rfl, hname, rfl⟩
    · rcases ih hrest hshort with ⟨hnone, b, hb⟩ | ⟨xs, x, ys, rfl, hx, hfound⟩
      · refine Or.inl ⟨?_, b, hb⟩
        intro e he
        rcases List.mem_cons.mp he with rfl | he
        · exact hname
        · exact hnone e he
      · refine Or.inr ⟨cur :: xs, x, ys, rfl, hx, ?_⟩
        refine hfound.trans ?_
        rw [List.getLast?_cons]
        cases xs.getLast? with
        | none => rfl
        | some b => rfl

theorem RamfsTree.Sound.readdir_eq (hs : s.Sound) (hd : d ∈ s.live)
    (hchain : Chain 0 s.links.siblings (s.links.children d) l) :
    s.readdir d (index + 2) rest = l[index]?.map (s.dirent rest) := by
  unfold RamfsTree.readdir
  dsimp only
  have hskip : s.skip (index + 2 - 2) (s.entry (s.entry d).fsData).children =
      (l[index]?).getD 0 := by
    rw [hs.self d hd]
    exact skip_chain hchain
  rw [if_neg (Nat.succ_ne_zero _), if_neg (by omega), hskip]
  cases hget : l[index]? with
  | none => rfl
  | some c =>
    have hne := hchain.ne_null (List.mem_of_getElem? hget)
    exact if_neg hne

theorem RamfsTree.Sound.search_eq (hs : s.Sound) (hd : d ∈ s.live) :
    ∃ l, Chain 0 s.links.siblings (s.links.children d) l ∧
      (∀ c, c ∈ l ↔ c ∈ s.live ∧ (s.entry c).parent = d) ∧
      (((∀ c ∈ l, (s.entry c).name ≠ name) ∧
          ∃ b, s.search name maxNodes none (s.entry (s.entry d).fsData).children = some (b, 0)) ∨
        ∃ xs x ys, l = xs ++ x :: ys ∧ (s.entry x).name = name ∧
          s.search name maxNodes none (s.entry (s.entry d).fsData).children =
            some (xs.getLast?, x)) := by
  obtain ⟨l, hchain, hmem⟩ := hs.kept.kids d hd
  have hlt := hs.length_lt hchain.nodup fun c hc => ((hmem c).mp hc).1
  refine ⟨l, hchain, hmem, ?_⟩
  rw [hs.self d hd]
  rcases @search_chain s _ maxNodes none l name hchain hlt with hnone | ⟨xs, x, ys, hl, hx, hfound⟩
  · exact Or.inl hnone
  · refine Or.inr ⟨xs, x, ys, hl, hx, hfound.trans ?_⟩
    rw [Option.or_none]

/-- The state is intact exactly when the names are and each node is below the root. -/
theorem RamfsTree.Sound.intact_iff (hs : s.Sound) :
    s.Intact ↔ s.NamesApart ∧ Tree 0 s.root s.links s.Live := by
  constructor
  · intro h
    refine ⟨h.names, hs.kept.tree ?_⟩
    intro a ha
    exact (h.once a ha).exists
  · rintro ⟨hnames, htree⟩
    constructor
    case names => exact hnames
    case once => exact fun a ha => htree.once ha
    case inside => exact fun a w hw => (hw.under hs.kept).isLive hs.kept
    case listed =>
      intro d hd
      obtain ⟨l, hchain, hmem⟩ := hs.kept.kids d hd
      exact ⟨l, hchain.nodup, hmem, fun i rest => hs.readdir_eq hd hchain⟩
    case found =>
      intro d hd name
      unfold RamfsTree.finddir
      obtain ⟨l, -, hmem, ⟨hnone, b, heq⟩ | ⟨xs, x, ys, rfl, hx, heq⟩⟩ := @hs.search_eq s d name hd
      · rw [heq]
        exact ⟨0, rfl, Or.inl ⟨rfl, fun c hc hup => hnone c ((hmem c).mpr ⟨hc, hup⟩)⟩⟩
      · rw [heq]
        obtain ⟨hlive, hup⟩ := (hmem x).mp (List.mem_append_right _ List.mem_cons_self)
        exact ⟨x, rfl, Or.inr ⟨hlive, hup, hx⟩⟩

/-! Steps. -/

/-- Only the heap changes, and the nodes stay live. -/
theorem RamfsTree.Sound.withHeap (hs : s.Sound) (hok : HeapOk (· ≤ ·) heap)
    (hlive : ∀ a ∈ s.live, heap.Live a) : RamfsTree.Sound { s with heap := heap } :=
  ⟨hok, hlive, hs.self, hs.empty, hs.kept⟩

/-- A heap call for other memory. -/
theorem RamfsTree.Sound.exec {call : HeapCall} (hs : s.Sound) (hlt : call.size ≤ maxRequest)
    (hallowed : s.heap.Allowed call) (hother : call.pointer ∉ s.live)
    (hexec : s.heap.exec call = some (p, heap)) :
    HeapOk (· ≤ ·) heap ∧ ∀ a ∈ s.live, heap.Live a := by
  refine ⟨hs.heap.exec hlt (Or.inl fun _ _ hle => hle) hexec, ?_⟩
  intro a ha
  refine (hs.blocks a ha).exec hs.heap hlt hallowed ?_ hexec
  rintro rfl
  exact hother ha

/-- The node that `ramfs_new_node` writes. -/
def RamfsTree.fresh (s : RamfsTree) (name : CStr) (flags : BitVec 32) (n : Nat) : RamfsEntry where
  name := name.take 255
  inodeNum := s.counter
  flags := flags
  fsData := n
  data := 0
  children := 0
  siblings := 0
  parent := 0

/-- The state after `ramfs_new_node`, with the node `n`. -/
def RamfsTree.withNode (s : RamfsTree) (heap : Heap) (name : CStr) (flags : BitVec 32) (n : Nat) :
    RamfsTree :=
  { s with
    heap := heap
    entry := Function.update s.entry n (s.fresh name flags n)
    counter := s.counter + 1
    live := n :: s.live }

theorem newNode_cases (hs : s.Sound) (hnew : ramfsNewNode s name flags = some (p, t)) :
    ∃ heap, HeapOk (· ≤ ·) heap ∧ (∀ a ∈ s.live, heap.Live a) ∧
      (p = 0 ∧ t = { s with heap := heap } ∨ p ≠ 0 ∧ p ∉ s.live ∧ heap.Live p ∧
        t = s.withNode heap name flags p) := by
  obtain ⟨⟨n, heap⟩, halloc, hrest⟩ := Option.bind_eq_some_iff.mp hnew
  have hlt : (HeapCall.kzalloc sizeofRamfsNode).size ≤ maxRequest := by decide
  have hnull : (HeapCall.kzalloc sizeofRamfsNode).pointer ∉ s.live := fun h => hs.ne_zero h rfl
  obtain ⟨hok, hlive⟩ := hs.exec hlt trivial hnull halloc
  refine ⟨heap, hok, hlive, ?_⟩
  dsimp only at hrest
  split_ifs at hrest with hzero
  · cases hrest
    exact Or.inl ⟨rfl, rfl⟩
  · cases hrest
    rcases Mm.kzalloc_fresh hs.heap (by decide) hlt halloc with h0 | ⟨hp, hnot⟩
    · exact absurd h0 hzero
    · exact Or.inr ⟨hzero, fun h => hnot (hs.blocks p h), hp, rfl⟩

theorem links_set {e : RamfsEntry} : (s.set a e).links =
    ⟨Function.update s.links.children a e.children, Function.update s.links.siblings a e.siblings,
      Function.update s.links.parent a e.parent⟩ := by
  have hchildren := Function.comp_update RamfsEntry.children s.entry a e
  have hsiblings := Function.comp_update RamfsEntry.siblings s.entry a e
  have hparent := Function.comp_update RamfsEntry.parent s.entry a e
  show Links.mk (RamfsEntry.children ∘ Function.update s.entry a e)
    (RamfsEntry.siblings ∘ Function.update s.entry a e)
    (RamfsEntry.parent ∘ Function.update s.entry a e) = _
  rw [hchildren, hsiblings, hparent]
  rfl

theorem addChild_links (hne : d ≠ p) : (s.addChild d p).links = s.links.push d p := by
  unfold RamfsTree.addChild Links.push
  dsimp only
  rw [links_set, links_set, links_set]
  have hchildren : s.links.children = fun a => (s.entry a).children := rfl
  have hsiblings : s.links.siblings = fun a => (s.entry a).siblings := rfl
  have hparent : s.links.parent = fun a => (s.entry a).parent := rfl
  congr 1
  · funext a
    simp only [hchildren, RamfsTree.set, Function.update]
    grind
  · funext a
    simp only [hsiblings, hchildren, RamfsTree.set, Function.update]
    grind
  · funext a
    simp only [hparent, RamfsTree.set, Function.update]
    grind

/-- The other fields of all nodes are the same. -/
theorem addChild_entry : ((s.addChild d p).entry a).name = (s.entry a).name ∧
    ((s.addChild d p).entry a).fsData = (s.entry a).fsData ∧
      ((s.addChild d p).entry a).data = (s.entry a).data := by
  simp only [RamfsTree.addChild, RamfsTree.set, Function.update]
  grind

/-- `t` has the new child `p` of `parent`, and the names and parents of `s`. -/
structure RamfsTree.Added (s t : RamfsTree) (parent p : Nat) (name : CStr) : Prop where
  new : p ∉ s.live
  live : ∀ a, a ∈ t.live ↔ a = p ∨ a ∈ s.live
  name : (t.entry p).name = name.take 255
  parent : (t.entry p).parent = parent
  names : ∀ a ∈ s.live, (t.entry a).name = (s.entry a).name
  parents : ∀ a ∈ s.live, (t.entry a).parent = (s.entry a).parent

/-- The names stay apart exactly when no other child has the new name. -/
theorem RamfsTree.Added.namesApart_iff (h : s.Added t parent p name) (hnames : s.NamesApart) :
    t.NamesApart ↔ ∀ c ∈ s.live, (s.entry c).parent = parent →
      (s.entry c).name ≠ name.take 255 := by
  constructor
  · intro hapart c hc hup heq
    have hcp : c = p := by
      refine hapart c ((h.live c).mpr (Or.inr hc)) p ((h.live p).mpr (Or.inl rfl)) ?_ ?_
      · rw [h.parents c hc, h.parent, hup]
      · rw [h.names c hc, h.name, heq]
    exact h.new (hcp ▸ hc)
  · intro hother a ha b hb hparents heq
    rcases (h.live a).mp ha with hap | haold
    · rw [hap] at hparents heq ⊢
      rcases (h.live b).mp hb with hbp | hbold
      · exact hbp.symm
      · rw [h.parent, h.parents b hbold] at hparents
        rw [h.name, h.names b hbold] at heq
        exact absurd heq.symm (hother b hbold hparents.symm)
    · rw [h.parents a haold] at hparents
      rw [h.names a haold] at heq
      rcases (h.live b).mp hb with hbp | hbold
      · rw [hbp, h.parent] at hparents
        rw [hbp, h.name] at heq
        exact absurd heq (hother a haold hparents)
      · rw [h.parents b hbold] at hparents
        rw [h.names b hbold] at heq
        exact hnames a haold b hbold hparents heq

theorem withNode_self : (s.withNode heap name flags p).entry p = s.fresh name flags p :=
  Function.update_self _ _ _

theorem withNode_old (hne : a ≠ p) : (s.withNode heap name flags p).entry a = s.entry a :=
  Function.update_of_ne hne _ _

theorem mem_withNode : a ∈ ((s.withNode heap name flags p).addChild d p).live ↔
    a = p ∨ a ∈ s.live :=
  List.mem_cons

theorem added_withNode (hparent : parent ∈ s.live) (hout : p ∉ s.live) :
    s.Added ((s.withNode heap name flags p).addChild parent p) parent p name := by
  have hne : ∀ a ∈ s.live, a ≠ p := fun a ha heq => hout (heq ▸ ha)
  have hlinks := @addChild_links (s.withNode heap name flags p) parent p (hne parent hparent)
  constructor
  case new => exact hout
  case live => exact fun a => mem_withNode
  case name =>
    rw [addChild_entry.1, withNode_self]
    rfl
  case parent =>
    show ((s.withNode heap name flags p).addChild parent p).links.parent p = parent
    rw [hlinks]
    exact Function.update_self _ _ _
  case names =>
    intro a ha
    rw [addChild_entry.1, withNode_old (hne a ha)]
  case parents =>
    intro a ha
    show ((s.withNode heap name flags p).addChild parent p).links.parent a = (s.entry a).parent
    rw [hlinks]
    refine (Function.update_of_ne (hne a ha) _ _).trans ?_
    exact congrArg RamfsEntry.parent (withNode_old (hne a ha))

/-- The links of the new child keep the tree. -/
theorem tree_withNode (htree : Tree 0 s.root s.links s.Live) (hparent : parent ∈ s.live)
    (hp : p ≠ 0) (hout : p ∉ s.live) :
    Tree 0 ((s.withNode heap name flags p).addChild parent p).root
      ((s.withNode heap name flags p).addChild parent p).links
      ((s.withNode heap name flags p).addChild parent p).Live := by
  have hne : ∀ a ∈ s.live, a ≠ p := fun a ha heq => hout (heq ▸ ha)
  have hsame : ∀ a, s.Live a →
      (s.withNode heap name flags p).links.children a = s.links.children a ∧
      (s.withNode heap name flags p).links.siblings a = s.links.siblings a ∧
      (s.withNode heap name flags p).links.parent a = s.links.parent a := by
    intro a ha
    have hold := @withNode_old s a p name flags heap (hne a ha)
    exact ⟨congrArg RamfsEntry.children hold, congrArg RamfsEntry.siblings hold,
      congrArg RamfsEntry.parent hold⟩
  have hleaf : (s.withNode heap name flags p).links.children p = 0 :=
    congrArg RamfsEntry.children withNode_self
  have hLive : ((s.withNode heap name flags p).addChild parent p).Live =
      fun a => a = p ∨ s.Live a := by
    funext a
    exact propext mem_withNode
  rw [hLive, addChild_links (hne parent hparent)]
  exact (htree.congr hsame).push hparent hout hp hleaf

theorem RamfsTree.Sound.addChild (hs : s.Sound) (hok : HeapOk (· ≤ ·) heap)
    (hlive : ∀ a ∈ s.live, heap.Live a) (hplive : heap.Live p) (hout : p ∉ s.live)
    (hkept : Kept 0 ((s.withNode heap name flags p).addChild parent p).root
      ((s.withNode heap name flags p).addChild parent p).links
      ((s.withNode heap name flags p).addChild parent p).Live) :
    ((s.withNode heap name flags p).addChild parent p).Sound := by
  have hne : ∀ a ∈ s.live, a ≠ p := fun a ha heq => hout (heq ▸ ha)
  constructor
  case heap => exact hok
  case blocks =>
    intro a ha
    rcases mem_withNode.mp ha with rfl | ha
    · exact hplive
    · exact hlive a ha
  case self =>
    intro a ha
    rw [addChild_entry.2.1]
    rcases mem_withNode.mp ha with rfl | ha
    · rw [withNode_self]
      rfl
    · rw [withNode_old (hne a ha), hs.self a ha]
  case empty =>
    intro a ha
    rw [addChild_entry.2.2]
    rcases mem_withNode.mp ha with rfl | ha
    · rw [withNode_self]
      rfl
    · rw [withNode_old (hne a ha), hs.empty a ha]
  case kept => exact hkept

theorem mkdir_step {result : Int} (hs : s.Sound) (hi : s.Intact) (hparent : parent ∈ s.live)
    (hmkdir : s.mkdir parent name = some (result, t)) :
    t.Sound ∧ (s.Careful (.mkdir parent name) ↔ t.Intact) := by
  obtain ⟨hnames, htree⟩ := hs.intact_iff.mp hi
  unfold RamfsTree.mkdir at hmkdir
  rw [hs.self parent hparent] at hmkdir
  obtain ⟨⟨p, u⟩, hnew, hrest⟩ := Option.bind_eq_some_iff.mp hmkdir
  obtain ⟨heap, hok, hlive, ⟨rfl, rfl⟩ | ⟨hp, hout, hplive, rfl⟩⟩ := newNode_cases hs hnew
  · cases hrest
    have hsound := hs.withHeap hok hlive
    refine ⟨hsound, iff_of_true ?_ (hsound.intact_iff.mpr ⟨hnames, htree⟩)⟩
    intro dir t hagain hdir
    rw [hnew] at hagain
    cases hagain
    exact absurd rfl hdir
  · dsimp only at hrest
    rw [if_neg hp] at hrest
    cases hrest
    have htree' := @tree_withNode s parent p name vfsDir heap htree hparent hp hout
    have hsound := hs.addChild hok hlive hplive hout htree'.toKept
    refine ⟨hsound, ?_⟩
    rw [hsound.intact_iff, and_iff_left htree', (added_withNode hparent hout).namesApart_iff hnames]
    constructor
    · intro hcareful
      exact hcareful p _ hnew hp
    · intro hother dir t hagain _
      rw [hnew] at hagain
      cases hagain
      exact hother

theorem setLink_links : (s.setLink d prev (s.links.siblings a)).links = s.links.unlink d prev a := by
  have hkeep : ∀ (f : RamfsEntry → Nat) (b : Nat),
      Function.update (fun c => f (s.entry c)) b (f (s.entry b)) = fun c => f (s.entry c) :=
    fun f b => Function.update_eq_self b _
  unfold RamfsTree.setLink Links.unlink
  cases prev with
  | none =>
    rw [links_set]
    exact congrArg₂ (Links.mk _) (hkeep RamfsEntry.siblings d) (hkeep RamfsEntry.parent d)
  | some b =>
    dsimp only
    rw [links_set]
    have hchildren := hkeep RamfsEntry.children b
    have hparent := hkeep RamfsEntry.parent b
    exact congrArg₂ (fun c p => Links.mk c _ p) hchildren hparent

/-- The other fields of all nodes are the same. -/
theorem setLink_entry : ((s.setLink d prev p).entry a).name = (s.entry a).name ∧
    ((s.setLink d prev p).entry a).fsData = (s.entry a).fsData ∧
      ((s.setLink d prev p).entry a).data = (s.entry a).data ∧
        ((s.setLink d prev p).entry a).parent = (s.entry a).parent := by
  cases prev with
  | none =>
    simp only [RamfsTree.setLink, RamfsTree.set, Function.update]
    grind
  | some b =>
    simp only [RamfsTree.setLink, RamfsTree.set, Function.update]
    grind

theorem setLink_rest : (s.setLink d prev p).heap = s.heap ∧ (s.setLink d prev p).root = s.root ∧
    (s.setLink d prev p).live = s.live := by
  cases prev with
  | none => exact ⟨rfl, rfl, rfl⟩
  | some b => exact ⟨rfl, rfl, rfl⟩

/-- Nothing is found, or the node between `xs` and `ys` is taken out and freed. -/
theorem unlink_cases {result : Int} (hs : s.Sound) (hparent : parent ∈ s.live)
    (hunlink : s.unlink parent name = some (result, t)) :
    (s.finddir parent name = some 0 ∧ t = s) ∨
      ∃ xs x ys heap, Chain 0 s.links.siblings (s.links.children parent) (xs ++ x :: ys) ∧
        (∀ c, c ∈ xs ++ x :: ys ↔ s.Live c ∧ s.links.parent c = parent) ∧
        s.finddir parent name = some x ∧ s.heap.exec (.kfree x) = some (0, heap) ∧
        t = { s.setLink parent xs.getLast? (s.entry x).siblings with
          heap := heap, live := s.live.filter fun a => a ≠ x } := by
  unfold RamfsTree.unlink at hunlink
  dsimp only at hunlink
  obtain ⟨l, hchain, hmem, ⟨-, b, hsearch⟩ | ⟨xs, x, ys, rfl, -, hsearch⟩⟩ :=
    @RamfsTree.Sound.search_eq s parent name hs hparent
  · have hfind : s.finddir parent name = some 0 := by
      unfold RamfsTree.finddir
      rw [hsearch]
      rfl
    rw [hsearch] at hunlink
    cases hunlink
    exact Or.inl ⟨hfind, rfl⟩
  · obtain ⟨hx, -⟩ := (hmem x).mp (List.mem_append_right _ List.mem_cons_self)
    have hfind : s.finddir parent name = some x := by
      unfold RamfsTree.finddir
      rw [hsearch]
      rfl
    obtain ⟨hheap, -, hlives⟩ := @setLink_rest s parent (s.entry x).siblings xs.getLast?
    rw [hsearch, hs.self parent hparent] at hunlink
    dsimp only [Option.bind_eq_bind, Option.bind_some] at hunlink
    -- The data of a directory entry is null, and its free does nothing.
    rw [if_neg (hs.ne_zero hx), setLink_entry.2.2.1, hs.empty x hx] at hunlink
    obtain ⟨heap, hfree, hend⟩ := Option.bind_eq_some_iff.mp hunlink
    cases hfree
    obtain ⟨heap, hfree, hend⟩ := Option.bind_eq_some_iff.mp hend
    cases hend
    rw [hheap] at hfree
    have hexec : s.heap.exec (.kfree x) = some (0, heap) := by
      unfold Heap.exec
      dsimp only
      rw [hfree]
      rfl
    rw [hlives]
    exact Or.inr ⟨xs, x, ys, heap, hchain, hmem, hfind, hexec, rfl⟩

section Taken

variable {xs ys : List Nat} {x : Nat} {u : RamfsTree}
  (hu : u = { s.setLink d xs.getLast? (s.entry x).siblings with
    heap := heap, live := s.live.filter fun a => a ≠ x })

include hu

theorem mem_taken : a ∈ u.live ↔ a ∈ s.live ∧ a ≠ x := by
  rw [hu, List.mem_filter, decide_eq_true_iff]

theorem taken_entry : (u.entry a).name = (s.entry a).name ∧
    (u.entry a).fsData = (s.entry a).fsData ∧ (u.entry a).data = (s.entry a).data ∧
      (u.entry a).parent = (s.entry a).parent := by
  rw [hu]
  exact setLink_entry

theorem taken_links : u.links = s.links.unlink d xs.getLast? x ∧ u.root = s.root := by
  rw [hu]
  exact ⟨setLink_links, setLink_rest.2.1⟩

theorem taken_kept (hs : s.Sound) (hd : d ∈ s.live)
    (hchain : Chain 0 s.links.siblings (s.links.children d) (xs ++ x :: ys))
    (hmem : ∀ c, c ∈ xs ++ x :: ys ↔ s.Live c ∧ s.links.parent c = d) :
    Kept 0 u.root u.links fun a => s.Live a ∧ a ≠ x := by
  obtain ⟨hlinks, hroot⟩ := taken_links hu
  rw [hlinks, hroot]
  exact hs.kept.unlink hd hchain hmem

theorem taken_live : (fun a => s.Live a ∧ a ≠ x) = u.Live := by
  funext a
  exact propext (mem_taken hu).symm

theorem RamfsTree.Sound.taken (hs : s.Sound) (hx : x ∈ s.live)
    (hexec : s.heap.exec (.kfree x) = some (0, heap))
    (hkept : Kept 0 u.root u.links u.Live) : u.Sound := by
  have hheap : u.heap = heap := hu ▸ rfl
  have hsmall : (HeapCall.kfree x).size ≤ maxRequest := Nat.zero_le _
  have hallowed : s.heap.Allowed (.kfree x) := Or.inr (hs.blocks x hx)
  constructor
  case heap =>
    rw [hheap]
    exact hs.heap.exec hsmall (Or.inl fun _ _ hle => hle) hexec
  case blocks =>
    intro a ha
    obtain ⟨halive, hne⟩ := (mem_taken hu).mp ha
    rw [hheap]
    exact (hs.blocks a halive).exec hs.heap hsmall hallowed hne.symm hexec
  case self =>
    intro a ha
    exact (taken_entry hu).2.1.trans (hs.self a ((mem_taken hu).mp ha).1)
  case empty =>
    intro a ha
    exact (taken_entry hu).2.2.1.trans (hs.empty a ((mem_taken hu).mp ha).1)
  case kept => exact hkept

theorem RamfsTree.NamesApart.taken (hnames : s.NamesApart) : u.NamesApart := by
  intro a ha b hb hup hname
  obtain ⟨hnamea, -, -, hparenta⟩ := @taken_entry s a d heap xs x u hu
  obtain ⟨hnameb, -, -, hparentb⟩ := @taken_entry s b d heap xs x u hu
  refine hnames a ((mem_taken hu).mp ha).1 b ((mem_taken hu).mp hb).1 ?_ ?_
  · exact hparenta.symm.trans (hup.trans hparentb)
  · exact hnamea.symm.trans (hname.trans hnameb)

/-- The rest of the tree stays one exactly when a leaf is taken. -/
theorem taken_tree_iff (htree : Tree 0 s.root s.links s.Live) (hx : x ∈ s.live)
    (hkept : Kept 0 u.root u.links fun a => s.Live a ∧ a ≠ x) :
    Tree 0 u.root u.links (fun a => s.Live a ∧ a ≠ x) ↔ (s.entry x).children = 0 := by
  obtain ⟨hlinks, hroot⟩ := taken_links hu
  have hparents : u.links.parent = s.links.parent := by
    rw [hlinks]
    exact SiblingTree.Links.unlink_parent
  rw [hroot] at hkept ⊢
  exact htree.unlink_iff hx hparents hkept

end Taken

theorem unlink_step {result : Int} (hs : s.Sound) (hi : s.Intact) (hparent : parent ∈ s.live)
    (hunlink : s.unlink parent name = some (result, t)) :
    t.Sound ∧ (s.Careful (.unlink parent name) ↔ t.Intact) := by
  obtain ⟨hnames, htree⟩ := hs.intact_iff.mp hi
  rcases unlink_cases hs hparent hunlink with
    ⟨hfind, rfl⟩ | ⟨xs, x, ys, heap, hchain, hmem, hfind, hexec, ht⟩
  · refine ⟨hs, iff_of_true ?_ hi⟩
    intro del hfound hdel
    rw [hfind] at hfound
    exact absurd (Option.some.inj hfound).symm hdel
  obtain ⟨hx, -⟩ := (hmem x).mp (List.mem_append_right _ List.mem_cons_self)
  have hkept := taken_kept ht hs hparent hchain hmem
  have hleaf := taken_tree_iff ht htree hx hkept
  rw [taken_live ht] at hkept hleaf
  have hsound := hs.taken ht hx hexec hkept
  refine ⟨hsound, ?_⟩
  rw [hsound.intact_iff, and_iff_right (hnames.taken ht), hleaf]
  constructor
  · intro hcareful
    exact hcareful x hfind (hs.ne_zero hx)
  · intro hchildren del hfound _
    rw [hfind] at hfound
    cases hfound
    exact hchildren

theorem intact_step (hs : s.Sound) (hi : s.Intact) (hstep : s.step op = some t) :
    t.Sound ∧ (s.Careful op ↔ t.Intact) := by
  cases op with
  | mkdir parent name =>
    unfold RamfsTree.step at hstep
    dsimp only at hstep
    split_ifs at hstep with hparent
    obtain ⟨⟨result, u⟩, hmkdir, rfl⟩ := Option.map_eq_some_iff.mp hstep
    exact mkdir_step hs hi hparent hmkdir
  | unlink parent name =>
    unfold RamfsTree.step at hstep
    dsimp only at hstep
    split_ifs at hstep with hparent
    obtain ⟨⟨result, u⟩, hunlink, rfl⟩ := Option.map_eq_some_iff.mp hstep
    exact unlink_step hs hi hparent hunlink
  | finddir node name =>
    unfold RamfsTree.step at hstep
    dsimp only at hstep
    split_ifs at hstep with hnode
    obtain ⟨found, -, rfl⟩ := Option.map_eq_some_iff.mp hstep
    exact ⟨hs, iff_of_true trivial hi⟩
  | readdir node index =>
    unfold RamfsTree.step at hstep
    dsimp only at hstep
    split_ifs at hstep with hnode
    cases hstep
    exact ⟨hs, iff_of_true trivial hi⟩
  | heap call =>
    unfold RamfsTree.step at hstep
    dsimp only at hstep
    split_ifs at hstep with hother
    obtain ⟨⟨p, heap⟩, hexec, rfl⟩ := Option.map_eq_some_iff.mp hstep
    obtain ⟨hok, hlive⟩ := hs.exec hother.2.1 hother.1 hother.2.2 hexec
    have hsound := hs.withHeap hok hlive
    exact ⟨hsound, iff_of_true trivial (hsound.intact_iff.mpr (hs.intact_iff.mp hi))⟩

/-- The state of `ramfs_mount`: one node, the root. -/
theorem ramfsMount_cases {entry : Nat → RamfsEntry} {counter : BitVec 32}
    (hok : HeapOk (· ≤ ·) heap) (hmount : ramfsMount heap entry counter = some s) :
    HeapOk (· ≤ ·) s.heap ∧ s.root ≠ 0 ∧ s.heap.Live s.root ∧ (∀ a, a ∈ s.live ↔ a = s.root) ∧
      s.entry s.root = ⟨(cstr ['/']).take 255, counter, vfsDir, s.root, 0, 0, 0, 0⟩ := by
  obtain ⟨⟨root, u⟩, hnew, hrest⟩ := Option.bind_eq_some_iff.mp hmount
  obtain ⟨⟨n, g⟩, halloc, hnode⟩ := Option.bind_eq_some_iff.mp hnew
  have hlt : (HeapCall.kzalloc sizeofRamfsNode).size ≤ maxRequest := by decide
  have hg : HeapOk (· ≤ ·) g := hok.exec hlt (Or.inl fun _ _ hle => hle) halloc
  dsimp only at hnode hrest
  split_ifs at hnode with hzero
  · cases hnode
    rw [if_pos rfl] at hrest
    cases hrest
  cases hnode
  rw [if_neg hzero] at hrest
  have hlive : g.Live root := by
    rcases Mm.kzalloc_fresh hok (by decide) hlt halloc with h0 | ⟨hn, -⟩
    · exact absurd h0 hzero
    · exact hn
  obtain rfl := Option.some.inj hrest
  exact ⟨hg, hzero, hlive, fun a => List.mem_singleton, Function.update_self _ _ _⟩

/-- A new file system is its root. -/
theorem ramfsMount_intact {entry : Nat → RamfsEntry} {counter : BitVec 32}
    (hok : HeapOk (· ≤ ·) heap) (hmount : ramfsMount heap entry counter = some s) :
    s.Sound ∧ s.Intact := by
  obtain ⟨hheap, hzero, hlive, honly, hself⟩ := ramfsMount_cases hok hmount
  have hkept : Kept 0 s.root s.links s.Live := by
    constructor
    case rootLive => exact (honly s.root).mpr rfl
    case nullDead => exact fun hin => hzero ((honly 0).mp hin).symm
    case rootParent => exact congrArg RamfsEntry.parent hself
    case rootSibling => exact congrArg RamfsEntry.siblings hself
    case kids =>
      intro d hd
      rw [(honly d).mp hd]
      refine ⟨[], congrArg RamfsEntry.children hself, ?_⟩
      intro c
      refine iff_of_false List.not_mem_nil ?_
      rintro ⟨hc, hup⟩
      rw [(honly c).mp hc] at hup
      have hparent : s.links.parent s.root = 0 := congrArg RamfsEntry.parent hself
      exact hzero (hup.symm.trans hparent)
  have hsound : s.Sound := by
    constructor
    case heap => exact hheap
    case blocks =>
      intro a ha
      rw [(honly a).mp ha]
      exact hlive
    case self =>
      intro a ha
      rw [(honly a).mp ha, hself]
    case empty =>
      intro a ha
      rw [(honly a).mp ha, hself]
    case kept => exact hkept
  refine ⟨hsound, hsound.intact_iff.mpr ⟨?_, hkept, ?_⟩⟩
  · intro a ha b hb _ _
    exact ((honly a).mp ha).trans ((honly b).mp hb).symm
  · intro a ha
    rw [(honly a).mp ha]
    exact .root

/-- A run of directory operations and other heap calls keeps the tree exactly when no `mkdir` uses
a name twice and each `unlink` removes a node without children. -/
theorem ramfs_intact_iff {vm : Mm.Vm} {h : Heap} {calls : List HeapCall}
    {entry : Nat → RamfsEntry} {counter : BitVec 32} {ops : List RamfsOp}
    (hinit : Mm.heapInit vm = some h) (hsmall : ∀ c ∈ calls, c.size ≤ maxRequest)
    (hreach : Run.run Heap.step h calls = some heap)
    (hmount : ramfsMount heap entry counter = some s) :
    Run.EveryState RamfsTree.step RamfsTree.Intact s ops ↔
      Run.EveryStep RamfsTree.step (fun s op _ => s.Careful op) s ops := by
  have hok : HeapOk (· ≤ ·) heap := by
    have hevery : Run.EveryState Heap.step (HeapOk (· ≤ ·)) h calls := by
      refine (Run.everyStep_of_forall hsmall).everyState ?_ (fun _ hok => hok)
        (Mm.shape_heapInit hinit)
      intro g c g' hg hstep hlt
      unfold Heap.step at hstep
      split_ifs at hstep
      obtain ⟨⟨p, g''⟩, hexec, rfl⟩ := Option.map_eq_some_iff.mp hstep
      exact hg.exec hlt (Or.inl fun _ _ hle => hle) hexec
    exact hevery.last hreach
  obtain ⟨hsound, hintact⟩ := ramfsMount_intact hok hmount
  refine Run.everyState_iff (A := fun _ => True) (fun _ _ => trivial) ?_ hsound hintact
  intro s op t _ hs hi hstep
  exact intact_step hs hi hstep

theorem smallVm_mount : ((Mm.heapInit (Mm.smallVm fun _ => false)).bind fun h =>
    ramfsMount h (fun _ => ⟨[], 0, 0, 0, 0, 0, 0, 0⟩) 1).isSome = true := by
  rw [Mm.smallVm_eq]
  decide +kernel

theorem ramfs_intact_smallVm : ∃ s, (∃ h, Mm.heapInit (Mm.smallVm fun _ => false) = some h ∧
      ramfsMount h (fun _ => ⟨[], 0, 0, 0, 0, 0, 0, 0⟩) 1 = some s) ∧
    (Run.EveryState RamfsTree.step RamfsTree.Intact s
        [.mkdir 0xD0000010 (cstr ['a']), .unlink 0xD0000010 (cstr ['a'])] ↔
      Run.EveryStep RamfsTree.step (fun s op _ => s.Careful op) s
        [.mkdir 0xD0000010 (cstr ['a']), .unlink 0xD0000010 (cstr ['a'])]) := by
  obtain ⟨s, hmounted⟩ := Option.isSome_iff_exists.mp smallVm_mount
  obtain ⟨h, hinit, hmount⟩ := Option.bind_eq_some_iff.mp hmounted
  have hnone : ∀ c ∈ ([] : List HeapCall), c.size ≤ maxRequest := by
    intro c hc
    cases hc
  exact ⟨s, ⟨h, hinit, hmount⟩, ramfs_intact_iff hinit hnone Run.run_nil hmount⟩

/-- The directory `a` is unlinked with `b` in it. -/
def leakOps : List RamfsOp :=
  [.mkdir 0xD0000010 (cstr ['a']), .mkdir 0xD0000168 (cstr ['b']), .unlink 0xD0000010 (cstr ['a'])]

theorem leakOps_run : ((Mm.heapInit (Mm.smallVm fun _ => false)).bind fun h =>
    (ramfsMount h (fun _ => ⟨[], 0, 0, 0, 0, 0, 0, 0⟩) 1).bind fun s =>
      (Run.run RamfsTree.step s leakOps).map fun t => (t.live, t.root,
        (t.entry t.root).children, (t.entry t.root).siblings)) =
    some ([0xD00002C0, 0xD0000010], 0xD0000010, 0, 0) := by
  rw [Mm.smallVm_eq]
  decide +kernel

theorem not_forall_ramfs_intact :
    ¬ ∀ (vm : Mm.Vm) (h : Heap) (entry : Nat → RamfsEntry) (counter : BitVec 32) (s : RamfsTree)
      (ops : List RamfsOp), Mm.heapInit vm = some h → ramfsMount h entry counter = some s →
        Run.EveryState RamfsTree.step RamfsTree.Intact s ops := by
  intro hall
  obtain ⟨h, hinit, hrest⟩ := Option.bind_eq_some_iff.mp leakOps_run
  obtain ⟨s, hmount, hrest⟩ := Option.bind_eq_some_iff.mp hrest
  obtain ⟨t, hrun, heq⟩ := Option.map_eq_some_iff.mp hrest
  obtain ⟨hlive, heq⟩ := Prod.mk.inj heq
  obtain ⟨hroot, heq⟩ := Prod.mk.inj heq
  obtain ⟨hchildren, hsiblings⟩ := Prod.mk.inj heq
  have hintact := (hall _ h _ _ s leakOps hinit hmount).last hrun
  have hleaked : 0xD00002C0 ∈ t.live := by
    rw [hlive]
    exact List.mem_cons_self
  have honly : ∀ a w, Walk 0 t.root t.links a w → a = t.root := by
    intro a w hw
    induction hw with
    | root => rfl
    | child hd hne ih =>
      rw [ih] at hne
      exact absurd hchildren hne
    | sibling hb hne ih =>
      rw [ih] at hne
      exact absurd hsiblings hne
  obtain ⟨w, hw, -⟩ := hintact.once _ hleaked
  have hsame := honly _ w hw
  rw [hroot] at hsame
  exact absurd hsame (by decide)

end PinguinOS.Fs
