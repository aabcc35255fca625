import Mathlib.Data.List.Perm.Subperm
import Mathlib.Data.List.TakeWhile
import PinguinOS.Lib.KeySort
import PinguinOS.Lib.Linked
import PinguinOS.Lib.Run
import PinguinOS.Mm.Process

/-! The lists of virtual memory areas, link by link. -/
namespace PinguinOS.Proc

open Mm KeySort

/-- `vma_t` -/
structure VmaNode extends Vma where
  next : Nat

/-- The lists of all processes. -/
structure VmaLists where
  /-- `proc->vma_list`, for each process -/
  vmaList : Nat → Nat
  /-- The `vma_t` at an address. -/
  node : Nat → VmaNode
  /-- What has been inserted and not removed: the process and the area. -/
  live : List (Nat × Nat)

namespace VmaLists

def next (s : VmaLists) (v : Nat) : Nat := (s.node v).next

def start (s : VmaLists) (v : Nat) : Nat := (s.node v).start

def area (s : VmaLists) (v : Nat) : Vma := (s.node v).toVma

def setNode (s : VmaLists) (v : Nat) (n : VmaNode) : VmaLists :=
  { s with node := Function.update s.node v n }

/-- `*pp`, where `pp` is `&proc->vma_list` or the link of a node. -/
def load (s : VmaLists) (proc : Nat) (pp : Option Nat) : Nat :=
  Linked.load (s.vmaList proc) s.next pp

/-- `*pp = v` -/
def store (s : VmaLists) (proc : Nat) (pp : Option Nat) (v : Nat) : VmaLists :=
  match pp with
  | none => { s with vmaList := Function.update s.vmaList proc v }
  | some b => s.setNode b { s.node b with next := v }

/-- `while (*pp && p(*pp)) pp = &(*pp)->next`; a list is never longer than all that is live. -/
def seek (s : VmaLists) (proc : Nat) (p : Nat → Bool) : Option (Option Nat) :=
  Linked.seek 0 (s.vmaList proc) s.next p (s.live.length + 1) none

/-- `vma_find` -/
def vmaFind (s : VmaLists) (proc addr : Nat) : Option Nat :=
  (s.seek proc fun v => ¬ (s.area v).Contains addr).map (s.load proc)

/-- The fields that `vma_insert` sets first. -/
def newArea (start end_ : Nat) (flags : BitVec 32) : Vma :=
  { start := alignDown start pageSize
    end_ := alignUp end_ pageSize
    flags := flags
    fileOffset := 0 }

/-- `v->next = *pp; *pp = v;` -/
def link (s : VmaLists) (proc v : Nat) (pp : Option Nat) : VmaLists :=
  (s.setNode v { s.node v with next := s.load proc pp }).store proc pp v

/-- `vma_insert`, where `slab_alloc` returns `slab`. -/
def vmaInsert (s : VmaLists) (proc start end_ : Nat) (flags : BitVec 32) (slab : Nat) :
    Option (Nat × VmaLists) :=
  if slab = 0 then some (0, s)
  else
    let s := s.setNode slab { s.node slab with toVma := newArea start end_ flags }
    (s.seek proc fun q => s.start q < s.start slab).map fun pp =>
      (slab, { s.link proc slab pp with live := (proc, slab) :: s.live })

/-- `vma_remove`, where `slab_free` leaves `freed` in the area. -/
def vmaRemove (s : VmaLists) (proc vma : Nat) (freed : VmaNode) : Option VmaLists :=
  (s.seek proc fun q => q ≠ vma).map fun pp =>
    if s.load proc pp ≠ 0 then
      let s := s.store proc pp (s.next vma)
      let s := s.setNode vma freed
      { s with live := s.live.erase (proc, vma) }
    else s

end VmaLists

inductive VmaCall
  | insert (proc start end_ : Nat) (flags : BitVec 32) (slab : Nat)
  | remove (proc vma : Nat) (freed : VmaNode)

def VmaLists.step (s : VmaLists) : VmaCall → Option VmaLists
  | .insert proc start end_ flags slab => (s.vmaInsert proc start end_ flags slab).map Prod.snd
  | .remove proc vma freed => s.vmaRemove proc vma freed

/-- `slab_alloc` fails or returns an object nobody holds, and only inserted areas are removed. -/
def VmaLists.Valid (s : VmaLists) : VmaCall → Prop
  | .insert _ start end_ _ slab =>
    start < end_ ∧ end_ < 2 ^ 32 ∧ (slab = 0 ∨ slab ∉ s.live.map Prod.snd)
  | .remove proc vma _ => (proc, vma) ∈ s.live

/-- No process has an area. -/
def VmaLists.empty (node : Nat → VmaNode) : VmaLists := ⟨fun _ => 0, node, []⟩

/-- The list of a process, from its head to its end: sorted, and with what is live. -/
structure VmaLists.Lists (s : VmaLists) (proc : Nat) (l : List Nat) : Prop where
  chain : Linked.Chain 0 s.next (s.vmaList proc) l
  sorted : Sorted s.start l
  mem : ∀ v, v ∈ l ↔ (proc, v) ∈ s.live

/-- `vma_find` returns an area that contains the address, for every address of the range. -/
def VmaLists.Covers (s : VmaLists) (proc start end_ : Nat) : Prop :=
  ∀ a, start ≤ a → a < end_ →
    ∃ v, s.vmaFind proc a = some v ∧ v ≠ 0 ∧ (s.area v).Contains a

/-- `vma_remove` of the area leads back to `s`, but for what was the area. -/
def VmaLists.Restores (s s' : VmaLists) (proc slab : Nat) : Prop :=
  ∀ freed, ∃ t, s'.vmaRemove proc slab freed = some t ∧ t.vmaList = s.vmaList ∧
    (∀ v, v ≠ slab → t.node v = s.node v) ∧ t.live = s.live

/-- What is promised of the lists at any time: they are sorted chains, and every call ends. -/
def VmaLists.Sound (s : VmaLists) : Prop :=
  (∀ proc, ∃ l, s.Lists proc l ∧ l.Nodup) ∧ ∀ c, s.Valid c → (s.step c).isSome

/-- What is promised of a call. -/
def VmaLists.Delivers (s : VmaLists) (c : VmaCall) (s' : VmaLists) : Prop :=
  match c with
  | .insert proc start end_ _ slab =>
    slab ≠ 0 → s'.Covers proc start end_ ∧ s.Restores s' proc slab
  | .remove _ _ _ => True

/-- The area ends where `ALIGN_UP` does not wrap. -/
def VmaCall.Below : VmaCall → Prop
  | .insert _ _ end_ _ slab => slab ≠ 0 → end_ ≤ 0xFFFFF000
  | .remove _ _ _ => True

variable {s s' : VmaLists} {proc proc' start end_ slab vma v a b : Nat} {flags : BitVec 32}
  {n freed : VmaNode} {l xs ys : List Nat} {pp : Option Nat} {p : Nat → Bool} {c : VmaCall}

namespace VmaLists

/-! The fields after a store. -/

theorem next_setNode : (s.setNode v n).next = Function.update s.next v n.next := by
  funext q
  by_cases hq : q = v
  · subst hq
    simp [next, setNode]
  · simp [next, setNode, hq]

theorem next_store : (s.store proc pp v).next = Linked.storeNext s.next v pp := by
  cases pp with
  | none => rfl
  | some b => exact next_setNode

theorem vmaList_store (s : VmaLists) (proc : Nat) (pp : Option Nat) (v : Nat) :
    (s.store proc pp v).vmaList =
      Function.update s.vmaList proc (Linked.storeFirst (s.vmaList proc) v pp) := by
  cases pp with
  | none => rfl
  | some b => exact (Function.update_eq_self proc s.vmaList).symm

theorem area_store : (s.store proc pp v).area = s.area := by
  cases pp with
  | none => rfl
  | some b =>
    funext q
    by_cases hq : q = b
    · subst hq
      simp [area, store, setNode]
    · simp [area, store, setNode, hq]

theorem node_store (hq : pp ≠ some v) : (s.store proc pp a).node v = s.node v := by
  cases pp with
  | none => rfl
  | some b => exact Function.update_of_ne (fun heq => hq (congrArg some heq.symm)) _ _

theorem live_store : (s.store proc pp v).live = s.live := by
  cases pp <;> rfl

/-! Walking along a list. -/

theorem Lists.nodup (h : s.Lists proc l) : l.Nodup := h.chain.nodup

theorem Lists.length_le (h : s.Lists proc l) : l.length ≤ s.live.length := by
  have hnodup : (l.map fun v => (proc, v)).Nodup :=
    h.nodup.map fun _ _ heq => (Prod.mk.inj heq).2
  have hsub : l.map (fun v => (proc, v)) ⊆ s.live := by
    intro r hr
    obtain ⟨v, hv, rfl⟩ := List.mem_map.mp hr
    exact (h.mem v).mp hv
  have hle := (List.subperm_of_subset hnodup hsub).length_le
  rwa [List.length_map] at hle

theorem Lists.seek (h : s.Lists proc l) :
    s.seek proc p = some (l.takeWhile p).getLast? :=
  h.chain.seek (Nat.lt_succ_of_le h.length_le)

/-- A walk stops at the first node that fails the test. -/
theorem Lists.load (h : s.Lists proc l) :
    s.load proc (l.takeWhile p).getLast? = (l.dropWhile p).head?.getD 0 := by
  have hchain := h.chain
  rw [← List.takeWhile_append_dropWhile (p := p) (l := l)] at hchain
  exact hchain.load

/-- A list depends on its head, its nodes and what is live of it. -/
theorem Lists.congr (h : s.Lists proc l) (hhead : s'.vmaList proc = s.vmaList proc)
    (hnode : ∀ v ∈ l, s'.node v = s.node v)
    (hlive : ∀ v, (proc, v) ∈ s'.live ↔ (proc, v) ∈ s.live) : s'.Lists proc l where
  chain := by
    rw [hhead]
    refine h.chain.congr fun v hv => ?_
    unfold VmaLists.next
    rw [hnode v hv]
  sorted := by
    refine List.Pairwise.imp_of_mem ?_ h.sorted
    intro x y hx hy hle
    unfold KeyLe VmaLists.start at hle ⊢
    rwa [hnode x hx, hnode y hy]
  mem := fun v => (h.mem v).trans (hlive v).symm

theorem Lists.find (h : s.Lists proc l) :
    s.vmaFind proc a = some ((l.find? fun v => (s.area v).Contains a).getD 0) := by
  rw [vmaFind, h.seek, Option.map_some, h.load, List.find?_eq_head?_dropWhile_not]
  simp

/-- A node outside every list is not walked through. -/
theorem Lists.setNode (h : s.Lists proc l) (hv : v ∉ l) : (s.setNode v n).Lists proc l :=
  h.congr rfl (fun _ hq => Function.update_of_ne (ne_of_mem_of_not_mem hq hv) _ _) fun _ => Iff.rfl

/-! `vma_insert` links the area in, behind the areas with a smaller start. -/

/-- The place that the walk of `vma_insert` finds. -/
def placeOf (s : VmaLists) (l : List Nat) (v : Nat) : Option Nat :=
  (l.takeWhile fun q => s.start q < s.start v).getLast?

theorem placeOf_mem (h : s.placeOf l v = some b) : b ∈ l :=
  (List.takeWhile_prefix _).subset (List.mem_of_getLast? h)

theorem insertKey_eq : insertKey s.start v l =
    (l.takeWhile fun q => s.start q < s.start v) ++
      v :: l.dropWhile fun q => s.start q < s.start v := by
  unfold insertKey
  rw [List.orderedInsert_eq_take_drop]
  simp only [KeyLe, Nat.not_le]

theorem area_link : (s.link proc v pp).area = s.area := by
  unfold link
  rw [area_store]
  funext q
  by_cases hq : q = v
  · subst hq
    simp [area, VmaLists.setNode]
  · simp [area, VmaLists.setNode, hq]

theorem start_link : (s.link proc v pp).start = s.start := by
  funext q
  exact congrArg Vma.start (congrFun area_link q)

/-- The list of the process has the area at its place. -/
theorem Lists.link (h : s.Lists proc l) (hv : v ∉ l) (hnull : v ≠ 0) :
    VmaLists.Lists { s.link proc v (s.placeOf l v) with live := (proc, v) :: s.live } proc
      (insertKey s.start v l) where
  chain := by
    have hsplit := List.takeWhile_append_dropWhile (p := fun q => s.start q < s.start v) (l := l)
    have hchain := h.chain
    rw [← hsplit] at hchain hv
    have hlinked := hchain.insert hv hnull
    rw [insertKey_eq]
    have hnext : (s.link proc v (s.placeOf l v)).next = Linked.storeNext
        (Function.update s.next v (s.load proc (s.placeOf l v))) v (s.placeOf l v) := by
      unfold VmaLists.link
      rw [next_store, next_setNode]
    have hhead : (s.link proc v (s.placeOf l v)).vmaList proc =
        Linked.storeFirst (s.vmaList proc) v (s.placeOf l v) := by
      unfold VmaLists.link
      rw [vmaList_store]
      exact Function.update_self _ _ _
    change Linked.Chain 0 (s.link proc v (s.placeOf l v)).next
      ((s.link proc v (s.placeOf l v)).vmaList proc) _
    rw [hnext, hhead]
    exact hlinked
  sorted := by
    change Sorted (s.link proc v (s.placeOf l v)).start _
    rw [start_link]
    exact h.sorted.insertKey
  mem := by
    intro q
    rw [mem_insertKey, List.mem_cons, Prod.mk.injEq, h.mem]
    simp only [true_and]

/-- The lists of other processes stay as they are. -/
theorem Lists.link_other (h : s.Lists proc' l) (hne : proc' ≠ proc)
    (hv : v ∉ l) (hapart : ∀ q ∈ xs, q ∉ l) :
    VmaLists.Lists { s.link proc v (s.placeOf xs v) with live := (proc, v) :: s.live } proc' l := by
  refine h.congr ?_ ?_ ?_
  · change (s.link proc v (s.placeOf xs v)).vmaList proc' = s.vmaList proc'
    unfold VmaLists.link
    rw [vmaList_store]
    exact Function.update_of_ne hne _ _
  · intro q hq
    change (s.link proc v (s.placeOf xs v)).node q = s.node q
    unfold VmaLists.link
    rw [node_store fun heq => hapart q (placeOf_mem heq) hq]
    exact Function.update_of_ne (ne_of_mem_of_not_mem hq hv) _ _
  · intro q
    rw [List.mem_cons, Prod.mk.injEq]
    exact or_iff_right fun heq => hne heq.1

theorem vmaInsert_eq (start end_ : Nat) (flags : BitVec 32) (h : s.Lists proc l)
    (hslab : slab ≠ 0) (hfresh : slab ∉ l) :
    ∃ t : VmaLists, t.Lists proc l ∧ t.area = Function.update s.area slab (newArea start end_ flags) ∧
      (∀ v, v ≠ slab → t.node v = s.node v) ∧ t.vmaList = s.vmaList ∧ t.live = s.live ∧
      s.vmaInsert proc start end_ flags slab = some (slab,
        { t.link proc slab (t.placeOf l slab) with live := (proc, slab) :: t.live }) := by
  have hlist := h.setNode (n := { s.node slab with toVma := newArea start end_ flags }) hfresh
  refine ⟨_, hlist, ?_, fun v hv => Function.update_of_ne hv _ _, rfl, rfl, ?_⟩
  · funext q
    by_cases hq : q = slab
    · subst hq
      simp [area, VmaLists.setNode]
    · simp [area, VmaLists.setNode, hq]
  · unfold vmaInsert
    rw [if_neg hslab]
    dsimp only
    rw [hlist.seek, Option.map_some]
    rfl

/-! `vma_remove` takes the area out. -/

/-- The area behind a front part of the list. -/
def unlink (s : VmaLists) (proc vma : Nat) (freed : VmaNode) (pp : Option Nat) : VmaLists :=
  { (s.store proc pp (s.next vma)).setNode vma freed with live := s.live.erase (proc, vma) }

theorem vmaRemove_eq (h : s.Lists proc (xs ++ vma :: ys)) :
    s.vmaRemove proc vma freed = some (s.unlink proc vma freed xs.getLast?) := by
  have hnodup := h.nodup
  have hout : vma ∉ xs := fun hmem =>
    (List.nodup_append.mp hnodup).2.2 vma hmem vma List.mem_cons_self rfl
  have hfront : (xs ++ vma :: ys).takeWhile (fun q => q ≠ vma) = xs := by
    rw [List.takeWhile_append_of_pos, List.takeWhile_cons_of_neg, List.append_nil]
    · simp
    · intro q hq
      exact decide_eq_true (ne_of_mem_of_not_mem hq hout)
  have hload : s.load proc xs.getLast? = vma := h.chain.load
  have hnull : vma ≠ 0 := h.chain.ne_null (by simp)
  unfold vmaRemove
  rw [h.seek, Option.map_some, hfront, hload, if_pos hnull]
  dsimp only [unlink, VmaLists.setNode]
  rw [live_store]

theorem area_unlink (hv : v ≠ vma) : (s.unlink proc vma freed pp).area v = s.area v := by
  have hnode : (s.unlink proc vma freed pp).node v = (s.store proc pp (s.next vma)).node v :=
    Function.update_of_ne hv _ _
  exact (congrArg VmaNode.toVma hnode).trans (congrFun area_store v)

/-- The list of the process without the area. -/
theorem Lists.unlink (h : s.Lists proc (xs ++ vma :: ys)) (hlive : s.live.Nodup) :
    (s.unlink proc vma freed xs.getLast?).Lists proc (xs ++ ys) where
  chain := by
    have hout : vma ∉ xs ++ ys := (List.nodup_middle.mp h.nodup |> List.nodup_cons.mp).1
    have hnext : (s.unlink proc vma freed xs.getLast?).next = Function.update
        (Linked.storeNext s.next (s.next vma) xs.getLast?) vma freed.next := by
      rw [← next_store, ← next_setNode]
      rfl
    have hhead : (s.unlink proc vma freed xs.getLast?).vmaList proc =
        Linked.storeFirst (s.vmaList proc) (s.next vma) xs.getLast? := by
      have hstore := congrFun (vmaList_store s proc xs.getLast? (s.next vma)) proc
      rw [Function.update_self] at hstore
      exact hstore
    rw [hnext, hhead]
    exact h.chain.remove.update hout freed.next
  sorted := by
    have hout : vma ∉ xs ++ ys := (List.nodup_middle.mp h.nodup |> List.nodup_cons.mp).1
    have hsub : (xs ++ ys).Sublist (xs ++ vma :: ys) :=
      (List.sublist_cons_self vma ys).append_left xs
    refine List.Pairwise.imp_of_mem ?_ (h.sorted.sublist hsub)
    intro x y hx hy hle
    have hstart : ∀ q ∈ xs ++ ys,
        (s.unlink proc vma freed xs.getLast?).start q = s.start q := fun q hq =>
      congrArg Vma.start (area_unlink (ne_of_mem_of_not_mem hq hout))
    unfold KeyLe at hle ⊢
    rwa [hstart x hx, hstart y hy]
  mem := by
    intro q
    have hout : vma ∉ xs ++ ys := (List.nodup_middle.mp h.nodup |> List.nodup_cons.mp).1
    have hall := h.mem q
    rw [(List.perm_middle).mem_iff, List.mem_cons] at hall
    change q ∈ xs ++ ys ↔ (proc, q) ∈ s.live.erase (proc, vma)
    rw [hlive.mem_erase_iff, ← hall]
    constructor
    · intro hq
      refine ⟨fun heq => hout ?_, Or.inr hq⟩
      rwa [(Prod.mk.inj heq).2] at hq
    · rintro ⟨hne, rfl | hq⟩
      · exact absurd rfl hne
      · exact hq

theorem Lists.unlink_other (h : s.Lists proc' l) (hne : proc' ≠ proc) (hv : vma ∉ l)
    (hapart : ∀ q ∈ xs, q ∉ l) : (s.unlink proc vma freed xs.getLast?).Lists proc' l := by
  refine h.congr ?_ ?_ ?_
  · have hstore := congrFun (vmaList_store s proc xs.getLast? (s.next vma)) proc'
    rw [Function.update_of_ne hne] at hstore
    exact hstore
  · intro q hq
    have hnode : (s.unlink proc vma freed xs.getLast?).node q =
        (s.store proc xs.getLast? (s.next vma)).node q :=
      Function.update_of_ne (ne_of_mem_of_not_mem hq hv) _ _
    rw [hnode, node_store fun heq => hapart q (List.mem_of_getLast? heq) hq]
  · intro q
    exact List.mem_erase_of_ne fun heq => hne (Prod.mk.inj heq).1

/-! What every call keeps. -/

structure Ok (s : VmaLists) : Prop where
  lists : ∀ proc, ∃ l, s.Lists proc l
  nodup : (s.live.map Prod.snd).Nodup
  /-- An end is a multiple of the page size that fits into 32 bits. -/
  ends : ∀ r ∈ s.live, (s.area r.2).end_ ≤ 0xFFFFF000

/-- An area is in one list only. -/
theorem Ok.apart (h : s.Ok) (hv : (proc, v) ∈ s.live) (hv' : (proc', v) ∈ s.live) :
    proc = proc' :=
  (Prod.mk.inj (List.inj_on_of_nodup_map h.nodup hv hv' rfl)).1

theorem Ok.fresh (hfresh : slab ∉ s.live.map Prod.snd) (hl : s.Lists proc l) : slab ∉ l :=
  fun hmem => hfresh (List.mem_map_of_mem (f := Prod.snd) ((hl.mem slab).mp hmem))

theorem newArea_end_le : (newArea start end_ flags).end_ ≤ 0xFFFFF000 := by
  have hlt := @u32_lt (end_ + 4095)
  unfold newArea
  dsimp only
  rw [alignUp_page]
  omega

theorem newArea_contains (hend : end_ ≤ 0xFFFFF000) (hlo : start ≤ a) (hhi : a < end_) :
    (newArea start end_ flags).Contains a := by
  unfold newArea Vma.Contains
  dsimp only
  rw [alignUp_page, alignDown_page (by omega), u32_of_lt (by omega)]
  omega

/-- The state that a successful call leads to. -/
structure Inserted (s : VmaLists) (proc start end_ : Nat) (flags : BitVec 32) (slab : Nat)
    (s' : VmaLists) : Prop where
  ok : s'.Ok
  live : s'.live = (proc, slab) :: s.live
  area : s'.area slab = newArea start end_ flags
  /-- The areas of the process, with the new one in front of the first that starts no lower. -/
  areas : ∀ l, s.Lists proc l → ∃ l', s'.Lists proc l' ∧
    l'.map s'.area = insertKey Vma.start (newArea start end_ flags) (l.map s.area)
  restores : s.Restores s' proc slab

/-- Taking an area out that was just linked in leaves everything else as it was. -/
theorem unlink_link (freed : VmaNode) (live : List (Nat × Nat)) (hpp : pp ≠ some slab) :
    (VmaLists.unlink { s.link proc slab pp with live := live } proc slab freed pp).vmaList =
        s.vmaList ∧
      ∀ v, v ≠ slab →
        (VmaLists.unlink { s.link proc slab pp with live := live } proc slab freed pp).node v =
          s.node v := by
  cases pp with
  | none =>
    have hnext : (s.link proc slab none).next slab = s.vmaList proc := by
      simp [VmaLists.link, VmaLists.next, VmaLists.store, VmaLists.setNode, VmaLists.load,
        Linked.load]
    constructor
    · change Function.update (Function.update s.vmaList proc slab) proc
        ((s.link proc slab none).next slab) = s.vmaList
      rw [hnext, Function.update_idem, Function.update_eq_self]
    · intro v hv
      have hlast : (VmaLists.unlink { s.link proc slab none with live := live } proc slab freed
          none).node v = (s.link proc slab none).node v := Function.update_of_ne hv _ _
      exact hlast.trans (Function.update_of_ne hv _ _)
  | some b =>
    have hb : slab ≠ b := fun heq => hpp (congrArg some heq.symm)
    have hnext : (s.link proc slab (some b)).next slab = s.next b := by
      simp [VmaLists.link, VmaLists.next, VmaLists.store, VmaLists.setNode, VmaLists.load,
        Linked.load, hb]
    refine ⟨rfl, fun v hv => ?_⟩
    have hlast : (VmaLists.unlink { s.link proc slab (some b) with live := live } proc slab freed
        (some b)).node v = Function.update (s.link proc slab (some b)).node b
          { (s.link proc slab (some b)).node b with
            next := (s.link proc slab (some b)).next slab } v := Function.update_of_ne hv _ _
    rw [hlast, hnext]
    by_cases hvb : v = b
    · subst hvb
      simp [VmaLists.link, VmaLists.next, VmaLists.store, VmaLists.setNode, hb.symm]
    · simp [VmaLists.link, VmaLists.store, VmaLists.setNode, hvb, hv]

theorem Ok.inserted (proc start end_ : Nat) (flags : BitVec 32) (h : s.Ok) (hslab : slab ≠ 0)
    (hfresh : slab ∉ s.live.map Prod.snd) :
    ∃ s', s.vmaInsert proc start end_ flags slab = some (slab, s') ∧
      s.Inserted proc start end_ flags slab s' := by
  obtain ⟨l, hl⟩ := h.lists proc
  have hout := Ok.fresh hfresh hl
  obtain ⟨t, htl, harea, hnode, hvmaList, hlive, hresult⟩ :=
    vmaInsert_eq start end_ flags hl hslab hout
  have hpp : t.placeOf l slab ≠ some slab := fun heq => hout (placeOf_mem heq)
  have hsame : ∀ q, VmaLists.area
      { t.link proc slab (t.placeOf l slab) with live := (proc, slab) :: t.live } q =
        t.area q := fun q => congrFun area_link q
  have hnew : t.area slab = newArea start end_ flags := by
    rw [harea, Function.update_self]
  refine ⟨_, hresult, ⟨?_, ?_, ?_⟩, by rw [hlive], (hsame slab).trans hnew, ?_, ?_⟩
  · intro other
    by_cases hother : other = proc
    · subst hother
      exact ⟨_, htl.link hout hslab⟩
    · obtain ⟨m, hm⟩ := h.lists other
      have hmout := Ok.fresh hfresh hm
      have htm : t.Lists other m := hm.congr (by rw [hvmaList])
        (fun q hq => hnode q (ne_of_mem_of_not_mem hq hmout)) fun q => by rw [hlive]
      refine ⟨m, htm.link_other hother hmout fun q hq hqm => ?_⟩
      exact hother (h.apart ((hm.mem q).mp hqm) ((hl.mem q).mp hq))
  · rw [hlive, List.map_cons]
    exact List.nodup_cons.mpr ⟨hfresh, h.nodup⟩
  · rintro r hr
    rw [hsame]
    rcases List.mem_cons.mp hr with rfl | hr
    · rw [hnew]
      exact newArea_end_le
    · rw [hlive] at hr
      have hne : r.2 ≠ slab :=
        ne_of_mem_of_not_mem (List.mem_map_of_mem (f := Prod.snd) hr) hfresh
      rw [harea, Function.update_of_ne hne]
      exact h.ends r hr
  · intro m hm
    obtain rfl := hl.chain.unique hm.chain
    refine ⟨_, htl.link hout hslab, ?_⟩
    have hold : l.map t.area = l.map s.area := by
      refine List.map_congr_left fun q hq => ?_
      rw [harea, Function.update_of_ne (ne_of_mem_of_not_mem hq hout)]
    rw [← hnew, ← hold, ← map_insertKey t.area fun _ => rfl]
    exact List.map_congr_left fun q _ => hsame q
  · intro freed
    have hlinked := htl.link hout hslab
    rw [insertKey_eq] at hlinked
    obtain ⟨hlists, hnodes⟩ := unlink_link freed ((proc, slab) :: t.live) hpp
    refine ⟨_, vmaRemove_eq hlinked, hlists.trans hvmaList, ?_, ?_⟩
    · intro v hv
      exact (hnodes v hv).trans (hnode v hv)
    · change ((proc, slab) :: t.live).erase (proc, slab) = s.live
      rw [List.erase_cons_head, hlive]

/-- The state behind a removal. -/
theorem Ok.removed (freed : VmaNode) (h : s.Ok) (hmem : (proc, vma) ∈ s.live) :
    ∃ s', s.vmaRemove proc vma freed = some s' ∧ s'.Ok := by
  obtain ⟨l, hl⟩ := h.lists proc
  obtain ⟨xs, ys, rfl⟩ := List.append_of_mem ((hl.mem vma).mpr hmem)
  have hlive : s.live.Nodup := h.nodup.of_map Prod.snd
  refine ⟨_, vmaRemove_eq hl, ?_, ?_, ?_⟩
  · intro other
    by_cases hother : other = proc
    · subst hother
      exact ⟨_, hl.unlink hlive⟩
    · obtain ⟨m, hm⟩ := h.lists other
      have hapart : ∀ q ∈ xs ++ vma :: ys, q ∉ m := fun q hq hqm =>
        hother (h.apart ((hm.mem q).mp hqm) ((hl.mem q).mp hq))
      exact ⟨m, hm.unlink_other hother (hapart vma (by simp))
        fun q hq => hapart q (List.mem_append_left _ hq)⟩
  · exact h.nodup.sublist (List.erase_sublist.map Prod.snd)
  · intro r hr
    have hold : r ∈ s.live := List.mem_of_mem_erase hr
    have hne : r.2 ≠ vma := by
      intro heq
      have hpair : r = (proc, vma) := List.inj_on_of_nodup_map h.nodup hold hmem heq
      exact (hlive.mem_erase_iff.mp hr).1 hpair
    rw [area_unlink hne]
    exact h.ends r hold

/-! Runs of calls. -/

/-- No area reaches the last page of the address space. -/
theorem Inserted.covers_iff (h : s.Inserted proc start end_ flags slab s') (hlt : start < end_) :
    s'.Covers proc start end_ ↔ end_ ≤ 0xFFFFF000 := by
  obtain ⟨l, hl⟩ := h.ok.lists proc
  constructor
  · intro hcovers
    obtain ⟨v, hfind, hnull, hcontains⟩ := hcovers (end_ - 1) (by omega) (by omega)
    rw [hl.find] at hfind
    obtain ⟨q, hq⟩ : ∃ q, (l.find? fun v => (s'.area v).Contains (end_ - 1)) = some q := by
      rw [← Option.isSome_iff_exists, Option.isSome_iff_ne_none]
      intro hnone
      rw [hnone] at hfind
      exact hnull (Option.some.inj hfind).symm
    have hmem := (hl.mem q).mp (List.mem_of_find?_eq_some hq)
    have hend : (s'.area q).end_ ≤ 0xFFFFF000 := h.ok.ends _ hmem
    have hin : (s'.area q).Contains (end_ - 1) := by simpa using List.find?_some hq
    have hhigh := hin.2
    omega
  · intro hend a hlo hhi
    have hmem : slab ∈ l := by
      rw [hl.mem, h.live]
      exact List.mem_cons_self
    have hin : (s'.area slab).Contains a := by
      rw [h.area]
      exact newArea_contains hend hlo hhi
    have hfound : (l.find? fun v => (s'.area v).Contains a).isSome :=
      List.find?_isSome.mpr ⟨slab, hmem, by simpa using hin⟩
    obtain ⟨q, hq⟩ := Option.isSome_iff_exists.mp hfound
    have hqin : (s'.area q).Contains a := by simpa using List.find?_some hq
    refine ⟨q, ?_, hl.chain.ne_null (List.mem_of_find?_eq_some hq), hqin⟩
    rw [hl.find, hq]
    rfl

/-- A call ends, keeps the lists, and delivers exactly when its area does not wrap. -/
theorem Ok.step (h : s.Ok) (hvalid : s.Valid c) :
    ∃ s', s.step c = some s' ∧ s'.Ok ∧ (s.Delivers c s' ↔ c.Below) := by
  cases c with
  | insert proc start end_ flags slab =>
    obtain ⟨hlt, -, hslab⟩ := hvalid
    by_cases hnull : slab = 0
    · refine ⟨s, ?_, h, ?_⟩
      · change (s.vmaInsert proc start end_ flags slab).map Prod.snd = some s
        unfold vmaInsert
        rw [if_pos hnull]
        rfl
      · exact iff_of_true (fun hne => absurd hnull hne) fun hne => absurd hnull hne
    · obtain ⟨s', hresult, hinserted⟩ :=
        h.inserted proc start end_ flags hnull (hslab.resolve_left hnull)
      refine ⟨s', ?_, hinserted.ok, ?_⟩
      · change (s.vmaInsert proc start end_ flags slab).map Prod.snd = some s'
        rw [hresult]
        rfl
      · refine forall_congr' fun _ => ?_
        rw [hinserted.covers_iff hlt]
        exact and_iff_left hinserted.restores
  | remove proc vma freed =>
    obtain ⟨s', hresult, hok⟩ := h.removed freed hvalid
    exact ⟨s', hresult, hok, Iff.rfl⟩

theorem Ok.sound (h : s.Ok) : s.Sound := by
  refine ⟨fun proc => ?_, fun c hvalid => ?_⟩
  · obtain ⟨l, hl⟩ := h.lists proc
    exact ⟨l, hl, hl.nodup⟩
  · obtain ⟨s', hstep, -⟩ := h.step hvalid
    exact Option.isSome_iff_exists.mpr ⟨s', hstep⟩

theorem ok_empty {node : Nat → VmaNode} : (VmaLists.empty node).Ok where
  lists := fun proc => ⟨[], rfl, List.Pairwise.nil, fun v => by simp [VmaLists.empty]⟩
  nodup := List.nodup_nil
  ends := by
    intro r hr
    cases hr

/-- What is promised of a run of calls: sound lists all the time, and every call delivers. -/
def KeepsLists (node : Nat → VmaNode) (calls : List VmaCall) : Prop :=
  Run.EveryState VmaLists.step Sound (VmaLists.empty node) calls ∧
    Run.EveryStep VmaLists.step Delivers (VmaLists.empty node) calls

/-- A run keeps every promise exactly when no inserted area ends in the last page. -/
theorem keepsLists_iff {node : Nat → VmaNode} {calls : List VmaCall}
    (hvalid : Run.EveryStep VmaLists.step (fun s c _ => s.Valid c) (VmaLists.empty node) calls) :
    KeepsLists node calls ↔
      Run.EveryStep VmaLists.step (fun _ c _ => c.Below) (VmaLists.empty node) calls := by
  have hkeep : ∀ s c t, Ok s → s.step c = some t → s.Valid c →
      Ok t ∧ (s.Delivers c t ↔ c.Below) := by
    intro s c t hok hstep hc
    obtain ⟨s', hstep', hok', hiff⟩ := hok.step hc
    obtain rfl : s' = t := Option.some.inj (hstep'.symm.trans hstep)
    exact ⟨hok', hiff⟩
  have hsound : Run.EveryState VmaLists.step Sound (VmaLists.empty node) calls :=
    hvalid.everyState (fun s c t hok hstep hc => (hkeep s c t hok hstep hc).1)
      (fun s hok => hok.sound) ok_empty
  unfold KeepsLists
  rw [and_iff_right hsound]
  constructor
  · intro hdelivers
    refine (hvalid.and hdelivers).mono ?_ ok_empty
    rintro s c t hok hstep ⟨hc, hd⟩
    obtain ⟨hok', hiff⟩ := hkeep s c t hok hstep hc
    exact ⟨hok', hiff.mp hd⟩
  · intro hbelow
    refine (hvalid.and hbelow).mono ?_ ok_empty
    rintro s c t hok hstep ⟨hc, hb⟩
    obtain ⟨hok', hiff⟩ := hkeep s c t hok hstep hc
    exact ⟨hok', hiff.mpr hb⟩

/-- An area of two pages. -/
theorem keepsLists_twoPages :
    KeepsLists (fun _ => ⟨⟨0, 0, 0, 0⟩, 0⟩) [.insert 1 0x1000 0x3000 vmaRead 0x500] := by
  refine (keepsLists_iff ?_).mpr ?_
  · exact fun t _ => ⟨⟨by decide, by decide, Or.inr (by simp [VmaLists.empty])⟩, trivial⟩
  · exact fun t _ => ⟨fun _ => by decide, trivial⟩

/-- The last page of the address space, but for its last byte: the end wraps around to 0. -/
theorem not_keepsLists_lastPage :
    ¬ ∀ (node : Nat → VmaNode) (calls : List VmaCall),
      Run.EveryStep VmaLists.step (fun s c _ => s.Valid c) (VmaLists.empty node) calls →
        KeepsLists node calls := by
  intro h
  have hvalid : (VmaLists.empty fun _ => ⟨⟨0, 0, 0, 0⟩, 0⟩).Valid
      (.insert 1 0xFFFFF000 0xFFFFFFFF vmaRead 0x500) :=
    ⟨by decide, by decide, Or.inr (by simp [VmaLists.empty])⟩
  obtain ⟨s', hstep, -, hiff⟩ := ok_empty.step hvalid
  obtain ⟨-, hdelivers⟩ := h _ [_] fun t _ => ⟨hvalid, trivial⟩
  have hbelow := hiff.mp (hdelivers s' hstep).1
  exact absurd (hbelow (by decide)) (by decide)

end VmaLists

end PinguinOS.Proc
