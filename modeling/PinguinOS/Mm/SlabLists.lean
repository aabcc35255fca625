import PinguinOS.Lib.Linked
import PinguinOS.Mm.Slab

/-! The lists of a cache: every slab is on one of them, except one that is being moved. -/
namespace PinguinOS.Mm

open Linked

def SlabState.next (st : SlabState) (s : Nat) : Nat := (st.slab s).next

structure ListsOk (st : SlabState) (slabs : List Nat) (lists : SlabList → List Nat)
    (loose : Option Nat) : Prop where
  chain : ∀ li, Chain 0 st.next (st.cache.head li) (lists li)
  listed : ∀ li, ∀ s ∈ lists li, s ∈ slabs ∧ loose ≠ some s
  once : ∀ s li li', s ∈ lists li → s ∈ lists li' → li = li'
  owned : ∀ s ∈ slabs, loose = some s ∨ ∃ li, s ∈ lists li
  looseIn : ∀ s, loose = some s → s ∈ slabs ∧ s ≠ 0

variable {st st' : SlabState} {slabs xs ys : List Nat} {lists : SlabList → List Nat}
  {loose : Option Nat} {li lj : SlabList} {s prev : Nat} {c : SlabCache}

@[simp] theorem head_setHead_self : (c.setHead li s).head li = s := by
  cases li <;> rfl

theorem head_setHead_of_ne (h : lj ≠ li) : (c.setHead li s).head lj = c.head lj := by
  cases li <;> cases lj <;> first | rfl | exact absurd rfl h

theorem next_update {p : Nat} {d : SlabDesc} :
    (fun s => (Function.update st.slab p d s).next) = Function.update st.next p d.next := by
  funext s
  by_cases hs : s = p
  · subst hs
    rw [Function.update_self, Function.update_self]
  · rw [Function.update_of_ne hs, Function.update_of_ne hs]
    rfl

/-- Only the links and the heads count. -/
theorem ListsOk.congr (h : ListsOk st slabs lists loose) (hnext : st'.next = st.next)
    (hhead : st'.cache.head = st.cache.head) : ListsOk st' slabs lists loose := by
  refine ⟨?_, h.listed, h.once, h.owned, h.looseIn⟩
  rw [hnext, hhead]
  exact h.chain

theorem ListsOk.nodup (h : ListsOk st slabs lists loose) : (lists li).Nodup := (h.chain li).nodup

/-- The slab `s` of the list `li` becomes loose. -/
theorem ListsOk.takeOff (h : ListsOk st slabs lists none) (hli : lists li = xs ++ s :: ys)
    (hchain : Chain 0 st'.next (st'.cache.head li) (xs ++ ys))
    (hothers : ∀ lj, lj ≠ li → Chain 0 st'.next (st'.cache.head lj) (lists lj)) :
    ListsOk st' slabs (Function.update lists li (xs ++ ys)) (some s) := by
  have hs : s ∈ lists li := by simp [hli]
  have hnodup : (xs ++ s :: ys).Nodup := hli ▸ h.nodup
  have hout : s ∉ xs ++ ys := (List.nodup_middle.mp hnodup |> List.nodup_cons.mp).1
  have hsub : ∀ lj t, t ∈ Function.update lists li (xs ++ ys) lj → t ∈ lists lj ∧ t ≠ s := by
    intro lj t ht
    by_cases hlj : lj = li
    · subst hlj
      rw [Function.update_self] at ht
      refine ⟨?_, ne_of_mem_of_not_mem ht hout⟩
      rw [hli]
      rcases List.mem_append.mp ht with hx | hy
      · exact List.mem_append_left _ hx
      · exact List.mem_append_right _ (List.mem_cons_of_mem s hy)
    · rw [Function.update_of_ne hlj] at ht
      refine ⟨ht, ?_⟩
      rintro rfl
      exact hlj (h.once t lj li ht hs)
  refine ⟨?_, ?_, ?_, ?_, ?_⟩
  · intro lj
    by_cases hlj : lj = li
    · subst hlj
      rw [Function.update_self]
      exact hchain
    · rw [Function.update_of_ne hlj]
      exact hothers lj hlj
  · intro lj t ht
    obtain ⟨hmem, hne⟩ := hsub lj t ht
    exact ⟨(h.listed lj t hmem).1, fun heq => hne (Option.some.inj heq).symm⟩
  · intro t lj lk ht ht'
    exact h.once t lj lk (hsub lj t ht).1 (hsub lk t ht').1
  · intro t ht
    by_cases hts : t = s
    · exact Or.inl (congrArg some hts.symm)
    · obtain ⟨lj, hlj⟩ := (h.owned t ht).resolve_left (by simp)
      refine Or.inr ⟨lj, ?_⟩
      by_cases hl : lj = li
      · subst hl
        rw [Function.update_self]
        rw [hli] at hlj
        rcases List.mem_append.mp hlj with hx | hy
        · exact List.mem_append_left _ hx
        · exact List.mem_append_right _ (List.mem_of_ne_of_mem hts hy)
      · rwa [Function.update_of_ne hl]
  · intro t ht
    obtain rfl : s = t := Option.some.inj ht
    exact ⟨(h.listed li s hs).1, (h.chain li).ne_null hs⟩

theorem ListsOk.dropHead (h : ListsOk st slabs lists none) (hli : lists li = s :: ys) :
    ListsOk (st.dropHead li s) slabs (Function.update lists li ys) (some s) := by
  have hc := h.chain li
  rw [hli] at hc
  have hsplit : lists li = [] ++ s :: ys := hli
  refine h.takeOff hsplit ?_ fun lj hlj => ?_
  · change Chain 0 st.next ((st.cache.setHead li (st.slab s).next).head li) ys
    rw [head_setHead_self]
    exact hc.2.2
  · change Chain 0 st.next ((st.cache.setHead li (st.slab s).next).head lj) (lists lj)
    rw [head_setHead_of_ne hlj]
    exact h.chain lj

theorem ListsOk.unlinkAfter (h : ListsOk st slabs lists none)
    (hli : lists li = xs ++ prev :: s :: ys) :
    ListsOk (st.unlink li prev s) slabs (Function.update lists li (xs ++ prev :: ys)) (some s) := by
  have hc := h.chain li
  rw [hli] at hc
  have hprev : prev ∈ lists li := by simp [hli]
  have hne : prev ≠ 0 := (h.chain li).ne_null hprev
  have hnext : (st.unlink li prev s).next = Function.update st.next prev (st.next s) := by
    unfold SlabState.unlink
    rw [if_pos hne]
    exact next_update
  have hhead : (st.unlink li prev s).cache.head = st.cache.head := by
    unfold SlabState.unlink
    rw [if_pos hne]
  have hsplit : lists li = (xs ++ [prev]) ++ s :: ys := by simp [hli]
  have hjoin : xs ++ prev :: ys = (xs ++ [prev]) ++ ys := by simp
  rw [hjoin]
  refine h.takeOff hsplit ?_ fun lj hlj => ?_
  · rw [hnext, hhead, ← hjoin]
    exact hc.unlink
  · rw [hnext, hhead]
    refine (h.chain lj).update (fun hmem => hlj ?_) _
    exact h.once prev lj li hmem hprev

/-- `s->next = *head; *head = s` for the loose slab. -/
theorem ListsOk.push (h : ListsOk st slabs lists (some s)) :
    ListsOk (st.push li s) slabs (Function.update lists li (s :: lists li)) none := by
  have hout : ∀ lj, s ∉ lists lj := fun lj hs => (h.listed lj s hs).2 rfl
  obtain ⟨hslab, hnull⟩ := h.looseIn s rfl
  have hnext : (st.push li s).next = Function.update st.next s (st.cache.head li) := next_update
  have hsub : ∀ lj t, t ∈ Function.update lists li (s :: lists li) lj →
      lj = li ∧ t = s ∨ t ∈ lists lj := by
    intro lj t ht
    by_cases hlj : lj = li
    · subst hlj
      rw [Function.update_self] at ht
      rcases List.mem_cons.mp ht with rfl | ht
      · exact Or.inl ⟨rfl, rfl⟩
      · exact Or.inr ht
    · rw [Function.update_of_ne hlj] at ht
      exact Or.inr ht
  refine ⟨?_, ?_, ?_, ?_, fun t ht => by cases ht⟩
  · intro lj
    rw [hnext]
    change Chain 0 _ ((st.cache.setHead li s).head lj) _
    by_cases hlj : lj = li
    · subst hlj
      rw [Function.update_self, head_setHead_self]
      exact (h.chain lj).push (hout lj) hnull
    · rw [Function.update_of_ne hlj, head_setHead_of_ne hlj]
      exact (h.chain lj).update (hout lj) _
  · intro lj t ht
    refine ⟨?_, by simp⟩
    rcases hsub lj t ht with ⟨-, rfl⟩ | ht
    · exact hslab
    · exact (h.listed lj t ht).1
  · intro t lj lk ht ht'
    rcases hsub lj t ht with ⟨rfl, rfl⟩ | hmem
    · rcases hsub lk t ht' with ⟨rfl, -⟩ | hmem'
      · rfl
      · exact absurd hmem' (hout lk)
    · rcases hsub lk t ht' with ⟨rfl, rfl⟩ | hmem'
      · exact absurd hmem (hout lj)
      · exact h.once t lj lk hmem hmem'
  · intro t ht
    right
    rcases h.owned t ht with heq | ⟨lj, hlj⟩
    · obtain rfl : s = t := Option.some.inj heq
      refine ⟨li, ?_⟩
      rw [Function.update_self]
      exact List.mem_cons_self
    · refine ⟨lj, ?_⟩
      by_cases hl : lj = li
      · subst hl
        rw [Function.update_self]
        exact List.mem_cons_of_mem s hlj
      · rwa [Function.update_of_ne hl]

/-- A slab that `slab_new` has just made is loose. -/
theorem ListsOk.enter (h : ListsOk st slabs lists none) {d : SlabDesc} (hs : s ∉ slabs)
    (hnull : s ≠ 0) (hslab : st'.slab = Function.update st.slab s d)
    (hcache : st'.cache = st.cache) : ListsOk st' (s :: slabs) lists (some s) := by
  have hout : ∀ lj, s ∉ lists lj := fun lj hmem => hs (h.listed lj s hmem).1
  have hnext : st'.next = Function.update st.next s d.next := by
    rw [← next_update, ← hslab]
    rfl
  refine ⟨?_, ?_, h.once, ?_, ?_⟩
  · intro li
    rw [hnext, hcache]
    exact (h.chain li).update (hout li) _
  · intro li t ht
    refine ⟨List.mem_cons_of_mem s (h.listed li t ht).1, ?_⟩
    intro heq
    exact hout li (Option.some.inj heq ▸ ht)
  · intro t ht
    rcases List.mem_cons.mp ht with rfl | ht
    · exact Or.inl rfl
    · exact Or.inr ((h.owned t ht).resolve_left (by simp))
  · intro t ht
    obtain rfl : s = t := Option.some.inj ht
    exact ⟨List.mem_cons_self, hnull⟩

end PinguinOS.Mm
