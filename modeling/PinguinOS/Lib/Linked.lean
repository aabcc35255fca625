import Mathlib.Data.List.Nodup
import Mathlib.Logic.Function.Basic

/-! Singly linked lists: the nodes that following a link visits before it meets the null link. -/
namespace Linked

variable {α : Type*}

/-- From `a` on, the links of `next` visit the nodes of the list and then end. -/
def Chain (null : α) (next : α → α) : α → List α → Prop
  | a, [] => a = null
  | a, b :: l => a = b ∧ b ≠ null ∧ Chain null next (next b) l

variable {null a b s : α} {next next' : α → α} {l l' xs ys : List α}

@[simp] theorem chain_nil : Chain null next a [] ↔ a = null := Iff.rfl

@[simp] theorem chain_cons : Chain null next a (b :: l) ↔
    a = b ∧ b ≠ null ∧ Chain null next (next b) l := Iff.rfl

theorem Chain.ne_null (h : Chain null next a l) (hb : b ∈ l) : b ≠ null := by
  induction l generalizing a with
  | nil => cases hb
  | cons c l ih =>
    rcases List.mem_cons.mp hb with rfl | hb
    · exact h.2.1
    · exact ih h.2.2 hb

/-- A chain depends on the links of its nodes only. -/
theorem Chain.congr (h : Chain null next a l) (hnext : ∀ b ∈ l, next' b = next b) :
    Chain null next' a l := by
  induction l generalizing a with
  | nil => exact h
  | cons c l ih =>
    refine ⟨h.1, h.2.1, ?_⟩
    rw [hnext c (by simp)]
    exact ih h.2.2 fun b hb => hnext b (List.mem_cons_of_mem c hb)

theorem Chain.unique (h : Chain null next a l) (h' : Chain null next a l') : l = l' := by
  induction l generalizing a l' with
  | nil =>
    cases l' with
    | nil => rfl
    | cons c l' => exact absurd (h'.1.symm.trans h) h'.2.1
  | cons b l ih =>
    cases l' with
    | nil => exact absurd (h.1.symm.trans h') h.2.1
    | cons c l' =>
      obtain rfl : b = c := h.1.symm.trans h'.1
      rw [ih h.2.2 h'.2.2]

theorem Chain.tail (h : Chain null next a (xs ++ ys)) : ∃ c, Chain null next c ys := by
  induction xs generalizing a with
  | nil => exact ⟨a, h⟩
  | cons b xs ih => exact ih h.2.2

/-- Following links never comes back to a node. -/
theorem Chain.nodup (h : Chain null next a l) : l.Nodup := by
  induction l generalizing a with
  | nil => exact List.nodup_nil
  | cons b l ih =>
    refine List.nodup_cons.mpr ⟨fun hb => ?_, ih h.2.2⟩
    -- the rest of the list from the second visit of `b` would be a longer list than itself
    obtain ⟨xs, ys, rfl⟩ := List.append_of_mem hb
    obtain ⟨c, htail⟩ := h.2.2.tail
    have hsame := Chain.unique (htail.2.2) h.2.2
    have hlength := congrArg List.length hsame
    simp only [List.length_append, List.length_cons] at hlength
    omega

/-- From a node on, the rest of the list is a chain. -/
theorem Chain.rest (h : Chain null next a (xs ++ b :: ys)) : Chain null next (next b) ys := by
  obtain ⟨c, hc⟩ := h.tail
  exact hc.2.2

/-- A link leads to a node of the list. -/
theorem Chain.next_mem (h : Chain null next a l) (hb : b ∈ l) (hne : next b ≠ null) :
    next b ∈ l := by
  obtain ⟨xs, ys, rfl⟩ := List.append_of_mem hb
  have hrest := h.rest
  cases ys with
  | nil => exact absurd hrest hne
  | cons c ys =>
    rw [hrest.1]
    exact List.mem_append_right _ (List.mem_cons_of_mem b List.mem_cons_self)

/-- No link leads back to the first node. -/
theorem Chain.next_ne_first (h : Chain null next a l) (hb : b ∈ l) : next b ≠ a := by
  intro heq
  obtain ⟨xs, ys, rfl⟩ := List.append_of_mem hb
  have hsame := (heq ▸ h.rest).unique h
  have hlength := congrArg List.length hsame
  simp only [List.length_append, List.length_cons] at hlength
  omega

/-- Two nodes have the same link only at the end. -/
theorem Chain.next_inj {c : α} (h : Chain null next a l) (hb : b ∈ l) (hc : c ∈ l)
    (heq : next b = next c) : b = c := by
  obtain ⟨xs, ys, hl⟩ := List.append_of_mem hb
  obtain ⟨xs', ys', hl'⟩ := List.append_of_mem hc
  have hrest : Chain null next (next b) ys := (hl ▸ h).rest
  have hrest' : Chain null next (next b) ys' := heq ▸ (hl' ▸ h).rest
  obtain rfl := hrest.unique hrest'
  have hsplit : xs ++ b :: ys = xs' ++ c :: ys := hl.symm.trans hl'
  have hsame := List.append_inj_right' hsplit rfl
  exact (List.cons.inj hsame).1

/-! Walking along the places that hold a link: `none` is the place of the first one. -/

/-- `*pp` -/
def load (first : α) (next : α → α) : Option α → α
  | none => first
  | some b => next b

/-- `*pp = c`, as far as `pp` is the place of the first link. -/
def storeFirst (first : α) (c : α) : Option α → α
  | none => c
  | some _ => first

/-- Behind a front part stands the first node of the rest. -/
theorem Chain.load {first : α} (h : Chain null next first (xs ++ ys)) :
    load first next xs.getLast? = ys.head?.getD null := by
  induction xs generalizing first with
  | nil =>
    cases ys with
    | nil => exact h
    | cons b ys => exact h.1
  | cons b xs ih =>
    have hrest := ih h.2.2
    cases xs with
    | nil => exact hrest
    | cons c xs =>
      rw [List.getLast?_cons_cons]
      cases hlast : (c :: xs).getLast? with
      | none => exact absurd (List.getLast?_eq_none_iff.mp hlast) (List.cons_ne_nil c xs)
      | some d =>
        rw [hlast] at hrest
        exact hrest

variable [DecidableEq α]

/-- Links of other nodes may change. -/
theorem Chain.update (h : Chain null next a l) (hs : s ∉ l) (b : α) :
    Chain null (Function.update next s b) a l :=
  h.congr fun _ hc => Function.update_of_ne (ne_of_mem_of_not_mem hc hs) b next

/-- A new node in front. -/
theorem Chain.push (h : Chain null next a l) (hs : s ∉ l) (hnull : s ≠ null) :
    Chain null (Function.update next s a) s (s :: l) := by
  refine ⟨rfl, hnull, ?_⟩
  rw [Function.update_self]
  exact h.update hs a

/-- The link of the last node before `s` is set past `s`. -/
theorem Chain.unlink (h : Chain null next a (xs ++ b :: s :: ys)) :
    Chain null (Function.update next b (next s)) a (xs ++ b :: ys) := by
  have hnodup := h.nodup
  induction xs generalizing a with
  | nil =>
    obtain ⟨hb, hnull, hs, -, hrest⟩ := h
    have hout : b ∉ ys := by
      intro hmem
      exact (List.nodup_cons.mp hnodup).1 (List.mem_cons_of_mem s hmem)
    refine ⟨hb, hnull, ?_⟩
    rw [Function.update_self]
    exact hrest.update hout _
  | cons c xs ih =>
    obtain ⟨hc, hnull, hrest⟩ := h
    have hne : c ≠ b := by
      rintro rfl
      exact (List.nodup_cons.mp hnodup).1 (by simp)
    refine ⟨hc, hnull, ?_⟩
    rw [Function.update_of_ne hne]
    exact ih hrest (List.nodup_cons.mp hnodup).2

/-- `*pp = c`, as far as `pp` is the place in a node. -/
def storeNext (next : α → α) (c : α) : Option α → α → α
  | none => next
  | some b => Function.update next b c

/-- `while (*pp && p(*pp)) pp = &(*pp)->next`, for at most so many nodes. -/
def seek (null first : α) (next : α → α) (p : α → Bool) : Nat → Option α → Option (Option α)
  | 0, _ => none
  | fuel + 1, pp =>
    if load first next pp ≠ null ∧ p (load first next pp) then
      seek null first next p fuel (some (load first next pp))
    else some pp

variable {first : α} {p : α → Bool} {fuel : Nat} {pp : Option α}

theorem seek_from (h : Chain null next (load first next pp) l) (hfuel : l.length < fuel) :
    seek null first next p fuel pp = some ((l.takeWhile p).getLast?.or pp) := by
  induction l generalizing fuel pp with
  | nil =>
    cases fuel with
    | zero => exact absurd hfuel (Nat.not_lt_zero _)
    | succ fuel =>
      have hend : ¬ (load first next pp ≠ null ∧ p (load first next pp)) := fun hnot => hnot.1 h
      rw [seek, if_neg hend]
      rfl
  | cons b l ih =>
    obtain ⟨hb, hnull, hrest⟩ := h
    have hrest : Chain null next (load first next (some b)) l := hrest
    cases fuel with
    | zero => exact absurd hfuel (Nat.not_lt_zero _)
    | succ fuel =>
      rw [seek, hb]
      by_cases hp : p b = true
      · rw [if_pos ⟨hnull, hp⟩, ih hrest (Nat.lt_of_succ_lt_succ hfuel),
          List.takeWhile_cons_of_pos hp, List.getLast?_cons]
        cases (l.takeWhile p).getLast? <;> rfl
      · rw [if_neg fun hnot => hp hnot.2, List.takeWhile_cons_of_neg hp]
        rfl

/-- The walk stops behind the last node of the front part. -/
theorem Chain.seek (h : Chain null next first l) (hfuel : l.length < fuel) :
    seek null first next p fuel none = some (l.takeWhile p).getLast? := by
  rw [seek_from h hfuel, Option.or_none]

/-- A new node behind a front part. -/
theorem Chain.insert (h : Chain null next first (xs ++ ys)) (hs : s ∉ xs ++ ys) (hnull : s ≠ null) :
    Chain null
      (storeNext (Function.update next s (Linked.load first next xs.getLast?)) s xs.getLast?)
      (storeFirst first s xs.getLast?) (xs ++ s :: ys) := by
  induction xs generalizing first with
  | nil => exact h.push hs hnull
  | cons b xs ih =>
    have hnodup := h.nodup
    obtain ⟨hb, hbnull, hrest⟩ := h
    have hsrest : s ∉ xs ++ ys := fun hmem => hs (List.mem_cons_of_mem b hmem)
    have hbs : b ≠ s := by
      rintro rfl
      exact hs List.mem_cons_self
    have hbrest : b ∉ xs ++ ys := (List.nodup_cons.mp hnodup).1
    cases xs with
    | nil =>
      -- the new node comes right behind `b`
      refine ⟨hb, hbnull, ?_⟩
      have hpush := hrest.push hsrest hnull
      have hbpush : b ∉ s :: ys := by
        intro hmem
        rcases List.mem_cons.mp hmem with heq | hmem
        · exact hbs heq
        · exact hbrest hmem
      have hlink : Function.update (Function.update next s (next b)) b s b = s :=
        Function.update_self _ _ _
      change Chain null (Function.update (Function.update next s (next b)) b s)
        (Function.update (Function.update next s (next b)) b s b) (s :: ys)
      rw [hlink]
      exact hpush.update hbpush s
    | cons c xs =>
      have hlast : (b :: c :: xs).getLast? = (c :: xs).getLast? := List.getLast?_cons_cons
      obtain ⟨d, hd⟩ : ∃ d, (c :: xs).getLast? = some d :=
        ⟨_, List.getLast?_eq_some_getLast (List.cons_ne_nil c xs)⟩
      have hdmem : d ∈ c :: xs := List.mem_of_getLast? hd
      have hbd : b ≠ d := by
        rintro rfl
        exact hbrest (List.mem_append_left ys hdmem)
      have hmore := ih hrest hsrest
      rw [hlast, hd]
      rw [hd] at hmore
      refine ⟨hb, hbnull, ?_⟩
      have hlink : Function.update (Function.update next s (next d)) d s b = next b := by
        rw [Function.update_of_ne hbd, Function.update_of_ne hbs]
      change Chain null (Function.update (Function.update next s (next d)) d s)
        (Function.update (Function.update next s (next d)) d s b) _
      rw [hlink]
      exact hmore

/-- A node behind a front part is taken out. -/
theorem Chain.remove (h : Chain null next first (xs ++ s :: ys)) :
    Chain null (storeNext next (next s) xs.getLast?) (storeFirst first (next s) xs.getLast?)
      (xs ++ ys) := by
  rcases List.eq_nil_or_concat xs with rfl | ⟨front, b, rfl⟩
  · exact h.2.2
  · rw [List.concat_eq_append, List.append_assoc, List.singleton_append] at h
    rw [List.concat_eq_append, List.getLast?_concat, List.append_assoc, List.singleton_append]
    exact h.unlink

end Linked
