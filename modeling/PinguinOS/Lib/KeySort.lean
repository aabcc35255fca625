import Mathlib.Data.List.Sort

/-! Lists that are sorted by a key, when an insertion goes in front of equal keys. -/
namespace KeySort

variable {α : Type*} {key : α → Nat} {l m : List α} {a : α} {k : Nat}

/-- `a` comes no later than `b`. -/
def KeyLe (key : α → Nat) (a b : α) : Prop := key a ≤ key b

instance : DecidableRel (KeyLe key) := fun a b => inferInstanceAs (Decidable (key a ≤ key b))

instance : Std.Total (KeyLe key) := ⟨fun a b => Nat.le_total (key a) (key b)⟩

instance : IsTrans α (KeyLe key) := ⟨fun _ _ _ => Nat.le_trans⟩

/-- Put `a` in front of the first element whose key is not smaller. -/
def insertKey (key : α → Nat) (a : α) (l : List α) : List α := l.orderedInsert (KeyLe key) a

def Sorted (key : α → Nat) (l : List α) : Prop := l.Pairwise (KeyLe key)

/-- The elements of key `k`, in the order of the list. -/
def group (key : α → Nat) (k : Nat) (l : List α) : List α := l.filter fun a => key a = k

theorem Sorted.insertKey (h : Sorted key l) : Sorted key (KeySort.insertKey key a l) :=
  List.Pairwise.orderedInsert a l h

theorem mem_insertKey {b : α} : b ∈ insertKey key a l ↔ b = a ∨ b ∈ l :=
  List.mem_orderedInsert _

theorem group_cons :
    group key k (a :: l) = if key a = k then a :: group key k l else group key k l := by
  unfold group
  rw [List.filter_cons]
  simp only [decide_eq_true_eq]

/-- The inserted element becomes the first of its group. -/
theorem group_insertKey (h : Sorted key l) :
    group key k (insertKey key a l) = group key k (a :: l) := by
  induction l with
  | nil => rfl
  | cons b l ih =>
    obtain ⟨hb, hl⟩ := List.pairwise_cons.mp h
    unfold insertKey
    rw [List.orderedInsert_cons]
    split_ifs with hab
    · rfl
    · have hlt : key b < key a := Nat.lt_of_not_le hab
      change group key k (b :: insertKey key a l) = _
      rw [group_cons, ih hl]
      simp only [group_cons]
      split_ifs with hkb hka
      · omega
      · rfl
      · rfl
      · rfl

/-- The inserted element sits behind the smaller keys. -/
theorem modify_insertKey {f : α → α} (hf : key (f a) = key a) :
    (insertKey key a l).modify (l.takeWhile fun b => key b < key a).length f =
      insertKey key (f a) l := by
  induction l with
  | nil => rfl
  | cons b l ih =>
    unfold insertKey at ih ⊢
    rw [List.orderedInsert_cons, List.orderedInsert_cons, List.takeWhile_cons]
    by_cases hb : key a ≤ key b
    · have hfb : KeyLe key (f a) b := by
        unfold KeyLe
        omega
      have hnot : ¬ key b < key a := by omega
      rw [if_pos (show KeyLe key a b from hb), if_pos hfb]
      simp only [hnot, decide_false, Bool.false_eq_true, if_false]
      rfl
    · have hfb : ¬ KeyLe key (f a) b := by
        unfold KeyLe
        omega
      have hlt : key b < key a := by omega
      rw [if_neg (show ¬ KeyLe key a b from hb), if_neg hfb]
      simp only [hlt, decide_true, if_true, List.length_cons]
      exact congrArg (b :: ·) ih

theorem map_insertKey {β : Type*} {key' : β → Nat} (f : α → β) (hf : ∀ a, key' (f a) = key a) :
    (insertKey key a l).map f = insertKey key' (f a) (l.map f) := by
  unfold insertKey
  refine List.map_orderedInsert (KeyLe key) (KeyLe key') f l a ?_ ?_
  · intro b _
    unfold KeyLe
    rw [hf, hf]
  · intro b _
    unfold KeyLe
    rw [hf, hf]

/-- A sorted list starts with the group of its first element's key. -/
theorem Sorted.head_eq {b : α} (h : Sorted key (a :: l)) (hm : Sorted key (b :: m))
    (hgroup : ∀ k, group key k (a :: l) = group key k (b :: m)) : a = b := by
  obtain ⟨ha, _⟩ := List.pairwise_cons.mp h
  obtain ⟨hb, _⟩ := List.pairwise_cons.mp hm
  have hkey : key a = key b := by
    apply Nat.le_antisymm
    · have hmem : b ∈ group key (key b) (a :: l) := by
        rw [hgroup, group_cons, if_pos rfl]
        exact List.mem_cons_self
      rcases List.mem_cons.mp (List.mem_of_mem_filter hmem) with rfl | hin
      · exact Nat.le_refl _
      · exact ha b hin
    · have hmem : a ∈ group key (key a) (b :: m) := by
        rw [← hgroup, group_cons, if_pos rfl]
        exact List.mem_cons_self
      rcases List.mem_cons.mp (List.mem_of_mem_filter hmem) with rfl | hin
      · exact Nat.le_refl _
      · exact hb a hin
  have hfirst := hgroup (key a)
  rw [group_cons, if_pos rfl, group_cons, if_pos hkey.symm] at hfirst
  exact (List.cons.inj hfirst).1

/-- A sorted list is determined by its groups. -/
theorem Sorted.eq_of_group (h : Sorted key l) (hm : Sorted key m)
    (hgroup : ∀ k, group key k l = group key k m) : l = m := by
  induction l generalizing m with
  | nil =>
    cases m with
    | nil => rfl
    | cons b m =>
      have hb := hgroup (key b)
      rw [group_cons, if_pos rfl] at hb
      exact (nomatch hb)
  | cons a l ih =>
    cases m with
    | nil =>
      have ha := hgroup (key a)
      rw [group_cons, if_pos rfl] at ha
      exact (nomatch ha)
    | cons b m =>
      obtain rfl := h.head_eq hm hgroup
      congr 1
      apply ih (List.pairwise_cons.mp h).2 (List.pairwise_cons.mp hm).2
      intro k
      have hk := hgroup k
      rw [group_cons, group_cons] at hk
      split_ifs at hk with hak
      · exact (List.cons.inj hk).2
      · exact hk

/-- Insert the elements of a list one after the other. -/
def insertAll (key : α → Nat) (l acc : List α) : List α :=
  l.foldl (fun acc a => insertKey key a acc) acc

theorem Sorted.insertAll (h : Sorted key m) : Sorted key (KeySort.insertAll key l m) := by
  induction l generalizing m with
  | nil => exact h
  | cons a l ih => exact ih h.insertKey

theorem map_insertAll {β : Type*} {key' : β → Nat} (f : α → β) (hf : ∀ a, key' (f a) = key a) :
    (insertAll key l m).map f = insertAll key' (l.map f) (m.map f) := by
  induction l generalizing m with
  | nil => rfl
  | cons a l ih =>
    change (insertAll key l (insertKey key a m)).map f = _
    rw [ih, map_insertKey f hf]
    rfl

theorem mem_insertAll {b : α} (hb : b ∈ insertAll key l m) : b ∈ l ∨ b ∈ m := by
  induction l generalizing m with
  | nil => exact Or.inr hb
  | cons a l ih =>
    rcases ih hb with hl | hm
    · exact Or.inl (List.mem_cons_of_mem a hl)
    · rcases mem_insertKey.mp hm with rfl | hin
      · exact Or.inl List.mem_cons_self
      · exact Or.inr hin

theorem group_insertAll (h : Sorted key m) :
    group key k (insertAll key l m) = (group key k l).reverse ++ group key k m := by
  induction l generalizing m with
  | nil => rfl
  | cons a l ih =>
    change group key k (KeySort.insertAll key l (KeySort.insertKey key a m)) = _
    rw [ih h.insertKey, group_insertKey h, group_cons, group_cons]
    split_ifs with ha
    · rw [List.reverse_cons, List.append_assoc, List.singleton_append]
    · rfl

/-- Copying a sorted list element by element turns each group around. -/
theorem Sorted.insertAll_eq_iff (h : Sorted key l) :
    KeySort.insertAll key l [] = l ↔ ∀ k, (group key k l).reverse = group key k l := by
  have hnil : Sorted key ([] : List α) := List.Pairwise.nil
  have hgroup : ∀ k, group key k (KeySort.insertAll key l []) = (group key k l).reverse := by
    intro k
    rw [group_insertAll hnil]
    exact List.append_nil _
  constructor
  · intro heq k
    rw [← hgroup, heq]
  · intro hrev
    apply (hnil.insertAll).eq_of_group h
    intro k
    rw [hgroup, hrev]

end KeySort
