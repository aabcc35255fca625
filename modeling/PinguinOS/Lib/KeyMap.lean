import PinguinOS.Lib.KeyTable
import Mathlib.Data.Finmap

/-! Tables that are searched by key, as finite maps: `put` inserts, `remove` erases. -/
namespace KeyTable

variable {κ ν : Type*} [DecidableEq κ] {t : Nat → Option (κ × ν)} {n i j : Nat} {k k' : κ} {v v' : ν}
  {m : Finmap fun _ : κ => ν}

/-- The first slot with the key is given up. -/
def remove (t : Nat → Option (κ × ν)) (n : Nat) (k : κ) : Nat → Option (κ × ν) :=
  match find t n k with
  | some i => Function.update t i none
  | none => t

/-- The table has the entries of the map, each in one slot. -/
structure Represents (t : Nat → Option (κ × ν)) (n : Nat) (m : Finmap fun _ : κ => ν) : Prop where
  unique : Unique t n
  lookup : ∀ k, get t n k = m.lookup k

theorem get_eq_none_iff : get t n k = none ↔ k ∉ keys t n := by
  constructor
  · intro h hmem
    obtain ⟨i, hi⟩ := Option.ne_none_iff_exists'.mp fun hnone => find_none.mp hnone hmem
    obtain ⟨-, hkey⟩ := find_some hi
    obtain ⟨x, hx, -⟩ := Option.map_eq_some_iff.mp hkey
    unfold get at h
    rw [hi, Option.bind_some, hx] at h
    cases h
  · intro h
    unfold get
    rw [find_none.mpr h]
    rfl

theorem Represents.keys (h : Represents t n m) : keys t n = m.keys := by
  ext k
  rw [Finmap.mem_keys, ← Finmap.lookup_isSome, ← h.lookup, Option.isSome_iff_ne_none, Ne,
    get_eq_none_iff, not_not]

/-- There is room for a key that is there, and for a new one as long as there are free slots. -/
theorem Represents.room_iff (v : ν) (h : Represents t n m) :
    Room t n k ↔ k ∈ m ∨ m.keys.card < n := by
  rw [KeyTable.room_iff v h.unique, h.keys]
  by_cases hmem : k ∈ m
  · rw [Finset.insert_eq_of_mem (Finmap.mem_keys.mpr hmem)]
    constructor
    · intro _
      exact .inl hmem
    · intro _
      exact h.keys ▸ card_keys_le
  · rw [Finset.card_insert_of_notMem fun hk => hmem (Finmap.mem_keys.mp hk)]
    constructor
    · exact .inr
    · rintro (hk | hlt)
      · exact absurd hk hmem
      · exact hlt

theorem Represents.find_eq_none (h : Represents t n m) : find t n k = none ↔ k ∉ m := by
  rw [find_none, h.keys, Finmap.mem_keys]

theorem represents_put (h : Represents t n m) (hroom : Room t n k) :
    Represents (put t n k v) n (m.insert k v) where
  unique := unique_put h.unique
  lookup := by
    intro key
    by_cases hkey : key = k
    · subst hkey
      rw [get_put_self h.unique hroom, Finmap.lookup_insert]
    · rw [Finmap.lookup_insert_of_ne _ hkey, ← h.lookup]
      cases hget : get t n key with
      | some w => exact get_put_of_ne h.unique hkey hget
      | none =>
        rw [get_eq_none_iff] at hget ⊢
        rw [keys_put hroom, Finset.mem_insert]
        rintro (heq | hmem)
        · exact hkey heq
        · exact hget hmem

theorem put_full (hroom : ¬ Room t n k) : put t n k v = t := by
  rcases put_cases t n k v with ⟨i, hi, -, hsome, -⟩ | ⟨hput, -⟩
  · exact absurd hsome hroom
  · exact hput

/-- What `remove` does with a slot. -/
theorem remove_slot (t : Nat → Option (κ × ν)) (n : Nat) (k : κ) (i : Nat) :
    (find t n k = some i ∧ remove t n k i = none) ∨
    (find t n k ≠ some i ∧ remove t n k i = t i) := by
  unfold remove
  cases hk : find t n k with
  | none => exact .inr ⟨by simp, rfl⟩
  | some j =>
    dsimp only
    by_cases hij : i = j
    · subst hij
      exact .inl ⟨rfl, Function.update_self _ _ _⟩
    · refine .inr ⟨?_, Function.update_of_ne hij _ _⟩
      intro heq
      cases heq
      exact hij rfl

theorem unique_remove (h : Unique t n) : Unique (remove t n k) n := by
  intro i hi j hj key hkeyi hkeyj
  rcases remove_slot t n k i with ⟨-, heq⟩ | ⟨-, heq⟩
  · rw [heq] at hkeyi
    cases hkeyi
  · rcases remove_slot t n k j with ⟨-, heq'⟩ | ⟨-, heq'⟩
    · rw [heq'] at hkeyj
      cases hkeyj
    · rw [heq] at hkeyi
      rw [heq'] at hkeyj
      exact h i hi j hj key hkeyi hkeyj

theorem get_remove_self (h : Unique t n) : get (remove t n k) n k = none := by
  rw [get_eq_none_iff, mem_keys]
  rintro ⟨i, hi, hkey⟩
  rcases remove_slot t n k i with ⟨-, heq⟩ | ⟨hne, heq⟩
  · rw [heq] at hkey
    cases hkey
  · rw [heq] at hkey
    cases hfind : find t n k with
    | none => exact find_none.mp hfind (mem_keys.mpr ⟨i, hi, hkey⟩)
    | some j =>
      obtain ⟨hj, hkeyj⟩ := find_some hfind
      cases h i hi j hj k hkey hkeyj
      exact hne hfind

theorem get_remove_of_ne (h : Unique t n) (hne : k' ≠ k) :
    get (remove t n k) n k' = get t n k' := by
  cases hget : get t n k' with
  | some w =>
    obtain ⟨i, hi, hsome⟩ := get_some hget
    refine get_eq (unique_remove h) hi ?_
    rcases remove_slot t n k i with ⟨hfind, -⟩ | ⟨-, heq⟩
    · obtain ⟨-, hkeyi⟩ := find_some hfind
      rw [hsome] at hkeyi
      cases hkeyi
      exact absurd rfl hne
    · rw [heq, hsome]
  | none =>
    rw [get_eq_none_iff, mem_keys] at hget ⊢
    rintro ⟨i, hi, hkey⟩
    rcases remove_slot t n k i with ⟨-, heq⟩ | ⟨-, heq⟩
    · rw [heq] at hkey
      cases hkey
    · exact hget ⟨i, hi, heq ▸ hkey⟩

theorem represents_remove (h : Represents t n m) : Represents (remove t n k) n (m.erase k) where
  unique := unique_remove h.unique
  lookup := by
    intro key
    by_cases hkey : key = k
    · subst hkey
      rw [get_remove_self h.unique, Finmap.lookup_erase]
    · rw [get_remove_of_ne h.unique hkey, Finmap.lookup_erase_ne hkey, h.lookup]

theorem represents_empty : Represents (fun _ => none) n (∅ : Finmap fun _ : κ => ν) where
  unique := by
    intro i hi j hj key hkey
    cases hkey
  lookup := by
    intro key
    rw [Finmap.lookup_empty, get_eq_none_iff, mem_keys]
    rintro ⟨i, hi, hkey⟩
    cases hkey

end KeyTable
