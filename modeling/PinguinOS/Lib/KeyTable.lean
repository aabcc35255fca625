import Mathlib.Data.Finset.Option
import Mathlib.Data.List.Basic
import Mathlib.Logic.Function.Basic

/-! Tables of `n` slots that are searched by key, and that never give a slot up. -/
namespace KeyTable

variable {κ ν : Type*} [DecidableEq κ] {t : Nat → Option (κ × ν)} {n i j : Nat} {k k' : κ} {v v' : ν}

/-- The first slot with key `k`. -/
def find (t : Nat → Option (κ × ν)) (n : Nat) (k : κ) : Option Nat :=
  (List.range n).find? fun i => (t i).map Prod.fst = some k

omit [DecidableEq κ] in
def free (t : Nat → Option (κ × ν)) (n : Nat) : Option Nat :=
  (List.range n).find? fun i => (t i).isNone

def get (t : Nat → Option (κ × ν)) (n : Nat) (k : κ) : Option ν :=
  (find t n k).bind fun i => (t i).map Prod.snd

/-- The value of a key is replaced; a new key goes into the first free slot, if there is one. -/
def put (t : Nat → Option (κ × ν)) (n : Nat) (k : κ) (v : ν) : Nat → Option (κ × ν) :=
  match find t n k with
  | some i => Function.update t i (some (k, v))
  | none =>
    match free t n with
    | some i => Function.update t i (some (k, v))
    | none => t

/-- No key is in two slots. -/
def Unique (t : Nat → Option (κ × ν)) (n : Nat) : Prop :=
  ∀ i < n, ∀ j < n, ∀ k, (t i).map Prod.fst = some k → (t j).map Prod.fst = some k → i = j

def keys (t : Nat → Option (κ × ν)) (n : Nat) : Finset κ :=
  Finset.eraseNone ((Finset.range n).image fun i => (t i).map Prod.fst)

/-- `put` has a slot for `k`. -/
def Room (t : Nat → Option (κ × ν)) (n : Nat) (k : κ) : Prop :=
  find t n k ≠ none ∨ free t n ≠ none

theorem mem_keys : k ∈ keys t n ↔ ∃ i < n, (t i).map Prod.fst = some k := by
  unfold keys
  rw [Finset.mem_eraseNone, Finset.mem_image]
  constructor
  · rintro ⟨i, hi, hk⟩
    exact ⟨i, Finset.mem_range.mp hi, hk⟩
  · rintro ⟨i, hi, hk⟩
    exact ⟨i, Finset.mem_range.mpr hi, hk⟩

theorem find_some (h : find t n k = some i) : i < n ∧ (t i).map Prod.fst = some k := by
  have hmem := List.mem_of_find?_eq_some h
  have hkey := List.find?_some h
  exact ⟨List.mem_range.mp hmem, of_decide_eq_true hkey⟩

theorem find_none : find t n k = none ↔ k ∉ keys t n := by
  rw [mem_keys]
  unfold find
  rw [List.find?_eq_none]
  constructor
  · rintro h ⟨i, hi, hk⟩
    exact h i (List.mem_range.mpr hi) (decide_eq_true hk)
  · intro h i hi hk
    exact h ⟨i, List.mem_range.mp hi, of_decide_eq_true hk⟩

omit [DecidableEq κ] in
theorem free_some (h : free t n = some i) : i < n ∧ t i = none := by
  have hmem := List.mem_of_find?_eq_some h
  have hnone := List.find?_some h
  exact ⟨List.mem_range.mp hmem, Option.isNone_iff_eq_none.mp hnone⟩

omit [DecidableEq κ] in
theorem free_none (h : free t n = none) (hi : i < n) : t i ≠ none := by
  intro hnone
  exact List.find?_eq_none.mp h i (List.mem_range.mpr hi) (Option.isNone_iff_eq_none.mpr hnone)

theorem get_eq (h : Unique t n) (hi : i < n) (hk : t i = some (k, v)) : get t n k = some v := by
  unfold get
  cases hfind : find t n k with
  | none =>
    have hmem : k ∈ keys t n := mem_keys.mpr ⟨i, hi, by rw [hk]; rfl⟩
    exact absurd hmem (find_none.mp hfind)
  | some j =>
    obtain ⟨hj, hkey⟩ := find_some hfind
    cases h i hi j hj k (by rw [hk]; rfl) hkey
    rw [Option.bind_some, hk]
    rfl

theorem get_some (h : get t n k = some v) : ∃ i < n, t i = some (k, v) := by
  obtain ⟨i, hfind, hv⟩ := Option.bind_eq_some_iff.mp h
  obtain ⟨hi, hkey⟩ := find_some hfind
  obtain ⟨⟨k', v'⟩, hslot, hk⟩ := Option.map_eq_some_iff.mp hkey
  rw [hslot] at hv
  cases hk
  cases hv
  exact ⟨i, hi, hslot⟩

/-- What `put` does: it writes one slot, which was free or had the key, or it has no room. -/
theorem put_cases (t : Nat → Option (κ × ν)) (n : Nat) (k : κ) (v : ν) :
    (∃ i < n, put t n k v = Function.update t i (some (k, v)) ∧ Room t n k ∧
      ((t i).map Prod.fst = some k ∨ t i = none ∧ k ∉ keys t n)) ∨
    (put t n k v = t ∧ ¬ Room t n k ∧ k ∉ keys t n ∧ ∀ i < n, t i ≠ none) := by
  unfold put Room
  cases hfind : find t n k with
  | some i =>
    obtain ⟨hi, hkey⟩ := find_some hfind
    exact .inl ⟨i, hi, rfl, .inl (by simp), .inl hkey⟩
  | none =>
    have hnew := find_none.mp hfind
    cases hfree : free t n with
    | some i =>
      obtain ⟨hi, hnone⟩ := free_some hfree
      exact .inl ⟨i, hi, rfl, .inr (by simp), .inr ⟨hnone, hnew⟩⟩
    | none => exact .inr ⟨rfl, by simp, hnew, fun i hi => free_none hfree hi⟩

/-- The slot that `put` writes is the only one with its key. -/
theorem unique_update (h : Unique t n) (hi : i < n)
    (hslot : (t i).map Prod.fst = some k ∨ t i = none ∧ k ∉ keys t n) :
    Unique (Function.update t i (some (k, v))) n := by
  have hother : ∀ j < n, j ≠ i → (t j).map Prod.fst ≠ some k := by
    intro j hj hne hkey
    rcases hslot with hsame | ⟨_, hnew⟩
    · exact hne (h j hj i hi k hkey hsame)
    · exact hnew (mem_keys.mpr ⟨j, hj, hkey⟩)
  intro a ha b hb key hka hkb
  by_cases hai : a = i
  · subst hai
    rw [Function.update_self] at hka
    cases hka
    by_contra hab
    rw [Function.update_of_ne (Ne.symm hab)] at hkb
    exact hother b hb (Ne.symm hab) hkb
  · rw [Function.update_of_ne hai] at hka
    by_cases hbi : b = i
    · subst hbi
      rw [Function.update_self] at hkb
      cases hkb
      exact absurd hka (hother a ha hai)
    · rw [Function.update_of_ne hbi] at hkb
      exact h a ha b hb key hka hkb

theorem unique_put (h : Unique t n) : Unique (put t n k v) n := by
  rcases put_cases t n k v with ⟨i, hi, hput, -, hslot⟩ | ⟨hput, -⟩
  · rw [hput]
    exact unique_update h hi hslot
  · rw [hput]
    exact h

/-- A key that was put is found, if there was room. -/
theorem get_put_self (h : Unique t n) (hroom : Room t n k) : get (put t n k v) n k = some v := by
  have hunique := unique_put (v := v) (k := k) h
  rcases put_cases t n k v with ⟨i, hi, hput, -, hslot⟩ | ⟨-, hfull, -⟩
  · refine get_eq hunique hi ?_
    rw [hput, Function.update_self]
  · exact absurd hroom hfull

theorem get_put_full (hroom : ¬ Room t n k) : get (put t n k v) n k = none := by
  rcases put_cases t n k v with ⟨i, hi, -, hsome, -⟩ | ⟨hput, -, hnew, -⟩
  · exact absurd hsome hroom
  · rw [hput]
    unfold get
    rw [find_none.mpr hnew]
    rfl

theorem get_put_of_ne (h : Unique t n) (hne : k' ≠ k) (hget : get t n k' = some v') :
    get (put t n k v) n k' = some v' := by
  have hunique := unique_put (v := v) (k := k) h
  obtain ⟨j, hj, hslot'⟩ := get_some hget
  rcases put_cases t n k v with ⟨i, hi, hput, -, hslot⟩ | ⟨hput, -⟩
  · refine get_eq hunique hj ?_
    have hji : j ≠ i := by
      rintro rfl
      rw [hslot'] at hslot
      rcases hslot with hsame | ⟨hnone, -⟩
      · cases hsame
        exact hne rfl
      · cases hnone
    rw [hput, Function.update_of_ne hji, hslot']
  · rw [hput]
    exact hget

theorem keys_put (hroom : Room t n k) : keys (put t n k v) n = insert k (keys t n) := by
  rcases put_cases t n k v with ⟨i, hi, hput, -, hslot⟩ | ⟨-, hfull, -⟩
  · ext key
    rw [hput, Finset.mem_insert, mem_keys, mem_keys]
    constructor
    · rintro ⟨j, hj, hkey⟩
      by_cases hji : j = i
      · subst hji
        rw [Function.update_self] at hkey
        cases hkey
        exact .inl rfl
      · rw [Function.update_of_ne hji] at hkey
        exact .inr ⟨j, hj, hkey⟩
    · rintro (rfl | ⟨j, hj, hkey⟩)
      · exact ⟨i, hi, by rw [Function.update_self]; rfl⟩
      · by_cases hji : j = i
        · subst hji
          refine ⟨j, hj, ?_⟩
          rw [Function.update_self]
          rcases hslot with hsame | ⟨hnone, -⟩
          · exact hsame.symm.trans hkey
          · rw [hnone] at hkey
            cases hkey
        · exact ⟨j, hj, by rw [Function.update_of_ne hji]; exact hkey⟩
  · exact absurd hroom hfull

theorem card_keys_le : (keys t n).card ≤ n := by
  calc (keys t n).card ≤ ((Finset.range n).image fun i => (t i).map Prod.fst).card :=
        Finset.card_eraseNone_le _
    _ ≤ (Finset.range n).card := Finset.card_image_le
    _ = n := Finset.card_range n

/-- A full table has as many keys as slots. -/
theorem card_keys_of_full (h : Unique t n) (hfull : ∀ i < n, t i ≠ none) : (keys t n).card = n := by
  have hsome : ∀ i < n, ∃ key, (t i).map Prod.fst = some key := by
    intro i hi
    obtain ⟨x, hx⟩ := Option.ne_none_iff_exists'.mp (hfull i hi)
    exact ⟨x.1, by rw [hx]; rfl⟩
  have hnone : none ∉ (Finset.range n).image fun i => (t i).map Prod.fst := by
    intro hmem
    obtain ⟨i, hi, hkey⟩ := Finset.mem_image.mp hmem
    obtain ⟨key, hsome⟩ := hsome i (Finset.mem_range.mp hi)
    rw [hkey] at hsome
    cases hsome
  have hinj : Set.InjOn (fun i => (t i).map Prod.fst) (Finset.range n : Set Nat) := by
    intro i hi j hj heq
    have hi := Finset.mem_range.mp (Finset.mem_coe.mp hi)
    have hj := Finset.mem_range.mp (Finset.mem_coe.mp hj)
    obtain ⟨key, hkey⟩ := hsome i hi
    exact h i hi j hj key hkey (heq.symm.trans hkey)
  unfold keys
  rw [Finset.card_eraseNone_of_not_mem hnone, Finset.card_image_of_injOn hinj, Finset.card_range]

/-- There is room exactly as long as the keys are no more than the slots. -/
theorem room_iff (v : ν) (h : Unique t n) : Room t n k ↔ (insert k (keys t n)).card ≤ n := by
  constructor
  · intro hroom
    rw [← @keys_put _ _ _ t n k v hroom]
    exact card_keys_le
  · intro hcard
    by_contra hroom
    rcases put_cases t n k v with ⟨i, hi, -, hsome, -⟩ | ⟨-, -, hnew, hfull⟩
    · exact hroom hsome
    · rw [Finset.card_insert_of_notMem hnew, card_keys_of_full h hfull] at hcard
      omega

end KeyTable
