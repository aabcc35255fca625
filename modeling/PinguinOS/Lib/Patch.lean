import PinguinOS.Lib.Bytes

/-! Words of a byte memory that are increased in place, one after the other. -/
namespace Patch

abbrev Memory := Nat → BitVec 8

/-- The little-endian word at `a`. -/
def word (m : Memory) (a : Nat) : BitVec 32 := Bytes.ofBytes fun j => m (a + j)

/-- `o` is one of the four bytes at `a`. -/
def Covers (o a : Nat) : Prop := a ≤ o ∧ o < a + 4

instance {o a : Nat} : Decidable (Covers o a) := inferInstanceAs (Decidable (_ ∧ _))

/-- `d` is added to the word at `a`. -/
def addWord (m : Memory) (a : Nat) (d : BitVec 32) : Memory := fun o =>
  if Covers o a then Bytes.byteOf (word m a + d) (o - a) else m o

/-- `d` is added at the sites in their order. -/
def addAll (m : Memory) (sites : List Nat) (d : BitVec 32) : Memory :=
  sites.foldl (fun m a => addWord m a d) m

/-- Each site has its first value and `d`, and every other byte is the same. -/
def added (m : Memory) (sites : List Nat) (d : BitVec 32) : Memory := fun o =>
  match sites.find? fun a => Covers o a with
  | some a => Bytes.byteOf (word m a + d) (o - a)
  | none => m o

/-- Two words have no byte in common. -/
def Apart (a b : Nat) : Prop := a + 4 ≤ b ∨ b + 4 ≤ a

instance {a b : Nat} : Decidable (Apart a b) := inferInstanceAs (Decidable (_ ∨ _))

variable {m m' : Memory} {d : BitVec 32} {a b o : Nat} {sites : List Nat}

theorem word_congr (h : ∀ j < 4, m (a + j) = m' (a + j)) : word m a = word m' a :=
  Bytes.ofBytes_congr h

theorem addWord_outside (h : ¬ Covers o a) : addWord m a d o = m o := if_neg h

theorem word_addWord_apart (h : Apart a b) : word (addWord m a d) b = word m b := by
  refine word_congr fun j hj => addWord_outside ?_
  rintro ⟨hlo, hhi⟩
  rcases h with h | h
  · omega
  · omega

/-- A byte of one site is a byte of no other one. -/
theorem find_none (h : ∀ b ∈ sites, Apart a b) (hcovers : Covers o a) :
    (sites.find? fun b => Covers o b) = none := by
  rw [List.find?_eq_none]
  intro b hb hyes
  obtain ⟨hlo, hhi⟩ := of_decide_eq_true hyes
  obtain ⟨hlo', hhi'⟩ := hcovers
  rcases h b hb with hab | hba
  · omega
  · omega

/-- Sites that do not overlap are increased once each. -/
theorem addAll_eq (h : sites.Pairwise Apart) : addAll m sites d = added m sites d := by
  induction sites generalizing m with
  | nil => rfl
  | cons a rest ih =>
    obtain ⟨hfirst, hrest⟩ := List.pairwise_cons.mp h
    funext o
    have hstep : addAll m (a :: rest) d o = added (addWord m a d) rest d o :=
      congrFun (ih hrest) o
    rw [hstep]
    unfold added
    rw [List.find?_cons]
    by_cases hcovers : Covers o a
    · rw [find_none hfirst hcovers, decide_eq_true hcovers]
      exact if_pos hcovers
    · rw [decide_eq_false hcovers]
      dsimp only
      cases hfind : rest.find? fun b => Covers o b with
      | none => exact addWord_outside hcovers
      | some b =>
        dsimp only
        rw [word_addWord_apart (hfirst b (List.mem_of_find?_eq_some hfind))]

/-- Adding nothing changes nothing. -/
theorem added_zero : added m sites 0 = m := by
  funext o
  unfold added
  cases hfind : sites.find? fun a => Covers o a with
  | none => rfl
  | some a =>
    have hcovers := List.find?_some hfind
    obtain ⟨hlo, hhi⟩ : Covers o a := of_decide_eq_true hcovers
    dsimp only
    rw [show word m a + 0 = word m a from BitVec.add_zero _]
    unfold word
    rw [Bytes.byteOf_ofBytes (by omega), Nat.add_sub_cancel' hlo]

end Patch
