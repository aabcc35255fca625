import PinguinOS.Lib.KeyTable
import PinguinOS.Lib.Run
import PinguinOS.Net.Wire

/-! The ARP cache: what `arp_lookup` answers after any calls of `arp_add`. -/
namespace PinguinOS.Net

def arpCacheSize : Nat := 16

/-- `arp_entry_t` -/
structure ArpEntry where
  ip : Ip4Addr
  mac : MacAddr
  ttl : Nat
  valid : Bool

abbrev ArpCache := Nat → ArpEntry

/-- The cache after `net_init`. -/
def arpInit : ArpCache := fun _ => ⟨0, Vector.replicate 6 0, 0, false⟩

namespace ArpCache

def find (cache : ArpCache) (ip : Ip4Addr) : Option Nat :=
  (List.range arpCacheSize).find? fun i => (cache i).valid ∧ (cache i).ip = ip

def free (cache : ArpCache) : Option Nat :=
  (List.range arpCacheSize).find? fun i => ¬ (cache i).valid

end ArpCache

def arpAdd (cache : ArpCache) (ip : Ip4Addr) (mac : MacAddr) : ArpCache :=
  match cache.find ip with
  | some i => Function.update cache i { cache i with mac := mac, ttl := 300 }
  | none =>
    match cache.free with
    | some i => Function.update cache i ⟨ip, mac, 300, true⟩
    | none => cache

def arpLookup (cache : ArpCache) (ip : Ip4Addr) : Option MacAddr :=
  (cache.find ip).map fun i => (cache i).mac

/-! Calls of `arp_add`, in any order. -/

/-- The cache, and the last `mac` that was added for each address. -/
structure ArpLog where
  cache : ArpCache
  last : Ip4Addr → Option MacAddr

def arpStart : ArpLog := ⟨arpInit, fun _ => none⟩

def arpStep (s : ArpLog) (call : Ip4Addr × MacAddr) : Option ArpLog :=
  some ⟨arpAdd s.cache call.1 call.2, Function.update s.last call.1 (some call.2)⟩

/-- At most one valid entry for an address. -/
def ArpUnique (s : ArpLog) : Prop :=
  ∀ i < arpCacheSize, ∀ j < arpCacheSize, (s.cache i).valid → (s.cache j).valid →
    (s.cache i).ip = (s.cache j).ip → i = j

/-- `arp_lookup` returns what was added last. -/
def ArpAnswers (s : ArpLog) : Prop :=
  ∀ ip mac, s.last ip = some mac → arpLookup s.cache ip = some mac

/-! The cache is a table of slots with keys. -/

variable {cache : ArpCache} {s t : ArpLog} {ip : Ip4Addr} {mac : MacAddr} {i : Nat}
  {call : Ip4Addr × MacAddr} {calls : List (Ip4Addr × MacAddr)}

def ArpEntry.slot (e : ArpEntry) : Option (Ip4Addr × MacAddr) :=
  if e.valid then some (e.ip, e.mac) else none

def ArpCache.slots (cache : ArpCache) : Nat → Option (Ip4Addr × MacAddr) :=
  fun i => (cache i).slot

theorem slot_key {e : ArpEntry} : e.slot.map Prod.fst = some ip ↔ e.valid ∧ e.ip = ip := by
  unfold ArpEntry.slot
  cases e.valid with
  | true => simp
  | false => simp

theorem find_slots : KeyTable.find cache.slots arpCacheSize ip = cache.find ip := by
  unfold KeyTable.find ArpCache.find
  congr 1
  funext i
  exact decide_eq_decide.mpr slot_key

theorem free_slots : KeyTable.free cache.slots arpCacheSize = cache.free := by
  unfold KeyTable.free ArpCache.free
  congr 1
  funext i
  unfold ArpCache.slots ArpEntry.slot
  cases (cache i).valid with
  | true => rfl
  | false => rfl

theorem slots_update {e : ArpEntry} :
    ArpCache.slots (Function.update cache i e) = Function.update cache.slots i e.slot := by
  funext j
  unfold ArpCache.slots
  by_cases hj : j = i
  · subst hj
    rw [Function.update_self, Function.update_self]
  · rw [Function.update_of_ne hj, Function.update_of_ne hj]

/-- `arp_add` puts the address into the table. -/
theorem slots_arpAdd :
    (arpAdd cache ip mac).slots = KeyTable.put cache.slots arpCacheSize ip mac := by
  unfold arpAdd KeyTable.put
  rw [find_slots, free_slots]
  cases hfind : cache.find ip with
  | some i =>
    obtain ⟨-, hkey⟩ := KeyTable.find_some (find_slots.trans hfind)
    obtain ⟨hvalid, hip⟩ := slot_key.mp hkey
    dsimp only
    rw [slots_update]
    unfold ArpEntry.slot
    rw [if_pos hvalid, hip]
  | none =>
    dsimp only
    cases cache.free with
    | some i => exact slots_update
    | none => rfl

theorem arpLookup_eq : arpLookup cache ip = KeyTable.get cache.slots arpCacheSize ip := by
  unfold arpLookup KeyTable.get
  rw [find_slots]
  cases hfind : cache.find ip with
  | some i =>
    obtain ⟨-, hkey⟩ := KeyTable.find_some (find_slots.trans hfind)
    obtain ⟨hvalid, -⟩ := slot_key.mp hkey
    unfold ArpCache.slots ArpEntry.slot
    rw [Option.bind_some, if_pos hvalid]
    rfl
  | none => rfl

theorem arpUnique_iff : ArpUnique s ↔ KeyTable.Unique s.cache.slots arpCacheSize := by
  constructor
  · intro h i hi j hj ip hip hjp
    obtain ⟨hvi, hip⟩ := slot_key.mp hip
    obtain ⟨hvj, hjp⟩ := slot_key.mp hjp
    exact h i hi j hj hvi hvj (hip.trans hjp.symm)
  · intro h i hi j hj hvi hvj hip
    exact h i hi j hj _ (slot_key.mpr ⟨hvi, hip⟩) (slot_key.mpr ⟨hvj, rfl⟩)

theorem arpUnique_step (hs : ArpUnique s) (hstep : arpStep s call = some t) : ArpUnique t := by
  cases hstep
  rw [arpUnique_iff] at hs ⊢
  dsimp only
  rw [slots_arpAdd]
  exact KeyTable.unique_put hs

/-- The addresses that are in the cache. -/
def ArpCache.known (cache : ArpCache) : Finset Ip4Addr := KeyTable.keys cache.slots arpCacheSize

/-- The cache keeps all of its answers; it has one for the new address if there was room. -/
theorem arpAnswers_step (hunique : ArpUnique s) (hs : ArpAnswers s)
    (hstep : arpStep s call = some t) :
    ArpAnswers t ↔ KeyTable.Room s.cache.slots arpCacheSize call.1 := by
  obtain ⟨ip, mac⟩ := call
  cases hstep
  rw [arpUnique_iff] at hunique
  constructor
  · intro ht
    have hanswer := ht ip mac (Function.update_self ..)
    by_contra hroom
    rw [arpLookup_eq, slots_arpAdd, KeyTable.get_put_full hroom] at hanswer
    cases hanswer
  · intro hroom ip' mac' hlast
    dsimp only at hroom hlast ⊢
    rw [arpLookup_eq, slots_arpAdd]
    by_cases hip : ip' = ip
    · subst hip
      rw [Function.update_self] at hlast
      cases hlast
      exact KeyTable.get_put_self hunique hroom
    · rw [Function.update_of_ne hip] at hlast
      exact KeyTable.get_put_of_ne hunique hip (arpLookup_eq.symm.trans (hs ip' mac' hlast))

theorem known_step (hstep : arpStep s call = some t)
    (hroom : KeyTable.Room s.cache.slots arpCacheSize call.1) :
    t.cache.known = insert call.1 s.cache.known := by
  cases hstep
  unfold ArpCache.known
  dsimp only
  rw [slots_arpAdd, KeyTable.keys_put hroom]

theorem arpStart_unique : ArpUnique arpStart := fun _ _ _ _ hvalid => (nomatch hvalid)

theorem arpStart_answers : ArpAnswers arpStart := fun _ _ hlast => (nomatch hlast)

theorem arpUnique_run (hs : ArpUnique s) : Run.EveryState arpStep ArpUnique s calls := by
  induction calls generalizing s with
  | nil => exact hs
  | cons call calls ih => exact ⟨hs, fun t hstep => ih (arpUnique_step hs hstep)⟩

theorem arpAnswers_run (hunique : ArpUnique s) (hs : ArpAnswers s) :
    Run.EveryState arpStep ArpAnswers s calls ↔
      (s.cache.known ∪ (calls.map Prod.fst).toFinset).card ≤ arpCacheSize := by
  induction calls generalizing s with
  | nil =>
    rw [List.map_nil, List.toFinset_nil, Finset.union_empty]
    exact iff_of_true hs KeyTable.card_keys_le
  | cons call calls ih =>
    have hinsert : s.cache.known ∪ ((call :: calls).map Prod.fst).toFinset =
        insert call.1 s.cache.known ∪ (calls.map Prod.fst).toFinset := by
      rw [List.map_cons, List.toFinset_cons, Finset.union_insert, Finset.insert_union]
    have hroom := KeyTable.room_iff (k := call.1) call.2 (arpUnique_iff.mp hunique)
    rw [hinsert]
    constructor
    · rintro ⟨-, hrest⟩
      have hafter := hrest _ rfl
      have hfits := (arpAnswers_step hunique hs rfl).mp hafter.first
      rw [← known_step rfl hfits]
      exact (ih (arpUnique_step hunique rfl) hafter.first).mp hafter
    · intro hcard
      have hfits := hroom.mpr ((Finset.card_le_card Finset.subset_union_left).trans hcard)
      refine ⟨hs, fun t hstep => ?_⟩
      rw [← known_step hstep hfits] at hcard
      have ht := (arpAnswers_step hunique hs hstep).mpr hfits
      exact (ih (arpUnique_step hunique hstep) ht).mpr hcard

/-- Entries are never dropped for being old: the answers are right up to the sixteenth address. -/
theorem arp_cache_iff (calls : List (Ip4Addr × MacAddr)) :
    Run.EveryState arpStep ArpUnique arpStart calls ∧
      (Run.EveryState arpStep ArpAnswers arpStart calls ↔
        (calls.map Prod.fst).toFinset.card ≤ arpCacheSize) := by
  refine ⟨arpUnique_run arpStart_unique, ?_⟩
  have hempty : arpStart.cache.known = ∅ := by decide +kernel
  rw [arpAnswers_run arpStart_unique arpStart_answers, hempty, Finset.empty_union]

/-- Seventeen hosts answer; the last one is not found. -/
theorem not_arp_cache_seventeen : ¬ Run.EveryState arpStep ArpAnswers arpStart
    ((List.range 17).map fun i => (BitVec.ofNat 32 i, Vector.replicate 6 0)) := by
  rw [arpAnswers_run arpStart_unique arpStart_answers]
  decide +kernel

end PinguinOS.Net
