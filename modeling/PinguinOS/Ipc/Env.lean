import PinguinOS.Fs.Vfs
import PinguinOS.Lib.KeyMap
import PinguinOS.Lib.Run

/-! Environment blocks: a finite map from keys to values, of 64 keys at most. -/
namespace PinguinOS.Ipc

open Fs (CStr cstr strncmpEq)

def envMaxVars : Nat := 64
def envKeyLen : Nat := 64
def envValLen : Nat := 256

/-- `env_var_t`; the arrays are the strings in them. -/
structure EnvVar where
  key : CStr
  val : CStr
  used : Bool

/-- After `memset`. -/
def EnvVar.zero : EnvVar := ⟨[], [], false⟩

abbrev EnvBlock := Nat → EnvVar

/-- The first variable in use with this key, as `strncmp` compares it. -/
def envFind (env : EnvBlock) (key : CStr) : Option Nat :=
  (List.range envMaxVars).find? fun i => (env i).used && strncmpEq (env i).key key envKeyLen

/-- `env_get`; `none` is `NULL`, as an argument too. -/
def envGet (env : EnvBlock) (key : Option CStr) : Option CStr :=
  match key with
  | none => none
  | some key => (envFind env key).map fun i => (env i).val

def envSet (env : EnvBlock) (key value : Option CStr) : Int × EnvBlock :=
  match key, value with
  | some key, some value =>
    match envFind env key with
    | some i =>
      (0, Function.update env i { env i with val := value.take (envValLen - 1) })
    | none =>
      match (List.range envMaxVars).find? fun i => !(env i).used with
      | some i =>
        (0, Function.update env i ⟨key.take (envKeyLen - 1), value.take (envValLen - 1), true⟩)
      | none => (-1, env)
  | _, _ => (-1, env)

def envUnset (env : EnvBlock) (key : Option CStr) : Int × EnvBlock :=
  match key with
  | none => (-1, env)
  | some key =>
    match envFind env key with
    | some i => (0, Function.update env i .zero)
    | none => (-1, env)

/-- The variables that `env_init` sets. -/
def envDefaults : List (CStr × CStr) :=
  [(cstr ['O', 'S'], cstr ['P', 'i', 'n', 'g', 'u', 'i', 'n', 'O', 'S']),
    (cstr ['V', 'E', 'R', 'S', 'I', 'O', 'N'], cstr ['3', '.', '0']),
    (cstr ['A', 'R', 'C', 'H'], cstr ['i', '6', '8', '6']),
    (cstr ['P', 'A', 'T', 'H'], cstr ['/', 'b', 'i', 'n', ':', '/', 'u', 's', 'r', '/', 'b', 'i', 'n']),
    (cstr ['H', 'O', 'M', 'E'], cstr ['/']),
    (cstr ['T', 'E', 'R', 'M'], cstr ['v', 't', '1', '0', '0'])]

def envInit : EnvBlock :=
  envDefaults.foldl (fun env e => (envSet env (some e.1) (some e.2)).2) fun _ => .zero

inductive EnvCall
  | get (key : Option CStr)
  | set (key value : Option CStr)
  | unset (key : Option CStr)

inductive EnvReply
  | value (v : Option CStr)
  | code (c : Int)
  deriving DecidableEq

def envCall (env : EnvBlock) : EnvCall → EnvReply × EnvBlock
  | .get key => (.value (envGet env key), env)
  | .set key value =>
    let (code, env) := envSet env key value
    (.code code, env)
  | .unset key =>
    let (code, env) := envUnset env key
    (.code code, env)

/-! What the calls are for. -/

abbrev EnvMap := Finmap fun _ : CStr => CStr

/-- Values are cut at 255 characters; a new key is refused when there are 64. -/
def EnvMap.call (m : EnvMap) : EnvCall → EnvReply × EnvMap
  | .get (some key) => (.value (m.lookup key), m)
  | .set (some key) (some value) =>
    if key ∈ m ∨ m.keys.card < envMaxVars then
      (.code 0, m.insert key (value.take (envValLen - 1)))
    else (.code (-1), m)
  | .unset (some key) => if key ∈ m then (.code 0, m.erase key) else (.code (-1), m)
  | .get none => (.value none, m)
  | .set _ _ => (.code (-1), m)
  | .unset none => (.code (-1), m)

def EnvMap.defaults : EnvMap :=
  envDefaults.foldl (fun m e => m.insert e.1 e.2) ∅

/-- The key fits into a variable, with its NUL. -/
def ShortKey (key : CStr) : Prop := key.length < envKeyLen

def EnvCall.Short : EnvCall → Prop
  | .get key | .set key _ | .unset key => ∀ k ∈ key, ShortKey k

def envTable (env : EnvBlock) : Nat → Option (CStr × CStr) := fun i =>
  if (env i).used then some ((env i).key, (env i).val) else none

/-- The block has the entries of the map. -/
structure EnvHolds (env : EnvBlock) (m : EnvMap) : Prop where
  short : ∀ i, (env i).used → ShortKey (env i).key
  table : KeyTable.Represents (envTable env) envMaxVars m

variable {env : EnvBlock} {m : EnvMap} {key : CStr} {i : Nat}

/-- Two short keys are compared as a whole. -/
theorem strncmpEq_short {a : CStr} (ha : ShortKey a) (hk : ShortKey key) :
    strncmpEq a key envKeyLen = decide (a = key) := by
  unfold strncmpEq
  rw [List.take_of_length_le ha.le, List.take_of_length_le hk.le]

theorem envFind_eq (hshort : ∀ i, (env i).used → ShortKey (env i).key) (hk : ShortKey key) :
    envFind env key = KeyTable.find (envTable env) envMaxVars key := by
  unfold envFind KeyTable.find
  congr 1
  funext i
  unfold envTable
  cases hused : (env i).used with
  | false => rfl
  | true =>
    rw [strncmpEq_short (hshort i hused) hk, if_pos rfl]
    simp

theorem envFree_eq : ((List.range envMaxVars).find? fun i => !(env i).used) =
    KeyTable.free (envTable env) envMaxVars := by
  unfold KeyTable.free
  congr 1
  funext i
  unfold envTable
  cases (env i).used with
  | false => rfl
  | true => rfl

theorem envTable_update {v : EnvVar} : envTable (Function.update env i v) =
    Function.update (envTable env) i (if v.used then some (v.key, v.val) else none) := by
  funext j
  unfold envTable
  by_cases hj : j = i
  · subst hj
    rw [Function.update_self, Function.update_self]
  · rw [Function.update_of_ne hj, Function.update_of_ne hj]

theorem short_update {v : EnvVar} (hshort : ∀ i, (env i).used → ShortKey (env i).key)
    (hv : v.used → ShortKey v.key) :
    ∀ j, (Function.update env i v j).used → ShortKey (Function.update env i v j).key := by
  intro j
  by_cases hj : j = i
  · subst hj
    rw [Function.update_self]
    exact hv
  · rw [Function.update_of_ne hj]
    exact hshort j

/-- A variable that was found has the key. -/
theorem found_key (h : EnvHolds env m) (hk : ShortKey key) (hfind : envFind env key = some i) :
    (env i).used = true ∧ (env i).key = key := by
  rw [envFind_eq h.short hk] at hfind
  obtain ⟨-, hkey⟩ := KeyTable.find_some hfind
  unfold envTable at hkey
  cases hused : (env i).used with
  | false =>
    rw [hused, if_neg (by decide)] at hkey
    cases hkey
  | true =>
    rw [hused, if_pos rfl] at hkey
    exact ⟨rfl, Option.some.inj hkey⟩

theorem EnvHolds.get (h : EnvHolds env m) (hk : ShortKey key) :
    envGet env (some key) = m.lookup key := by
  rw [← h.table.lookup]
  unfold envGet KeyTable.get
  dsimp only
  rw [← envFind_eq h.short hk]
  cases hfind : envFind env key with
  | none => rfl
  | some i =>
    obtain ⟨hused, -⟩ := found_key h hk hfind
    rw [Option.map_some, Option.bind_some]
    unfold envTable
    rw [if_pos hused]
    rfl

/-- What `env_set` does: it is `put`, and says whether there was room. -/
theorem envSet_cases (h : EnvHolds env m) (hk : ShortKey key) (value : CStr) :
    (∃ i v, envSet env (some key) (some value) = (0, Function.update env i v) ∧
      v.key = key ∧ KeyTable.Room (envTable env) envMaxVars key ∧
      envTable (Function.update env i v) =
        KeyTable.put (envTable env) envMaxVars key (value.take (envValLen - 1))) ∨
    (envSet env (some key) (some value) = (-1, env) ∧
      ¬ KeyTable.Room (envTable env) envMaxVars key) := by
  have htable := envFind_eq h.short hk
  unfold envSet KeyTable.Room KeyTable.put
  dsimp only
  rw [envFree_eq, ← htable]
  cases hfind : envFind env key with
  | some i =>
    obtain ⟨hused, hkey⟩ := found_key h hk hfind
    refine .inl ⟨i, _, rfl, hkey, .inl (by simp), ?_⟩
    rw [envTable_update, if_pos (show (env i).used = true from hused), ← hkey]
  | none =>
    have htake : key.take (envKeyLen - 1) = key := List.take_of_length_le (Nat.le_sub_one_of_lt hk)
    dsimp only
    cases hfree : KeyTable.free (envTable env) envMaxVars with
    | some i =>
      refine .inl ⟨i, _, rfl, htake, .inr (by simp), ?_⟩
      rw [envTable_update, if_pos rfl, htake]
    | none => exact .inr ⟨rfl, by simp⟩

theorem EnvHolds.set (h : EnvHolds env m) (hk : ShortKey key) (value : CStr) :
    (envSet env (some key) (some value)).1 =
      (if key ∈ m ∨ m.keys.card < envMaxVars then 0 else -1) ∧
    EnvHolds (envSet env (some key) (some value)).2
      (if key ∈ m ∨ m.keys.card < envMaxVars then m.insert key (value.take (envValLen - 1))
        else m) := by
  have hroom := h.table.room_iff (k := key) value
  rcases envSet_cases h hk value with ⟨i, v, hset, hkey, hyes, htable⟩ | ⟨hset, hno⟩
  · rw [hset, if_pos (hroom.mp hyes), if_pos (hroom.mp hyes)]
    refine ⟨rfl, short_update h.short fun _ => hkey ▸ hk, ?_⟩
    rw [htable]
    exact KeyTable.represents_put h.table hyes
  · rw [hset, if_neg fun hyes => hno (hroom.mpr hyes), if_neg fun hyes => hno (hroom.mpr hyes)]
    exact ⟨rfl, h⟩

theorem EnvHolds.unset (h : EnvHolds env m) (hk : ShortKey key) :
    (envUnset env (some key)).1 = (if key ∈ m then 0 else -1) ∧
    EnvHolds (envUnset env (some key)).2 (if key ∈ m then m.erase key else m) := by
  have htable := envFind_eq h.short hk
  have hremoved := KeyTable.represents_remove (k := key) h.table
  have hmem := h.table.find_eq_none (k := key)
  unfold KeyTable.remove at hremoved
  unfold envUnset
  dsimp only
  rw [← htable] at hremoved hmem
  cases hfind : envFind env key with
  | some i =>
    have hin : key ∈ m := by
      by_contra hout
      rw [hmem.mpr hout] at hfind
      cases hfind
    rw [hfind] at hremoved
    rw [if_pos hin, if_pos hin]
    refine ⟨rfl, short_update h.short fun hused => absurd hused (by decide), ?_⟩
    rw [envTable_update]
    exact hremoved
  | none =>
    have hout := hmem.mp hfind
    rw [if_neg hout, if_neg hout]
    exact ⟨rfl, h⟩

theorem holds_zero : EnvHolds (fun _ => .zero) ∅ where
  short := by
    intro i hused
    cases hused
  table := KeyTable.represents_empty

/-- One call. -/
theorem envCall_alike : Replies.Alike envCall EnvMap.call EnvCall.Short EnvHolds := by
  intro env m call hshort h
  cases call with
  | get key =>
    cases key with
    | none => exact ⟨rfl, h⟩
    | some key => exact ⟨congrArg EnvReply.value (h.get (hshort key rfl)), h⟩
  | set key value =>
    cases key with
    | none => exact ⟨rfl, h⟩
    | some key =>
      cases value with
      | none => exact ⟨rfl, h⟩
      | some value =>
        obtain ⟨hcode, hholds⟩ := h.set (hshort key rfl) value
        unfold envCall EnvMap.call
        dsimp only
        split
        case isTrue hyes =>
          rw [if_pos hyes] at hcode hholds
          exact ⟨congrArg EnvReply.code hcode, hholds⟩
        case isFalse hno =>
          rw [if_neg hno] at hcode hholds
          exact ⟨congrArg EnvReply.code hcode, hholds⟩
  | unset key =>
    cases key with
    | none => exact ⟨rfl, h⟩
    | some key =>
      obtain ⟨hcode, hholds⟩ := h.unset (hshort key rfl)
      unfold envCall EnvMap.call
      dsimp only
      split
      case isTrue hyes =>
        rw [if_pos hyes] at hcode hholds
        exact ⟨congrArg EnvReply.code hcode, hholds⟩
      case isFalse hno =>
        rw [if_neg hno] at hcode hholds
        exact ⟨congrArg EnvReply.code hcode, hholds⟩

/-- `env_init` sets its variables, none of which is cut or refused. -/
theorem holds_envInit : EnvHolds envInit .defaults := by
  have hset : ∀ (es : List (CStr × CStr)) (env : EnvBlock) (m : EnvMap), EnvHolds env m →
      (∀ e ∈ es, ShortKey e.1 ∧ e.2.length < envValLen) → m.keys.card + es.length ≤ envMaxVars →
      EnvHolds (es.foldl (fun env e => (envSet env (some e.1) (some e.2)).2) env)
        (es.foldl (fun m e => m.insert e.1 e.2) m) := by
    intro es
    induction es with
    | nil => exact fun env m h _ _ => h
    | cons e es ih =>
      intro env m h hes hroom
      obtain ⟨hk, hv⟩ := hes e List.mem_cons_self
      rw [List.length_cons] at hroom
      have hset := (h.set hk e.2).2
      rw [if_pos (.inr (by omega)), List.take_of_length_le (Nat.le_sub_one_of_lt hv)] at hset
      refine ih _ _ hset (fun e' he' => hes e' (List.mem_cons_of_mem e he')) ?_
      have hcard : (m.insert e.1 e.2).keys.card ≤ m.keys.card + 1 := by
        have hkeys : (m.insert e.1 e.2).keys ⊆ insert e.1 m.keys := by
          intro k hmem
          rw [Finmap.mem_keys, Finmap.mem_insert] at hmem
          rw [Finset.mem_insert, Finmap.mem_keys]
          exact hmem
        exact (Finset.card_le_card hkeys).trans (Finset.card_insert_le _ _)
      change (m.insert e.1 e.2).keys.card + es.length ≤ envMaxVars
      omega
  refine hset envDefaults _ _ holds_zero ?_ (by decide)
  unfold ShortKey
  decide

/-- For keys that fit, any calls get the answers of a finite map. -/
theorem env_answers_as_map (calls : List EnvCall) (hshort : ∀ call ∈ calls, call.Short) :
    (Replies.run envCall envInit calls).1 = (Replies.run EnvMap.call .defaults calls).1 :=
  (envCall_alike.run hshort holds_envInit).1

theorem env_answers_as_map_path :
    (Replies.run envCall envInit
      [.set (some (cstr ['H', 'O', 'M', 'E'])) (some (cstr ['/', 'a'])), .unset (some (cstr ['O', 'S'])),
        .get (some (cstr ['H', 'O', 'M', 'E']))]).1 =
    (Replies.run EnvMap.call .defaults
      [.set (some (cstr ['H', 'O', 'M', 'E'])) (some (cstr ['/', 'a'])), .unset (some (cstr ['O', 'S'])),
        .get (some (cstr ['H', 'O', 'M', 'E']))]).1 := by
  refine env_answers_as_map _ ?_
  intro call hcall
  simp only [List.mem_cons, List.not_mem_nil, or_false] at hcall
  rcases hcall with rfl | rfl | rfl <;>
    (intro k hk; cases hk; unfold ShortKey; decide)

/-! Keys that do not fit. -/

/-- How many variables are in use. -/
def usedVars (env : EnvBlock) : Nat := (List.range envMaxVars).countP fun i => (env i).used

/-- Every stored key has its NUL. -/
def Terminated (env : EnvBlock) : Prop := ∀ i, (env i).used → ShortKey (env i).key

theorem Terminated.call (h : Terminated env) (call : EnvCall) : Terminated (envCall env call).2 := by
  cases call with
  | get key => exact h
  | set key value =>
    cases key with
    | none => exact h
    | some key =>
      cases value with
      | none => exact h
      | some value =>
        unfold envCall envSet
        dsimp only
        cases hfind : envFind env key with
        | some i =>
          have hused := List.find?_some hfind
          rw [Bool.and_eq_true] at hused
          exact short_update h fun _ => h i hused.1
        | none =>
          dsimp only
          cases (List.range envMaxVars).find? fun i => !(env i).used with
          | some i =>
            refine short_update h fun _ => ?_
            exact Nat.lt_of_le_of_lt (List.length_take_le _ _) (by decide)
          | none => exact h
  | unset key =>
    cases key with
    | none => exact h
    | some key =>
      unfold envCall envUnset
      dsimp only
      cases envFind env key with
      | some i => exact short_update h fun hused => absurd hused (by decide)
      | none => exact h

theorem Terminated.run (h : Terminated env) (calls : List EnvCall) :
    Terminated (Replies.run envCall env calls).2 := by
  induction calls generalizing env with
  | nil => exact h
  | cons call calls ih => exact ih (h.call call)

/-- A key without room for its NUL is like none of the stored ones. -/
theorem Terminated.find_long (h : Terminated env) (hk : ¬ ShortKey key) : envFind env key = none := by
  unfold envFind
  rw [List.find?_eq_none]
  intro i _ hmatch
  rw [Bool.and_eq_true] at hmatch
  have heq : (env i).key.take envKeyLen = key.take envKeyLen := of_decide_eq_true hmatch.2
  have hlen := congrArg List.length heq
  have hshort : (env i).key.length < envKeyLen := h i hmatch.1
  rw [List.length_take, List.length_take] at hlen
  unfold ShortKey at hk
  omega

theorem usedVars_update (hi : i < envMaxVars) (hfree : (env i).used = false) {v : EnvVar}
    (hv : v.used = true) : usedVars (Function.update env i v) = usedVars env + 1 := by
  have hsplit : List.range envMaxVars =
      List.range i ++ i :: (List.range (envMaxVars - i - 1)).map fun j => i + 1 + j := by
    have hlen : envMaxVars = i + 1 + (envMaxVars - i - 1) := by omega
    conv_lhs => rw [hlen, List.range_add, List.range_succ]
    rw [List.append_assoc]
    rfl
  have hbefore : ∀ j ∈ List.range i, (Function.update env i v j).used = true ↔ (env j).used = true := by
    intro j hj
    rw [Function.update_of_ne (List.mem_range.mp hj).ne]
  have hafter : ∀ j ∈ (List.range (envMaxVars - i - 1)).map fun j => i + 1 + j,
      (Function.update env i v j).used = true ↔ (env j).used = true := by
    intro j hj
    obtain ⟨k, -, rfl⟩ := List.mem_map.mp hj
    rw [Function.update_of_ne (by omega)]
  unfold usedVars
  rw [hsplit, List.countP_append, List.countP_append, List.countP_cons, List.countP_cons,
    Function.update_self, hv, hfree, List.countP_congr hbefore, List.countP_congr hafter]
  simp only [if_true, Bool.false_eq_true, if_false]
  omega

/-- Whatever was called before, a key of 64 characters or more is never found, yet each time it is
set it takes one more variable, until there is none. -/
theorem long_key_lost (calls : List EnvCall) (key value : CStr) (hk : ¬ ShortKey key) :
    let env := (Replies.run envCall envInit calls).2
    envGet env (some key) = none ∧ envUnset env (some key) = (-1, env) ∧
    ((envSet env (some key) (some value)).1 = 0 ∧
        usedVars (envSet env (some key) (some value)).2 = usedVars env + 1 ∨
      envSet env (some key) (some value) = (-1, env) ∧ usedVars env = envMaxVars) := by
  intro env
  have hinit : Terminated envInit := holds_envInit.short
  have hfind : envFind env key = none := (hinit.run calls).find_long hk
  clear_value env
  unfold envGet envUnset envSet
  dsimp only
  rw [hfind]
  refine ⟨rfl, rfl, ?_⟩
  dsimp only
  cases hfree : (List.range envMaxVars).find? fun i => !(env i).used with
  | some i =>
    have hunused := List.find?_some hfree
    rw [Bool.not_eq_true'] at hunused
    refine .inl ⟨rfl, usedVars_update ?_ hunused rfl⟩
    exact List.mem_range.mp (List.mem_of_find?_eq_some hfree)
  | none =>
    refine .inr ⟨rfl, ?_⟩
    unfold usedVars
    rw [List.countP_eq_length.mpr, List.length_range]
    intro i hi
    have hused := List.find?_eq_none.mp hfree i hi
    simpa using hused

theorem long_key_lost_zeros :
    let env := (Replies.run envCall envInit [.unset (some (cstr ['O', 'S']))]).2
    envGet env (some (List.replicate 64 0x41)) = none ∧
    envUnset env (some (List.replicate 64 0x41)) = (-1, env) ∧
    ((envSet env (some (List.replicate 64 0x41)) (some [])).1 = 0 ∧
        usedVars (envSet env (some (List.replicate 64 0x41)) (some [])).2 = usedVars env + 1 ∨
      envSet env (some (List.replicate 64 0x41)) (some []) = (-1, env) ∧ usedVars env = envMaxVars) :=
  long_key_lost _ _ _ (by unfold ShortKey; decide)

end PinguinOS.Ipc
