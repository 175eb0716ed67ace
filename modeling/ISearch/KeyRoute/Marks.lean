import ISearch.KeyRoute.Route
import ISearch.Lib.Run

/-!
# What the router knows of a migration (`key_route.cc`)

A key of another node belongs to that node once the node has completed, or the key is marked as
migrated in its set. `Routed` and `Changed` say all that a request for a key and a change of the
state of a node do; `acceptKey_migrated_iff` says when the end of a migration gives the key away.
-/

namespace ISearch.KeyRoute

open KeyFormat (Bytes)

/-! ## The states -/

namespace StateCode

/-- A change of the state that throws the marks away and takes the keys back. -/
def forgets : StateCode → StateCode → Bool → Bool
  | notStarted, _, _ => false
  | completed, completed, _ => false
  | completed, notStarted, _ => true
  | completed, _, canOpen => canOpen
  | _, notStarted, _ => true
  | _, _, _ => false

theorem ofInt?_eq_some {v : Int} {code : StateCode} :
    ofInt? v = some code ↔ code.toInt = v := by
  constructor
  · intro h
    simpa using List.find?_some h
  · rintro rfl
    cases code <;> rfl

theorem toInt_inj {code code' : StateCode} (h : code.toInt = code'.toInt) :
    code = code' := by
  cases code <;> cases code' <;> first | rfl | cases h

theorem forgets_self (code : StateCode) (canOpen : Bool) :
    code.forgets code canOpen = false := by
  cases code <;> rfl

end StateCode

namespace MigrationState

/-- A key of a node in this state belongs to the node. -/
def accepts (key : Nat → UInt8) : MigrationState → Bool
  | notStarted => false
  | completed => true
  | migrating s | migrateReadonly s => s.1.contains key true

variable {state state' : MigrationState} {key key' : Nat → UInt8}

theorem contains_insert {s : MigratedKeys} (canGrow : Bool) (h : s.1.contains key true = true) :
    (s.insert key' canGrow).1.contains key true = true := by
  rw [FileBackedKeySet.contains_true, beq_iff_eq] at h ⊢
  by_cases hroom : s.1.Room key' canGrow
  · rw [MigratedKeys.insert, s.2.status_insert hroom, h]
    split_ifs <;> rfl
  · have hsame : (s.insert key' canGrow).1 = s.1 := FileBackedKeySet.insert_of_not_room hroom
    rw [hsame, h]

theorem contains_migrated {s : MigratedKeys} (h : s.1.contains key true = true) :
    (s.migrated key').1.contains key true = true := by
  rw [FileBackedKeySet.contains_true, beq_iff_eq] at h ⊢
  rw [MigratedKeys.migrated, s.2.status_migrated, h]
  split_ifs <;> rfl

/-- A key that is in the set is migrated by the call for it, and only then. -/
theorem contains_migrated_self {s : MigratedKeys} (h : s.1.keyAt key = s.1.keyAt key') :
    (s.migrated key').1.contains key true = s.1.contains key' false := by
  rw [FileBackedKeySet.contains_true, FileBackedKeySet.contains_false, MigratedKeys.migrated,
    s.2.status_migrated, if_pos h, FileBackedKeySet.status_of_keyAt h]
  cases s.1.status key' with
  | none => rfl
  | some _ => exact beq_self_eq_true _

theorem accepts_mapKeys {f : MigratedKeys → MigratedKeys}
    (hf : ∀ s : MigratedKeys, s.1.contains key true = true → (f s).1.contains key true = true)
    (h : state.accepts key = true) : (state.mapKeys f).accepts key = true := by
  cases state with
  | notStarted => exact h
  | completed => exact h
  | migrating s => exact hf s h
  | migrateReadonly s => exact hf s h

variable {keyFormat : UInt8} {canOpen : Bool} {new : StateCode}

theorem accepts_change (h : state.change keyFormat canOpen (some new) = .ok state')
    (hkeeps : state.code.forgets new canOpen = false) (haccepts : state.accepts key = true) :
    state'.accepts key = true := by
  cases state with
  | notStarted => cases haccepts
  | completed => cases new <;> cases canOpen <;> cases h <;> cases hkeeps
  | migrating s =>
    cases new with
    | notStarted => cases hkeeps
    | migrating => cases h
    | migrateReadonly => cases h; exact haccepts
    | completed => cases h; rfl
  | migrateReadonly s =>
    cases new with
    | notStarted => cases hkeeps
    | migrating => cases h; exact haccepts
    | migrateReadonly => cases h
    | completed => cases h; rfl

variable (keyFormat) in
theorem change_of_forgets (h : state.code.forgets new canOpen = true) :
    ∃ state', state.change keyFormat canOpen (some new) = .ok state' ∧
      ∀ key, state'.accepts key = false := by
  cases state with
  | notStarted => cases h
  | completed =>
    cases new with
    | completed => cases h
    | notStarted => exact ⟨_, rfl, fun _ => rfl⟩
    | migrating =>
      cases canOpen
      · cases h
      · exact ⟨_, rfl, fun _ => rfl⟩
    | migrateReadonly =>
      cases canOpen
      · cases h
      · exact ⟨_, rfl, fun _ => rfl⟩
  | migrating s =>
    cases new with
    | notStarted => exact ⟨_, rfl, fun _ => rfl⟩
    | migrating => cases h
    | migrateReadonly => cases h
    | completed => cases h
  | migrateReadonly s =>
    cases new with
    | notStarted => exact ⟨_, rfl, fun _ => rfl⟩
    | migrating => cases h
    | migrateReadonly => cases h
    | completed => cases h

end MigrationState

/-! ## The router -/

/-- The `keyLen` of `task_notify`. -/
def keyLen (r : KeyRoute) (packedKey : Nat → UInt8) : Nat :=
  if r.keyFormat > 0 then r.keyFormat.toNat else (packedKey 0).toNat + 1

def keyAt (r : KeyRoute) (packedKey : Nat → UInt8) : Bytes := slice packedKey 0 (r.keyLen packedKey)

/-- A write to the key may be executed here: the owner has not started, or it is migrating and the
key is not on its way and has not arrived. -/
def MayWrite (r : KeyRoute) (packedKey : Nat → UInt8) : Prop :=
  match r.serverMigrationState (r.selectNode packedKey) with
  | some ⟨_, .notStarted⟩ => True
  | some ⟨_, .migrating keys⟩ =>
    keys.1.isMigrating packedKey = false ∧ keys.1.contains packedKey true = false
  | _ => False

/-- Every request for the key goes to another node. -/
def Forwards (r : KeyRoute) (packedKey : Nat → UInt8) : Prop :=
  ∀ isGet, ∃ addr passThru,
    (r.taskNotify (.keyed isGet (some packedKey))).1 = .remote addr passThru

/-- The owner of the key has completed, or the key is in its set. -/
def Marked (r : KeyRoute) (packedKey : Nat → UInt8) : Prop :=
  match r.serverMigrationState (r.selectNode packedKey) with
  | some ⟨_, .notStarted⟩ => False
  | some ⟨_, .migrating keys⟩ | some ⟨_, .migrateReadonly keys⟩ =>
    keys.1.contains packedKey false = true
  | _ => True

/-- What `Init` sees to. The admin table has the format of the key, or of its first field. -/
structure WellFormed (r : KeyRoute) : Prop where
  csAddr : r.csAddr = none
  known : ∀ packedKey, r.selectNode packedKey = r.selfName ∨
    (r.serverMigrationState (r.selectNode packedKey)).isSome = true
  keySize : ∀ name node keys, r.serverMigrationState name = some node →
    node.state.migrated? = some keys → keys.1.keySize = r.adminKeyFormat
  formats : r.adminKeyFormat = r.keyFormat ∨
    0 < r.adminKeyFormat ∧ r.adminKeyFormat ≤ r.keyFormat

variable {r : KeyRoute} {packedKey packedKey' : Nat → UInt8} {name : Bytes}
  {node : ServerMigrationState}

@[simp] theorem selectNode_setNode : (r.setNode name node).selectNode = r.selectNode := rfl

theorem state_setNode : (r.setNode name node).serverMigrationState name = some node :=
  Function.update_self ..

theorem state_setNode_of_ne {name' : Bytes} (h : name' ≠ name) :
    (r.setNode name node).serverMigrationState name' = r.serverMigrationState name' :=
  Function.update_of_ne h ..

theorem acceptKey_eq : r.acceptKey name packedKey =
    (r.serverMigrationState name).all fun node => node.state.accepts packedKey := by
  rw [acceptKey]
  cases r.serverMigrationState name with
  | none => rfl
  | some node =>
    obtain ⟨_, state⟩ := node
    cases state <;> rfl

/-- Pointers to one key agree on its bytes. -/
theorem keyLen_eq (h : r.keyAt packedKey = r.keyAt packedKey') :
    r.keyLen packedKey = r.keyLen packedKey' ∧
      ∀ k < r.keyLen packedKey, packedKey k = packedKey' k := by
  have hlen : r.keyLen packedKey = r.keyLen packedKey' := by
    simpa only [keyAt, length_slice] using congrArg List.length h
  refine ⟨hlen, fun k hk => ?_⟩
  rw [keyAt, keyAt, ← hlen, slice_inj] at h
  exact h k k.zero_le (by omega)

theorem acceptKey_mapKeys {f : MigratedKeys → MigratedKeys} {name' : Bytes}
    (hnode : r.serverMigrationState name = some node)
    (hf : ∀ s : MigratedKeys, s.1.contains packedKey true = true →
      (f s).1.contains packedKey true = true)
    (h : r.acceptKey name' packedKey = true) :
    (r.setNode name { node with state := node.state.mapKeys f }).acceptKey name' packedKey =
      true := by
  rw [acceptKey_eq] at h ⊢
  by_cases hname : name' = name
  · rw [hname, hnode, Option.all_some] at h
    rw [hname, state_setNode, Option.all_some]
    exact MigrationState.accepts_mapKeys hf h
  · rwa [state_setNode_of_ne hname]

theorem acceptKey_keyMigrating (canGrow : Bool) (h : r.acceptKey name packedKey = true) :
    (r.keyMigrating packedKey' canGrow).acceptKey name packedKey = true := by
  rw [keyMigrating]
  split
  · next hnode =>
    exact acceptKey_mapKeys hnode (fun _ => MigrationState.contains_insert canGrow) h
  · exact h

theorem acceptKey_keyMigrated (h : r.acceptKey name packedKey = true) :
    (r.keyMigrated packedKey').acceptKey name packedKey = true := by
  rw [keyMigrated]
  split
  · next hnode => exact acceptKey_mapKeys hnode (fun _ => MigrationState.contains_migrated) h
  · exact h

/-- The keys are split up among the nodes in the same way. -/
structure SameKeys (r r' : KeyRoute) : Prop where
  selectNode : r'.selectNode = r.selectNode
  keyAt : r'.keyAt = r.keyAt
  selfName : r'.selfName = r.selfName

theorem sameKeys_setNode : r.SameKeys (r.setNode name node) := ⟨rfl, rfl, rfl⟩

theorem sameKeys_keyMigrating (canGrow : Bool) :
    r.SameKeys (r.keyMigrating packedKey canGrow) := by
  rw [keyMigrating]
  split
  · exact sameKeys_setNode
  · exact ⟨rfl, rfl, rfl⟩

theorem sameKeys_keyMigrated : r.SameKeys (r.keyMigrated packedKey) := by
  rw [keyMigrated]
  split
  · exact sameKeys_setNode
  · exact ⟨rfl, rfl, rfl⟩

namespace WellFormed

theorem selectNode_eq (h : r.keyAt packedKey = r.keyAt packedKey') :
    r.selectNode packedKey = r.selectNode packedKey' := by
  obtain ⟨hlen, hbytes⟩ := keyLen_eq h
  have hslice : slice packedKey 0 (r.keyLen packedKey) =
      slice packedKey' 0 (r.keyLen packedKey') := h
  rw [selectNode, selectNode]
  by_cases hformat : r.keyFormat = 4
  · have hfour : ∀ key, r.keyLen key = 4 := fun key => by rw [keyLen, hformat]; rfl
    rw [hfour, hfour] at hslice
    rw [if_pos hformat, if_pos hformat, hslice]
  · rw [if_neg hformat, if_neg hformat]
    exact congrArg (fun key => r.selector.select (r.hash key)) hslice

theorem set_keyAt_eq (hwf : r.WellFormed) (h : r.keyAt packedKey = r.keyAt packedKey')
    {s : FileBackedKeySet} (hsize : s.keySize = r.adminKeyFormat) :
    s.keyAt packedKey = s.keyAt packedKey' := by
  obtain ⟨hlen, hbytes⟩ := keyLen_eq h
  have hle : s.keyLen packedKey = s.keyLen packedKey' ∧
      s.keyLen packedKey ≤ r.keyLen packedKey := by
    rw [keyLen, keyLen] at hlen
    rw [FileBackedKeySet.keyLen, FileBackedKeySet.keyLen, keyLen, hsize]
    obtain hformat | ⟨hpos, hformat⟩ := hwf.formats
    · rw [hformat]
      by_cases hzero : r.keyFormat = 0
      · rw [hzero] at hlen ⊢
        exact ⟨hlen, le_rfl⟩
      · rw [if_neg hzero, if_neg hzero, if_pos (UInt8.pos_iff_ne_zero.mpr hzero)]
        exact ⟨rfl, le_rfl⟩
    · rw [if_neg (UInt8.pos_iff_ne_zero.mp hpos), if_neg (UInt8.pos_iff_ne_zero.mp hpos),
        if_pos (UInt8.lt_of_lt_of_le hpos hformat)]
      exact ⟨rfl, hformat⟩
  rw [FileBackedKeySet.keyAt, FileBackedKeySet.keyAt, ← hle.1]
  exact slice_congr fun k _ hk => hbytes k (by omega)

theorem setNode (hwf : r.WellFormed) (hsize : ∀ keys, node.state.migrated? = some keys →
    keys.1.keySize = r.adminKeyFormat) : (r.setNode name node).WellFormed where
  csAddr := hwf.csAddr
  known packedKey := by
    refine (hwf.known packedKey).imp_right fun h => ?_
    by_cases hname : r.selectNode packedKey = name
    · rw [selectNode_setNode, hname, state_setNode]
      rfl
    · rwa [selectNode_setNode, state_setNode_of_ne hname]
  keySize name' node' keys hnode hkeys := by
    by_cases hname : name' = name
    · rw [hname, state_setNode] at hnode
      cases hnode
      exact hsize keys hkeys
    · rw [state_setNode_of_ne hname] at hnode
      exact hwf.keySize name' node' keys hnode hkeys
  formats := hwf.formats

/-- Where a request for a key goes. -/
inductive Routed (r : KeyRoute) (isGet : Bool) (packedKey : Nat → UInt8) :
    Outcome × KeyRoute → Prop where
  | own (hself : r.selectNode packedKey = r.selfName) : Routed r isGet packedKey (.cache none, r)
  | forwarded (addr : Bytes) (hne : r.selectNode packedKey ≠ r.selfName)
      (haccept : r.acceptKey (r.selectNode packedKey) packedKey = true) :
      Routed r isGet packedKey (.remote addr true, r)
  | kept (hne : r.selectNode packedKey ≠ r.selfName)
      (haccept : r.acceptKey (r.selectNode packedKey) packedKey = false)
      (hwrite : isGet = false → r.MayWrite packedKey) : Routed r isGet packedKey (.cache none, r)
  | refused (code : Int) (source message : String)
      (haccept : r.acceptKey (r.selectNode packedKey) packedKey = false) :
      Routed r isGet packedKey (.error code source message, r)

theorem routed (hwf : r.WellFormed) (isGet : Bool) (packedKey : Nat → UInt8) :
    Routed r isGet packedKey (r.taskNotify (.keyed isGet (some packedKey))) := by
  rw [taskNotify, hwf.csAddr, routeKey]
  by_cases hself : r.selectNode packedKey = r.selfName
  · rw [if_pos hself]
    exact .own hself
  rw [if_neg hself]
  obtain ⟨⟨addr, state⟩, hnode⟩ :=
    Option.isSome_iff_exists.mp ((hwf.known packedKey).resolve_left hself)
  by_cases haccept : r.acceptKey (r.selectNode packedKey) packedKey = true
  · rw [if_pos haccept, nameToAddr, hnode]
    exact .forwarded addr hself haccept
  rw [if_neg haccept]
  rw [Bool.not_eq_true] at haccept
  by_cases hmigrating : r.isMigrating (r.selectNode packedKey) packedKey = true
  · rw [if_pos hmigrating]
    cases isGet with
    | true => exact .kept hself haccept nofun
    | false => exact .refused _ _ _ haccept
  rw [if_neg hmigrating, hnode]
  have hkeys := haccept
  rw [acceptKey_eq, hnode, Option.all_some] at hkeys
  rw [isMigrating, hnode, Bool.not_eq_true] at hmigrating
  cases state with
  | notStarted => exact .kept hself haccept fun _ => by rw [MayWrite, hnode]; trivial
  | migrating keys =>
    exact .kept hself haccept fun _ => by rw [MayWrite, hnode]; exact ⟨hmigrating, hkeys⟩
  | migrateReadonly keys =>
    cases isGet with
    | true => exact .kept hself haccept nofun
    | false => exact .refused _ _ _ haccept
  | completed => cases hkeys

theorem forwards_iff (hwf : r.WellFormed) : r.Forwards packedKey ↔
    r.selectNode packedKey ≠ r.selfName ∧
      r.acceptKey (r.selectNode packedKey) packedKey = true := by
  constructor
  · intro h
    obtain ⟨addr, passThru, hout⟩ := h false
    have hrouted := hwf.routed false packedKey
    generalize r.taskNotify (.keyed false (some packedKey)) = result at hrouted hout
    cases hrouted with
    | own => cases hout
    | forwarded _ hne haccept => exact ⟨hne, haccept⟩
    | kept => cases hout
    | refused => cases hout
  · rintro ⟨hne, haccept⟩ isGet
    have hrouted := hwf.routed isGet packedKey
    generalize r.taskNotify (.keyed isGet (some packedKey)) = result at hrouted
    cases hrouted with
    | own hself => exact absurd hself hne
    | forwarded addr => exact ⟨addr, true, rfl⟩
    | kept _ hkept => exact absurd (hkept.symm.trans haccept) Bool.false_ne_true
    | refused _ _ _ hkept => exact absurd (hkept.symm.trans haccept) Bool.false_ne_true

section Marks

variable {f : MigratedKeys → MigratedKeys}

theorem mapKeys (hwf : r.WellFormed) (hnode : r.serverMigrationState name = some node)
    (hf : ∀ s, (f s).1.keySize = s.1.keySize) :
    (r.setNode name { node with state := node.state.mapKeys f }).WellFormed := by
  refine hwf.setNode fun keys hkeys => ?_
  have hsize := hwf.keySize name node
  obtain ⟨addr, state⟩ := node
  cases state with
  | notStarted => cases hkeys
  | completed => cases hkeys
  | migrating s =>
    cases hkeys
    exact (hf s).trans (hsize s hnode rfl)
  | migrateReadonly s =>
    cases hkeys
    exact (hf s).trans (hsize s hnode rfl)

theorem keyMigrating (hwf : r.WellFormed) (canGrow : Bool) :
    (r.keyMigrating packedKey canGrow).WellFormed := by
  rw [KeyRoute.keyMigrating]
  split
  · next hnode => exact hwf.mapKeys hnode fun s => FileBackedKeySet.keySize_insert ..
  · exact hwf

theorem keyMigrated (hwf : r.WellFormed) : (r.keyMigrated packedKey).WellFormed := by
  rw [KeyRoute.keyMigrated]
  split
  · next hnode => exact hwf.mapKeys hnode fun s => FileBackedKeySet.keySize_migrated ..
  · exact hwf

/-- Once its migration is done, the key belongs to the owner if the mark is there. -/
theorem acceptKey_migrated_iff (hwf : r.WellFormed) (h : r.keyAt packedKey = r.keyAt packedKey') :
    (r.keyMigrated packedKey').acceptKey (r.selectNode packedKey) packedKey = true ↔
      r.Marked packedKey' := by
  rw [acceptKey_eq, KeyRoute.keyMigrated, Marked, selectNode_eq h]
  cases hnode : r.serverMigrationState (r.selectNode packedKey') with
  | none =>
    dsimp only
    rw [hnode]
    exact iff_of_true rfl trivial
  | some node =>
    dsimp only
    rw [state_setNode, Option.all_some]
    have hsize := hwf.keySize (r.selectNode packedKey') node
    obtain ⟨addr, state⟩ := node
    cases state with
    | notStarted => exact iff_of_false Bool.false_ne_true id
    | completed => exact iff_of_true rfl trivial
    | migrating s =>
      have hkey := hwf.set_keyAt_eq h (hsize s hnode rfl)
      exact (congrArg (· = true) (MigrationState.contains_migrated_self hkey)).to_iff
    | migrateReadonly s =>
      have hkey := hwf.set_keyAt_eq h (hsize s hnode rfl)
      exact (congrArg (· = true) (MigrationState.contains_migrated_self hkey)).to_iff

end Marks

/-! ### The changes of the states -/

/-- What a change of the state of a node does. -/
inductive Changed (r : KeyRoute) (operation : Option (Bytes × Int)) (canOpen : Bool) :
    KeyRoute → Prop where
  | same (h : ∀ name newState node new, operation = some (name, newState) →
      r.serverMigrationState name = some node → StateCode.ofInt? newState = some new →
      name ≠ r.selfName → node.state.code.forgets new canOpen = false) :
      Changed r operation canOpen r
  | set (name : Bytes) (newState : Int) (node : ServerMigrationState) (new : StateCode)
      (state : MigrationState) (hoperation : operation = some (name, newState))
      (hnode : r.serverMigrationState name = some node)
      (hnew : StateCode.ofInt? newState = some new) (hself : name ≠ r.selfName)
      (hchange : node.state.change r.adminKeyFormat canOpen (some new) = .ok state) :
      Changed r operation canOpen (r.setNode name { node with state })

theorem changed (r : KeyRoute) (operation : Option (Bytes × Int)) (canOpen : Bool) :
    Changed r operation canOpen (r.processNodeStateChange operation canOpen).2 := by
  rw [processNodeStateChange.eq_def]
  cases operation with
  | none => exact .same nofun
  | some operation =>
    obtain ⟨name, newState⟩ := operation
    dsimp only
    have hsame : (∀ node new, r.serverMigrationState name = some node → new.toInt = newState →
        name ≠ r.selfName → node.state.code.forgets new canOpen = false) →
        Changed r (some (name, newState)) canOpen r := by
      refine fun h => .same fun name' newState' node new hop hnode hnew hself => ?_
      cases hop
      exact h node new hnode (StateCode.ofInt?_eq_some.mp hnew) hself
    cases hnode : r.serverMigrationState name with
    | none => exact hsame fun node new hnode' => nomatch hnode.symm.trans hnode'
    | some node =>
      dsimp only
      by_cases hbig : newState > StateCode.completed.toInt
      · rw [if_pos hbig]
        refine hsame fun _ new _ hnew _ => ?_
        subst hnew
        cases new <;> exact absurd hbig (by decide)
      rw [if_neg hbig]
      by_cases hcode : node.state.code.toInt = newState
      · rw [if_pos hcode]
        refine hsame fun node' new hnode' hnew _ => ?_
        cases hnode.symm.trans hnode'
        rw [StateCode.toInt_inj (hcode.trans hnew.symm)]
        exact StateCode.forgets_self new canOpen
      rw [if_neg hcode]
      by_cases hself : name = r.selfName
      · rw [if_pos hself]
        exact hsame fun _ _ _ _ hne => absurd hself hne
      rw [if_neg hself]
      cases hchange : node.state.change r.adminKeyFormat canOpen (StateCode.ofInt? newState) with
      | error e =>
        refine hsame fun node' new hnode' hnew _ => ?_
        cases hnode.symm.trans hnode'
        rw [StateCode.ofInt?_eq_some.mpr hnew] at hchange
        by_contra hforgets
        rw [Bool.not_eq_false] at hforgets
        obtain ⟨state, hok, -⟩ := MigrationState.change_of_forgets r.adminKeyFormat hforgets
        cases hchange.symm.trans hok
      | ok state =>
        cases hnew : StateCode.ofInt? newState with
        | none =>
          rw [hnew] at hchange
          cases hstate : node.state <;> rw [hstate] at hchange <;> cases hchange
        | some new =>
          rw [hnew] at hchange
          exact .set name newState node new state rfl hnode hnew hself hchange

theorem change (hwf : r.WellFormed) {operation : Option (Bytes × Int)} {canOpen : Bool}
    {r' : KeyRoute} (h : Changed r operation canOpen r') : r'.WellFormed := by
  cases h with
  | same => exact hwf
  | set name newState node new state _ hnode _ _ hchange =>
    refine hwf.setNode fun keys hkeys => ?_
    have hsize := hwf.keySize name node
    obtain ⟨addr, old⟩ := node
    have hold : ∀ keys, old.migrated? = some keys → keys.1.keySize = r.adminKeyFormat :=
      fun keys => hsize keys hnode
    cases old <;> cases new <;> cases canOpen <;> cases hchange <;>
      first | exact hold keys hkeys | (cases hkeys; rfl) | cases hkeys

theorem processMigrate_eq_cache {fromServer : Bool} {addr : Option Bytes}
    (h : r.processMigrate packedKey fromServer = .cache addr) :
    r.selectNode packedKey = r.selfName ∧ fromServer = true ∨
      r.selectNode packedKey ≠ r.selfName ∧ ∃ addr keys,
        r.serverMigrationState (r.selectNode packedKey) = some ⟨addr, .migrating keys⟩ ∨
          r.serverMigrationState (r.selectNode packedKey) = some ⟨addr, .migrateReadonly keys⟩ := by
  rw [processMigrate] at h
  by_cases hself : r.selectNode packedKey = r.selfName
  · rw [if_pos hself] at h
    cases fromServer with
    | true => exact .inl ⟨hself, rfl⟩
    | false => cases h
  rw [if_neg hself] at h
  refine .inr ⟨hself, ?_⟩
  cases hnode : r.serverMigrationState (r.selectNode packedKey) with
  | none =>
    rw [hnode] at h
    cases h
  | some node =>
    rw [hnode] at h
    obtain ⟨addr, state⟩ := node
    cases state with
    | notStarted => cases h
    | completed => cases h
    | migrating keys => exact ⟨addr, keys, .inl rfl⟩
    | migrateReadonly keys => exact ⟨addr, keys, .inr rfl⟩

end WellFormed

/-- What the loop in `Init` keeps. -/
structure Ready (r : KeyRoute) : Prop where
  ring : r.selector.Ring r.hash
  csAddr : r.csAddr = none
  known : ∀ name ∈ r.selector.nodeNames, (r.serverMigrationState name).isSome = true
  selfName : r.selector.nodeNames = [] → r.selfName = []
  closed : ∀ name node, r.serverMigrationState name = some node → node.state.migrated? = none

theorem Ready.wellFormed (h : r.Ready) (hformats : r.adminKeyFormat = r.keyFormat ∨
    0 < r.adminKeyFormat ∧ r.adminKeyFormat ≤ r.keyFormat) : r.WellFormed where
  csAddr := h.csAddr
  known packedKey := by
    rw [selectNode]
    split_ifs
    all_goals
      obtain hmem | ⟨hnil, hselect⟩ := h.ring.select_mem _
      · exact .inr (h.known _ hmem)
      · exact .inl (hselect.trans (h.selfName hnil).symm)
  keySize name node keys hnode hkeys := nomatch (h.closed name node hnode).symm.trans hkeys
  formats := hformats

theorem Ready.addNode {r' : KeyRoute} {config : ClusterNode} (h : r.Ready)
    (hadd : r.addNode config = some r') :
    r'.Ready ∧ r'.keyFormat = r.keyFormat ∧ r'.adminKeyFormat = r.adminKeyFormat := by
  obtain ⟨selector, hselector, hr'⟩ := Option.bind_eq_some_iff.mp hadd
  cases hr'
  obtain ⟨-, hnames, -⟩ := ConsistentHashSelector.addNode_eq_some hselector
  refine ⟨⟨h.ring.addNode hselector, h.csAddr, fun name hname => ?_, fun hnil => ?_,
    fun name node hnode => ?_⟩, rfl, rfl⟩
  · by_cases hnew : name = config.name
    · subst hnew
      exact congrArg Option.isSome state_setNode
    · rw [hnames, List.mem_append, List.mem_singleton] at hname
      exact (congrArg Option.isSome (state_setNode_of_ne hnew)).trans
        (h.known name (hname.resolve_right hnew))
  · rw [hnames] at hnil
    exact absurd (List.append_eq_nil_iff.mp hnil).2 (List.cons_ne_nil _ _)
  · by_cases hnew : name = config.name
    · subst hnew
      cases state_setNode.symm.trans hnode
      dsimp only
      split_ifs <;> rfl
    · exact h.closed name node ((state_setNode_of_ne hnew).symm.trans hnode)

/-- The router that `Init` makes. -/
theorem wellFormed_init {hash : Bytes → UInt32} {keyFormat adminKeyFormat : UInt8}
    {nodes : List ClusterNode} (hinit : init hash keyFormat adminKeyFormat nodes = some r)
    (hformats : adminKeyFormat = keyFormat ∨
      0 < adminKeyFormat ∧ adminKeyFormat ≤ keyFormat) : r.WellFormed := by
  have hready : r.Ready ∧ r.keyFormat = keyFormat ∧ r.adminKeyFormat = adminKeyFormat := by
    refine @invariant_run _ _ addNode (fun r => r.Ready ∧ r.keyFormat = keyFormat ∧
      r.adminKeyFormat = adminKeyFormat) (fun r config r' h hadd => ?_) _ _ ?_ nodes hinit
    · obtain ⟨hready, hformat, hadmin⟩ := h.1.addNode hadd
      exact ⟨hready, hformat.trans h.2.1, hadmin.trans h.2.2⟩
    · exact ⟨⟨ConsistentHashSelector.ring_empty hash, rfl, nofun, fun _ => rfl, nofun⟩, rfl, rfl⟩
  obtain ⟨hready, hformat, hadmin⟩ := hready
  exact hready.wellFormed (by rwa [hformat, hadmin])

end ISearch.KeyRoute
