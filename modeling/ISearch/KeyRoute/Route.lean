import ISearch.KeyRoute.ConsistentHash
import ISearch.KeyRoute.KeyStatus

/-!
# The router of the keys (`key_route.cc`)

A request for a key of another node of the cluster stays here until the key has got there. How far
the keys of a node have got is the node's `MigrationState`; while it is `MS_MIGRATING` or
`MS_MIGRATE_READONLY`, a set holds the keys that are on their way, or have arrived. The sets are
opened with the key format of the admin table (`adminKeyFormat`), whose key is the first key field.
-/

namespace ISearch

open KeyFormat (Bytes)

namespace KeyRoute

def ecBadOperator : Int := 2013
def ecServerError : Int := 2033
def ecServerReadonly : Int := 2043
def ecBadRawData : Int := 2048
def ecStateError : Int := 2058
def ecDataNeeded : Int := 2059

/-- The set of migrated keys of a node. -/
abbrev MigratedKeys := { s : FileBackedKeySet // s.Inv }

namespace MigratedKeys

def openFile (keyFormat : UInt8) : MigratedKeys :=
  ⟨.openFile keyFormat, FileBackedKeySet.inv_openFile keyFormat⟩

def insert (s : MigratedKeys) (key : Nat → UInt8) (canGrow : Bool) : MigratedKeys :=
  ⟨(s.1.insert key canGrow).2, s.2.insert canGrow⟩

def migrated (s : MigratedKeys) (key : Nat → UInt8) : MigratedKeys :=
  ⟨(s.1.migrated key).2, s.2.migrated⟩

end MigratedKeys

/-- The values of `enum MigrationState`. -/
inductive StateCode where
  | notStarted
  | migrating
  | migrateReadonly
  | completed
  deriving DecidableEq, Repr

def StateCode.toInt : StateCode → Int
  | .notStarted => 0
  | .migrating => 1
  | .migrateReadonly => 2
  | .completed => 3

def StateCode.ofInt? (v : Int) : Option StateCode :=
  [notStarted, migrating, migrateReadonly, completed].find? fun code => code.toInt = v

/-- The state of a node, with the set that is open in it. -/
inductive MigrationState where
  | notStarted
  | migrating (migrated : MigratedKeys)
  | migrateReadonly (migrated : MigratedKeys)
  | completed

namespace MigrationState

def code : MigrationState → StateCode
  | notStarted => .notStarted
  | migrating _ => .migrating
  | migrateReadonly _ => .migrateReadonly
  | completed => .completed

def migrated? : MigrationState → Option MigratedKeys
  | migrating s | migrateReadonly s => some s
  | notStarted | completed => none

/-- The state with a call on its set. -/
def mapKeys (f : MigratedKeys → MigratedKeys) : MigrationState → MigrationState
  | migrating s => migrating (f s)
  | migrateReadonly s => migrateReadonly (f s)
  | notStarted => notStarted
  | completed => completed

/-- The switch of `process_node_state_change`; `canOpen` says whether `Open` succeeds. -/
def change (keyFormat : UInt8) (canOpen : Bool) :
    MigrationState → Option StateCode → Except (Int × String) MigrationState
  | notStarted, some .migrateReadonly =>
    if canOpen then .ok (migrateReadonly (.openFile keyFormat))
    else .error (-ecServerError, "open file backed key set failed")
  | notStarted, some .migrating =>
    if canOpen then .ok (migrating (.openFile keyFormat))
    else .error (-ecServerError, "open file backed key set failed")
  | notStarted, some .completed => .ok completed
  | migrating _, some .notStarted | migrateReadonly _, some .notStarted => .ok notStarted
  | migrateReadonly s, some .migrating => .ok (migrating s)
  | migrating s, some .migrateReadonly => .ok (migrateReadonly s)
  | migrating _, some .completed | migrateReadonly _, some .completed => .ok completed
  | completed, some .notStarted => .ok notStarted
  | completed, some .migrating =>
    if canOpen then .ok (migrating (.openFile keyFormat))
    else .error (-ecServerError, "open file backed key set failed\n")
  | completed, some .migrateReadonly =>
    if canOpen then .ok (migrateReadonly (.openFile keyFormat))
    else .error (-ecServerError, "open file backed key set failed\n")
  | _, _ => .error (-ecBadRawData, "invalid state")

end MigrationState

structure ServerMigrationState where
  addr : Bytes
  state : MigrationState

end KeyRoute

/-! ## The router -/

open KeyRoute in
/-- `KeyRoute`; `hash` is the hash function of `m_selector`, and `csAddr` the address of
`CS_CASCADING`. -/
structure KeyRoute where
  hash : Bytes → UInt32
  keyFormat : UInt8
  adminKeyFormat : UInt8
  csAddr : Option Bytes
  serverMigrationState : Bytes → Option ServerMigrationState
  selfName : Bytes
  selector : ConsistentHashSelector

namespace KeyRoute

/-- What `task_notify` does with a request: it gives it to the cache, or to the helper for other
nodes, or it replies. -/
inductive Outcome where
  | cache (remoteAddr : Option Bytes)
  | remote (remoteAddr : Bytes) (passThru : Bool)
  | reply
  | error (code : Int) (source : String) (message : String)

/-- What `task_notify` looks at in a request. -/
inductive Request where
  | nop
  /-- The admin codes that go to the cache. -/
  | admin
  | setClusterNodeState (operation : Option (Bytes × Int)) (canOpen : Bool)
  | migrate (packedKey : Nat → UInt8) (fromServer : Bool)
  /-- The other requests; without a key for a batch. -/
  | keyed (isGet : Bool) (packedKey : Option (Nat → UInt8))

section

variable (r : KeyRoute)

/-- `select_node`: a key of four bytes is extended to eight. -/
def selectNode (packedKey : Nat → UInt8) : Bytes :=
  if r.keyFormat = 4 then r.selector.select (r.hash (slice packedKey 0 4 ++ [0, 0, 0, 0]))
  else
    let keyLen := if r.keyFormat > 0 then r.keyFormat.toNat else (packedKey 0).toNat + 1
    r.selector.select (r.hash (slice packedKey 0 keyLen))

def setNode (name : Bytes) (node : ServerMigrationState) : KeyRoute :=
  { r with serverMigrationState := Function.update r.serverMigrationState name (some node) }

/-- `name_to_addr`: the lookup makes an entry where there is none. -/
def nameToAddr (node : Bytes) : Bytes × KeyRoute :=
  match r.serverMigrationState node with
  | some s => (s.addr, r)
  | none => ([], r.setNode node ⟨[], .notStarted⟩)

def acceptKey (node : Bytes) (key : Nat → UInt8) : Bool :=
  match r.serverMigrationState node with
  | none => true
  | some ⟨_, .notStarted⟩ => false
  | some ⟨_, .completed⟩ => true
  | some ⟨_, .migrating s⟩ | some ⟨_, .migrateReadonly s⟩ => s.1.contains key true

def isMigrating (node : Bytes) (key : Nat → UInt8) : Bool :=
  match r.serverMigrationState node with
  | some ⟨_, .migrating s⟩ | some ⟨_, .migrateReadonly s⟩ => s.1.isMigrating key
  | _ => false

/-- `key_migrating`; the callers drop what it returns. -/
def keyMigrating (key : Nat → UInt8) (canGrow : Bool) : KeyRoute :=
  match r.serverMigrationState (r.selectNode key) with
  | some s => r.setNode (r.selectNode key) { s with
      state := s.state.mapKeys fun keys => keys.insert key canGrow }
  | none => r

def keyMigrated (key : Nat → UInt8) : KeyRoute :=
  match r.serverMigrationState (r.selectNode key) with
  | some s => r.setNode (r.selectNode key) { s with
      state := s.state.mapKeys fun keys => keys.migrated key }
  | none => r

def processMigrate (packedKey : Nat → UInt8) (fromServer : Bool) : Outcome :=
  let selected := r.selectNode packedKey
  if selected = r.selfName then
    if fromServer then .cache none
    else .error (-ecStateError) "Key Route" "key belongs to self"
  else
    match r.serverMigrationState selected with
    | none => .error (-ecStateError) "Key Route" "internal error: node not in map!"
    | some ⟨addr, .migrating _⟩ | some ⟨addr, .migrateReadonly _⟩ => .cache (some addr)
    | some _ => .error (-ecStateError) "Key Route" "state not migratable"

def processNodeStateChange (operation : Option (Bytes × Int)) (canOpen : Bool) :
    Outcome × KeyRoute :=
  match operation with
  | none => (.error (-ecDataNeeded) "Key Route" "node name needed.", r)
  | some (name, newState) =>
    match r.serverMigrationState name with
    | none => (.error (-ecBadRawData) "Key Route" "invalid name/state", r)
    | some node =>
      if newState > StateCode.completed.toInt then
        (.error (-ecBadRawData) "Key Route" "invalid name/state", r)
      else if node.state.code.toInt = newState then (.reply, r)
      else if name = r.selfName then
        (.error (-ecBadRawData) "Key Route" "can't change self's state", r)
      else
        match node.state.change r.adminKeyFormat canOpen (StateCode.ofInt? newState) with
        | .error (code, message) => (.error code "Key Route" message, r)
        | .ok state => (.reply, r.setNode name { node with state })

/-- `task_notify` of a request for a key, once the router is not cascading. -/
def routeKey (isGet : Bool) (packedKey : Nat → UInt8) : Outcome × KeyRoute :=
  let selected := r.selectNode packedKey
  if selected = r.selfName then (.cache none, r)
  else if r.acceptKey selected packedKey then
    let (addr, r) := r.nameToAddr selected
    (.remote addr true, r)
  else if r.isMigrating selected packedKey then
    if isGet then (.cache none, r)
    else (.error (-ecServerError) "Key Route"
      "try to do non read op on a key while it is migrating", r)
  else
    match r.serverMigrationState selected with
    | some ⟨_, .migrateReadonly _⟩ =>
      if isGet then (.cache none, r)
      else (.error (-ecServerReadonly) "Key Route" "migrate readonly", r)
    | _ => (.cache none, r)

def taskNotify : Request → Outcome × KeyRoute
  | .nop | .admin => (.cache none, r)
  | .setClusterNodeState operation canOpen => r.processNodeStateChange operation canOpen
  | .migrate packedKey fromServer => (r.processMigrate packedKey fromServer, r)
  | .keyed _ none =>
    (.error (-ecBadOperator) "Key Route" "Batch Request Fast Path Not Supported", r)
  | .keyed isGet (some packedKey) =>
    match r.csAddr with
    | some [] => (.error (-ecServerError) "key route" "the remote cascade addr is NULL", r)
    | some addr => (.remote addr false, r)
    | none => r.routeKey isGet packedKey

end

/-- A line of the cluster config. -/
structure ClusterNode where
  name : Bytes
  addr : Bytes
  self : Bool

/-- A round of the loop in `Init`. -/
def addNode (r : KeyRoute) (node : ClusterNode) : Option KeyRoute := do
  let selector ← r.selector.addNode r.hash node.name
  let r := r.setNode node.name ⟨node.addr, if node.self then .completed else .notStarted⟩
  some { r with selector, selfName := if node.self then node.name else r.selfName }

/-- `Init`; a name that is there already aborts. -/
def init (hash : Bytes → UInt32) (keyFormat adminKeyFormat : UInt8) (nodes : List ClusterNode) :
    Option KeyRoute :=
  nodes.foldlM addNode ⟨hash, keyFormat, adminKeyFormat, none, fun _ => none, [], .empty⟩

end KeyRoute

end ISearch
