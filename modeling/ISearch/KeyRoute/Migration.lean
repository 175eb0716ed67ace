import ISearch.KeyRoute.Marks

/-!
# Migration of keys (`key_route.cc`, `admin_process.cc`, `buffer_process.cc`)

Behind the barrier, which lets one task through for each key, the router gives a request to the
cache or to another node. A `Migrate` command takes the rows of a key, marks the key and sends the
rows to the owner; when the owner has replied the rows are purged here and the key is marked as
migrated. The marks are in the state of the owner, and a change of that state can throw them away.

A write is the change of the rows that it makes.
-/

namespace ISearch.KeyRoute

open Function
open KeyFormat (Bytes)

/-! ## The system -/

/-- A task that the barrier has let through and that is not replied to. -/
inductive Task (Rows : Type) where
  /-- At the data source; a read has no write. -/
  | source (write : Option (Rows → Rows))
  | remote
  | migrate (rows : Rows)

/-- The router, the rows of the keys as this node would answer them, which of them have a node in
the cache, and the tasks that are under way. The writes that were acknowledged here and the rows
that the owner has got are the history of the run. -/
structure System (Rows : Type) where
  route : KeyRoute
  rows : Bytes → Rows
  cached : Bytes → Bool
  task : Bytes → Option (Task Rows)
  acked : Bytes → List (Rows → Rows)
  received : Bytes → Option Rows

inductive Event (Rows : Type) where
  /-- A request of a client; `hit` says whether the cache can do it alone. -/
  | request (isGet : Bool) (packedKey : Nat → UInt8) (write : Rows → Rows) (hit : Bool)
  /-- A `Migrate` command. From another node it comes with rows, or to purge the key. -/
  | migrate (packedKey : Nat → UInt8) (fromServer : Option (Option Rows)) (canGrow : Bool)
  | sourceReply (packedKey : Nat → UInt8) (ok : Bool)
  | remoteReply (packedKey : Nat → UInt8)
  | migrateReply (packedKey : Nat → UInt8) (ok : Bool)
  | setClusterNodeState (operation : Option (Bytes × Int)) (canOpen : Bool)
  /-- A node comes into the cache, or is purged from it. -/
  | cache (packedKey : Nat → UInt8) (present : Bool)

namespace System

variable {Rows : Type}

def start (route : KeyRoute) (rows : Bytes → Rows) : System Rows where
  route := route
  rows := rows
  cached _ := false
  task _ := none
  acked _ := []
  received _ := none

def setTask (s : System Rows) (key : Bytes) (task : Option (Task Rows)) : System Rows :=
  { s with task := update s.task key task }

/-- A write is done here and acknowledged. -/
def execute (s : System Rows) (key : Bytes) (write : Rows → Rows) : System Rows :=
  { s with
    rows := update s.rows key (write (s.rows key))
    acked := update s.acked key (s.acked key ++ [write]) }

def setCached (s : System Rows) (key : Bytes) (present : Bool) : System Rows :=
  { s with cached := update s.cached key present }

/-- `task_notify`, and the cache behind it. -/
def request (s : System Rows) (isGet : Bool) (packedKey : Nat → UInt8) (write : Rows → Rows)
    (hit : Bool) : System Rows :=
  let key := s.route.keyAt packedKey
  match s.route.taskNotify (.keyed isGet (some packedKey)) with
  | (.cache _, route) =>
    let s := { s with route }
    if hit then if isGet then s else s.execute key write
    else s.setTask key (some (.source (if isGet then none else some write)))
  | (.remote .., route) => { s with route }.setTask key (some .remote)
  | (_, route) => { s with route }

/-- `buffer_migrate`; a key that has no node in the cache is refused, and what `key_migrating`
returns is dropped. -/
def bufferMigrate (s : System Rows) (packedKey : Nat → UInt8) (canGrow : Bool) :
    Option (Option Rows) → System Rows
  | some none => s.setCached (s.route.keyAt packedKey) false
  | some (some rows) =>
    (s.execute (s.route.keyAt packedKey) fun _ => rows).setCached (s.route.keyAt packedKey) true
  | none =>
    let key := s.route.keyAt packedKey
    if s.cached key then
      { s with route := s.route.keyMigrating packedKey canGrow }.setTask key
        (some (.migrate (s.rows key)))
    else s

def migrate (s : System Rows) (packedKey : Nat → UInt8) (fromServer : Option (Option Rows))
    (canGrow : Bool) : System Rows :=
  match s.route.taskNotify (.migrate packedKey fromServer.isSome) with
  | (.cache _, route) => { s with route }.bufferMigrate packedKey canGrow fromServer
  | (_, route) => { s with route }

/-- `buffer_process_reply` to a migration; what `key_migrated` returns is dropped. -/
def migrated (s : System Rows) (packedKey : Nat → UInt8) (rows : Rows) : System Rows :=
  let key := s.route.keyAt packedKey
  { s.setCached key false with
    route := s.route.keyMigrated packedKey
    received := update s.received key (some rows) }

/-- A step; `none` where the barrier holds the task back, or there is no task to reply to. -/
def step (s : System Rows) : Event Rows → Option (System Rows)
  | .request isGet packedKey write hit =>
    match s.task (s.route.keyAt packedKey) with
    | some _ => none
    | none => some (s.request isGet packedKey write hit)
  | .migrate packedKey fromServer canGrow =>
    match s.task (s.route.keyAt packedKey) with
    | some _ => none
    | none => some (s.migrate packedKey fromServer canGrow)
  | .sourceReply packedKey ok =>
    let key := s.route.keyAt packedKey
    match s.task key with
    | some (.source (some write)) =>
      some (if ok then (s.setTask key none).execute key write else s.setTask key none)
    | some (.source none) => some (s.setTask key none)
    | _ => none
  | .remoteReply packedKey =>
    let key := s.route.keyAt packedKey
    match s.task key with
    | some .remote => some (s.setTask key none)
    | _ => none
  | .migrateReply packedKey ok =>
    let key := s.route.keyAt packedKey
    match s.task key with
    | some (.migrate rows) =>
      some (if ok then (s.setTask key none).migrated packedKey rows else s.setTask key none)
    | _ => none
  | .setClusterNodeState operation canOpen =>
    some { s with route := (s.route.taskNotify (.setClusterNodeState operation canOpen)).2 }
  | .cache packedKey present => some (s.setCached (s.route.keyAt packedKey) present)

/-- The step executes a write to the key here. -/
inductive Executes (s : System Rows) : Event Rows → (Nat → UInt8) → Prop where
  | request {packedKey : Nat → UInt8} {write : Rows → Rows} {hit : Bool} {addr : Option Bytes}
      (hfree : s.task (s.route.keyAt packedKey) = none)
      (hcache : (s.route.taskNotify (.keyed false (some packedKey))).1 = .cache addr) :
      Executes s (.request false packedKey write hit) packedKey
  | migrate {packedKey : Nat → UInt8} {rows : Rows} {canGrow : Bool} {addr : Option Bytes}
      (hfree : s.task (s.route.keyAt packedKey) = none)
      (hcache : (s.route.taskNotify (.migrate packedKey true)).1 = .cache addr) :
      Executes s (.migrate packedKey (some (some rows)) canGrow) packedKey

/-- The writes that were acknowledged here, one after the other. -/
def replay (s : System Rows) (initial : Bytes → Rows) (key : Bytes) : Rows :=
  (s.acked key).foldl (fun rows write => write rows) (initial key)

/-- What is true of the migrated keys. -/
structure Safe (initial : Bytes → Rows) (s : System Rows) : Prop where
  forwards : ∀ packedKey, s.received (s.route.keyAt packedKey) ≠ none →
    s.route.Forwards packedKey
  received : ∀ key rows, s.received key = some rows → rows = s.replay initial key

/-- No acknowledged write is lost by the step. -/
structure Lossless (initial : Bytes → Rows) (s : System Rows) (e : Event Rows) : Prop where
  mayWrite : ∀ packedKey, s.Executes e packedKey →
    s.route.selectNode packedKey ≠ s.route.selfName → s.route.MayWrite packedKey
  held : ∀ s', s.step e = some s' → ∀ key rows, s.task key = some (.migrate rows) →
    s'.acked key = s.acked key
  safe : ∀ s', s.step e = some s' → s'.Safe initial

/-- Rows of another node come for a key that may be written here, a migration ends while the owner
has its mark, and no state is changed that has the marks of migrated keys. -/
def Kept (s : System Rows) : Event Rows → Prop
  | .migrate packedKey (some (some _)) _ => s.task (s.route.keyAt packedKey) = none →
    s.route.selectNode packedKey ≠ s.route.selfName →
      match s.route.serverMigrationState (s.route.selectNode packedKey) with
      | some ⟨_, .migrating keys⟩ =>
        keys.1.isMigrating packedKey = false ∧ keys.1.contains packedKey true = false
      | some ⟨_, .migrateReadonly _⟩ => False
      | _ => True
  | .migrateReply packedKey true =>
    (∃ rows, s.task (s.route.keyAt packedKey) = some (.migrate rows)) → s.route.Marked packedKey
  | .setClusterNodeState (some (name, newState)) canOpen => ∀ node new,
    s.route.serverMigrationState name = some node → StateCode.ofInt? newState = some new →
      node.state.code.forgets new canOpen = true →
        ∀ packedKey, s.route.selectNode packedKey = name →
          s.received (s.route.keyAt packedKey) = none
  | _ => True

structure Inv (initial : Bytes → Rows) (s : System Rows) : Prop extends Safe initial s where
  route : s.route.WellFormed
  rows_eq : ∀ key, s.rows key = s.replay initial key
  in_flight : ∀ key rows, s.task key = some (.migrate rows) → rows = s.rows key
  in_flight_owner : ∀ packedKey rows, s.task (s.route.keyAt packedKey) = some (.migrate rows) →
    s.route.selectNode packedKey ≠ s.route.selfName
  no_source : ∀ packedKey write, s.received (s.route.keyAt packedKey) ≠ none →
    s.task (s.route.keyAt packedKey) ≠ some (.source write)

/-! ## The invariant -/

variable {initial : Bytes → Rows} {s : System Rows} {packedKey : Nat → UInt8} {key : Bytes}

theorem task_setTask (s : System Rows) (key : Bytes) (task : Option (Task Rows)) :
    (s.setTask key task).task key = task := update_self ..

theorem task_setTask_of_ne {key' : Bytes} (hne : key' ≠ key) (task : Option (Task Rows)) :
    (s.setTask key task).task key' = s.task key' := update_of_ne hne ..

theorem inv_start {route : KeyRoute} (hwf : route.WellFormed) :
    Inv initial (start route initial) where
  forwards _ h := absurd rfl h
  received _ _ h := nomatch h
  route := hwf
  rows_eq _ := rfl
  in_flight _ _ h := nomatch h
  in_flight_owner _ _ h := nomatch h
  no_source _ _ h := absurd rfl h

namespace Inv

theorem setCached (h : Inv initial s) (key : Bytes) (present : Bool) :
    Inv initial (s.setCached key present) where
  forwards := h.forwards
  received := h.received
  route := h.route
  rows_eq := h.rows_eq
  in_flight := h.in_flight
  in_flight_owner := h.in_flight_owner
  no_source := h.no_source

theorem setTask (h : Inv initial s) (task : Option (Task Rows))
    (hmigrate : ∀ rows, task = some (.migrate rows) →
      rows = s.rows key ∧ ∀ packedKey, s.route.keyAt packedKey = key →
        s.route.selectNode packedKey ≠ s.route.selfName)
    (hsource : s.received key ≠ none → ∀ write, task ≠ some (.source write)) :
    Inv initial (s.setTask key task) where
  forwards := h.forwards
  received := h.received
  route := h.route
  rows_eq := h.rows_eq
  in_flight key' rows htask := by
    by_cases hkey : key' = key
    · subst hkey
      exact (hmigrate rows ((s.task_setTask _ task).symm.trans htask)).1
    · exact h.in_flight key' rows ((task_setTask_of_ne hkey task).symm.trans htask)
  in_flight_owner packedKey rows htask := by
    by_cases hkey : s.route.keyAt packedKey = key
    · subst hkey
      exact (hmigrate rows ((s.task_setTask _ task).symm.trans htask)).2 packedKey rfl
    · exact h.in_flight_owner packedKey rows ((task_setTask_of_ne hkey task).symm.trans htask)
  no_source packedKey write hreceived htask := by
    by_cases hkey : s.route.keyAt packedKey = key
    · subst hkey
      exact hsource hreceived write ((s.task_setTask _ task).symm.trans htask)
    · exact h.no_source packedKey write hreceived
        ((task_setTask_of_ne hkey task).symm.trans htask)

theorem setTask_none (h : Inv initial s) : Inv initial (s.setTask key none) :=
  h.setTask none nofun fun _ _ => nofun

/-- A write to a key that is neither on its way nor with the owner. -/
theorem execute (h : Inv initial s) (write : Rows → Rows) (hreceived : s.received key = none)
    (hfree : ∀ rows, s.task key ≠ some (.migrate rows)) : Inv initial (s.execute key write) where
  forwards := h.forwards
  received key' rows hkey' := by
    have hne : key' ≠ key := by
      rintro rfl
      exact nomatch hreceived.symm.trans hkey'
    rw [h.received key' rows hkey', replay, replay]
    exact congrArg _ (update_of_ne hne ..).symm
  route := h.route
  rows_eq key' := by
    by_cases hkey : key' = key
    · subst hkey
      simp only [System.execute, replay, update_self, List.foldl_append, List.foldl_cons,
        List.foldl_nil]
      exact congrArg write (h.rows_eq key')
    · simp only [System.execute, replay, update_of_ne hkey]
      exact h.rows_eq key'
  in_flight key' rows htask := by
    have hne : key' ≠ key := by
      rintro rfl
      exact hfree rows htask
    exact (h.in_flight key' rows htask).trans (update_of_ne hne ..).symm
  in_flight_owner := h.in_flight_owner
  no_source := h.no_source

/-- A new state of the router that keeps the migrated keys. -/
theorem setRoute (h : Inv initial s) {route : KeyRoute} (hwf : route.WellFormed)
    (hsame : s.route.SameKeys route)
    (haccept : ∀ packedKey, s.received (s.route.keyAt packedKey) ≠ none →
      s.route.acceptKey (s.route.selectNode packedKey) packedKey = true →
      route.acceptKey (s.route.selectNode packedKey) packedKey = true) :
    Inv initial { s with route := route } where
  forwards packedKey hreceived := by
    dsimp only at hreceived ⊢
    rw [hsame.keyAt] at hreceived
    obtain ⟨hne, hold⟩ := h.route.forwards_iff.mp (h.forwards packedKey hreceived)
    rw [hwf.forwards_iff, hsame.selectNode, hsame.selfName]
    exact ⟨hne, haccept packedKey hreceived hold⟩
  received := h.received
  route := hwf
  rows_eq := h.rows_eq
  in_flight := h.in_flight
  in_flight_owner packedKey rows htask := by
    dsimp only at htask ⊢
    rw [hsame.keyAt] at htask
    rw [hsame.selectNode, hsame.selfName]
    exact h.in_flight_owner packedKey rows htask
  no_source packedKey write hreceived := by
    dsimp only at hreceived ⊢
    rw [hsame.keyAt] at hreceived ⊢
    exact h.no_source packedKey write hreceived

/-- A migrated key is neither here nor refused. -/
theorem received_of_not_accepted (h : Inv initial s)
    (haccept : s.route.selectNode packedKey = s.route.selfName ∨
      s.route.acceptKey (s.route.selectNode packedKey) packedKey = false) :
    s.received (s.route.keyAt packedKey) = none := by
  by_contra hreceived
  obtain ⟨hne, hold⟩ := h.route.forwards_iff.mp (h.forwards packedKey hreceived)
  obtain hself | hfalse := haccept
  · exact hne hself
  · exact Bool.false_ne_true (hfalse.symm.trans hold)

theorem request (h : Inv initial s) (isGet : Bool) (write : Rows → Rows) (hit : Bool)
    (hfree : s.task (s.route.keyAt packedKey) = none) :
    Inv initial (s.request isGet packedKey write hit) := by
  have hkept (hreceived : s.received (s.route.keyAt packedKey) = none) : Inv initial
      (if hit then if isGet then s else s.execute (s.route.keyAt packedKey) write
        else s.setTask (s.route.keyAt packedKey)
          (some (.source (if isGet then none else some write)))) := by
    split_ifs
    · exact h
    · exact h.execute write hreceived fun rows => by rw [hfree]; exact nofun
    · exact h.setTask _ nofun fun hne => absurd hreceived hne
    · exact h.setTask _ nofun fun hne => absurd hreceived hne
  have hrouted := h.route.routed isGet packedKey
  rw [System.request]
  generalize s.route.taskNotify (.keyed isGet (some packedKey)) = result at hrouted
  cases hrouted with
  | own hself => exact hkept (h.received_of_not_accepted (.inl hself))
  | forwarded addr => exact h.setTask _ nofun fun _ _ => nofun
  | kept _ haccept => exact hkept (h.received_of_not_accepted (.inr haccept))
  | refused => exact h

theorem bufferMigrate (h : Inv initial s) {fromServer : Option (Option Rows)} (canGrow : Bool)
    {addr : Option Bytes}
    (hcache : s.route.processMigrate packedKey fromServer.isSome = .cache addr)
    (hfree : s.task (s.route.keyAt packedKey) = none)
    (hkept : Kept s (.migrate packedKey fromServer canGrow)) :
    Inv initial (s.bufferMigrate packedKey canGrow fromServer) := by
  have howner := KeyRoute.WellFormed.processMigrate_eq_cache hcache
  match fromServer with
  | some none => exact h.setCached _ _
  | some (some rows) =>
    have hreceived : s.received (s.route.keyAt packedKey) = none := by
      apply h.received_of_not_accepted
      obtain ⟨hself, -⟩ | ⟨hne, addr, keys, hnode | hnode⟩ := howner
      · exact .inl hself
      · have hkeys := hkept hfree hne
        rw [hnode] at hkeys
        rw [KeyRoute.acceptKey_eq, hnode]
        exact .inr hkeys.2
      · have hkeys := hkept hfree hne
        rw [hnode] at hkeys
        exact hkeys.elim
    exact (h.execute _ hreceived fun rows => by rw [hfree]; exact nofun).setCached _ _
  | none =>
    obtain ⟨-, hfalse⟩ | ⟨hne, -⟩ := howner
    · cases hfalse
    rw [System.bufferMigrate]
    split_ifs
    · have hsame : s.route.SameKeys (s.route.keyMigrating packedKey canGrow) :=
        KeyRoute.sameKeys_keyMigrating canGrow
      refine (h.setRoute (h.route.keyMigrating canGrow) hsame fun packedKey' _ =>
        KeyRoute.acceptKey_keyMigrating canGrow).setTask _ (fun rows hrows => ?_) fun _ _ => nofun
      cases hrows
      refine ⟨rfl, fun packedKey' hkey => ?_⟩
      dsimp only at hkey ⊢
      rw [hsame.keyAt] at hkey
      rw [hsame.selectNode, hsame.selfName, KeyRoute.WellFormed.selectNode_eq hkey]
      exact hne
    · exact h

theorem migrate (h : Inv initial s) {fromServer : Option (Option Rows)} {canGrow : Bool}
    (hfree : s.task (s.route.keyAt packedKey) = none)
    (hkept : Kept s (.migrate packedKey fromServer canGrow)) :
    Inv initial (s.migrate packedKey fromServer canGrow) := by
  rw [System.migrate, KeyRoute.taskNotify]
  cases hresult : s.route.processMigrate packedKey fromServer.isSome with
  | cache addr => exact h.bufferMigrate canGrow hresult hfree hkept
  | remote => exact h
  | reply => exact h
  | error => exact h

/-- The owner has the rows of a key. -/
theorem setReceived (h : Inv initial s) {rows : Rows} (hrows : rows = s.rows key)
    (hfree : s.task key = none)
    (hforwards : ∀ packedKey, s.route.keyAt packedKey = key → s.route.Forwards packedKey) :
    Inv initial { s with received := update s.received key (some rows) } where
  forwards packedKey hreceived := by
    by_cases hkey : s.route.keyAt packedKey = key
    · exact hforwards packedKey hkey
    · exact h.forwards packedKey fun hnone =>
        hreceived ((update_of_ne hkey ..).trans hnone)
  received key' rows' hreceived := by
    by_cases hkey : key' = key
    · subst hkey
      cases (update_self ..).symm.trans hreceived
      exact hrows.trans (h.rows_eq key')
    · exact h.received key' rows' ((update_of_ne hkey ..).symm.trans hreceived)
  route := h.route
  rows_eq := h.rows_eq
  in_flight := h.in_flight
  in_flight_owner := h.in_flight_owner
  no_source packedKey write hreceived htask := by
    by_cases hkey : s.route.keyAt packedKey = key
    · exact nomatch (hkey ▸ hfree).symm.trans htask
    · exact h.no_source packedKey write
        (fun hnone => hreceived ((update_of_ne hkey ..).trans hnone)) htask

theorem migrated (h : Inv initial s) {rows : Rows}
    (htask : s.task (s.route.keyAt packedKey) = some (.migrate rows))
    (hmarked : s.route.Marked packedKey) :
    Inv initial ((s.setTask (s.route.keyAt packedKey) none).migrated packedKey rows) := by
  have hsame : s.route.SameKeys (s.route.keyMigrated packedKey) := KeyRoute.sameKeys_keyMigrated
  have hne := h.in_flight_owner packedKey rows htask
  have hidle : Inv initial (s.setTask (s.route.keyAt packedKey) none) := h.setTask_none
  have hroute := (hidle.setCached (s.route.keyAt packedKey) false).setRoute h.route.keyMigrated
    hsame fun packedKey' _ =>
      KeyRoute.acceptKey_keyMigrated
  apply hroute.setReceived (h.in_flight _ rows htask) (s.task_setTask _ none)
  intro packedKey' hkey
  dsimp only at hkey ⊢
  rw [hsame.keyAt] at hkey
  rw [h.route.keyMigrated.forwards_iff, hsame.selectNode, hsame.selfName]
  constructor
  · rwa [KeyRoute.WellFormed.selectNode_eq hkey]
  · exact (h.route.acceptKey_migrated_iff hkey).mpr hmarked

theorem setClusterNodeState (h : Inv initial s) {operation : Option (Bytes × Int)}
    {canOpen : Bool} (hkept : Kept s (.setClusterNodeState operation canOpen)) :
    Inv initial { s with route := (s.route.processNodeStateChange operation canOpen).2 } := by
  have hchanged := KeyRoute.WellFormed.changed s.route operation canOpen
  generalize (s.route.processNodeStateChange operation canOpen).2 = route at hchanged
  refine h.setRoute (h.route.change hchanged) ?_ fun packedKey hreceived haccept => ?_
  · cases hchanged with
    | same => exact ⟨rfl, rfl, rfl⟩
    | set => exact KeyRoute.sameKeys_setNode
  · cases hchanged with
    | same => exact haccept
    | set name newState node new state hoperation hnode hnew hself hchange =>
      subst hoperation
      rw [KeyRoute.acceptKey_eq] at haccept ⊢
      by_cases hname : s.route.selectNode packedKey = name
      · have hforgets : node.state.code.forgets new canOpen = false := by
          rw [← Bool.not_eq_true]
          exact fun hforgets => hreceived (hkept node new hnode hnew hforgets packedKey hname)
        rw [hname, hnode, Option.all_some] at haccept
        rw [hname, KeyRoute.state_setNode, Option.all_some]
        exact MigrationState.accepts_change hchange hforgets haccept
      · rwa [KeyRoute.state_setNode_of_ne hname]

/-- A step that keeps to the rules. -/
theorem step (h : Inv initial s) {e : Event Rows} {s' : System Rows} (hkept : Kept s e)
    (hstep : s.step e = some s') : Inv initial s' := by
  cases e with
  | request isGet packedKey write hit =>
    rw [System.step] at hstep
    split at hstep
    · cases hstep
    · next hfree =>
      cases hstep
      exact h.request isGet write hit hfree
  | migrate packedKey fromServer canGrow =>
    rw [System.step] at hstep
    split at hstep
    · cases hstep
    · next hfree =>
      cases hstep
      exact h.migrate hfree hkept
  | sourceReply packedKey ok =>
    rw [System.step] at hstep
    split at hstep
    · next write htask =>
      cases hstep
      split_ifs
      · apply h.setTask_none.execute
        · by_contra hreceived
          exact h.no_source packedKey _ hreceived htask
        · intro rows hrows
          exact nomatch (s.task_setTask _ none).symm.trans hrows
      · exact h.setTask_none
    · cases hstep
      exact h.setTask_none
    · cases hstep
  | remoteReply packedKey =>
    rw [System.step] at hstep
    split at hstep
    · cases hstep
      exact h.setTask_none
    · cases hstep
  | migrateReply packedKey ok =>
    rw [System.step] at hstep
    split at hstep
    · next rows htask =>
      cases hstep
      cases ok with
      | true => exact h.migrated htask (hkept ⟨rows, htask⟩)
      | false => exact h.setTask_none
    · cases hstep
  | setClusterNodeState operation canOpen =>
    cases hstep
    exact h.setClusterNodeState hkept
  | cache packedKey present =>
    cases hstep
    exact h.setCached _ _

end Inv

/-! ## The steps that lose nothing -/

/-- A step writes to no key that is on its way. -/
theorem acked_step {e : Event Rows} {s' : System Rows} (hstep : s.step e = some s') {rows : Rows}
    (htask : s.task key = some (.migrate rows)) : s'.acked key = s.acked key := by
  have hexecute {s : System Rows} {key' : Bytes} (write : Rows → Rows) (hne : key ≠ key') :
      (s.execute key' write).acked key = s.acked key := update_of_ne hne ..
  cases e with
  | request isGet packedKey write hit =>
    rw [step] at hstep
    split at hstep
    · cases hstep
    next hfree =>
    have hne : key ≠ s.route.keyAt packedKey := by
      rintro rfl
      cases hfree.symm.trans htask
    cases hstep
    rw [System.request]
    split
    · cases hit with
      | false => rfl
      | true =>
        cases isGet with
        | true => rfl
        | false => exact hexecute write hne
    · rfl
    · rfl
  | migrate packedKey fromServer canGrow =>
    rw [step] at hstep
    split at hstep
    · cases hstep
    next hfree =>
    have hne : key ≠ s.route.keyAt packedKey := by
      rintro rfl
      cases hfree.symm.trans htask
    cases hstep
    rw [System.migrate, KeyRoute.taskNotify]
    cases s.route.processMigrate packedKey fromServer.isSome with
    | cache addr =>
      obtain _ | _ | rows := fromServer
      · dsimp only
        rw [bufferMigrate]
        split_ifs <;> rfl
      · rfl
      · exact hexecute _ hne
    | remote => rfl
    | reply => rfl
    | error => rfl
  | sourceReply packedKey ok =>
    rw [step] at hstep
    split at hstep
    · next hsource =>
      have hne : key ≠ s.route.keyAt packedKey := by
        rintro rfl
        cases hsource.symm.trans htask
      cases hstep
      split_ifs
      · exact hexecute _ hne
      · rfl
    · cases hstep
      rfl
    · cases hstep
  | remoteReply packedKey =>
    rw [step] at hstep
    split at hstep
    · cases hstep
      rfl
    · cases hstep
  | migrateReply packedKey ok =>
    rw [step] at hstep
    split at hstep
    · cases hstep
      split_ifs <;> rfl
    · cases hstep
  | setClusterNodeState operation canOpen =>
    cases hstep
    rfl
  | cache packedKey present =>
    cases hstep
    rfl

namespace Inv

theorem mayWrite (h : Inv initial s) {e : Event Rows} (hkept : Kept s e)
    (hexecutes : s.Executes e packedKey)
    (hne : s.route.selectNode packedKey ≠ s.route.selfName) : s.route.MayWrite packedKey := by
  cases hexecutes with
  | request hfree hcache =>
    have hrouted := h.route.routed false packedKey
    generalize s.route.taskNotify (.keyed false (some packedKey)) = result at hrouted hcache
    cases hrouted with
    | own hself => exact absurd hself hne
    | forwarded => cases hcache
    | kept _ _ hwrite => exact hwrite rfl
    | refused => cases hcache
  | migrate hfree hcache =>
    have hkeys := hkept hfree hne
    obtain ⟨hself, -⟩ | ⟨-, addr, keys, hnode | hnode⟩ :=
      KeyRoute.WellFormed.processMigrate_eq_cache hcache
    · exact absurd hself hne
    · rw [hnode] at hkeys
      rw [KeyRoute.MayWrite, hnode]
      exact hkeys
    · rw [hnode] at hkeys
      exact hkeys.elim

/-- Rows that come for a key of another node are a write. -/
theorem kept_migrate {rows : Rows} {canGrow : Bool}
    (hlossless : Lossless initial s (.migrate packedKey (some (some rows)) canGrow)) :
    Kept s (.migrate packedKey (some (some rows)) canGrow) := by
  intro hfree hne
  have hwrite {addr : Option Bytes} (hcache : s.route.processMigrate packedKey true = .cache addr) :
      s.route.MayWrite packedKey := hlossless.mayWrite packedKey (.migrate hfree hcache) hne
  rw [KeyRoute.processMigrate, if_neg hne] at hwrite
  rw [KeyRoute.MayWrite] at hwrite
  cases hnode : s.route.serverMigrationState (s.route.selectNode packedKey) with
  | none => trivial
  | some node =>
    rw [hnode] at hwrite
    obtain ⟨addr, state⟩ := node
    cases state with
    | notStarted => trivial
    | completed => trivial
    | migrating keys => exact hwrite rfl
    | migrateReadonly keys => exact hwrite rfl

theorem kept_migrateReply (h : Inv initial s)
    (hlossless : Lossless initial s (.migrateReply packedKey true)) :
    Kept s (.migrateReply packedKey true) := by
  rintro ⟨rows, htask⟩
  have hsame : s.route.SameKeys (s.route.keyMigrated packedKey) := KeyRoute.sameKeys_keyMigrated
  have hstep : s.step (.migrateReply packedKey true) =
      some ((s.setTask (s.route.keyAt packedKey) none).migrated packedKey rows) := by
    rw [System.step, htask]
    rfl
  have hreceived : update s.received (s.route.keyAt packedKey) (some rows)
      ((s.route.keyMigrated packedKey).keyAt packedKey) ≠ none := by
    rw [hsame.keyAt, update_self]
    exact Option.some_ne_none rows
  have hforwards := (hlossless.safe _ hstep).forwards packedKey hreceived
  obtain ⟨-, haccept⟩ := h.route.keyMigrated.forwards_iff.mp hforwards
  rw [hsame.selectNode] at haccept
  exact (h.route.acceptKey_migrated_iff rfl).mp haccept

theorem kept_setClusterNodeState (h : Inv initial s) {operation : Option (Bytes × Int)}
    {canOpen : Bool} (hlossless : Lossless initial s (.setClusterNodeState operation canOpen)) :
    Kept s (.setClusterNodeState operation canOpen) := by
  cases operation with
  | none => trivial
  | some operation =>
    obtain ⟨name, newState⟩ := operation
    intro node new hnode hnew hforgets packedKey hname
    by_contra hreceived
    obtain ⟨hne, -⟩ := h.route.forwards_iff.mp (h.forwards packedKey hreceived)
    rw [hname] at hne
    have hchanged := KeyRoute.WellFormed.changed s.route (some (name, newState)) canOpen
    have hwf := h.route.change hchanged
    have hforwards := (hlossless.safe _ rfl).forwards packedKey
    rw [KeyRoute.taskNotify] at hforwards
    dsimp only at hforwards
    generalize (s.route.processNodeStateChange (some (name, newState)) canOpen).2 = route
      at hchanged hwf hforwards
    cases hchanged with
    | same hkeeps =>
      exact Bool.false_ne_true
        ((hkeeps name newState node new rfl hnode hnew hne).symm.trans hforgets)
    | set name' newState' node' new' state hoperation hnode' hnew' _ hchange =>
      cases hoperation
      cases hnode.symm.trans hnode'
      cases hnew.symm.trans hnew'
      obtain ⟨state', hstate', hloses⟩ :=
        MigrationState.change_of_forgets s.route.adminKeyFormat hforgets
      cases hchange.symm.trans hstate'
      obtain ⟨-, haccept⟩ := hwf.forwards_iff.mp (hforwards hreceived)
      rw [KeyRoute.selectNode_setNode, hname, KeyRoute.acceptKey_eq, KeyRoute.state_setNode,
        Option.all_some, hloses] at haccept
      cases haccept

theorem kept_of_lossless (h : Inv initial s) {e : Event Rows} (hlossless : Lossless initial s e) :
    Kept s e := by
  match e with
  | .migrate packedKey (some (some rows)) canGrow => exact kept_migrate hlossless
  | .migrateReply packedKey true => exact h.kept_migrateReply hlossless
  | .setClusterNodeState operation canOpen => exact h.kept_setClusterNodeState hlossless
  | .migrate _ (some none) _ => trivial
  | .migrate _ none _ => trivial
  | .migrateReply _ false => trivial
  | .request .. => trivial
  | .sourceReply .. => trivial
  | .remoteReply .. => trivial
  | .cache .. => trivial

theorem lossless_iff (h : Inv initial s) (e : Event Rows) :
    Lossless initial s e ↔ Kept s e := by
  refine ⟨h.kept_of_lossless, fun hkept => ⟨fun _ => h.mayWrite hkept, fun s' hstep key rows =>
    acked_step hstep, fun s' hstep => (h.step hkept hstep).toSafe⟩⟩

end Inv

/-- For every run, no step of it loses an acknowledged write if and only if every step keeps to
the rules. -/
theorem lossless_run_iff (initial : Bytes → Rows) {hash : Bytes → UInt32}
    {keyFormat adminKeyFormat : UInt8} {nodes : List ClusterNode} {route : KeyRoute}
    (hinit : KeyRoute.init hash keyFormat adminKeyFormat nodes = some route)
    (hformats : adminKeyFormat = keyFormat ∨
      0 < adminKeyFormat ∧ adminKeyFormat ≤ keyFormat) (ops : List (Event Rows)) :
    AlongRun step (Lossless initial) (start route initial) ops ↔
      AlongRun step Kept (start route initial) ops := by
  have hinv : Inv initial (start route initial) :=
    inv_start (KeyRoute.wellFormed_init hinit hformats)
  exact alongRun_congr_along (fun _ _ _ h => h.step) (fun _ e h => h.lossless_iff e) hinv ops

/-- The nodes `A` and `B`, of which `B` is this one. -/
def clusterAB : List ClusterNode := [⟨[65], [97], false⟩, ⟨[66], [98], true⟩]

def routeAB : KeyRoute :=
  (KeyRoute.init ConsistentHashSelector.firstByte 4 4 clusterAB).get (by decide +kernel)

theorem init_clusterAB :
    KeyRoute.init ConsistentHashSelector.firstByte 4 4 clusterAB = some routeAB :=
  (Option.some_get _).symm

/-- A key of the node `A`. -/
def keyOfA : Nat → UInt8 := FileBackedKeySet.pointTo [1, 0, 0, 0]

/-- A key is written and goes to `A`. -/
def migration : List (Event Nat) :=
  [.setClusterNodeState (some ([65], 1)) true, .request false keyOfA (· + 1) true,
    .cache keyOfA true, .migrate keyOfA none true]

theorem lossless_run_migration :
    AlongRun step (Lossless fun _ => 0) (start routeAB fun _ => 0) migration :=
  (lossless_run_iff _ init_clusterAB (.inl rfl) migration).mpr
    ⟨fun _ _ _ _ _ _ _ => rfl, fun _ _ => ⟨trivial, fun _ _ => ⟨trivial, fun _ _ =>
      ⟨trivial, fun _ _ => trivial⟩⟩⟩⟩

theorem safe_run {s' : System Rows} {ops : List (Event Rows)} (h : s.Safe initial)
    (hops : AlongRun step (Lossless initial) s ops) (hrun : runOps step s ops = some s') :
    s'.Safe initial :=
  invariant_run_along (fun _ _ s' _ hlossless hstep => hlossless.safe s' hstep) h ops hops hrun

/-- `A` is set back while the key is on its way, and the next write is not sent after it. -/
theorem not_lossless_run :
    ¬AlongRun step (Lossless fun _ => 0) (start routeAB fun _ => 0)
      (migration ++ [.setClusterNodeState (some ([65], 0)) true, .migrateReply keyOfA true,
        .request false keyOfA (· + 1) true]) := by
  intro hops
  have hlost : (runOps step (start routeAB fun _ => 0)
      (migration ++ [.setClusterNodeState (some ([65], 0)) true, .migrateReply keyOfA true,
        .request false keyOfA (· + 1) true])).any (fun s => (s.received [1, 0, 0, 0]).any
          fun rows => rows ≠ s.replay (fun _ => 0) [1, 0, 0, 0]) = true := by
    decide +kernel
  obtain ⟨s, hrun, hlost⟩ := (Option.any_eq_true _ _).mp hlost
  obtain ⟨rows, hreceived, hrows⟩ := (Option.any_eq_true _ _).mp hlost
  have hsafe := safe_run (inv_start (KeyRoute.wellFormed_init init_clusterAB (.inl rfl))).toSafe
    hops hrun
  exact of_decide_eq_true hrows (hsafe.received _ rows hreceived)

end System

end ISearch.KeyRoute
