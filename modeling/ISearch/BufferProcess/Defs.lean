import ISearch.BufferProcess.Data
import ISearch.Lib.LinkedLists

/-!
# Nodes, LRU lists and transactions of the cache (`buffer_process.cc`, `buffer_pool.cc`)

A node has rows and a dirty mark, and is linked on the clean, the dirty or the empty LRU list. A
request runs as a transaction: `transation_find_node` looks up the node of its key,
`transation_update_lru` and `transation_end` move it between the lists.

What a request reads from its task and what memory it finds are parameters. When memory is short
the data process calls `try_purge_size`, which leaves the node of the request alone; that is an
operation of its own here, just before the request. A write fails when that does not help.
-/

namespace ISearch.BufferProcess

inductive Lru where
  | clean
  | dirty
  | empty
  deriving DecidableEq, Repr

structure Node (K R : Type) where
  key : K
  rows : List (Row R) := []
  isDirty : Bool := false

/-- `LRU_NONE` to `LRU_ALWAYS`. -/
def lruNone : Nat := 0
def lruBatch : Nat := 1
def lruRead : Nat := 2
def lruWrite : Nat := 3
def lruAlways : Nat := 999

inductive Mode where
  | sync
  | async
  | flush
  deriving DecidableEq, Repr

inductive NodeStat where
  | missing
  | empty
  | present
  deriving DecidableEq, Repr

inductive BufferResult where
  | ok
  | error
  | next
  | pending
  deriving DecidableEq, Repr

/-- `CacheTransation`: the node `m_stNode`, and what was seen when it was found. -/
structure Transation where
  node : Option Nat := none
  nodeStat : NodeStat := .missing
  keyDirty : Bool := false
  nodeEmpty : Bool := false
  lruUpdate : Nat := lruNone

structure Config where
  updateMode : Mode
  insertMode : Mode
  nodbMode : Bool
  fullMode : Bool
  lossyMode : Bool
  replaceEmpty : Bool
  insertOrderPurge : Bool
  insertFirst : Bool
  hasEmptyNodeFilter : Bool
  keyAsUniqField : Bool
  noLRU : Nat

/-- A request, with what it meets when it is processed. -/
structure Task (K R : Type) where
  key : K
  compareRow : R → Bool
  updateRow : R → R
  newRow : R
  defaultRow : R
  conflicts : R → Bool
  hasOperation : Bool
  hasTypeCommit : Bool
  hasTimestampCondition : Bool
  allRows : Bool
  affectedRows : Nat
  passThru : Bool
  blackHole : Bool
  inBlacklist : Bool
  badRequest : Bool
  notAllowedInsert : Bool
  duplicate : Bool
  expired : Bool
  badExpireTime : Bool
  result : List R
  exceedsLimit : Bool
  /-- The node that the node sets offer, if they can. -/
  freeNode : Option Nat
  initFails : Bool
  failAt : Option Nat

/-- Nodes are named by their node id. `hash key` are the nodes with a key, in the order in which a
lookup meets them. -/
structure Pool (K R : Type) where
  node : Nat → Option (Node K R)
  hash : K → List Nat
  lru : Lists Lru Nat
  emptyNodeFilter : K → Bool

/-- The cache within a transaction. -/
structure St (K R : Type) where
  pool : Pool K R
  tx : Transation := {}

variable {K R : Type} [DecidableEq K]

namespace Pool

def setNode (p : Pool K R) (id : Nat) (n : Option (Node K R)) : Pool K R :=
  { p with node := Function.update p.node id n }

/-- `remove_from_lru` and `insert2_*_lru`. -/
def moveLru (p : Pool K R) (id : Nat) (l : Lru) : Pool K R :=
  { p with lru := p.lru.listMove id l }

/-- The rows of a node are written. -/
def setRows (p : Pool K R) (id : Nat) (rows : List (Row R)) : Pool K R :=
  p.setNode id ((p.node id).map fun n => { n with rows })

/-- `set_dirty` and `clr_dirty`. -/
def mark (p : Pool K R) (id : Nat) (isDirty : Bool) : Pool K R :=
  p.setNode id ((p.node id).map fun n => { n with isDirty })

def rows (p : Pool K R) (id : Nat) : List (Row R) := ((p.node id).map (·.rows)).getD []

def isDirty (p : Pool K R) (id : Nat) : Bool := ((p.node id).map (·.isDirty)).getD false

/-- `cache_find_auto_chose_hash`. -/
def find (p : Pool K R) (key : K) : Option Nat := (p.hash key).head?

/-- `cache_allocate` with the node that the node sets offer, and an invalid handle. -/
def allocate (p : Pool K R) (key : K) (freeNode : Option Nat) : Option (Pool K R × Nat) :=
  match freeNode with
  | none => none
  | some id =>
    if (p.node id).isSome then none
    else
      let p := (p.setNode id (some { key })).moveLru id .clean
      some ({ p with hash := Function.update p.hash key (id :: p.hash key) }, id)

def purgeNode (p : Pool K R) (id : Nat) : Pool K R :=
  { p.setNode id none with
    hash := fun key => (p.hash key).erase id
    lru := p.lru.unlink id }

def setFilter (p : Pool K R) (key : K) (b : Bool) : Pool K R :=
  { p with emptyNodeFilter := Function.update p.emptyNodeFilter key b }

/-- `pre_purge_nodes` and, without a reserved node, `delay_purge_notify`: from the tail of the
clean list. -/
def prePurgeNodes (p : Pool K R) (purgeCount : Nat) (reserve : Option Nat) : Pool K R :=
  (((p.lru .clean).reverse.take purgeCount).filter (some · ≠ reserve)).foldl purgeNode p

/-- `try_purge_size`: the first node from the tail of the clean list that is large enough. -/
def tryPurgeSize (p : Pool K R) (prePurge maxPurgeCount : Nat) (fits : Nat → Bool)
    (reserve : Option Nat) : Pool K R :=
  let p := p.prePurgeNodes prePurge reserve
  match ((p.lru .clean).reverse.take maxPurgeCount).find? fun id => some id ≠ reserve && fits id with
  | none => p
  | some id => p.purgeNode id

/-- `shrink_empty_node_list`, `prune_empty_node_list` and `purge_single_empty_node`: from the tail
of the empty list. -/
def shrinkEmptyNodeList (p : Pool K R) (togo : Nat) : Pool K R :=
  ((p.lru .empty).reverse.take togo).foldl purgeNode p

end Pool

namespace St

variable (cfg : Config) (t : Task K R)

/-- The rows of `m_stNode`. -/
def rows (s : St K R) : List (Row R) := (s.tx.node.map s.pool.rows).getD []

/-- `m_stNode.is_dirty()`. -/
def isDirty (s : St K R) : Bool := (s.tx.node.map s.pool.isDirty).getD false

/-- Something done to `m_stNode`. -/
def onNode (s : St K R) (f : Pool K R → Nat → Pool K R) : St K R :=
  match s.tx.node with
  | none => s
  | some id => { s with pool := f s.pool id }

def writeRows (s : St K R) (rows : List (Row R)) : St K R := s.onNode (·.setRows · rows)

def transationFindNode (s : St K R) : St K R :=
  if cfg.hasEmptyNodeFilter && s.pool.emptyNodeFilter t.key then
    { s with tx := { s.tx with node := none, nodeStat := .empty } }
  else match s.pool.find t.key with
    | none => { s with tx := { s.tx with node := none, nodeStat := .missing } }
    | some id =>
      { s with tx := { s.tx with
          node := some id
          nodeStat := .present
          keyDirty := s.pool.isDirty id
          nodeEmpty := !s.pool.isDirty id && (s.pool.rows id).isEmpty } }

def transationUpdateLru (s : St K R) (async : Bool) (level : Nat) : St K R :=
  if s.tx.keyDirty then s
  else if async then
    let s := s.onNode fun p id => (p.mark id true).moveLru id .dirty
    { s with tx := { s.tx with nodeEmpty := false, lruUpdate := lruNone } }
  else { s with tx := { s.tx with lruUpdate := level } }

def transationEnd (s : St K R) : Pool K R :=
  if !s.tx.keyDirty && !s.isDirty then
    let nodeEmpty := s.rows.isEmpty
    if s.tx.lruUpdate > cfg.noLRU ∨ nodeEmpty ≠ s.tx.nodeEmpty then
      (s.onNode (·.moveLru · (if nodeEmpty then .empty else .clean))).pool
    else s.pool
  else s.pool

/-- `purge_node_everything` of `m_stNode`, which `purge_node_notify` clears. -/
def purgeNodeEverything (s : St K R) : St K R :=
  { pool := (s.onNode (·.purgeNode ·)).pool, tx := { s.tx with node := none, nodeEmpty := false } }

/-- `cache_purge` of the key. -/
def cachePurge (s : St K R) : St K R :=
  match s.pool.find t.key with
  | none => s
  | some id =>
    let s := { s with pool := s.pool.purgeNode id }
    if s.tx.node = some id then { s with tx := { s.tx with node := none, nodeEmpty := false } }
    else s

/-- `CLR` or `SET` of the empty node filter, if there is one. -/
def setFilter (s : St K R) (b : Bool) : St K R :=
  if cfg.hasEmptyNodeFilter then { s with pool := s.pool.setFilter t.key b } else s

def insertEmptyNode (s : St K R) : Option (St K R) :=
  match s.pool.allocate t.key t.freeNode with
  | none => none
  | some (pool, id) => some { pool, tx := { s.tx with node := some id, nodeEmpty := false } }

/-- The row that `InsertDefaultRow` puts in an empty node. -/
def putDefaultRow (s : St K R) : BufferResult × St K R :=
  if t.initFails then (.error, s.purgeNodeEverything)
  else (.ok, s.writeRows [{ value := t.defaultRow, dirty := false }])

def insertDefaultRow (s : St K R) : BufferResult × St K R :=
  if s.tx.node.isSome then
    if s.rows.isEmpty then s.putDefaultRow t else (.ok, s)
  else match s.insertEmptyNode t with
    | none => (.error, s)
    | some s => (s.setFilter cfg t false).putDefaultRow t

/-! ### Reads and writes of the node -/

/-- The second half of `buffer_insert_row`; `emptyFlag` is set for a new node. -/
def appendRow (s : St K R) (async emptyFlag : Bool) : BufferResult × St K R :=
  match appendData s.rows t.newRow cfg.insertFirst async t.duplicate t.failAt with
  | (.duplicate, _) => (.error, s)
  | (.failed, _) =>
    if !async && !t.blackHole || emptyFlag then (.ok, s.purgeNodeEverything)
    else (.error, s)
  | (.ok, rows) => (.ok, (s.writeRows rows).transationUpdateLru async lruWrite)

def bufferInsertRow (s : St K R) (async : Bool) : BufferResult × St K R :=
  if s.tx.node.isSome then s.appendRow cfg t async false
  else match s.insertEmptyNode t with
    | none => (if async || t.blackHole then .error else .ok, s)
    | some s =>
      if t.initFails then (.error, s.purgeNodeEverything)
      else (s.setFilter cfg t false).appendRow cfg t async true

/-- `buffer_update_rows`, once there is a node. -/
def updateRows (s : St K R) (async : Bool) : BufferResult × St K R :=
  match updateData t.compareRow t.updateRow async t.failAt s.rows with
  | (.ok, rows, affectedRows) =>
    let affectedRows := if async then affectedRows else t.affectedRows
    let dirty := if affectedRows > 0 && t.hasTypeCommit then async else false
    (.ok, (s.writeRows rows).transationUpdateLru dirty lruWrite)
  | (_, rows, _) =>
    if !async && !t.blackHole then (.ok, (s.writeRows rows).purgeNodeEverything)
    else (.error, (s.writeRows rows).transationUpdateLru async lruAlways)

def bufferUpdateRows (s : St K R) (async : Bool) : BufferResult × St K R :=
  if cfg.replaceEmpty then
    match s.insertDefaultRow cfg t with
    | (.ok, s) => s.updateRows t async
    | (ret, s) => (ret, s)
  else s.updateRows t async

def bufferReplaceRows (s : St K R) (async : Bool) : BufferResult × St K R :=
  match replaceRows t.conflicts t.newRow async t.failAt s.rows with
  | (.ok, rows) => (.ok, (s.writeRows rows).transationUpdateLru async lruWrite)
  | (_, rows) =>
    (if !async && !t.blackHole then .ok else .error,
      if !s.tx.keyDirty && !t.blackHole then (s.writeRows rows).purgeNodeEverything
      else s.writeRows rows)

def bufferDeleteRows (s : St K R) : BufferResult × St K R :=
  let empty := (BufferResult.ok, s.purgeNodeEverything.setFilter cfg t true)
  if t.allRows then empty
  else match deleteData t.compareRow t.failAt s.rows with
    | (.ok, []) => empty
    | (.ok, rows) => (.ok, (s.writeRows rows).transationUpdateLru false lruWrite)
    | (_, rows) =>
      (.error, if !s.tx.keyDirty then (s.writeRows rows).purgeNodeEverything else s.writeRows rows)

/-- `replace_data` with the rows that the helper returned. -/
def storeResult (s : St K R) : St K R :=
  if t.failAt ≠ none then s.purgeNodeEverything
  else (s.writeRows (t.result.map fun value => { value, dirty := false })).transationUpdateLru
    false lruRead

/-- `buffer_replace_result`, for the reply to a `Get`. -/
def bufferReplaceResult (s : St K R) : St K R :=
  let s := s.transationFindNode cfg t
  if cfg.hasEmptyNodeFilter && t.result.isEmpty then (s.setFilter cfg t true).cachePurge t
  else
    let s := s.setFilter cfg t false
    if s.tx.node.isSome then s.storeResult t
    else match s.insertEmptyNode t with
      | none => s
      | some s => s.storeResult t

/-- `check_and_expire`: whether the node was expired and is purged. -/
def checkAndExpire (s : St K R) : BufferResult × St K R :=
  if t.expired then (.ok, s.purgeNodeEverything) else (.next, s)

def bufferGetData (s : St K R) : BufferResult × St K R :=
  let s := s.transationFindNode cfg t
  match s.tx.nodeStat with
  | .missing => (if cfg.fullMode then .ok else .next, s)
  | .empty => (.ok, s)
  | .present =>
    match (if cfg.nodbMode then s.checkAndExpire t else (.next, s)) with
    | (.next, s) => (.ok, s.transationUpdateLru false lruRead)
    | (ret, s) => (ret, s)

/-- `buffer_batch_get_data` for one key. -/
def bufferBatchGetData (s : St K R) : BufferResult × St K R :=
  let s := s.transationFindNode cfg t
  if s.tx.nodeStat = .present then (.ok, s.transationUpdateLru false lruBatch) else (.ok, s)

/-- `buffer_flush_data` of the node of the transaction. -/
def bufferFlushNode (s : St K R) : BufferResult × St K R :=
  let failAt := if cfg.nodbMode then none else t.failAt
  match flushData s.isDirty failAt s.rows with
  | (.ok, rows, flushCnt) =>
    let s := s.onNode fun p id => (p.setRows id rows).mark id false
    let s : St K R := { s with tx := { s.tx with keyDirty := false } }
    (if cfg.nodbMode || flushCnt = 0 then .ok else .pending, s.transationUpdateLru false lruAlways)
  | (_, rows, _) => (.error, { s.writeRows rows with tx := { s.tx with keyDirty := s.isDirty } })

def bufferFlushData (s : St K R) : BufferResult × St K R :=
  let s := s.transationFindNode cfg t
  if s.isDirty then s.bufferFlushNode cfg t else (.ok, s)

def bufferFlushDataBeforeDelete (s : St K R) : BufferResult × St K R :=
  let s := s.transationFindNode cfg t
  if s.isDirty then
    match flushData true t.failAt s.rows with
    | (.ok, rows, _) =>
      (.ok, s.onNode fun p id => ((p.setRows id rows).mark id false).moveLru id .clean)
    | (_, rows, _) => (.error, s.writeRows rows)
  else (.ok, s)

def bufferPurgeData (s : St K R) : BufferResult × St K R :=
  let s := s.transationFindNode cfg t
  match s.tx.nodeStat with
  | .empty => (.ok, s.setFilter cfg t false)
  | .missing => (.ok, s)
  | .present =>
    if cfg.updateMode ≠ .sync ∧ s.isDirty then
      match s.bufferFlushNode cfg t with
      | (.pending, s) => (.pending, s.cachePurge t)
      | (ret, s) => (ret, s)
    else (.ok, s.cachePurge t)

end St

end ISearch.BufferProcess
