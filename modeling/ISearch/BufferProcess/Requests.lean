import ISearch.BufferProcess.Defs
import ISearch.Lib.Run

/-!
# Requests, replies and admin commands

`buffer_process_request`, `buffer_process_nodb`, `buffer_process_reply` and
`buffer_process_error` choose what a request does by the mode of the cache. A request that is not
answered from the cache goes to the helper and comes back as a reply later; requests and replies
are operations of their own here, in any order.
-/

namespace ISearch.BufferProcess

variable {K R : Type} [DecidableEq K]

inductive Cmd where
  | get
  | batchGet
  | insert
  | update
  | delete
  | purge
  | flush
  | replace
  deriving DecidableEq, Repr

namespace St

variable (cfg : Config) (t : Task K R)

def bufferSyncInsert (s : St K R) : BufferResult × St K R :=
  if cfg.replaceEmpty then (.error, s)
  else
    let s := s.transationFindNode cfg t
    if s.tx.nodeStat = .missing then (.ok, s) else s.bufferInsertRow cfg t false

def bufferSyncUpdate (s : St K R) : BufferResult × St K R :=
  if t.hasOperation = false then (.ok, s)
  else if cfg.lossyMode = false ∧ t.affectedRows = 0 ∧ t.hasTypeCommit ∧
      t.hasTimestampCondition = false then (.ok, s)
  else
    let s := s.transationFindNode cfg t
    match s.tx.nodeStat with
    | .missing => (.ok, s)
    | .empty => if cfg.replaceEmpty then s.bufferUpdateRows cfg t false else (.ok, s)
    | .present => s.bufferUpdateRows cfg t false

def bufferSyncReplace (s : St K R) : BufferResult × St K R :=
  if cfg.lossyMode = false ∧ t.affectedRows = 0 then (.ok, s)
  else
    let s := s.transationFindNode cfg t
    match s.tx.nodeStat with
    | .missing => (.ok, s)
    | .empty => s.bufferInsertRow cfg t false
    | .present => s.bufferReplaceRows t false

def bufferSyncDelete (s : St K R) : BufferResult × St K R :=
  let s := s.transationFindNode cfg t
  if s.tx.nodeStat = .present then s.bufferDeleteRows cfg t else (.ok, s)

def bufferNodbInsert (s : St K R) : BufferResult × St K R :=
  if cfg.replaceEmpty then (.error, s)
  else
    let s := s.transationFindNode cfg t
    let s := if s.tx.nodeStat = .present && t.expired then s.purgeNodeEverything else s
    if s.tx.node.isSome && t.notAllowedInsert then (.error, s)
    else if t.hasOperation && t.badExpireTime then (.error, s)
    else s.bufferInsertRow cfg t false

def bufferNodbUpdate (s : St K R) : BufferResult × St K R :=
  let s := s.transationFindNode cfg t
  if s.tx.nodeStat ≠ .present ∧ cfg.replaceEmpty = false then (.ok, s)
  else match s.checkAndExpire t with
    | (.next, s) =>
      if t.hasOperation && t.badExpireTime then (.error, s)
      else s.bufferUpdateRows cfg t false
    | (ret, s) => (ret, s)

def bufferNodbReplace (s : St K R) : BufferResult × St K R :=
  let s := s.transationFindNode cfg t
  if t.hasOperation && t.badExpireTime then (.error, s)
  else if s.tx.nodeStat ≠ .present then s.bufferInsertRow cfg t false
  else match s.checkAndExpire t with
    | (.next, s) => s.bufferReplaceRows t false
    | (_, s) => s.bufferInsertRow cfg t false

def bufferAsyncInsert (s : St K R) : BufferResult × St K R :=
  if cfg.replaceEmpty then (.error, s)
  else
    let s := s.transationFindNode cfg t
    match s.tx.nodeStat with
    | .missing =>
      if cfg.fullMode = false ∨ cfg.updateMode = .flush then (.next, s)
      else s.bufferInsertRow cfg t true
    | .empty =>
      if cfg.updateMode = .flush then (.next, s) else s.bufferInsertRow cfg t true
    | .present =>
      if t.notAllowedInsert then (.error, s)
      else if cfg.updateMode = .flush ∧ s.isDirty = false then (.next, s)
      else s.bufferInsertRow cfg t true

def bufferAsyncUpdate (s : St K R) : BufferResult × St K R :=
  let s := s.transationFindNode cfg t
  match s.tx.nodeStat with
  | .present =>
    if cfg.updateMode = .flush ∧ s.isDirty = false then (.next, s)
    else s.bufferUpdateRows cfg t true
  | stat =>
    if stat = .missing ∧ cfg.fullMode = false then (.next, s)
    else if cfg.replaceEmpty = false then (.ok, s)
    else if cfg.updateMode = .flush then (.next, s)
    else s.bufferUpdateRows cfg t true

def bufferAsyncReplace (s : St K R) : BufferResult × St K R :=
  let s := s.transationFindNode cfg t
  match s.tx.nodeStat with
  | .missing =>
    if cfg.fullMode = false ∨ cfg.updateMode = .flush ∨ cfg.keyAsUniqField = false then (.next, s)
    else s.bufferInsertRow cfg t true
  | .empty =>
    if cfg.updateMode = .flush then (.next, s) else s.bufferInsertRow cfg t true
  | .present =>
    if cfg.updateMode = .flush ∧ s.isDirty = false then (.next, s)
    else s.bufferReplaceRows t true

def bufferSyncInsertPrecheck (s : St K R) : BufferResult × St K R :=
  if cfg.replaceEmpty then (.error, s)
  else if cfg.keyAsUniqField then
    let s := s.transationFindNode cfg t
    (if s.tx.nodeStat = .present ∧ t.notAllowedInsert then .error else .next, s)
  else (.next, s)

def bufferProcessRequest (s : St K R) : Cmd → BufferResult × St K R
  | .get =>
    if t.badRequest then (.error, s)
    else if t.inBlacklist then (.next, (s.bufferPurgeData cfg t).2)
    else s.bufferGetData cfg t
  | .batchGet => s.bufferBatchGetData cfg t
  | .insert =>
    if cfg.updateMode = .async ∧ cfg.insertMode ≠ .sync then s.bufferAsyncInsert cfg t
    else s.bufferSyncInsertPrecheck cfg t
  | .update => if cfg.updateMode ≠ .sync then s.bufferAsyncUpdate cfg t else (.next, s)
  | .delete =>
    if cfg.updateMode ≠ .sync then
      if t.badRequest then (.error, s)
      else match s.bufferFlushDataBeforeDelete cfg t with
        | (.error, s) => (.error, s)
        | (_, s) => (.next, s)
    else (.next, s)
  | .purge => s.bufferPurgeData cfg t
  | .flush => if cfg.updateMode ≠ .sync then s.bufferFlushData cfg t else (.ok, s)
  | .replace =>
    if t.badRequest then (.error, s)
    else if cfg.updateMode ≠ .sync then s.bufferAsyncReplace cfg t
    else (.next, s)

def bufferProcessNodb (s : St K R) : Cmd → BufferResult × St K R
  | .get => if t.badRequest then (.error, s) else s.bufferGetData cfg t
  | .batchGet => s.bufferBatchGetData cfg t
  | .insert => s.bufferNodbInsert cfg t
  | .update => s.bufferNodbUpdate cfg t
  | .delete => s.bufferSyncDelete cfg t
  | .purge => s.bufferPurgeData cfg t
  | .flush => (.ok, s)
  | .replace => if t.badRequest then (.error, s) else s.bufferNodbReplace cfg t

def bufferProcessReply (s : St K R) : Cmd → BufferResult × St K R
  | .get =>
    if t.passThru || t.exceedsLimit || t.blackHole then (.ok, s)
    else (.ok, s.bufferReplaceResult cfg t)
  | .insert =>
    if t.blackHole then s.bufferNodbInsert cfg t
    else if cfg.insertOrderPurge then (.ok, (s.bufferPurgeData cfg t).2)
    else s.bufferSyncInsert cfg t
  | .update =>
    if t.blackHole then s.bufferNodbUpdate cfg t
    else if cfg.insertOrderPurge && t.affectedRows > 0 then (.ok, (s.bufferPurgeData cfg t).2)
    else s.bufferSyncUpdate cfg t
  | .delete => s.bufferSyncDelete cfg t
  | .replace => if t.blackHole then s.bufferNodbReplace cfg t else s.bufferSyncReplace cfg t
  | .batchGet | .purge | .flush => (.error, s)

/-- `buffer_process_error`; `duplicateEntry` and `unknown` are the result codes `ER_DUP_ENTRY` and
`EC_UPSTREAM_ERROR` or `CR_SERVER_LOST`. -/
def bufferProcessError (s : St K R) (duplicateEntry unknown : Bool) : Cmd → BufferResult × St K R
  | .insert =>
    if cfg.lossyMode && duplicateEntry then s.bufferSyncInsert cfg t
    else if unknown && cfg.updateMode = .sync then (.error, (s.bufferPurgeData cfg t).2)
    else (.error, s)
  | .delete =>
    if unknown && cfg.updateMode = .sync then (.error, (s.bufferPurgeData cfg t).2)
    else (.error, s)
  | .update =>
    if cfg.lossyMode && duplicateEntry then s.bufferSyncUpdate cfg t
    else if (duplicateEntry || unknown) && cfg.updateMode = .sync then
      (.error, (s.bufferPurgeData cfg t).2)
    else (.error, s)
  | _ => (.error, s)

end St

/-! ## Admin commands -/

/-- The data of a replace-raw-data or migrate command. -/
structure RawTask (K R : Type) where
  key : K
  keyNoexist : Bool
  emptyNode : Bool
  badRawData : Bool
  rows : List (Row R)
  dirtyNode : Bool
  freeNode : Option Nat
  dataFails : Bool

namespace Pool

/-- `cache_purge` without a transaction. -/
def cachePurge (p : Pool K R) (key : K) : Pool K R :=
  match p.find key with
  | none => p
  | some id => p.purgeNode id

/-- The node for the raw data: a new one, or the one found, moved to the clean list. -/
def rawNode (p : Pool K R) (t : RawTask K R) : Option (Pool K R × Nat) :=
  match p.find t.key with
  | none => p.allocate t.key t.freeNode
  | some id => some (p.moveLru id .clean, id)

/-- `replace_data` with raw data, and the purge when it fails. -/
def replaceRaw (p : Pool K R) (cfg : Config) (t : RawTask K R) (id : Nat) : Pool K R :=
  if t.dataFails then if cfg.nodbMode then p else p.purgeNode id
  else p.setRows id t.rows

def bufferReplaceRawData (p : Pool K R) (cfg : Config) (t : RawTask K R) : Pool K R :=
  let p := if t.emptyNode && cfg.hasEmptyNodeFilter then p.setFilter t.key true else p
  if t.keyNoexist || t.emptyNode then p.cachePurge t.key
  else if t.badRawData then p
  else match p.rawNode t with
    | none => p
    | some (p, id) => p.replaceRaw cfg t id

/-- `buffer_migrate` of a command that comes from another server. -/
def bufferMigrate (p : Pool K R) (cfg : Config) (t : RawTask K R) : Pool K R :=
  if t.keyNoexist || t.emptyNode then p.cachePurge t.key
  else if t.badRawData then p
  else match p.rawNode t with
    | none => p
    | some (p, id) => (if t.dirtyNode then p.moveLru id .dirty else p).replaceRaw cfg t id

/-- `buffer_adjust_lru`: up to the first key that is not in the cache. -/
def bufferAdjustLru (p : Pool K R) : List K → Pool K R
  | [] => p
  | key :: keys =>
    match p.find key with
    | none => p
    | some id => (p.moveLru id .clean).bufferAdjustLru keys

/-- `buffer_flush_data_timer` of a node on the dirty list. -/
def bufferFlushDataTimer (p : Pool K R) (id : Nat) (failAt : Option Nat) : Pool K R :=
  match flushData (p.isDirty id) failAt (p.rows id) with
  | (.ok, rows, _) => ((p.setRows id rows).mark id false).moveLru id .clean
  | (_, rows, _) => p.setRows id rows

end Pool

inductive Op (K R : Type) where
  | request (cmd : Cmd) (t : Task K R)
  | reply (cmd : Cmd) (t : Task K R)
  | replyError (cmd : Cmd) (duplicateEntry unknown : Bool) (t : Task K R)
  | flushTimer (node : Nat) (failAt : Option Nat)
  | adjustLru (keys : List K)
  | replaceRawData (t : RawTask K R)
  | migrate (t : RawTask K R)
  /-- The reply to a migrate command sent to another server. -/
  | migrated (key : K)
  | tryPurge (prePurge : Nat) (fits : Nat → Bool) (reserve : Option Nat)
  | delayPurge (count : Nat)
  | shrinkEmpty (togo : Nat)

/-- A request or reply as a transaction. -/
def transation (cfg : Config) (body : St K R → BufferResult × St K R) (p : Pool K R) : Pool K R :=
  (body { pool := p }).2.transationEnd cfg

def step (cfg : Config) (p : Pool K R) : Op K R → Option (Pool K R)
  | .request cmd t =>
    if cfg.nodbMode then
      some (transation cfg (·.bufferProcessNodb cfg { t with blackHole := true } cmd) p)
    else some (transation cfg (·.bufferProcessRequest cfg { t with blackHole := false } cmd) p)
  | .reply cmd t => some (transation cfg (·.bufferProcessReply cfg t cmd) p)
  | .replyError cmd duplicateEntry unknown t =>
    some (transation cfg (·.bufferProcessError cfg t duplicateEntry unknown cmd) p)
  | .flushTimer node failAt =>
    some (if node ∈ p.lru .dirty then p.bufferFlushDataTimer node failAt else p)
  | .adjustLru keys => some (p.bufferAdjustLru keys)
  | .replaceRawData t => some (p.bufferReplaceRawData cfg t)
  | .migrate t => some (p.bufferMigrate cfg t)
  | .migrated key => some (p.cachePurge key)
  | .tryPurge prePurge fits reserve => some (p.tryPurgeSize prePurge 2500 fits reserve)
  | .delayPurge count => some (p.prePurgeNodes count none)
  | .shrinkEmpty togo => some (p.shrinkEmptyNodeList togo)

/-- The empty cache. -/
def Pool.init : Pool K R where
  node _ := none
  hash _ := []
  lru _ := []
  emptyNodeFilter _ := false

end ISearch.BufferProcess
