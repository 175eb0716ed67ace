import ISearch.Lib.Chain
import ISearch.Lib.Run
import Mathlib.Data.Finset.Basic
import Mathlib.Data.Fin.Basic
import Mathlib.Algebra.Order.Ring.Nat

/-!
# The hash index of the cache (`buffer_pool.cc`, `hash.h`)

The cache has one array of buckets and two hash functions into it. Each bucket heads a chain of
nodes, linked by `next_node_id`. The flags `hashChanging` and `targetNewHash` come from the
configuration: while the hash is changing, lookups try the function that is given up, move what
they find to the other one, and then try that.

`hash true` is the function of `new_hash_slot` and `hash false` the one of `hash_slot`. Keys are
compared as a whole; a data chunk is its key. The LRU lists that `purge_node` also updates are not
part of this model.
-/

namespace ISearch.CacheHash

open Function

abbrev NodeId := UInt32

def invalidNodeId : NodeId := 0xFFFFFFFF

/-- What the chains consist of: `HASH_T`, the `NEXT_NODE` attribute of all node sets, and the node
index. -/
structure HashT (hhSize : UInt32) where
  hhFree : UInt32
  hhNode : UInt32
  hhBuckets : Fin hhSize.toNat → NodeId
  nextNodeId : NodeId → NodeId
  nodeIndex : NodeId → Bool

variable {K : Type} {hhSize : UInt32}

namespace HashT

/-- `NodeIndex::Search`. -/
def search (h : HashT hhSize) (id : NodeId) : Option NodeId :=
  if id = invalidNodeId then none
  else if h.nodeIndex id then some id
  else none

/-- `Insert2Hash`, once the slot is known. -/
def insert2Hash (h : HashT hhSize) (hashslot : Fin hhSize.toNat) (node : NodeId) : HashT hhSize :=
  { h with
    hhFree := if h.hhBuckets hashslot = invalidNodeId then h.hhFree - 1 else h.hhFree
    hhNode := h.hhNode + 1
    nextNodeId := update h.nextNodeId node (h.hhBuckets hashslot)
    hhBuckets := update h.hhBuckets hashslot node }

/-- The loop of `remove_from_hash_base`: `prev` and `next` when `next` is the node to remove. -/
def removeLoop (h : HashT hhSize) (removeNode : NodeId) :
    Nat → NodeId → Option NodeId → Option (Option (NodeId × NodeId))
  | 0, _, _ => none
  | _ + 1, _, none => some none
  | fuel + 1, prev, some next =>
    if next = removeNode then some (some (prev, next))
    else h.removeLoop removeNode fuel next (h.search (h.nextNodeId next))

/-- No chain of distinct nodes is longer than this. -/
def maxNodes : Nat := 2 ^ 32

/-- `remove_from_hash_base` of the first node of a chain. -/
def removeHead (h : HashT hhSize) (hashSlot : Fin hhSize.toNat) (removeNode : NodeId) :
    HashT hhSize :=
  { h with
    hhBuckets := update h.hhBuckets hashSlot (h.nextNodeId removeNode)
    hhFree := if h.nextNodeId removeNode = invalidNodeId then h.hhFree + 1 else h.hhFree
    hhNode := h.hhNode - 1 }

/-- `remove_from_hash_base` of the node `next` after `prev`. -/
def removeNext (h : HashT hhSize) (prev next : NodeId) : HashT hhSize :=
  { h with
    nextNodeId := update h.nextNodeId prev (h.nextNodeId next)
    hhNode := h.hhNode - 1 }

/-- `remove_from_hash_base`, once the slot is known: the return value and the new chains. -/
def removeFromHashBase (h : HashT hhSize) (hashSlot : Fin hhSize.toNat) (removeNode : NodeId) :
    Option (Int × HashT hhSize) :=
  if h.hhBuckets hashSlot = invalidNodeId then some (0, h)
  else if h.hhBuckets hashSlot = removeNode then some (0, h.removeHead hashSlot removeNode)
  else do
    let prev ← h.search (h.hhBuckets hashSlot)
    match ← h.removeLoop removeNode maxNodes prev (h.search (h.nextNodeId prev)) with
    | some (prev, next) => some (0, h.removeNext prev next)
    | none => some (-1, h)

end HashT

/-- The pool: the flags, the chains, the `VD_HANDLE` attribute of the nodes (`none` is
`INVALID_HANDLE`, else the key of the data chunk) and the nodes in use, each with the key it was
allocated for. -/
structure Pool (K : Type) (hhSize : UInt32) where
  hashChanging : Bool
  targetNewHash : Bool
  hash : HashT hhSize
  vdHandle : NodeId → Option K
  used : NodeId → Option K

namespace Pool

variable [NeZero hhSize.toNat] [DecidableEq K] (hash : Bool → K → UInt32)

/-- `new_hash_slot` and `hash_slot`. -/
def slot (newhash : Bool) (key : K) : Fin hhSize.toNat :=
  Fin.ofNat hhSize.toNat (hash newhash key).toNat

def insert2Hash (s : Pool K hhSize) (key : K) (node : NodeId) : Pool K hhSize :=
  { s with hash := s.hash.insert2Hash (slot hash s.targetNewHash key) node }

def removeFromHash (s : Pool K hhSize) (key : K) (removeNode : NodeId) :
    Option (Pool K hhSize) := do
  if s.hashChanging then
    let (_, h) ← s.hash.removeFromHashBase (slot hash true key) removeNode
    let (_, h) ← h.removeFromHashBase (slot hash false key) removeNode
    some { s with hash := h }
  else
    let (_, h) ← s.hash.removeFromHashBase (slot hash s.targetNewHash key) removeNode
    some { s with hash := h }

def moveToNewHash (s : Pool K hhSize) (key : K) (node : NodeId) : Option (Pool K hhSize) := do
  let s ← s.removeFromHash hash key node
  some (s.insert2Hash hash key node)

/-- `release_node`, with the `Reset` of the node. -/
def releaseNode (s : Pool K hhSize) (node : NodeId) : Pool K hhSize :=
  { s with
    hash := { s.hash with nextNodeId := update s.hash.nextNodeId node invalidNodeId }
    used := update s.used node none }

def purgeNode (s : Pool K hhSize) (key : K) (node : NodeId) : Option (Pool K hhSize) := do
  let s ← s.removeFromHash hash key node
  some (s.releaseNode node)

/-- The loop of `cache_find`. Nodes without data that it comes across are purged. -/
def findLoop (key : K) :
    Nat → Pool K hhSize → Option NodeId → Option (Pool K hhSize × Option NodeId)
  | 0, _, _ => none
  | _ + 1, s, none => some (s, none)
  | fuel + 1, s, some iter =>
    match s.vdHandle iter with
    | none => do
      let next := s.hash.search (s.hash.nextNodeId iter)
      let s ← s.purgeNode hash key iter
      findLoop key fuel s next
    | some other =>
      if key = other then some (s, some iter)
      else findLoop key fuel s (s.hash.search (s.hash.nextNodeId iter))

def cacheFind (s : Pool K hhSize) (key : K) (newhash : Bool) :
    Option (Pool K hhSize × Option NodeId) :=
  let nodeId := s.hash.hhBuckets (slot hash newhash key)
  if nodeId = invalidNodeId then some (s, none)
  else findLoop hash key (HashT.maxNodes + 1) s (s.hash.search nodeId)

/-- `cache_find_auto_chose_hash`; `transation_find_node` chooses in the same way. -/
def cacheFindAutoChoseHash (s : Pool K hhSize) (key : K) :
    Option (Pool K hhSize × Option NodeId) := do
  if s.hashChanging then
    let newhash := s.targetNewHash
    let oldhash := !s.targetNewHash
    match ← s.cacheFind hash key oldhash with
    | (s, none) => s.cacheFind hash key newhash
    | (s, some node) =>
      let s ← s.moveToNewHash hash key node
      some (s, some node)
  else s.cacheFind hash key s.targetNewHash

/-- `NGInfo::allocate_node`, where the node sets offer the node `free`. -/
def allocateNode (s : Pool K hhSize) (free : Option NodeId) (key : K) :
    Option (Pool K hhSize × NodeId) :=
  match free with
  | none => none
  | some id =>
    if id = invalidNodeId ∨ s.used id ≠ none then none
    else some ({ s with
      hash := { s.hash with
        nextNodeId := update s.hash.nextNodeId id invalidNodeId
        nodeIndex := update s.hash.nodeIndex id true }
      used := update s.used id (some key) }, id)

/-- `cache_allocate`, with the assignment of `INVALID_HANDLE` that its callers make next. -/
def cacheAllocate (s : Pool K hhSize) (key : K) (free : Option NodeId) : Pool K hhSize :=
  match s.allocateNode free key with
  | none => s
  | some (s, id) =>
    let s := s.insert2Hash hash key id
    { s with vdHandle := update s.vdHandle id none }

def cachePurge (s : Pool K hhSize) (key : K) : Option (Pool K hhSize) := do
  if s.hashChanging then
    match ← s.cacheFind hash key false with
    | (s, some node) => s.purgeNode hash key node
    | (s, none) =>
      match ← s.cacheFind hash key true with
      | (s, some node) => s.purgeNode hash key node
      | (s, none) => some s
  else
    match ← s.cacheFind hash key s.targetNewHash with
    | (s, some node) => s.purgeNode hash key node
    | (s, none) => some s

end Pool

/-- What the callers do with the index. -/
inductive Op (K : Type) where
  /-- The cache is started with other flags. -/
  | setFlags (hashChanging targetNewHash : Bool)
  | find (key : K)
  /-- A lookup and, when it misses, `cache_allocate`. -/
  | allocate (key : K) (free : Option NodeId)
  /-- The handle of a node in use is set to a data chunk with the key of the node. -/
  | attach (node : NodeId)
  /-- `move_to_new_hash` of a node in use. -/
  | move (node : NodeId)
  | purge (key : K)
  /-- `purge_node_everything(key, node)`, with the key a node in use was allocated for. -/
  | abandon (node : NodeId)
  /-- `purge_node_everything(node)`, which reads the key from the data chunk. -/
  | purgeNode (node : NodeId)

/-- The pool, and the keys whose data were inserted and not purged since. -/
structure State (K : Type) (hhSize : UInt32) where
  pool : Pool K hhSize
  inserted : Finset K

section

variable [NeZero hhSize.toNat] [DecidableEq K] (hash : Bool → K → UInt32)

def State.init (hashChanging targetNewHash : Bool) : State K hhSize where
  pool :=
    { hashChanging, targetNewHash
      hash :=
        { hhFree := hhSize, hhNode := 0, hhBuckets := fun _ => invalidNodeId
          nextNodeId := fun _ => invalidNodeId, nodeIndex := fun _ => false }
      vdHandle := fun _ => none
      used := fun _ => none }
  inserted := ∅

/-- The key of a node in use. -/
def Pool.dataKey (s : Pool K hhSize) (node : NodeId) : Option K :=
  if s.used node = none then none else s.vdHandle node

def step (s : State K hhSize) : Op K → Option (State K hhSize)
  | .setFlags hashChanging targetNewHash =>
    some { s with pool := { s.pool with hashChanging, targetNewHash } }
  | .find key => do
    let (pool, _) ← s.pool.cacheFindAutoChoseHash hash key
    some { s with pool }
  | .allocate key free => do
    match ← s.pool.cacheFindAutoChoseHash hash key with
    | (pool, some _) => some { s with pool }
    | (pool, none) => some { s with pool := pool.cacheAllocate hash key free }
  | .attach node =>
    match s.pool.used node with
    | none => some s
    | some key => some {
        pool := { s.pool with vdHandle := update s.pool.vdHandle node (some key) }
        inserted := insert key s.inserted }
  | .move node =>
    match s.pool.used node with
    | none => some s
    | some key => do
      let pool ← s.pool.moveToNewHash hash key node
      some { s with pool }
  | .purge key => do
    let pool ← s.pool.cachePurge hash key
    some { pool, inserted := s.inserted.erase key }
  | .abandon node =>
    match s.pool.used node with
    | none => some s
    | some key => do
      let pool ← s.pool.purgeNode hash key node
      some { pool, inserted := s.inserted.erase key }
  | .purgeNode node =>
    match s.pool.dataKey node with
    | none => some s
    | some key => do
      let pool ← s.pool.purgeNode hash key node
      some { pool, inserted := s.inserted.erase key }

end

end ISearch.CacheHash
