import ISearch.TTree.Traverse
import ISearch.BufferProcess.Data

/-!
# Nodes with a tree index (`tree_data.cc`, `tree_data_process.cc`)

A node of a table with an index field keeps its rows in records, one for each index value; a T-tree
orders the handles of the records by the index value of the first row a record stores. A record is
one chunk of the allocator, so it can move when it grows, and code that kept its handle is left with
a dead one: reading through a dead handle is `none`.

The key of the table is one field, so that `TTREE_INDEX_POS` is the first field behind it.
-/

namespace ISearch.TreeData

open TTree BufferProcess
open Function (update)

/-- The n-th chunk the allocator has given out. -/
abbrev Handle := Nat

/-- The outcomes of the calls of the allocator, numbered from the first on: whether the call fails,
whether a `ReAlloc` that grows moves the chunk, and by how much the chunk is larger than asked. -/
structure Mallocator where
  fails : Nat → Bool
  moves : Nat → Bool
  slack : Nat → Nat

/-- What the engine uses of a table definition: the field `TTREE_INDEX_POS` of a row, `KeyCompare`
on two values of that field, and `calc_tree_row_size`. -/
structure Table (K R : Type) where
  index : R → K
  keyCompare : K → K → Int64
  rowSize : R → Nat

/-- A record: its chunk, the index value stored in front, and its rows. -/
structure Record (K R : Type) where
  chunkSize : Nat
  key : K
  rows : List (Row R)

/-- `RootData`; its sizes are `uint32_t`, and `hRoot` is the tree below `m_hRoot`. -/
structure RootData where
  treeSize : UInt32
  totalRawSize : UInt32
  nodeCnts : UInt32
  rowCnt : UInt32
  hRoot : TtreeNode Handle

/-- A node, and the members of `TreeData` that outlive a call. -/
structure State (K R : Type) where
  root : TtreeNode Handle
  mem : Handle → Record K R
  live : Handle → Bool
  /-- The calls of the allocator so far. -/
  calls : Nat
  data : RootData
  affectedRows : Nat
  rowsInc : Int
  dirtyRowsInc : Int
  async : Bool

variable {K R : Type}

/-- `sizeof(TtreeNode)`. -/
def sizeofTtreeNode : Nat := 8 + 8 + 1 + 2 + 8 * pageSize

/-- The header of a record: type, data size and row count. -/
def headerSize : Nat := 1 + 4 + 4

/-- `get_data_size`. -/
def Record.dataSize (T : Table K R) (record : Record K R) : Nat :=
  headerSize + (record.rows.map fun r => T.rowSize r.value).sum

/-- The rows of a record are rewritten in place: the bytes of the last row stay when it is
deleted, and with them the index value in front. -/
def Record.setRows (T : Table K R) (record : Record K R) (rows : List (Row R)) : Record K R :=
  { record with
    rows
    key := (rows.head?.map fun r => T.index r.value).getD record.key }

namespace State

/-- The comparator of the T-tree reads the index value out of the record. -/
def pfComp (T : Table K R) (st : State K R) (pchKey : K) (hRecord : Handle) : Int64 :=
  T.keyCompare pchKey (st.mem hRecord).key

/-- `convert_cvalue`. -/
def keyOf (st : State K R) (hRecord : Handle) : K := (st.mem hRecord).key

def setRecord (st : State K R) (h : Handle) (record : Record K R) : State K R :=
  { st with mem := update st.mem h record }

/-- `TreeData::Find`. -/
def find (T : Table K R) (st : State K R) (k : K) : Option Handle :=
  Ttree.find (st.pfComp T) st.root k

/-- `Init`. The memory of the records, and the members of `TreeData` that only a request sets, hold
what they held before. -/
def init (mem : Handle → Record K R) (rowsInc dirtyRowsInc : Int) (async : Bool) : State K R where
  root := .nil
  mem
  live _ := false
  calls := 0
  data := ⟨0, 0, 0, 0, .nil⟩
  affectedRows := 0
  rowsInc
  dirtyRowsInc
  async

end State

/-- `*pRecord = hTmp` in the item list of a T-tree node. -/
def replaceItem (old new : Handle) : TtreeNode Handle → TtreeNode Handle
  | .nil => .nil
  | .node hLeft hRight chBalance ahItems =>
    .node (replaceItem old new hLeft) (replaceItem old new hRight) chBalance
      (ahItems.map fun h => if h = old then new else h)

/-- `ReAlloc` of the record of a T-tree item to `size` bytes, and what the callers do with the
result: the new handle and the state, or `none` without memory. Only a chunk that is too small
moves. The item is rewritten in place, so the change is seen from every handle of the T-tree. -/
def reAlloc (env : Mallocator) (h : Handle) (size : Nat) (st : State K R) :
    Option (Handle × State K R) :=
  if env.fails st.calls then none
  else
    let record := st.mem h
    let h' := if record.chunkSize < size ∧ env.moves st.calls then st.calls else h
    let chunkSize := size + env.slack st.calls
    some (h', { st with
      root := replaceItem h h' st.root
      mem := update st.mem h' { record with chunkSize }
      live := update (update st.live h false) h' true
      calls := st.calls + 1
      data.hRoot := replaceItem h h' st.data.hRoot
      data.treeSize := st.data.treeSize - .ofNat record.chunkSize + .ofNat chunkSize })

/-- A call of the allocator that failed. -/
def State.failed (st : State K R) : State K R := { st with calls := st.calls + 1 }

/-! ## Insertion -/

/-- `insert_sub_tree`: `Ttree::Insert`, and the size of the node it may have allocated. -/
def insertSubTree (T : Table K R) (env : Mallocator) (k : K) (hRecord : Handle)
    (st : State K R) : Option (Int × State K R) :=
  let canAlloc := !env.fails st.calls
  let st := { st with calls := st.calls + 1 }
  if st.root.isNil then
    if canAlloc then
      some (0, { st with
        root := .alloc hRecord
        data.treeSize := st.data.treeSize + .ofNat sizeofTtreeNode })
    else some (ecNoMem, st)
  else do
    let o ← TtreeNode.insert (st.pfComp T) st.keyOf canAlloc (2 * st.root.height) k hRecord st.root
      false
    let st := { st with root := o.hNode }
    if o.iRet = -2 then return (ecKeyExist, st)
    else if o.iRet = -1 then return (ecNoMem, st)
    else if o.iRet < 0 then return (-1, st)
    else if o.flag then
      return (0, { st with data.treeSize := st.data.treeSize + .ofNat sizeofTtreeNode })
    else return (0, st)

/-- The end of `insert_row_flag`: the header of the record and the root are brought up to date. -/
def countRow (T : Table K R) (row : R) (st : State K R) : State K R :=
  { st with
    data.hRoot := st.root
    data.rowCnt := st.data.rowCnt + 1
    data.totalRawSize := st.data.totalRawSize + .ofNat (T.rowSize row) }

/-- `insert_row_flag` where the index value has no record yet. -/
def insertNewRecord (T : Table K R) (env : Mallocator) (row : R) (dirty : Bool)
    (st : State K R) : Option (Int × State K R) :=
  if env.fails st.calls then some (ecNoMem, st.failed)
  else do
    let hRecord := st.calls
    let chunkSize := T.rowSize row + headerSize + env.slack st.calls
    let st := { st with
      calls := st.calls + 1
      mem := update st.mem hRecord ⟨chunkSize, T.index row, [⟨row, dirty⟩]⟩
      live := update st.live hRecord true }
    let (iRet, st) ← insertSubTree T env (T.index row) hRecord st
    if iRet ≠ 0 then return (iRet, { st with live := update st.live hRecord false })
    return (0, countRow T row { st with
      data.treeSize := st.data.treeSize + .ofNat chunkSize
      data.nodeCnts := st.data.nodeCnts + 1 })

/-- `expand_tree_chunk`: the return code, the handle of the record, and the state. -/
def expandTreeChunk (T : Table K R) (env : Mallocator) (h : Handle) (tExpSize : Nat)
    (st : State K R) : Int × Handle × State K R :=
  let dataSize := (st.mem h).dataSize T
  if (st.mem h).chunkSize < dataSize + tExpSize then
    match reAlloc env h (dataSize + tExpSize) st with
    | none => (ecNoMem, h, st.failed)
    | some (h, st) => (0, h, st)
  else (0, h, st)

/-- `insert_row_flag`; `dirty` says whether the flag is `OPER_INSERT` or `OPER_SELECT`. -/
def insertRow (T : Table K R) (env : Mallocator) (row : R) (dirty : Bool) (st : State K R) :
    Option (Int × State K R) :=
  match st.find T (T.index row) with
  | none => insertNewRecord T env row dirty st
  | some hRecord =>
    match expandTreeChunk T env hRecord (T.rowSize row) st with
    | (0, h, st) =>
      let record := st.mem h
      some (0, countRow T row
        (st.setRecord h (record.setRows T (record.rows ++ [⟨row, dirty⟩]))))
    | (iRet, _, st) => some (iRet, st)

/-- The comparisons of `DField`. -/
inductive Comparison where
  | eq | ne | lt | le | gt | ge
  deriving DecidableEq, Repr

section Requests

variable [LinearOrder K] (T : Table K R)

/-- A condition on the index field. `DTCFieldValue::Compare` may ask for more than the comparison of
the index says: strings are indexed without regard to case and can be compared with it. -/
structure IndexCondition (_T : Table K R) where
  op : Comparison
  value : K
  holds : R → Bool

/-- A condition of a request, on the index field or on another field. -/
inductive Condition where
  | index (cond : IndexCondition T)
  | other (holds : R → Bool)

/-- What the engine reads of a `TaskRequest`: the conditions on the fields behind the key, whether
no field is asked for, the limit, and the update. -/
structure Task where
  condition : List (Condition T)
  countOnly : Bool
  limitStart : UInt32
  limitCount : UInt32
  updateRow : R → R

variable {T}

/-- One condition in `DTCFieldValue::Compare`. -/
def Condition.holds : Condition T → R → Bool
  | .index cond => cond.holds
  | .other holds => holds

namespace Task

/-- `all_rows`: there is no condition. -/
def allRows (task : Task T) : Bool := task.condition.isEmpty

def compareRow (task : Task T) (row : R) : Bool := task.condition.all (·.holds row)

/-- `limit_start() + limit_count()` in 32 bits. -/
def limitNext (task : Task T) : Nat := (task.limitStart + task.limitCount).toNat

/-- The conditions on the index field, in the order of the request. -/
def indexConditions (task : Task T) : List (IndexCondition T) :=
  task.condition.filterMap fun
    | .index cond => some cond
    | .other _ => none

end Task

/-- `pResCookie`: the handles got so far and the rows of their records. -/
structure ResCookie where
  handles : List Handle
  rowsGot : Nat

/-- `Visit`: at `nodesNum` rows no more records are taken; 0 is no limit. -/
def visit (st : State K R) (nodesNum : Nat) (cookie : ResCookie) (h : Handle) : ResCookie :=
  if nodesNum > 0 ∧ cookie.rowsGot ≥ nodesNum then cookie
  else ⟨cookie.handles ++ [h], cookie.rowsGot + (st.mem h).rows.length⟩

/-- `get_sub_raw`: all records, or enough of the first ones for the limit of a request without
conditions. -/
def getSubRaw (st : State K R) (task : Task T) (isAsc : Bool) : List Handle :=
  let nodesNum := if task.allRows ∧ task.limitCount > 0 then task.limitNext else 0
  let got := (st.root.traverseForward (visit st nodesNum) ⟨[], 0⟩).handles
  if isAsc then got else got.reverse

/-- `match_index_condition`: the records it calls the row function on, in this order. -/
def matchIndexCondition (st : State K R) (task : Task T) (isAsc : Bool) : List Handle :=
  let conds := task.indexConditions
  if conds.length = 0 ∨ conds.length = 1 ∧ conds.all (·.op = .ne) then getSubRaw st task isAsc
  else match conds.find? (fun cond => cond.op = .eq) with
    | some cond => (st.find T cond.value).toList
    | none =>
      match conds.find? (fun cond => cond.op = .gt ∨ cond.op = .ge),
          conds.find? (fun cond => cond.op = .lt ∨ cond.op = .le) with
      | some left, none =>
        let got := (st.root.traverseForwardFrom (st.pfComp T) left.value (visit st 0)
          ⟨[], 0⟩).handles
        if isAsc then got else got.reverse
      | none, some right =>
        -- the number of records bounds the number of rows here
        let got := (st.root.traverseBackwardFrom (st.pfComp T) right.value
          (visit st st.data.nodeCnts.toNat) ⟨[], 0⟩).handles
        if isAsc then got.reverse else got
      | some left, some right =>
        let got := (st.root.traverseForwardRange (st.pfComp T) left.value right.value (visit st 0)
          ⟨[], 0⟩).handles
        if isAsc then got else got.reverse
      | none, none => getSubRaw st task isAsc

end Requests

end ISearch.TreeData
