import ISearch.Lib.Run
import ISearch.Protocol.Values

/-!
# Batch requests (`multi_request.cc`, `task_multiplexer.cc`)

The multiplexer splits a request with many keys into one sub-task a key. A `MultiRequest` counts the
sub-tasks that are not yet replied to, merges their results into the waiting task and replies to it.

`output.indirect_notify` only queues a sub-task, so it is replied to at some later time; here that
may be as early as before `push_task_queue` returns. Whether a key can be packed
(`pTask->Copy(*wait, keyVal)`) is the parameter `packs`.
-/

namespace ISearch.Task

open KeyFormat (Bytes)
open Protocol (DField)

/-- `ENOMEM` and `EC_TOO_MANY_KEY_VALUE`. -/
def enomem : Int := 12
def ecTooManyKeyValue : Int := 2046

/-- A `ResultPacket`: the rows that are appended, and their counts. -/
structure ResultPacket (Row : Type) where
  rows : List Row
  totalRows : UInt32
  numRows : UInt32

/-- The `resultInfo` and the `resultWriter` of a task. -/
structure TaskResult (Row : Type) where
  resultCode : Int
  errorFrom : String
  errorMessage : String
  affectedRows : UInt64
  hitFlag : UInt32
  resultWriter : Option (ResultPacket Row)

namespace TaskResult

variable {Row : Type}

def setError (t : TaskResult Row) (err : Int) (source msg : String) : TaskResult Row :=
  { t with resultCode := err, errorFrom := source, errorMessage := msg }

/-- `incr_tech_hit_num` and `incr_bussiness_hit_num`, in the low and in the high half. -/
def incrTechHitNum (t : TaskResult Row) : TaskResult Row :=
  { t with hitFlag := (t.hitFlag &&& 0xFFFF0000) ||| ((t.hitFlag &&& 0xFFFF) + 1) }

def incrBusinessHitNum (t : TaskResult Row) : TaskResult Row :=
  let num : UInt32 := ((t.hitFlag &&& 0xFFFF0000) >>> 16) + 1
  let tech : UInt32 := t.hitFlag &&& 0xFFFF
  { t with hitFlag := tech ||| num <<< 16 }

/-- The rows of the result. -/
def rows (t : TaskResult Row) : List Row := t.resultWriter.elim [] (·.rows)

def totalRows (t : TaskResult Row) : UInt32 := t.resultWriter.elim 0 (·.totalRows)

/-- The counts of `merge_result`: hits (`HIT_SUCCESS` is 1) and affected rows. -/
def mergeCounts (t task : TaskResult Row) : TaskResult Row :=
  let t :=
    if task.hitFlag = 1 then
      let t := t.incrTechHitNum
      match task.resultWriter with
      | some w =>
        if 0 ≤ task.resultCode ∧ (w.numRows ≠ 0 ∨ w.totalRows ≠ 0) then t.incrBusinessHitNum else t
      | none => t
    else t
  let ret := task.affectedRows.toUInt32.toInt32
  if 0 < ret then { t with affectedRows := ret.toInt64.toUInt64 + t.affectedRows } else t

/-- `merge_result`. With `oom` there is no memory for the rows. -/
def mergeResult (t task : TaskResult Row) (oom : Bool) : Int × TaskResult Row :=
  let t := t.mergeCounts task
  match task.resultWriter with
  | none => (0, t)
  | some w =>
    if oom then (-enomem, t)
    else
      let v := t.resultWriter.getD ⟨[], 0, 0⟩
      let v : ResultPacket Row :=
        ⟨v.rows ++ w.rows, v.totalRows + w.totalRows, v.numRows + w.numRows⟩
      (0, { t with resultWriter := some v })

/-- What `complete_task` does with the result of a sub-task. -/
def takeResult (t task : TaskResult Row) (oom : Bool) : TaskResult Row :=
  let t :=
    if 0 ≤ t.resultCode ∧ task.resultCode < 0
    then t.setError task.resultCode task.errorFrom task.errorMessage else t
  let (ret, t) := t.mergeResult task oom
  if ret ≠ 0 then t.setError ret "multi_request" "merge result error" else t

end TaskResult

/-- A component of a key, `str.len` being signed. -/
inductive KeyValue where
  | u64 (val : UInt64)
  | bin (len : Int) (ptr : Bytes)

/-- The components with their fields. -/
abbrev Key := List (UInt8 × KeyValue)

/-- The key fields of the table. `prepare_process` has seen that the names are those of key
fields. -/
structure KeyTable where
  keyFields : Nat
  fieldId : Bytes → UInt8
  fieldType : UInt8 → DField
  hasAutoIncrement : Bool

/-- `Array::Get` of a `uint64_t`. -/
def arrayGetU64 (a : Bytes) : Option (UInt64 × Bytes) :=
  if a.length < 8 then none else some (UInt64.ofNat (ofLeBytes (a.take 8)), a.drop 8)

/-- `Array::Get` of a `DTCBinary`. Its length is added to `sizeof(uint32_t)` in 64 bits, so that one
from -4 to -1 is not refused. -/
def arrayGetBin (a : Bytes) : Option ((Int × Bytes) × Bytes) :=
  if a.length < 4 then none
  else
    let len := (UInt32.ofNat (ofLeBytes (a.take 4))).toInt32.toInt
    if 4 + len < 0 ∨ (a.length : Int) < 4 + len then none
    else some ((len, a.drop 4), a.drop (4 + len).toNat)

/-- The first loop of `decode_key_list`: the fields with the given names, which are C strings. -/
def decodeKeyNames (tableDef : KeyTable) : Nat → Bytes → Option (List UInt8 × Bytes)
  | 0, names => some ([], names)
  | n + 1, names => do
    let ((_, keyName), names) ← arrayGetBin names
    let (fields, names) ← decodeKeyNames tableDef n names
    return (tableDef.fieldId (keyName.takeWhile (· ≠ 0)) :: fields, names)

/-- A component of a key, by the type of its field. -/
def decodeKeyField (tableDef : KeyTable) (fid : UInt8) (vals : Bytes) :
    Except Int (KeyValue × Bytes) :=
  match tableDef.fieldType fid with
  | .signed | .unsigned =>
    match arrayGetU64 vals with
    | some (v, vals) => .ok (.u64 v, vals)
    | none => .error (-2)
  | .string | .binary =>
    match arrayGetBin vals with
    | some ((len, ptr), vals) => .ok (.bin len (ptr.take len.toNat), vals)
    | none => .error (-2)
  | .none | .float => .error (-3)

/-- The components of a key. -/
def decodeKeyVal (tableDef : KeyTable) : List UInt8 → Bytes → Except Int (Key × Bytes)
  | [], vals => return ([], vals)
  | fid :: fields, vals => do
    let (v, vals) ← decodeKeyField tableDef fid vals
    let (key, vals) ← decodeKeyVal tableDef fields vals
    return ((fid, v) :: key, vals)

/-- The second loop: the keys. -/
def decodeKeyVals (tableDef : KeyTable) (fields : List UInt8) : Nat → Bytes → Except Int (List Key)
  | 0, _ => return []
  | n + 1, vals => do
    let (key, vals) ← decodeKeyVal tableDef fields vals
    let keys ← decodeKeyVals tableDef fields n vals
    return key :: keys

/-- Where the keys of a batch come from: a list of the embedded API, or tags 13 and 11 and the key
of the request. -/
inductive KeyList where
  | embedded (keys : List Key)
  | network (names : Bytes) (count : UInt64) (vals : Bytes)

/-- `decode_key_list`: what it returns, and `keyList`. -/
def decodeKeyList (tableDef : KeyTable) : KeyList → Int × List Key
  | .embedded keys => (keys.length, keys)
  | .network names count vals =>
    match decodeKeyNames tableDef tableDef.keyFields names with
    | none => (-1, [])
    | some (fields, names) =>
      if (arrayGetBin names).isSome then (-1, [])
      else
        let totalReq := count.toUInt32.toInt32.toInt
        match decodeKeyVals tableDef fields totalReq.toNat vals with
        | .error err => (err, [])
        | .ok keys => (totalReq, keys)

/-! ## The waiting task and its sub-tasks -/

/-- `MultiRequest`; `wait` is whether it still points to the task. -/
structure MultiRequest where
  wait : Bool
  keyList : List Key
  keyMask : Nat → Bool
  doneReq : Int
  totalReq : Int
  subReq : Int
  firstPass : Bool

/-- Where the multiplexer is: before a round of `split_task`, behind the push of a sub-task, or
back in its caller. -/
inductive Position where
  | split (i : Nat)
  | pushed (i : Nat)
  | waiting
  deriving DecidableEq, Repr

/-- The waiting task, its `MultiRequest` while there is one, the sub-tasks that are pushed and not
replied to, and the history: the sub-tasks that were pushed, those that were replied to with their
results, and the replies of the waiting task. -/
structure System (Row : Type) where
  task : TaskResult Row
  req : Option MultiRequest
  position : Position
  outstanding : List Nat
  issued : List Nat
  completed : List (Nat × TaskResult Row)
  replies : List (TaskResult Row)

namespace System

variable {Row : Type} (s : System Row) (req : MultiRequest)

/-- `wait->reply_notify()`. -/
def replyNotify : System Row := { s with replies := s.replies ++ [s.task] }

def completeWaiter : System Row :=
  if req.wait then { s.replyNotify with req := some { req with wait := false } }
  else { s with req := some req }

/-- `delete this`: the destructor replies to a task that still waits. -/
def delete (s : System Row) : System Row :=
  match s.req with
  | none => s
  | some req => { (if req.wait then s.replyNotify else s) with req := none }

def secondPass (err : Bool) : System Row :=
  let req := { req with firstPass := false }
  let s := { s with position := .waiting }
  if req.subReq = 0 then (s.completeWaiter req).delete
  else if err then s.completeWaiter { req with doneReq := req.totalReq - req.subReq }
  else { s with req := some req }

/-- `complete_task` for the sub-task `index`, whose result is `r`. -/
def completeTask (index : Nat) (r : TaskResult Row) (oom : Bool) : System Row :=
  let s := { s with
    task := if req.wait then s.task.takeResult r oom else s.task
    outstanding := s.outstanding.erase index
    completed := s.completed ++ [(index, r)] }
  let req := { req with
    keyMask := Function.update req.keyMask index true
    doneReq := req.doneReq + 1
    subReq := req.subReq - 1 }
  if req.firstPass = false ∧ req.subReq = 0 then (s.completeWaiter req).delete
  else { s with req := some req }

variable (packs : Key → Bool)

/-- The next step of `split_task`, and the `second_pass` behind it. -/
def advance : System Row :=
  match s.position with
  | .waiting => s
  | .pushed i =>
    { s with position := .split (i + 1), req := some { req with subReq := req.subReq + 1 } }
  | .split i =>
    match req.keyList[i]? with
    | none => s.secondPass req false
    | some keyVal =>
      if req.keyMask i then { s with position := .split (i + 1) }
      else if packs keyVal then
        { s with
          position := .pushed i
          outstanding := s.outstanding ++ [i]
          issued := s.issued ++ [i] }
      else
        let task := s.task.setError (-enomem) "reply_notify" "split task error"
        { s with task := task }.secondPass req true

end System

/-- The multiplexer goes on, or a sub-task is replied to. -/
inductive Event (Row : Type) where
  | advance
  | complete (index : Nat) (result : TaskResult Row) (oom : Bool)

/-- What happens while there is a `MultiRequest`; a reply that comes later has no step. -/
def System.step {Row : Type} (packs : Key → Bool) (s : System Row) : Event Row → Option (System Row)
  | .advance =>
    match s.req with
    | none => none
    | some req => if s.position = .waiting then none else some (s.advance req packs)
  | .complete index r oom =>
    match s.req with
    | none => none
    | some req => if index ∈ s.outstanding then some (s.completeTask req index r oom) else none

inductive RequestCode where
  | insert
  | replace
  | get
  | delete
  | purge
  | update
  | flush
  | other
  deriving DecidableEq, Repr

/-- What the multiplexer reads of a batch request. -/
structure BatchRequest (Row : Type) where
  requestCode : RequestCode
  limitStart : UInt32
  limitCount : UInt32
  keys : KeyList
  result : TaskResult Row

namespace BatchRequest

variable {Row : Type} (cur : BatchRequest Row) (tableDef : KeyTable)

/-- The switch of `task_notify`: why the request is refused. -/
def refusal : Option String :=
  match cur.requestCode with
  | .insert | .replace =>
    if tableDef.hasAutoIncrement then
      some "table has autoincrement field, multi-insert/replace not support"
    else none
  | .get =>
    if cur.limitStart ≠ 0 ∨ cur.limitCount ≠ 0 then some "multi-task not support limit()" else none
  | .delete | .purge | .update | .flush => none
  | .other => some "bad batch request type"

/-- `TaskMultiplexer::task_notify` up to `split_task`. Where no key list is decoded, the task is
replied to before the `MultiRequest` is deleted, which still points to it. -/
def taskNotify : System Row :=
  let s : System Row := ⟨cur.result, none, .waiting, [], [], [], []⟩
  match cur.refusal tableDef with
  | some msg =>
    { s with task := s.task.setError (-ecTooManyKeyValue) "task_notify" msg }.replyNotify
  | none =>
    let (totalReq, keyList) := decodeKeyList tableDef cur.keys
    let req : MultiRequest := ⟨true, keyList, fun _ => false, 0, totalReq, 0, true⟩
    if totalReq ≤ 0 then { s with req := some req }.replyNotify.delete
    else if s.task.resultCode < 0 then s.secondPass req true
    else if req.totalReq - req.doneReq ≤ 0 then s.secondPass req false
    else { s with req := some req, position := .split 0 }

end BatchRequest

end ISearch.Task
