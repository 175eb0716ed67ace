import ISearch.Lib.LinkedLists

/-!
# The barrier unit (`fence_unit.cc`)

A `Barrier` serialises the tasks of one key: it queues them, and only the task at its front has
been passed on. Barrier objects are numbered in the order of their allocation; they are linked in
the free list or in a slot of the hash table.

`taskNotify` and `replyNotify` return the calls they make on the task and on the output.
-/

namespace ISearch.Fence

/-- `DRequest::SvrAdmin`, `DRequest::ServerAdminCmd::Migrate` and `EC_SERVER_BUSY`. -/
def svrAdmin : Nat := 3
def migrate : Nat := 14
def ecServerBusy : Int := 2026

/-- What the barrier unit reads of a task. -/
structure TaskRequest where
  id : Nat
  requestCode : Nat
  adminCode : Nat
  isBatchRequest : Bool
  barHash : UInt64
  deriving DecidableEq, Repr

namespace TaskRequest

/-- Tasks that do not queue: admin commands other than a migration, and batches. Both entry points
of the unit test for them first. -/
def bypasses (cur : TaskRequest) : Bool :=
  (cur.requestCode == svrAdmin && cur.adminCode != migrate) || cur.isBatchRequest

/-- Tasks that queue under the barrier key `key`. -/
def keyed (key : UInt64) (cur : TaskRequest) : Bool := !cur.bypasses && cur.barHash == key

end TaskRequest

/-- A barrier object: its key and its `LinkQueue`. -/
structure Barrier where
  key : UInt64 := 0
  queue : List TaskRequest := []

/-- The list heads of the unit. -/
inductive Head where
  | freeList
  | hashSlot (idx : Nat)
  deriving DecidableEq

/-- `BarrierUnit`; `bars` is the memory of the `nBars` barriers allocated so far. -/
structure BarrierUnit where
  count : Int
  maxBarrier : Int
  maxKeyCount : Int
  bars : Nat → Barrier
  nBars : Nat
  lists : Lists Head Nat
  statBarrierCount : Int
  statBarrierMaxTask : Int

/-- A call made on a task: `chain_request`, `queue_request`, or `reply_notify` after an optional
`set_error`. -/
inductive Action where
  | chainRequest (p : TaskRequest)
  | queueRequest (p : TaskRequest)
  | replyNotify (cur : TaskRequest) (error : Option (Int × String))
  deriving DecidableEq, Repr

/-- `key % BARRIER_HASH_MAX`, where the macro is `1024 * 8` without parentheses. -/
def key2idx (key : UInt64) : Nat := key.toNat % 1024 * 8

def barrierHashMax : Nat := 1024 * 8

namespace BarrierUnit

def init (max maxkeycount : Int) : BarrierUnit where
  count := 0
  maxBarrier := max
  maxKeyCount := maxkeycount
  bars := fun _ => {}
  nBars := 0
  lists := fun _ => []
  statBarrierCount := 0
  statBarrierMaxTask := 0

def getBarrier (u : BarrierUnit) (key : UInt64) : Option Nat :=
  (u.lists (.hashSlot (key2idx key))).find? fun p => (u.bars p).key == key

def attachFreeBarrier (u : BarrierUnit) (bar : Nat) : BarrierUnit :=
  { u with
    lists := u.lists.listMove bar .freeList
    count := u.count - 1
    statBarrierCount := u.count - 1 }

def setBar (u : BarrierUnit) (bar : Nat) (b : Barrier) : BarrierUnit :=
  { u with bars := Function.update u.bars bar b }

def push (u : BarrierUnit) (bar : Nat) (cur : TaskRequest) : BarrierUnit :=
  u.setBar bar { u.bars bar with queue := (u.bars bar).queue ++ [cur] }

def pop (u : BarrierUnit) (bar : Nat) : BarrierUnit :=
  u.setBar bar { u.bars bar with queue := (u.bars bar).queue.tail }

/-- `new Barrier` or the first one of the free list. -/
def takeBarrier (u : BarrierUnit) : BarrierUnit × Nat :=
  match u.lists .freeList with
  | [] => ({ u.setBar u.nBars {} with nBars := u.nBars + 1 }, u.nBars)
  | bar :: _ => (u, bar)

/-- Put a barrier for the key of `cur` into the hash table, with `cur` at its front. -/
def openBarrier (u : BarrierUnit) (bar : Nat) (key : UInt64) (cur : TaskRequest) : BarrierUnit :=
  let u := u.setBar bar { u.bars bar with key := key }
  let u := { u with lists := u.lists.listMoveTail bar (.hashSlot (key2idx key)) }
  let u := u.push bar cur
  { u with count := u.count + 1, statBarrierCount := u.count + 1 }

/-- Push behind the tasks a barrier holds, with the statistics of the longest queue. -/
def enqueue (u : BarrierUnit) (bar : Nat) (cur : TaskRequest) : BarrierUnit :=
  let u := u.push bar cur
  { u with statBarrierMaxTask := max u.statBarrierMaxTask (u.bars bar).queue.length }

/-- Pop the front task of a barrier, with the statistics of the longest queue. -/
def dequeue (u : BarrierUnit) (bar : Nat) : BarrierUnit :=
  { u.pop bar with statBarrierMaxTask :=
      if ((u.bars bar).queue.length : Int) = u.statBarrierMaxTask then u.statBarrierMaxTask - 1
      else u.statBarrierMaxTask }

def taskNotify (u : BarrierUnit) (cur : TaskRequest) : BarrierUnit × List Action :=
  if cur.bypasses then (u, [.chainRequest cur])
  else
    match u.getBarrier cur.barHash with
    | some bar =>
      if (u.bars bar).queue.length < u.maxKeyCount then (u.enqueue bar cur, [])
      else
        (u, [.replyNotify cur (some (-ecServerBusy, "too many request blocked at key"))])
    | none =>
      if u.count ≥ u.maxBarrier then
        (u, [.replyNotify cur (some (-ecServerBusy, "too many barriers"))])
      else
        (u.takeBarrier.1.openBarrier u.takeBarrier.2 cur.barHash cur, [.chainRequest cur])

def replyNotify (u : BarrierUnit) (cur : TaskRequest) : BarrierUnit × List Action :=
  if cur.bypasses then (u, [.replyNotify cur none])
  else
    match u.getBarrier cur.barHash with
    | none => (u, [.replyNotify cur none])
    | some bar =>
      if (u.bars bar).queue.head? = some cur then
        let u := u.dequeue bar
        match (u.bars bar).queue.head? with
        | none => (u.attachFreeBarrier bar, [.replyNotify cur none])
        | some next => (u, [.queueRequest next, .replyNotify cur none])
      else (u, [.replyNotify cur none])

end BarrierUnit

end ISearch.Fence
