import ISearch.IndexSync.Defs
import ISearch.KeyFormat.Decimals
import ISearch.Lib.Run

/-!
# Synchronising the index with its master (`sync_unit.cc`)

`SyncUnit` registers as a slave of the keyword table, lists the keys of the master by node id in
batches, and then follows the journal of the changed keys. For each key that is reported it asks the
master for the rows of the key and inserts those of the fields with a range index.

The master keeps its rows in memory. A `System` is the master, the unit and the index; the unit is
stopped at each of its requests, so that rows change between any two of them. A request is answered,
refused by an error of the master, or lost on the way; a lost request leaves zeros in its result.
A journal id is a position in the journal, and `none` is the id zero, which names no position.
-/

namespace ISearch.IndexSync

open Function
open KeyFormat (strtonum isSpace isDigit splitPoint decimalNumber)

/-- `std::istream >> uint32_t`. -/
def readUInt32 (s : Bytes) : UInt32 :=
  let (neg, n) := strtonum s
  if 2 ^ 32 ≤ n then UInt32.ofNat (2 ^ 32 - 1) else if neg then -UInt32.ofNat n else UInt32.ofNat n

/-- An exponent mark and its sign without a digit: such a text is no number. -/
def brokenExponent : Bytes → Bool
  | [] => false
  | c :: s =>
    (c = 101 || c = 69) &&
      match s with
      | 45 :: s => !s.head?.any isDigit
      | 43 :: s => !s.head?.any isDigit
      | s => !s.head?.any isDigit

/-- The number that `std::istream >> double` reads, before it is rounded to a double; 0 where it
reads none. -/
def streamNumber (s : Bytes) : ℚ :=
  let number (s : Bytes) := if brokenExponent (splitPoint isDigit s).2.2 then 0 else decimalNumber s
  match s.dropWhile isSpace with
  | 45 :: s => -number s
  | 43 :: s => number s
  | s => number s

/-- The number as a key of a set, if it is whole. -/
def readKey (s : Bytes) : Option Int :=
  let q := streamNumber s
  if q.den = 1 ∧ q.num.natAbs < 2 ^ 53 then some q.num else none

/-- `InvertIndexEntry(original_key)`: the application and the text behind the second `#`, for the
key of a keyword. -/
def splitKey (originalKey : Bytes) : Option (Bytes × Bytes) :=
  match originalKey.dropWhile (· ≠ 35) with
  | [] => none
  | _ :: rest =>
    match rest.dropWhile (· ≠ 35) with
    | [] => none
    | _ :: number =>
      if rest.takeWhile (· ≠ 35) = [48, 48] then some (originalKey.takeWhile (· ≠ 35), number)
        else none

/-- What is left of a string that is passed as a `char *`. -/
def cString (s : Bytes) : Bytes := s.takeWhile (· ≠ 0)

structure AppFieldInfo where
  segmentTag : UInt16
  fieldValue : UInt16

/-- `DBManager::IsFieldSupportRange`. -/
def isFieldSupportRange (appFieldInfo : UInt32 → List AppFieldInfo) (appid : UInt32)
    (fieldValue : Int) : Bool :=
  match (appFieldInfo appid).find? fun f => (f.fieldValue.toNat : Int) = fieldValue % 2 ^ 32 with
  | some f => f.segmentTag = 5
  | none => false

/-- What the unit reads of a row. -/
structure Row where
  docId : Bytes
  docVersion : Int
  field : Int
  deriving DecidableEq, Repr

/-- The rows of each key, the keys in the nodes of the cache, and the journal of the changed keys.
-/
structure Master where
  data : Bytes → List Row
  node : Nat → Option Bytes
  maxNodeId : Nat
  journal : List Bytes
  placed : ∀ k, data k ≠ [] → ∃ i ≤ maxNodeId, node i = some k

namespace Master

def empty : Master where
  data _ := []
  node _ := none
  maxNodeId := 0
  journal := []
  placed _ h := absurd rfl h

/-- A row is inserted under its key, which is in the node or gets the free node. -/
def insertRow (m : Master) (k : Bytes) (row : Row) (i : Nat) : Option Master :=
  if h : m.node i = some k ∨ m.data k = [] ∧ m.node i = none then
    some {
      data := Function.update m.data k (m.data k ++ [row])
      node := Function.update m.node i (some k)
      maxNodeId := max m.maxNodeId i
      journal := m.journal ++ [k]
      placed := by
        intro k' hk'
        by_cases hk : k' = k
        · exact ⟨i, le_max_right _ _, by rw [hk, update_self]⟩
        · rw [update_of_ne hk] at hk'
          obtain ⟨i', hle, hnode⟩ := m.placed k' hk'
          have hi : i' ≠ i := by
            rintro rfl
            rcases h with h | ⟨-, h⟩
            · exact hk (Option.some.inj (hnode.symm.trans h))
            · exact absurd (hnode.symm.trans h) (by simp)
          exact ⟨i', hle.trans (le_max_left _ _), by rw [update_of_ne hi, hnode]⟩ }
  else none

/-- A row is deleted; without its last row a key leaves its node. -/
def deleteRow (m : Master) (k : Bytes) (row : Row) : Option Master :=
  if row ∈ m.data k then
    some {
      data := Function.update m.data k ((m.data k).erase row)
      node i := if m.node i = some k ∧ (m.data k).erase row = [] then none else m.node i
      maxNodeId := m.maxNodeId
      journal := m.journal ++ [k]
      placed := by
        intro k' hk'
        by_cases hk : k' = k
        · rw [hk, update_self] at hk'
          obtain ⟨i, hle, hnode⟩ := m.placed k fun h => hk' (by simp [h])
          exact ⟨i, hle, by rw [if_neg (fun h => hk' h.2), hk, hnode]⟩
        · rw [update_of_ne hk] at hk'
          obtain ⟨i, hle, hnode⟩ := m.placed k' hk'
          exact ⟨i, hle, by rw [if_neg (by simp [hnode, hk]), hnode]⟩ }
  else none

/-- `buffer_get_key_list`: the keys of a range of nodes; `none` is `EC_FULL_SYNC_COMPLETE`. -/
def getKeyList (m : Master) (start limit : Nat) : Option (List Bytes) :=
  if m.maxNodeId < start then none
  else some ((List.range' start (min limit (m.maxNodeId + 1 - start))).filterMap m.node)

end Master

/-! ## The unit -/

inductive SyncStage where
  | fullSync
  | incSync
  deriving DecidableEq, Repr

structure SyncUnit where
  journalId : Option Nat
  searchSyncStep : SyncStage
  start : Nat

def limit : Nat := 10000

inductive Outcome where
  | ok
  | error
  | lost
  deriving DecidableEq, Repr

/-- Where the unit stands: before `RegisterSlave`, between two rounds, before a batch of the full
synchronisation, in its loop over the reported keys, before the request for the changed keys, or in
the loop over these. -/
inductive Place where
  | off
  | idle
  | full (count : Nat)
  | fullRows (count : Nat) (keys : List Bytes)
  | inc
  | incRows (keys : List Bytes)
  deriving DecidableEq, Repr

/-- The reported keys whose rows are still to be asked for. -/
def Place.keys : Place → List Bytes
  | .fullRows _ keys => keys
  | .incRows keys => keys
  | _ => []

structure System where
  master : Master
  unit : SyncUnit
  index : SequenceSetIndex
  place : Place
  /-- All requests of the round were answered. -/
  roundOk : Bool

/-- The entry of a row that was fetched. -/
def rowEntry (appid : Bytes) (key : Int) (row : Row) : InvertIndexEntry where
  keyType := 0
  key := key
  docId := row.docId
  appid := appid
  field := row.field
  docVersion := row.docVersion
  originalKey := []
  isValid := true

/-- `UpdateOneIndex`; `none` where a number that is not whole would be inserted. -/
def updateOneIndex (appFieldInfo : UInt32 → List AppFieldInfo) (m : Master) (outcome : Outcome)
    (cacheKey : Bytes) (index : SequenceSetIndex) : Option SequenceSetIndex :=
  match splitKey cacheKey with
  | none => some index
  | some (appid, number) =>
    if outcome = .ok then
      ((m.data (cString cacheKey)).filter fun row =>
        isFieldSupportRange appFieldInfo (readUInt32 appid) row.field).foldlM
        (fun index row =>
          (readKey number).map fun key => index.insertIndex (rowEntry appid key row))
        index
    else some index

/-- `GetUpdateKey`: whether it succeeds, the keys and the next position. Without a change the master
holds the request back for longer than the unit waits. -/
def getUpdateKey (m : Master) (journalId : Option Nat) : Outcome → Bool × List Bytes × Option Nat
  | .lost => (false, [], none)
  | .error => (false, [], journalId)
  | .ok =>
    match journalId with
    | none => (false, [], none)
    | some j =>
      if j < m.journal.length then
        let keys := (m.journal.drop j).take limit
        (true, keys, some (j + keys.length))
      else (false, [], none)

namespace System

def start : System where
  master := .empty
  unit := ⟨none, .fullSync, 0⟩
  index := .empty
  place := .off
  roundOk := true

/-- The loop of `DoOnceSync` behind a batch of the full synchronisation. -/
def nextBatch (count : Nat) : Place := if 10000 < count + 1 then .idle else .full (count + 1)

/-- A round: `TimerNotify`. -/
def round (s : System) : System :=
  { s with
    place := if s.unit.searchSyncStep = .fullSync then .full 0 else .inc
    roundOk := true }

/-- `StartSyncTask`: `RegisterSlave` finds the end of the journal, and the first round starts. -/
def startSync (s : System) : System :=
  { s with
    unit := { journalId := some s.master.journal.length, searchSyncStep := .fullSync, start := 0 }
    place := .full 0
    roundOk := true }

/-- The rows of one reported key are asked for. -/
def update (appFieldInfo : UInt32 → List AppFieldInfo) (s : System) (outcome : Outcome)
    (cacheKey : Bytes) (place : Place) : Option System := do
  let index ← updateOneIndex appFieldInfo s.master outcome cacheKey s.index
  return { s with
    index := index
    place := place
    roundOk := s.roundOk && (outcome = .ok || splitKey cacheKey = none) }

/-- The unit goes on to its next request or to the end of a loop. -/
def run (appFieldInfo : UInt32 → List AppFieldInfo) (s : System) (outcome : Outcome) :
    Option System :=
  match s.place with
  | .off => none
  | .idle => none
  | .full count =>
    if outcome = .ok then
      match s.master.getKeyList s.unit.start limit with
      | none =>
        some { s with
          unit := { s.unit with searchSyncStep := .incSync, start := s.unit.start + limit }
          place := .inc }
      | some keys => some { s with place := .fullRows count keys }
    else some { s with place := nextBatch count, roundOk := false }
  | .fullRows count (cacheKey :: keys) =>
    s.update appFieldInfo outcome cacheKey (.fullRows count keys)
  | .fullRows count [] =>
    some { s with unit := { s.unit with start := s.unit.start + limit }, place := nextBatch count }
  | .inc =>
    let (ok, keys, journalId) := getUpdateKey s.master s.unit.journalId outcome
    some { s with
      unit := { s.unit with journalId := journalId }
      place := .incRows keys
      roundOk := s.roundOk && ok }
  | .incRows (cacheKey :: keys) => s.update appFieldInfo outcome cacheKey (.incRows keys)
  | .incRows [] => some { s with place := .idle }

inductive Event where
  | insertRow (k : Bytes) (row : Row) (node : Nat)
  | deleteRow (k : Bytes) (row : Row)
  | startSync
  | round
  | run (outcome : Outcome)

def step (appFieldInfo : UInt32 → List AppFieldInfo) (s : System) : Event → Option System
  | .insertRow k row node => (s.master.insertRow k row node).map fun m => { s with master := m }
  | .deleteRow k row => (s.master.deleteRow k row).map fun m => { s with master := m }
  | .startSync => if s.place = .off then some s.startSync else none
  | .round => if s.place = .idle then some s.round else none
  | .run outcome => s.run appFieldInfo outcome

end System

end ISearch.IndexSync
