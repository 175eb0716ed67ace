import ISearch.Lib.Bytes
import ISearch.Lib.SortedMap

/-!
# Replication (`rocksdb_replication.cc`)

A slave asks a master for the range of keys between the last key it has and an end key that is fixed
when it registers. A packet is a flag word and a list of strings. The data column family of a
process is an ordered store. The meta column family holds at most two entries, the replication state
and the end key, so it is modelled as those.

Storage requests and sends succeed; that a packet is not received is an error of the handler.
-/

namespace ISearch.Replication

/-- A `std::string`. -/
abbrev Bytes := List UInt8

abbrev Db := SortedMap Bytes Bytes

inductive ReplicationType where
  | sync
  | reqAck
  | repAck
  | fin
  deriving DecidableEq, Repr

def ReplicationType.code : ReplicationType → UInt32
  | sync => 0
  | reqAck => 1
  | repAck => 2
  | fin => 3

def setStartKey (packetFlag : UInt32) : UInt32 := packetFlag ||| 0x01
def clearStartKey (packetFlag : UInt32) : UInt32 := packetFlag &&& 0xfffffffe
def hasStartKey (packetFlag : UInt32) : Bool := packetFlag &&& 0x01 ≠ 0

def setEndKey (packetFlag : UInt32) : UInt32 := packetFlag ||| 0x02
def clearEndKey (packetFlag : UInt32) : UInt32 := packetFlag &&& 0xfffffffd
def hasEndKey (packetFlag : UInt32) : Bool := packetFlag &&& 0x02 ≠ 0

def setRequestType (packetFlag : UInt32) (type : ReplicationType) : UInt32 :=
  packetFlag ||| (type.code <<< 2)

/-- `GET_REQUEST_TYPE`; `none` for the codes that `handleReplication` does not know. -/
def getRequestType (packetFlag : UInt32) : Option ReplicationType :=
  match (packetFlag &&& 0xff) >>> 2 with
  | 0 => some .sync
  | 1 => some .reqAck
  | 2 => some .repAck
  | 3 => some .fin
  | _ => none

/-- A packet: the flag word of its header, and the strings after it. -/
structure Packet where
  packetFlag : UInt32
  strs : List Bytes
  deriving DecidableEq, Repr

inductive ReplicationState where
  | noOpr
  | failed
  | registry
  | fullSync
  | finished
  deriving DecidableEq, Repr

/-- `gReplicationState[prev][current]`. -/
def gReplicationState : ReplicationState → ReplicationState → Bool
  | .noOpr, .noOpr | .noOpr, .failed | .noOpr, .registry => true
  | .failed, .failed | .failed, .registry => true
  | .registry, .failed | .registry, .registry | .registry, .fullSync | .registry, .finished => true
  | .fullSync, .failed | .fullSync, .fullSync | .fullSync, .finished => true
  | .finished, .finished => true
  | _, _ => false

/-- The names of the entries of the meta column family. -/
def replicationStateKey : Bytes := "replication_state_key__".toUTF8.toList
def replicationEndKey : Bytes := "replication_end_key__".toUTF8.toList

/-- The meta column family. -/
structure Meta where
  state : Option ReplicationState := none
  endKey : Option Bytes := none
  deriving DecidableEq, Repr

namespace Meta

def getReplicationState (m : Meta) : ReplicationState := m.state.getD .noOpr

def updateReplicationState (m : Meta) (state : ReplicationState) : Option Meta :=
  if gReplicationState m.getReplicationState state then some { m with state := some state }
  else none

/-- `insert_entry` of the end key. -/
def insertEndKey (m : Meta) (endKey : Bytes) : Option Meta :=
  match m.endKey with
  | none => some { m with endKey := some endKey }
  | some _ => none

def deleteEntry (m : Meta) (key : Bytes) : Meta where
  state := if key = replicationStateKey then none else m.state
  endKey := if key = replicationEndKey then none else m.endKey

end Meta

/-- A process with a replication channel: `mReplStartKey` and `mReplEndKey` are those of the
channel. -/
structure Process where
  db : Db
  column : Meta
  replStartKey : Bytes
  replEndKey : Bytes

/-- How a handler ends. -/
inductive Outcome where
  | abort
  | error
  | reply (packet : Packet)
  | closed
  deriving DecidableEq, Repr

section Master

variable (full : List (Bytes × Bytes) → Bool)

/-- The loop of `masterFillRangeKV` over what the iterator is about to visit: the entries of the
packet, and `finished`. `full` says whether the buffer has reached `REPLICATION_PACKET_SIZE`. -/
def fillRange (endKey : Bytes) (filled : List (Bytes × Bytes)) :
    List (Bytes × Bytes) → List (Bytes × Bytes) × Bool
  | [] => (filled, true)
  | e :: rest =>
    let filled := filled ++ [e]
    if endKey ≤ e.1 then (filled, true)
    else if full filled then (filled, false)
    else fillRange endKey filled rest

/-- What `retrieve_start` starts to visit. -/
def retrieveStart (db : Db) (startKey : Bytes) : List (Bytes × Bytes) :=
  if startKey = [] then db.entries else db.seek startKey

def flatten (kvRows : List (Bytes × Bytes)) : List Bytes := kvRows.flatMap fun e => [e.1, e.2]

/-- `get_last_entry`, which leaves the key alone when there is none. -/
def getLastEntry (db : Db) (key : Bytes) : Bytes :=
  match db.entries.getLast? with
  | none => key
  | some e => e.1

def masterFillRangeKV (db : Db) (packetFlag : UInt32) (startKey endKey : Bytes) : Packet :=
  let (endKey, strs) :=
    if endKey = [] then
      let endKey := getLastEntry db endKey
      (endKey, [endKey])
    else (endKey, [])
  let (kvRows, finished) :=
    if endKey = [] then ([], true) else fillRange full endKey [] (retrieveStart db startKey)
  { packetFlag := setRequestType packetFlag (if finished then .fin else .repAck)
    strs := strs ++ flatten kvRows }

/-- Reads a string when its flag is set. -/
def takeStr (present : Bool) (strs : List Bytes) : Option (Bytes × List Bytes) :=
  if present then
    match strs with
    | [] => none
    | s :: strs => some (s, strs)
  else some ([], strs)

/-- `none` is an error. -/
def handleReplicationRegister (db : Db) (packet : Packet) : Option Packet := do
  let (startKey, strs) ← takeStr (hasStartKey packet.packetFlag) packet.strs
  let packetFlag := clearStartKey packet.packetFlag
  let (endKey, _) ← takeStr (hasEndKey packetFlag) strs
  let packetFlag := if hasEndKey packetFlag then clearEndKey packetFlag else setEndKey packetFlag
  return masterFillRangeKV full db packetFlag startKey endKey

def handleReplicationRequest (db : Db) (packet : Packet) : Option Packet := do
  if hasStartKey packet.packetFlag = false then none
  let (startKey, strs) ← takeStr true packet.strs
  if hasEndKey packet.packetFlag = false then none
  let (endKey, _) ← takeStr true strs
  if endKey = [] then none
  return masterFillRangeKV full db (clearEndKey (clearStartKey packet.packetFlag)) startKey endKey

end Master

/-! ## Slave -/

namespace Process

variable (p : Process)

def slaveConstructRequest (rType : ReplicationType) : Packet where
  packetFlag :=
    let packetFlag := setRequestType 0 rType
    let packetFlag := if p.replStartKey ≠ [] then setStartKey packetFlag else packetFlag
    if p.replEndKey ≠ [] then setEndKey packetFlag else packetFlag
  strs := (if p.replStartKey ≠ [] then [p.replStartKey] else []) ++
    if p.replEndKey ≠ [] then [p.replEndKey] else []

/-- `triggerReplication` of a new channel: the request that is sent, the state, and whether the
state could be set. -/
def triggerReplication : Packet × Process × Bool :=
  let p := { p with
    replStartKey := getLastEntry p.db []
    replEndKey := p.column.endKey.getD [] }
  let packet := p.slaveConstructRequest .sync
  match p.column.updateReplicationState .registry with
  | none => (packet, p, false)
  | some column => (packet, { p with column }, true)

/-- The loop of `slaveFillRangeKV`; `none` when a value is missing. -/
def takeRows : List Bytes → Option (List (Bytes × Bytes))
  | [] => some []
  | [_] => none
  | key :: value :: strs => (takeRows strs).map ((key, value) :: ·)

/-- `slaveFillRangeKV`. The start key becomes the last key of the packet. -/
def slaveFillRangeKV (strs : List Bytes) : Option Process := do
  let newEntries ← takeRows strs
  return { p with
    db := p.db.putAll newEntries
    replStartKey := (newEntries.getLast?.map (·.1)).getD [] }

/-- The part that `handleReplicationResponse` and `handleReplicationFinished` start with: the end
key is read and stored. -/
def takeEndKey (packet : Packet) : Except (Process × Outcome) (Process × List Bytes) :=
  if hasEndKey packet.packetFlag then
    match packet.strs with
    | [] => .error (p, .error)
    | [] :: _ => .error (p, .abort)
    | endKey :: strs =>
      match p.column.insertEndKey endKey with
      | none => .error (p, .error)
      | some column => .ok ({ p with column, replEndKey := endKey }, strs)
  else .ok (p, packet.strs)

def handleReplicationResponse (packet : Packet) : Process × Outcome :=
  match p.takeEndKey packet with
  | .error r => r
  | .ok (p, strs) =>
    match p.slaveFillRangeKV strs with
    | none => (p, .error)
    | some p => (p, .reply (p.slaveConstructRequest .reqAck))

/-- The flag says that the last batch is stored. -/
def handleReplicationFinished (packet : Packet) : Process × Bool × Outcome :=
  match p.takeEndKey packet with
  | .error (p, outcome) => (p, false, outcome)
  | .ok (p, strs) =>
    match p.slaveFillRangeKV strs with
    | none => (p, false, .error)
    | some p =>
      if p.replEndKey = [] then (p, true, .abort)
      else
        let p := { p with column := p.column.deleteEntry p.replEndKey }
        match p.column.updateReplicationState .finished with
        | none => (p, true, .error)
        | some column => ({ p with column }, true, .closed)

/-- An answer of the master side. -/
def answer (reply : Option Packet) : Process × Bool × Outcome :=
  match reply with
  | none => (p, false, .error)
  | some packet => (p, false, .reply packet)

/-- The switch of `handleReplication`. -/
def handlePacket (full : List (Bytes × Bytes) → Bool) (packet : Packet) :
    Process × Bool × Outcome :=
  match getRequestType packet.packetFlag with
  | some .sync => p.answer (handleReplicationRegister full p.db packet)
  | some .reqAck => p.answer (handleReplicationRequest full p.db packet)
  | some .repAck =>
    let (p, outcome) := p.handleReplicationResponse packet
    (p, false, outcome)
  | some .fin => p.handleReplicationFinished packet
  | none => (p, false, .error)

/-- `HANDLER_END` of `handleReplication`. -/
def handlerEnd : Process × Bool × Outcome → Process × Bool × Outcome
  | (p, stored, .error) =>
    match p.column.updateReplicationState .failed with
    | none => (p, stored, .error)
    | some column => ({ p with column }, stored, .error)
  | r => r

/-- `handleReplication`; `none` is a packet that could not be received. -/
def handleReplication (full : List (Bytes × Bytes) → Bool) (packet : Option Packet) :
    Process × Bool × Outcome :=
  handlerEnd <| match packet with
    | none => (p, false, .error)
    | some packet => p.handlePacket full packet

/-- `startMasterListener`, as far as the state decides; `none` is a failure. -/
def startMasterListener : Option Process :=
  (p.column.updateReplicationState .noOpr).map fun column => { p with column }

end Process

end ISearch.Replication
