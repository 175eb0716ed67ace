import Mathlib.Data.Int.Bitwise
import ISearch.Lib.Memory
import ISearch.Replication.Defs

/-!
# The packet buffer of the replication (`elastic_buffer.cc`)

An elastic buffer is a chain of buffers of `BUFFER_SIZE` bytes with a place to write and a place to
read. The chain from `mHeadBuffer` on is a list, and a pointer into it is an index, which is `NULL`
when it is not below the length of the list.

`none` stands for a `NULL` that is dereferenced, an `assert` that fails, an access outside of a
buffer and a signed overflow. Allocation succeeds; `heap k` is what the memory of the buffer holds
that is created as number `k`.
-/

namespace ISearch.Replication

/-- `BUFFER_SIZE`: an `int` with room for a length word. -/
abbrev BufferSize := { n : Nat // 4 ≤ n ∧ n < 2 ^ 31 }

/-- The conversion to `int`. -/
def toInt (n : Int) : Int := n.bmod (2 ^ 32)

structure Buffer (B : BufferSize) where
  data : Nat → UInt8
  dataLen : Fin B.1

structure ElasticBuffer (B : BufferSize) where
  buffers : List (Buffer B)
  writing : Nat
  reading : Nat
  readLen : Fin B.1
  cacheBufferNum : Nat

variable {B : BufferSize}

theorem BufferSize.pos (B : BufferSize) : 0 < B.1 := lt_of_lt_of_le (by decide) B.2.1

def Buffer.new (data : Nat → UInt8) : Buffer B := ⟨data, ⟨0, B.pos⟩⟩

/-- The loop that `drawingWritingPos` and `drawingReadingPos` share: where `skipLen` bytes from the
start of buffer `i` on lead, in a chain of `n` buffers. -/
def skipBuffers (B : BufferSize) (n i skipLen : Nat) : Option (Nat × Fin B.1) :=
  if h : skipLen < B.1 then some (i, ⟨skipLen, h⟩)
  else if i < n then skipBuffers B n (i + 1) (skipLen - B.1)
  else none
termination_by skipLen
decreasing_by
  have := B.pos
  omega

namespace ElasticBuffer

def new : ElasticBuffer B := ⟨[], 0, 0, ⟨0, B.pos⟩, 0⟩

def resetElasticBuffer (b : ElasticBuffer B) : ElasticBuffer B :=
  { b with
    buffers := b.buffers.map fun u => { u with dataLen := ⟨0, B.pos⟩ }
    writing := 0
    reading := 0 }

/-- `none` also for the product that does not fit an `int`. -/
def getBufferSize (b : ElasticBuffer B) : Option Int :=
  if b.cacheBufferNum > 0 then
    match b.buffers[b.writing]? with
    | none => none
    | some u =>
      if B.1 * (b.cacheBufferNum - 1) < 2 ^ 31 then
        some (toInt (B.1 * (b.cacheBufferNum - 1) + u.dataLen.1))
      else none
  else some 0

/-! ## Writing -/

section Writing

variable (heap : Nat → Nat → UInt8)

/-- The loop of `expandElasticBuffer`, with `curBuffer`. A buffer that is linked behind `curBuffer`
replaces those that were there. -/
def expandLoop (b : ElasticBuffer B) (curBuffer : Nat) (totalLen : Int) :
    Option (ElasticBuffer B) :=
  if h : totalLen > B.1 ∨ b.buffers = [] then
    if hb : b.buffers = [] then
      expandLoop ⟨[.new (heap b.cacheBufferNum)], 0, 0, b.readLen, b.cacheBufferNum + 1⟩ 0
        (totalLen - B.1)
    else if hc : curBuffer < b.buffers.length then
      expandLoop
        { b with
          buffers := b.buffers.take (curBuffer + 1) ++ [.new (heap b.cacheBufferNum)]
          cacheBufferNum := b.cacheBufferNum + 1 }
        (curBuffer + 1) (totalLen - B.1)
    else none
  else some b
termination_by totalLen.toNat + if b.buffers = [] then 1 else 0
decreasing_by
  · simp only [hb, if_true, if_false]
    have := B.pos
    omega
  · have := B.pos
    have hlt : totalLen > B.1 := h.resolve_right hb
    simp [hb]
    omega

/-- The space check compares as `unsigned int`. -/
def expandElasticBuffer (b : ElasticBuffer B) (dataLen : Int) : Option (ElasticBuffer B) :=
  match b.buffers[b.writing]? with
  | some u =>
    if (dataLen % 2 ^ 32).toNat ≤ B.1 - u.dataLen.1 then some b
    else expandLoop heap b b.writing (toInt (u.dataLen.1 + dataLen))
  | none => expandLoop heap b b.writing (toInt dataLen)

/-- The position that `getWritingPos` returns is that of the writing buffer. -/
def getWritingPos (b : ElasticBuffer B) (dataLen : Int) (atomicLen : Bool) :
    Option (ElasticBuffer B) := do
  let b ← b.expandElasticBuffer heap dataLen
  let u ← b.buffers[b.writing]?
  let b :=
    if atomicLen ∧ B.1 < u.dataLen.1 + dataLen then { b with writing := b.writing + 1 } else b
  let _ ← b.buffers[b.writing]?
  return b

def drawingWritingPos (b : ElasticBuffer B) (dataLen : Nat) : Option (ElasticBuffer B) := do
  let u ← b.buffers[b.writing]?
  let (i, skipLen) ← skipBuffers B b.buffers.length b.writing (u.dataLen.1 + dataLen)
  return { b with
    buffers := b.buffers.modify i fun u => { u with dataLen := skipLen }
    writing := i }

/-- `memcpy` to offset `pos` of buffer `i`. -/
def copyTo (b : ElasticBuffer B) (i pos : Nat) (bs : Bytes) : Option (ElasticBuffer B) :=
  if i < b.buffers.length ∧ pos + bs.length ≤ B.1 then
    some { b with
      buffers := b.buffers.modify i fun u => { u with data := write u.data pos bs } }
  else none

/-- The loop of `appendStrValue`. Buffer and offset of `writePos`, and `value.data()`, stay. -/
def appendLoop (value : Bytes) (i pos : Nat) (b : ElasticBuffer B) (dataLen : Nat) :
    Option (ElasticBuffer B) :=
  if _h : dataLen = 0 then some b
  else
    match b.buffers[b.writing]? with
    | none => none
    | some u => do
      let curLen := min dataLen (B.1 - u.dataLen.1)
      let b ← b.copyTo i pos (value.take curLen)
      let b ← b.drawingWritingPos curLen
      appendLoop value i pos b (dataLen - curLen)
termination_by dataLen
decreasing_by
  have := u.dataLen.2
  omega

def appendStrValue (b : ElasticBuffer B) (value : Bytes) : Option (ElasticBuffer B) := do
  let b ← b.getWritingPos heap 4 true
  let u ← b.buffers[b.writing]?
  let dataLen := toInt value.length
  let b ← b.copyTo b.writing u.dataLen.1 (leBytes 4 (dataLen % 2 ^ 32).toNat)
  let b ← b.drawingWritingPos 4
  let b ← b.getWritingPos heap dataLen false
  let u ← b.buffers[b.writing]?
  appendLoop value b.writing u.dataLen.1 b dataLen.toNat

def appendStrs (b : ElasticBuffer B) : List Bytes → Option (ElasticBuffer B)
  | [] => some b
  | s :: ss => do appendStrs (← b.appendStrValue heap s) ss

end Writing

/-! ## Reading -/

def drawingReadingPos (b : ElasticBuffer B) (dataLen : Nat) : Option (ElasticBuffer B) :=
  if b.readLen.1 + dataLen ≥ 2 ^ 31 then none
  else if h : b.readLen.1 + dataLen < B.1 then
    if b.reading < b.buffers.length then some { b with readLen := ⟨_, h⟩ } else none
  else do
    let (i, readLen) ← skipBuffers B b.buffers.length b.reading (b.readLen.1 + dataLen)
    return { b with reading := i, readLen := readLen }

/-- The loop of `assignStrValue`: the bytes from `readPos` in buffer `curBuffer` on. -/
def assignLoop (b : ElasticBuffer B) (curBuffer readLen skipLen : Nat) : Option Bytes :=
  match b.buffers[curBuffer]? with
  | none => none
  | some u =>
    if B.1 < skipLen then do
      let rest ← assignLoop b (curBuffer + 1) 0 (skipLen - B.1)
      return slice u.data readLen (B.1 - readLen) ++ rest
    else some (slice u.data 0 skipLen)
termination_by skipLen
decreasing_by
  have := B.pos
  omega

def assignStrValue (b : ElasticBuffer B) (dataLen : Nat) : Option Bytes :=
  let skipLen := b.readLen.1 + dataLen
  if skipLen ≥ 2 ^ 31 then none
  else
    match b.buffers[b.reading]? with
    | none => none
    | some u =>
      if skipLen ≤ B.1 then some (slice u.data b.readLen.1 dataLen)
      else b.assignLoop b.reading b.readLen.1 skipLen

/-- `getStrValue` from the length word on. -/
def readStrValue (b : ElasticBuffer B) : Option (Bytes × ElasticBuffer B) :=
  match b.buffers[b.reading]? with
  | none => none
  | some u =>
    let dataLen := toInt (ofLeBytes (slice u.data b.readLen.1 4))
    if dataLen < 0 then none
    else do
      let b ← b.drawingReadingPos 4
      let value ← bif dataLen = 0 then some [] else b.assignStrValue dataLen.toNat
      let b ← b.drawingReadingPos dataLen.toNat
      return (value, b)

/-- The result is the value with return code 0, or `none` with return code 1. A length word that
does not fit into the buffer any more is in the next one. -/
def getStrValue (b : ElasticBuffer B) : Option (Option Bytes × ElasticBuffer B) :=
  match b.buffers[b.reading]? with
  | none => none
  | some u =>
    if b.buffers.length ≤ b.reading + 1 ∧ b.readLen = u.dataLen then some (none, b)
    else do
      let b ← bif B.1 < b.readLen.1 + 4 then b.drawingReadingPos (B.1 - b.readLen.1) else some b
      let (value, b) ← b.readStrValue
      return (some value, b)

def getStrs (b : ElasticBuffer B) : Nat → Option (ElasticBuffer B)
  | 0 => some b
  | n + 1 => do getStrs (← b.getStrValue).2 n

/-- The bytes that `sendReplicationData` sends. -/
def sent (b : ElasticBuffer B) : Bytes := b.buffers.flatMap fun u => slice u.data 0 u.dataLen.1

section Transfer

variable (heap : Nat → Nat → UInt8)

/-- The loop of `recieveReplicationData` over what the peer sent; `none` also when the peer sent too
little. -/
def recieveLoop (b : ElasticBuffer B) (stream : Bytes) (dataLen : Nat) :
    Option (ElasticBuffer B × Bytes) :=
  if _h : dataLen = 0 then some (b, stream)
  else do
    let singleReadLen := min dataLen B.1
    let b ← b.getWritingPos heap singleReadLen false
    let u ← b.buffers[b.writing]?
    if stream.length < singleReadLen then none
    let b ← b.copyTo b.writing u.dataLen.1 (stream.take singleReadLen)
    let b ← b.drawingWritingPos singleReadLen
    recieveLoop b (stream.drop singleReadLen) (dataLen - singleReadLen)
termination_by dataLen
decreasing_by
  have := B.pos
  omega

/-- `recieveReplicationData` after the header, with what is left of the stream. -/
def recieveReplicationData (b : ElasticBuffer B) (stream : Bytes) (dataLen : Int) :
    Option (ElasticBuffer B × Bytes) :=
  b.resetElasticBuffer.recieveLoop heap stream dataLen.toNat

end Transfer

/-- What a replication channel does with its buffer: fill it with a header and strings, or fill it
from the peer and read some strings. -/
inductive Use where
  | fill (header : Bytes) (strs : List Bytes)
  | recieve (stream : Bytes) (dataLen : Int) (reads : Nat)

section Channel

variable (heap : Nat → Nat → UInt8)

def use (b : ElasticBuffer B) : Use → Option (ElasticBuffer B)
  | .fill header strs => do
    let b ← b.resetElasticBuffer.getWritingPos heap header.length true
    let u ← b.buffers[b.writing]?
    let b ← b.copyTo b.writing u.dataLen.1 header
    let b ← b.drawingWritingPos header.length
    b.appendStrs heap strs
  | .recieve stream dataLen reads => do
    (← b.recieveReplicationData heap stream dataLen).1.getStrs reads

/-- The buffer after some uses, none of which stopped the process. -/
def Reached (b : ElasticBuffer B) : Prop := ∃ uses : List Use, uses.foldlM (use heap) new = some b

/-- Repeated `getStrValue` returns the strings, and then 1. -/
def yields (b : ElasticBuffer B) : List Bytes → Bool
  | [] =>
    match b.getStrValue with
    | some (none, _) => true
    | _ => false
  | s :: ss =>
    match b.getStrValue with
    | some (some value, b') => value == s && b'.yields ss
    | _ => false

/-- The sender packs the strings, the receiver takes what was sent for a packet of the announced
length, and reads them. -/
def carries (heap' : Nat → Nat → UInt8) (sender receiver : ElasticBuffer B) (ss : List Bytes) :
    Bool :=
  match sender.resetElasticBuffer.appendStrs heap ss with
  | none => false
  | some b =>
    match b.getBufferSize with
    | none => false
    | some rawPacketLen =>
      match receiver.recieveReplicationData heap' b.sent rawPacketLen with
      | some (b', []) => b'.yields ss
      | _ => false

end Channel

end ElasticBuffer

/-- The number of bytes of a packet of strings, and the bytes. -/
def packetLen (ss : List Bytes) : Nat := (ss.map fun s => 4 + s.length).sum
def packetBytes (ss : List Bytes) : Bytes := ss.flatMap fun s => leBytes 4 s.length ++ s

end ISearch.Replication
