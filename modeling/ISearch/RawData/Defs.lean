import ISearch.Lib.Bytes

/-!
# Rows in a node (`raw_data.cc`, `tree_data.cc`)

A node keeps its rows as bytes: a flag, then the fields that are not discarded. `decode_row` and
`decode_tree_row` read a row whole. `get_expire_time` and `get_lastcmod` step over the other fields
on their own. A position stays below `2 ^ 32`; a length is added to it in 32 bits.
-/

namespace ISearch.RawData

abbrev Bytes := List UInt8

inductive DField where
  | signed
  | unsigned
  | float
  | string
  | binary
  deriving DecidableEq, Repr

structure FieldDef where
  type : DField
  size : Int
  discard : Bool
  deriving Repr

namespace FieldDef

def IsInteger (f : FieldDef) : Prop := f.type = .unsigned ∨ f.type = .signed

/-- An unsigned field of four bytes. -/
def IsU32 (f : FieldDef) : Prop := f.type = .unsigned ∧ f.size ≤ 4

end FieldDef

/-- A table definition, with what the configuration makes sure of. Field 0 is the first key field.
`expireId` and `lcmodId` are `m_iExpireId` and `m_iLCmodId`. -/
structure TableDef where
  fields : List FieldDef
  keyFields : Nat
  expireId : Option Nat
  lcmodId : Option Nat
  key_pos : 0 < keyFields
  fields_le : fields.length ≤ 240
  key_kept : ∀ j f, j < keyFields → fields[j]? = some f → f.discard = false
  expire_lt : ∀ j, expireId = some j → j < fields.length
  expire_integer : ∀ j f, expireId = some j → fields[j]? = some f → f.IsInteger
  lcmod_integer : ∀ j f, lcmodId = some j → fields[j]? = some f → f.IsInteger

/-- A field of a row. A `Float` is left as its bits. -/
inductive DTCValue where
  | s64 (v : Int64)
  | u64 (v : UInt64)
  | flt (bits : Nat)
  | bin (v : Bytes)
  deriving DecidableEq, Repr

/-- The integer that a `Signed` or an `Unsigned` value holds. -/
def DTCValue.toInt? : DTCValue → Option Int
  | .s64 v => some v.toInt
  | .u64 v => some v.toNat
  | _ => none

/-- `*(t *)(m_pchContent + offset)` for a type of `n` bytes; `none` reads behind the chunk. -/
def valueAt (n : Nat) (content : Bytes) (offset : Nat) : Option Nat :=
  if offset + n ≤ content.length then some (ofLeBytes ((content.drop offset).take n)) else none

def getValue (n : Nat) (content : Bytes) (offset : Nat) : Option (Nat × Nat) :=
  (valueAt n content offset).map fun v => (v, offset + n)

/-- `SKIP_SIZE` with the size of a type. -/
def skipSize (n : Nat) (content : Bytes) (offset : Nat) : Option Nat :=
  if offset + n ≤ content.length then some (offset + n) else none

/-- `SKIP_SIZE` with a length. -/
def skipLen (len : Nat) (content : Bytes) (offset : Nat) : Option Nat :=
  if (offset + len) % 2 ^ 32 ≤ content.length then some ((offset + len) % 2 ^ 32) else none

def dataTypeTreeNode : Nat := 2

/-- One case of the `switch` in `decode_row` and `decode_tree_row`. -/
def decodeField (f : FieldDef) (content : Bytes) (offset : Nat) : Option (DTCValue × Nat) :=
  match f.type with
  | .signed =>
    if f.size > 4 then
      (getValue 8 content offset).map fun r => (.s64 (UInt64.ofNat r.1).toInt64, r.2)
    else (getValue 4 content offset).map fun r => (.s64 (UInt32.ofNat r.1).toInt32.toInt64, r.2)
  | .unsigned =>
    if f.size > 4 then (getValue 8 content offset).map fun r => (.u64 (UInt64.ofNat r.1), r.2)
    else (getValue 4 content offset).map fun r => (.u64 (UInt64.ofNat r.1), r.2)
  | .float =>
    if f.size > 4 then (getValue 8 content offset).map fun r => (.flt r.1, r.2)
    else (getValue 4 content offset).map fun r => (.flt r.1, r.2)
  | .string | .binary => do
    let (len, offset) ← getValue 4 content offset
    let next ← skipLen len content offset
    return (.bin ((content.drop offset).take len), next)

/-- The loop over the fields from field `j` on: the values by field, and where the row ends. -/
def decodeFields (content : Bytes) :
    List FieldDef → Nat → Nat → Option (List (Nat × DTCValue) × Nat)
  | [], _, offset => some ([], offset)
  | f :: fs, j, offset =>
    if f.discard then decodeFields content fs (j + 1) offset
    else do
      let (v, offset) ← decodeField f content offset
      let (vs, offset) ← decodeFields content fs (j + 1) offset
      return ((j, v) :: vs, offset)

/-- `RawData::decode_row`: the fields behind the key; `none` for the return code -100. -/
def decodeRow (t : TableDef) (content : Bytes) (offset : Nat) :
    Option (List (Nat × DTCValue) × Nat) := do
  let (_, offset) ← getValue 1 content offset
  decodeFields content (t.fields.drop t.keyFields) t.keyFields offset

/-- `TreeData::decode_tree_row`: all fields but the first. -/
def decodeTreeRow (t : TableDef) (content : Bytes) (offset : Nat) :
    Option (List (Nat × DTCValue) × Nat) := do
  let (_, offset) ← getValue 1 content offset
  decodeFields content (t.fields.drop 1) 1 offset

/-- `n` rows in succession. -/
def decodeRows (decode : Nat → Option (List (Nat × DTCValue) × Nat)) :
    Nat → Nat → Option (List (List (Nat × DTCValue)) × Nat)
  | 0, offset => some ([], offset)
  | n + 1, offset => do
    let (row, offset) ← decode offset
    let (rows, offset) ← decodeRows decode n offset
    return (row :: rows, offset)

/-- One case of the `switch` in `get_expire_time` and `get_lastcmod`. -/
def skipField (f : FieldDef) (content : Bytes) (offset : Nat) : Option Nat :=
  match f.type with
  | .unsigned | .signed =>
    if f.size > 4 then skipSize 8 content offset else skipSize 4 content offset
  | .float => if f.size > 4 then skipSize 8 content offset else skipSize 4 content offset
  | .string | .binary => do
    let (len, offset) ← getValue 4 content offset
    skipLen len content offset

/-- The loop of both functions `get_expire_time`: the return code and `expire`. The result is `none`
where the loop reads the time behind the chunk. -/
def expireLoop (content : Bytes) (id : Nat) : List FieldDef → Nat → Nat → Option (Int × Nat)
  | [], _, _ => some (0, 0)
  | f :: fs, j, offset =>
    if j = id then (valueAt 4 content offset).map fun expire => (0, expire)
    else
      match skipField f content offset with
      | none => some (-100, 0)
      | some offset => expireLoop content id fs (j + 1) offset

/-- `get_expire_time` from a position on. -/
def getExpireTimeFrom (t : TableDef) (content : Bytes) (offset : Nat) : Option (Int × Nat) :=
  match t.expireId with
  | none => some (0, 0)
  | some id =>
    match skipSize 1 content offset with
    | none => some (-100, 0)
    | some offset => expireLoop content id (t.fields.drop t.keyFields) t.keyFields offset

/-- `RawData::get_expire_time`, which starts where the rows start. -/
def getExpireTime (t : TableDef) (content : Bytes) (uiDataStart : Nat) : Option (Int × Nat) :=
  getExpireTimeFrom t content uiDataStart

/-- `TreeData::get_expire_time`, on the record of `first_node`. -/
def getTreeExpireTime (t : TableDef) (content : Bytes) : Option (Int × Nat) :=
  getExpireTimeFrom t content 0

/-- The loop of `get_lastcmod`: the return code, `lastcmod` and the position behind the row. -/
def lastcmodLoop (content : Bytes) (id : Option Nat) :
    List FieldDef → Nat → Nat → Nat → Option (Int × Nat × Nat)
  | [], _, offset, lastcmod => some (0, lastcmod, offset)
  | f :: fs, j, offset, lastcmod =>
    if f.discard then lastcmodLoop content id fs (j + 1) offset lastcmod
    else do
      let lastcmod ← if id = some j then valueAt 4 content offset else some lastcmod
      match skipField f content offset with
      | none => return (-100, lastcmod, offset)
      | some offset => lastcmodLoop content id fs (j + 1) offset lastcmod

/-- `RawData::get_lastcmod`. -/
def getLastcmod (t : TableDef) (content : Bytes) (offset : Nat) : Option (Int × Nat × Nat) :=
  match skipSize 1 content offset with
  | none => some (-100, 0, offset)
  | some offset => lastcmodLoop content t.lcmodId (t.fields.drop t.keyFields) t.keyFields offset 0

/-- `n` calls of `get_lastcmod`, each with return code 0. -/
def getLastcmods (t : TableDef) (content : Bytes) : Nat → Nat → Option (List Nat × Nat)
  | 0, offset => some ([], offset)
  | n + 1, offset =>
    match getLastcmod t content offset with
    | some (0, lastcmod, offset) => do
      let (times, offset) ← getLastcmods t content n offset
      return (lastcmod :: times, offset)
    | _ => none

end ISearch.RawData
