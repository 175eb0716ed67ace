import ISearch.Protocol.Sections

/-!
# Field lists, result sets and the packet header (`task_base.cc`, `packet_result.cc`)

An entry of an update or condition list is the byte of its operation and type, its field and its
value. A result set has a number of rows and a field set, and the values of the rows one behind the
other, which are decoded row by row.
-/

namespace ISearch.Protocol

open KeyFormat (Bytes)

variable {F : Type} (lib : FloatFormat F)

/-! ## Field lists -/

def DField.code : DField → Nat
  | .none => 0
  | .signed => 1
  | .unsigned => 2
  | .float => 3
  | .string => 4
  | .binary => 5

/-- The type with a code below `TotalType`. -/
def DField.ofCode : Nat → Option DField
  | 0 => some .none
  | 1 => some .signed
  | 2 => some .unsigned
  | 3 => some .float
  | 4 => some .string
  | 5 => some .binary
  | _ => none

/-- `validxtype`, for the operations `Set`, `Add`, `SetBits` and `OR`. -/
def validxtype : Nat → DField → DField → Bool
  | 0, .signed, .signed | 0, .signed, .unsigned => true
  | 0, .unsigned, .signed | 0, .unsigned, .unsigned => true
  | 0, .float, .signed | 0, .float, .unsigned | 0, .float, .float => true
  | 0, .string, .string => true
  | 0, .binary, .string | 0, .binary, .binary => true
  | 1, .signed, .signed | 1, .signed, .unsigned => true
  | 1, .unsigned, .signed | 1, .unsigned, .unsigned => true
  | 1, .float, .signed | 1, .float, .unsigned | 1, .float, .float => true
  | 2, .signed, .signed | 2, .signed, .unsigned => true
  | 2, .unsigned, .signed | 2, .unsigned, .unsigned => true
  | 2, .string, .signed | 2, .string, .unsigned => true
  | 2, .binary, .signed | 2, .binary, .unsigned => true
  | 3, .signed, .signed | 3, .signed, .unsigned => true
  | 3, .unsigned, .signed | 3, .unsigned, .unsigned => true
  | _, _, _ => false

/-- `validcomps`: `EQ` and `NE` for strings, all six comparisons for integers. -/
def validcomps : DField → Nat → Bool
  | .signed, op | .unsigned, op => op < 6
  | .string, op | .binary, op => op < 2
  | _, _ => false

/-- An entry of a `DTCFieldValue`. -/
structure FieldEntry (F : Type) where
  id : Nat
  oper : Nat
  type : DField
  val : type.Value F

def FieldEntry.encode (e : FieldEntry F) : Bytes :=
  UInt8.ofNat (e.oper * 16 + e.type.code) :: UInt8.ofNat e.id ::
    ((if e.id = 0 then [0] else []) ++ encodeDataValue lib e.type e.val)

def FieldEntry.encodedBytes (e : FieldEntry F) : Nat :=
  (if e.id = 0 then 1 else 0) + (2 + encodedBytesDataValue lib e.type e.val)

def encodeFieldValue (fv : List (FieldEntry F)) : Bytes :=
  if fv.length = 0 then [] else UInt8.ofNat fv.length :: fv.flatMap (FieldEntry.encode lib)

def encodedBytesFieldValue (fv : List (FieldEntry F)) : Nat :=
  if fv.length = 0 then 0 else 1 + (fv.map (FieldEntry.encodedBytes lib)).sum

/-- The `mode` of `decode_field_value`. -/
inductive Mode where
  | condition
  | insert
  | update
  deriving DecidableEq, Repr

/-- What `decode_field_value` requires of an entry. -/
def checkEntry (tdef : TableDefinition) (mode : Mode) (id op : Nat) (vt : DField) : Decode Unit :=
  let ft := tdef.fieldType id
  match mode with
  | .condition =>
    if op ≥ 6 ∨ validcomps ft op = false then throw (.err .badOperator)
    else if id < tdef.keyFields ∧ op ≠ 0 then throw (.err .badMultikey)
    else if validxtype 0 ft vt = false then throw (.err .badOperator)
    else return ()
  | .insert =>
    if op ≠ 0 then throw (.err .badOperator)
    else if validxtype op ft vt = false then throw (.err .badOperator)
    else return ()
  | .update =>
    if tdef.isReadOnly id then throw (.err .readonlyField)
    else if op ≥ 4 ∨ validxtype op ft vt = false then throw (.err .badOperator)
    else return ()

/-- The fields that are decoded so far, `typeMask`, whether all rows are meant and whether the table
definition is asked for. -/
structure FieldList (F : Type) where
  entries : List (FieldEntry F)
  typeMask : UInt32 × UInt32
  allRows : Bool
  needDefinition : Bool

def FieldList.empty : FieldList F := ⟨[], (0, 0), true, false⟩

/-- The entry is added, with what follows from its field. -/
def FieldList.add (fv : FieldList F) (tdef : TableDefinition) (mode : Mode) (e : FieldEntry F)
    (nd : Bool) : FieldList F where
  entries := fv.entries ++ [e]
  typeMask := if e.id < tdef.keyFields then fv.typeMask
    else (fv.typeMask.1 ||| tdef.fieldFlags e.id, fv.typeMask.2 ||| ~~~ tdef.fieldFlags e.id)
  allRows := fv.allRows && !(mode = .condition && tdef.keyFields ≤ e.id : Bool)
  needDefinition := fv.needDefinition || nd

/-- One entry of the loop of `decode_field_value`. -/
def decodeEntry (tdef : TableDefinition) (mode : Mode) (old : (type : DField) → type.Value F)
    (bin : DTCBinary) : Decode (FieldEntry F × Bool × DTCBinary) := do
  if bin.len = 0 then throw (.err .badSectionLength)
  let (op, bin) ← bin.next
  let (id, nd, bin) ← decodeFieldId tdef bin
  if id > tdef.numFields then throw (.err .badInvalidField)
  match DField.ofCode (op.toNat % 16) with
  | none => throw (.err .badValueType)
  | some vt =>
    checkEntry tdef mode id (op.toNat / 16) vt
    let (val, bin) ← decodeDataValue lib bin vt (old vt)
    return (⟨id, op.toNat / 16, vt, val⟩, nd, bin)

/-- The loop of `decode_field_value`. A key field must not come twice. -/
def decodeEntries (tdef : TableDefinition) (mode : Mode) (old : (type : DField) → type.Value F) :
    Nat → DTCBinary → FieldList F → Decode (FieldList F × DTCBinary)
  | 0, bin, fv => return (fv, bin)
  | n + 1, bin, fv => do
    let (e, nd, bin) ← decodeEntry lib tdef mode old bin
    if e.id < tdef.keyFields ∧ e.id ∈ fv.entries.map (·.id) then throw (.err .badMultikey)
    decodeEntries tdef mode old n bin (fv.add tdef mode e nd)

/-- `decode_field_value`, into a list that is new or cleared. It holds as many fields as the section
says; `old` is what the memory of their values has before. -/
def decodeFieldValue (tdef : TableDefinition) (mode : Mode) (old : (type : DField) → type.Value F)
    (bin : DTCBinary) : Decode (FieldList F) := do
  if bin.len = 0 then throw (.err .badSectionLength)
  let (num, bin) ← bin.next
  if num = 0 then return .empty
  let (fv, bin) ← decodeEntries lib tdef mode old num.toNat bin .empty
  if bin.len ≠ 0 then throw (.err .extraSectionData)
  return fv

/-- The test of the ids in `decode_result_set`. -/
def checkIds : List UInt8 → List UInt8 → Decode Unit
  | [], _ => return ()
  | t :: ts, mask =>
    if t = 255 then throw (.err .badFieldId)
    else if t ∈ mask then throw (.err .duplicateField)
    else checkIds ts (t :: mask)

/-- The field set, the number of rows and the values. -/
structure ResultSet where
  fieldSet : DTCFieldSet
  numRows : Nat
  rowno : Nat
  init : DTCBinary
  curr : DTCBinary

def decodeResultSet (tdef : TableDefinition) (result : Option DTCFieldSet) (bin : DTCBinary) :
    Decode ResultSet := do
  let (nrows, bin) ← decodeLength bin
  if bin.len = 0 then throw (.err .badSectionLength)
  let (num, bin) ← bin.next
  if bin.len < num.toNat then throw (.err .badSectionLength)
  let ids ← bin.read num.toNat
  checkIds ids []
  let fieldSet ← DTCFieldSet.put result tdef.numFields (ids.map (·.toNat))
  let values := bin.advance num.toNat
  return ⟨fieldSet, nrows, 0, values, values⟩

section Row

variable (fieldType : Nat → DField)

/-- What `append_row` writes. -/
def encodeRow (ids : List Nat) (row : (i : Nat) → (fieldType i).Value F) : Bytes :=
  ids.flatMap fun i => encodeDataValue lib (fieldType i) (row i)

/-- The bytes that `append_row` makes room for. -/
def encodedBytesRow (ids : List Nat) (row : (i : Nat) → (fieldType i).Value F) : Nat :=
  (ids.map fun i => encodedBytesDataValue lib (fieldType i) (row i)).sum

/-- The loop of `decode_row`. -/
def decodeFields : List Nat → DTCBinary → ((i : Nat) → (fieldType i).Value F) →
    Decode (((i : Nat) → (fieldType i).Value F) × DTCBinary)
  | [], curr, row => return (row, curr)
  | i :: ids, curr, row => do
    let (val, curr) ← decodeDataValue lib curr (fieldType i) (row i)
    decodeFields ids curr (Function.update row i val)

def ResultSet.decodeRow (result : ResultSet) (row : (i : Nat) → (fieldType i).Value F) :
    Decode (((i : Nat) → (fieldType i).Value F) × ResultSet) := do
  if result.rowno = result.numRows then throw (.err .noMoreData)
  let (row, curr) ← decodeFields lib fieldType result.fieldSet.ids result.curr row
  return (row, { result with curr := curr, rowno := result.rowno + 1 })

end Row

structure PacketHeader where
  version : UInt8
  scts : UInt8
  flags : UInt8
  cmd : UInt8
  len : Fin 8 → UInt32

inductive TaskType where
  | admin
  | read
  | write
  | helperReloadConfig
  deriving DecidableEq, Repr

/-- `DTCTask::cmd2type`. -/
def cmd2type : List TaskType :=
  [.admin, .admin, .admin, .admin, .read, .admin, .write, .write, .write, .admin, .admin, .admin,
    .write, .write, .write, .admin, .helperReloadConfig]

/-- The stages that `decode_header` sets. -/
inductive Stage where
  | fatalError
  | waitData
  deriving DecidableEq, Repr

/-- What `decode_header` sets in a task. -/
structure HeaderState where
  stage : Stage
  reply : Option (UInt8 × UInt8)
  request : Option (UInt8 × UInt8 × TaskType)
  result : Int

/-- `decode_header`, on a little-endian host. -/
def decodeHeader (header : PacketHeader) : Decode HeaderState :=
  let n := ((List.finRange 8).map fun i => (header.len i).toNat).sum
  if header.version ≠ 1 then return ⟨.fatalError, none, none, -1⟩
  else if header.scts ≠ 8 then return ⟨.fatalError, none, none, -2⟩
  else if n > maxPacketSize then return ⟨.fatalError, none, none, -4⟩
  else if header.cmd = 1 ∨ header.cmd = 2 then
    return ⟨.waitData, some (header.cmd, header.flags), none, n⟩
  else
    match cmd2type[header.cmd.toNat]? with
    | none => throw .outside
    | some type => return ⟨.waitData, none, some (header.cmd, header.flags, type), n⟩

end ISearch.Protocol
