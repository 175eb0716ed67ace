import ISearch.RocksProcess.Requests

/-!
# Updates and conditions on cached rows (`field.cc`)

`DTCFieldValue::Update` and `DTCFieldValue::Compare`, which the cache uses where the storage helper
uses `update_row` and `condition_filter`. A `DTCValue` is a union: an integer is read as `s64` or
`u64` whatever it was written as, and `str` and `bin` are the same bytes. Signed addition wraps.

Field type `Float` is left out as in the storage helper.
-/

namespace ISearch.FieldValue

open KeyFormat RocksProcess

/-- `DField::Set` to `DField::OR`. -/
inductive Oper where
  | set
  | add
  | setBits
  | or
  deriving DecidableEq, Repr

/-- `validxtype`: the value types that `decode_field_value` accepts for a field. Conditions use the
row of `Set`. -/
def validxtype : Oper → FieldType → FieldType → Bool
  | .set, .signed, .signed | .set, .signed, .unsigned => true
  | .set, .unsigned, .signed | .set, .unsigned, .unsigned => true
  | .set, .string, .string => true
  | .set, .binary, .string | .set, .binary, .binary => true
  | .add, .signed, .signed | .add, .signed, .unsigned => true
  | .add, .unsigned, .signed | .add, .unsigned, .unsigned => true
  | .setBits, _, .signed | .setBits, _, .unsigned => true
  | .or, .signed, .signed | .or, .signed, .unsigned => true
  | .or, .unsigned, .signed | .or, .unsigned, .unsigned => true
  | _, _, _ => false

/-- The value of a union, read in the type of the field. -/
def readAs : (ft vt : FieldType) → validxtype .set ft vt = true → vt.Value → ft.Value
  | .signed, .signed, _, v => v
  | .signed, .unsigned, _, v => (show UInt64 from v).toInt64
  | .unsigned, .signed, _, v => (show Int64 from v).toUInt64
  | .unsigned, .unsigned, _, v => v
  | .string, .string, _, v => v
  | .binary, .string, _, v => v
  | .binary, .binary, _, v => v

/-! ## Update -/

/-- The cases of `TruncateIntValue`. -/
def truncateBounds : FieldType → Nat → Option (Int64 × Int64)
  | .signed, 1 => some (-0x80, 0x7F)
  | .unsigned, 1 => some (0, 0xFF)
  | .signed, 2 => some (-0x8000, 0x7FFF)
  | .unsigned, 2 => some (0, 0xFFFF)
  | .signed, 3 => some (-0x800000, 0x7FFFFF)
  | .unsigned, 3 => some (0, 0xFFFFFF)
  | .signed, 4 => some (-0x80000000, 0x7FFFFFFF)
  | .unsigned, 4 => some (0, 0xFFFFFFFF)
  | .signed, 5 => some (-0x8000000000, 0x7FFFFFFFFF)
  | .unsigned, 5 => some (0, 0xFFFFFFFFFF)
  | .signed, 6 => some (-0x800000000000, 0x7FFFFFFFFFFF)
  | .unsigned, 6 => some (0, 0xFFFFFFFFFFFF)
  | .signed, 7 => some (-0x80000000000000, 0x7FFFFFFFFFFFFF)
  | .unsigned, 7 => some (0, 0xFFFFFFFFFFFFFF)
  | _, _ => none

def truncateIntValue (v1 : Int64) (type : FieldType) (size : Nat) : Int64 :=
  match truncateBounds type size with
  | none => v1
  | some (lo, hi) => if v1 < lo then lo else if hi < v1 then hi else v1

/-- The addition of `Update`, with its tests for overflow. -/
def addS64 (v1 v2 : Int64) : Int64 :=
  if 0 < v1 then if 0 < v2 ∧ v1 + v2 < 0 then 0x7FFFFFFFFFFFFFFF else v1 + v2
  else if v2 < 0 ∧ 0 < v1 + v2 then -0x8000000000000000 else v1 + v2

/-- `SetBits` on an integer: offset and size are the upper half of the operand. -/
def setBitsInt (v1 v2 : UInt64) : UInt64 :=
  let hi := (v2 >>> 32).toUInt32
  let size := (hi >>> 24).toNat
  let off := (hi &&& 0xFFFFFF).toNat
  let value := v2 &&& 0xFFFFFFFF
  if off ≥ 64 ∨ size = 0 then v1
  else
    let size := min (min size 32) (64 - off)
    let mask := UInt64.ofNat ((2 ^ size - 1) * 2 ^ off)
    (v1 &&& ~~~mask) ||| (UInt64.ofNat (value.toNat * 2 ^ off) &&& mask)

/-- `SET_B` and `CLR_B`. -/
def putBit (bytes : Bytes) (bit : Nat) (b : Bool) : Bytes :=
  bytes.modify (bit / 8) fun byte =>
    if b then byte ||| UInt8.ofNat (2 ^ (bit % 8)) else byte &&& ~~~UInt8.ofNat (2 ^ (bit % 8))

/-- The loop of `SetBits` over the bits from `off` on. -/
def putBits (bytes : Bytes) (off : Nat) : Nat → Nat → Bytes
  | 0, _ => bytes
  | n + 1, value => putBits (putBit bytes off (value % 2 = 1)) (off + 1) n (value / 2)

/-- `SetBits` on a string. Here the size is a signed `char`, and nothing is done if it is
negative. -/
def setBitsStr (v1 : Bytes) (v2 : UInt64) : Bytes :=
  let hi := (v2 >>> 32).toUInt32
  let size := (hi >>> 24).toUInt8.toInt8.toInt
  let off := (hi &&& 0xFFFFFF).toNat
  let value := (v2 &&& 0xFFFFFFFF).toNat
  if off ≥ 8 * v1.length ∨ size = 0 then v1
  else putBits v1 off (min (min size 32) (8 * v1.length - off)).toNat value

/-- The switch of `Update` for one field. The cases that are not listed change nothing. -/
def updateValue (size : Nat) :
    (ft : FieldType) → ft.Value → Oper → (vt : FieldType) → vt.Value → ft.Value
  | .signed, _, .set, .signed, v2 => truncateIntValue v2 .signed size
  | .unsigned, _, .set, .signed, v2 =>
    (truncateIntValue (show Int64 from v2) .unsigned size).toUInt64
  | .unsigned, _, .set, .unsigned, v2 =>
    (truncateIntValue (show UInt64 from v2).toInt64 .unsigned size).toUInt64
  | .signed, v1, .add, .signed, v2 => truncateIntValue (addS64 v1 v2) .signed size
  | .unsigned, v1, .add, .signed, v2 =>
    (truncateIntValue (addS64 (show UInt64 from v1).toInt64 v2) .unsigned size).toUInt64
  | .signed, v1, .or, .signed, v2 =>
    truncateIntValue ((show Int64 from v1) ||| (show Int64 from v2)) .signed size
  | .unsigned, v1, .or, .signed, v2 =>
    (truncateIntValue ((show UInt64 from v1).toInt64 ||| (show Int64 from v2)) .unsigned
      size).toUInt64
  | .string, _, .set, .string, v2 => (show Bytes from v2).take size
  | .binary, _, .set, .string, v2 => (show Bytes from v2).take size
  | .binary, _, .set, .binary, v2 => (show Bytes from v2).take size
  | .signed, v1, .setBits, .signed, v2 =>
    (setBitsInt (show Int64 from v1).toUInt64 (show Int64 from v2).toUInt64).toInt64
  | .signed, v1, .setBits, .unsigned, v2 => (setBitsInt (show Int64 from v1).toUInt64 v2).toInt64
  | .unsigned, v1, .setBits, .signed, v2 => setBitsInt v1 (show Int64 from v2).toUInt64
  | .unsigned, v1, .setBits, .unsigned, v2 => setBitsInt v1 v2
  | .binary, v1, .setBits, .signed, v2 => setBitsStr v1 (show Int64 from v2).toUInt64
  | .binary, v1, .setBits, .unsigned, v2 => setBitsStr v1 v2
  | .string, v1, .setBits, .signed, v2 => setBitsStr v1 (show Int64 from v2).toUInt64
  | .string, v1, .setBits, .unsigned, v2 => setBitsStr v1 v2
  | _, v1, _, _, _ => v1

/-- The length of a `DTCBinary` is an `int`. -/
def IntLen : (vt : FieldType) → vt.Value → Prop
  | .signed, _ | .unsigned, _ => True
  | .string, v | .binary, v => (show Bytes from v).length < 2 ^ 31

/-- An entry of the update list. -/
structure FieldOper (t : Table) where
  id : t.FieldId
  oper : Oper
  type : FieldType
  val : type.Value
  valid : validxtype oper (t.type id) type = true
  intLen : IntLen type val

def update {t : Table} (fieldValue : List (FieldOper t)) (row : Row t) : Row t :=
  fieldValue.foldl
    (fun row op => row.set op.id
      (updateValue (t.field op.id).size (t.type op.id) (row op.id) op.oper op.type op.val)) row

/-- `mystrcmp`, which stops behind a zero byte. -/
def mystrcmp : Bytes → Bytes → Nat → Int
  | x :: s1, y :: s2, l + 1 =>
    let result : Int := (lowerChar x).toNat - (lowerChar y).toNat
    if result ≠ 0 then result else if x = 0 then 0 else mystrcmp s1 s2 l
  | _, _, _ => 0

def stringEqual (a b : Bytes) : Bool := a.length == b.length && mystrcmp a b a.length == 0

def binaryEqual (a b : Bytes) : Bool := a.length == b.length && a == b

/-- The switch of `Compare` for one field. The cases that are not listed refuse the row. -/
def compareValue : (ft : FieldType) → ft.Value → Comparator → (vt : FieldType) → vt.Value → Bool
  | .signed, v1, oper, .signed, v2 =>
    isMatched (show Int64 from v1) oper (show Int64 from v2)
  | .unsigned, v1, oper, .signed, v2 =>
    isMatched (show UInt64 from v1).toInt64 oper (show Int64 from v2)
  | .string, v1, .eq, .string, v2 => stringEqual v1 v2
  | .string, v1, .ne, .string, v2 => !stringEqual v1 v2
  | .binary, v1, .eq, .binary, v2 | .string, v1, .eq, .binary, v2
  | .binary, v1, .eq, .string, v2 => binaryEqual v1 v2
  | .binary, v1, .ne, .binary, v2 | .string, v1, .ne, .binary, v2
  | .binary, v1, .ne, .string, v2 => !binaryEqual v1 v2
  | _, _, _, _, _ => false

/-- An entry of the condition list. -/
structure FieldCond (t : Table) where
  id : t.FieldId
  oper : Comparator
  type : FieldType
  val : type.Value
  valid : validxtype .set (t.type id) type = true

/-- `Compare` skips the primary key. A field id is one byte, so the bound `256` skips none. -/
def compareRow {t : Table} (fieldValue : List (FieldCond t)) (row : Row t) : Bool :=
  fieldValue.all fun c =>
    c.id = 0 || compareValue (t.type c.id) (row c.id) c.oper c.type c.val

end ISearch.FieldValue
