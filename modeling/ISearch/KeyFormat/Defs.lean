import ISearch.Lib.Bytes

/-!
# The key codec of the storage helper (`key_format.cc`)

`Encode` and `Decode` for a list of field types. A `std::string` is its list of bytes. Field
values are passed as strings; integers are written in decimal, so `strtoll`, `strtoull` and
`to_string` are part of the codec. The host is little-endian.

`none` stands for an access the C++ code must not make: an index past the terminating zero of a
string, a missing field value, or a `substr` past the end.

Field type `Float` is left out: its decimal form is not determined by the code.
-/

namespace ISearch.KeyFormat

abbrev Bytes := List UInt8

inductive FieldType where
  | signed
  | unsigned
  | string
  | binary
  deriving DecidableEq, Repr

def isSpace (c : UInt8) : Bool := c == 32 || (9 ≤ c && c ≤ 13)

def isDigit (c : UInt8) : Bool := 48 ≤ c && c ≤ 57

/-- The leading digits of a string, added to `acc`. -/
def digitsValue (acc : Nat) : Bytes → Nat
  | [] => acc
  | c :: s => if isDigit c then digitsValue (10 * acc + (c.toNat - 48)) s else acc

/-- Sign and magnitude that `strtoll` and `strtoull` read in base 10. -/
def strtonum (s : Bytes) : Bool × Nat :=
  match s.dropWhile isSpace with
  | 45 :: s => (true, digitsValue 0 s)
  | 43 :: s => (false, digitsValue 0 s)
  | s => (false, digitsValue 0 s)

/-- `strtoll(.., NULL, 10)`, clamped to the range of the result. -/
def strtoll (s : Bytes) : Int64 :=
  let (neg, n) := strtonum s
  if neg then Int64.ofInt (max (-(2 ^ 63)) (-(n : Int)))
  else Int64.ofInt (min (2 ^ 63 - 1) n)

/-- `strtoull(.., NULL, 10)`: clamped, and a minus sign negates the result. -/
def strtoull (s : Bytes) : UInt64 :=
  let (neg, n) := strtonum s
  if n ≥ 2 ^ 64 then UInt64.ofNat (2 ^ 64 - 1)
  else if neg then UInt64.ofNat (2 ^ 64 - n) else UInt64.ofNat n

/-- The decimal digits of a number. -/
def decimal (n : Nat) : Bytes :=
  if _h : n < 10 then [UInt8.ofNat (48 + n)]
  else decimal (n / 10) ++ [UInt8.ofNat (48 + n % 10)]
termination_by n

/-- `std::to_string(int64_t)`. -/
def toStringS64 (x : Int64) : Bytes :=
  if x.toInt < 0 then 45 :: decimal x.toInt.natAbs else decimal x.toInt.natAbs

/-- `std::to_string(uint64_t)`. -/
def toStringU64 (x : UInt64) : Bytes := decimal x.toNat

/-! ## Fields -/

/-- `SEGMENT_SIZE`, `ENCODER_MARKER` and `signMask`. -/
def segmentSize : Nat := 8
def encoderMarker : UInt8 := 127
def signMask : UInt64 := 0x8000000000000000

def encodeIntoCmpUint (src : Int64) : UInt64 := src.toUInt64 ^^^ signMask

/-- `htonl` on a little-endian host: the bytes in reverse order. -/
def htonl (val : UInt32) : UInt32 := UInt32.ofNat (ofLeBytes (leBytes 4 val.toNat).reverse)

def htonll (val : UInt64) : UInt64 :=
  ((htonl val.toUInt32).toUInt64 <<< 32) + (htonl (val >>> 32).toUInt32).toUInt64

/-- `htonl` is its own inverse and `ntohll` has the same body as `htonll`. -/
def ntohll (val : UInt64) : UInt64 := htonll val

/-- `encode_bytes(uint64_t)`. -/
def encodeBytesU64 (src : UInt64) : Bytes := leBytes 8 (htonll src).toNat

/-- `encode_bytes(int64_t)`. -/
def encodeBytesS64 (src : Int64) : Bytes := leBytes 8 (htonll (encodeIntoCmpUint src)).toNat

/-- `copy_len` and `padding_bytes` of the next segment. -/
def copyLen (src : Bytes) : Nat := min (segmentSize - 1) src.length
def paddingBytes (src : Bytes) : Nat := segmentSize - 1 - copyLen src

/-- `encode_bytes(const std::string &)`, from the bytes that are left. -/
def encodeBytes (src : Bytes) : Bytes :=
  if _h : paddingBytes src ≠ 0 then
    src.take (copyLen src) ++ List.replicate (paddingBytes src) 0 ++
      [encoderMarker - UInt8.ofNat (paddingBytes src)]
  else src.take (copyLen src) ++ [encoderMarker] ++ encodeBytes (src.drop (copyLen src))
termination_by src.length
decreasing_by
  simp only [paddingBytes, copyLen, segmentSize, List.length_drop] at *
  omega

/-- `src[i]`, where index `size()` reads the terminating zero. -/
def charAt (src : Bytes) (i : Nat) : Option UInt8 := (src ++ [0])[i]?

/-- `src.substr(pos, n)`. -/
def substr (src : Bytes) (pos n : Nat) : Option Bytes :=
  if pos ≤ src.length then some ((src.drop pos).take n) else none

/-- The eight bytes that `memcpy` reads from `src.c_str()`. -/
def readU64 (src : Bytes) : Option UInt64 :=
  if 8 ≤ src.length + 1 then some (UInt64.ofNat (ofLeBytes ((src ++ [0]).take 8))) else none

/-- `DecodeBytes(.., uint64_t &)`. -/
def decodeBytesU64 (src : Bytes) : Option UInt64 := do
  return ntohll (← readU64 src)

/-- `DecodeBytes(.., int64_t &)`. -/
def decodeBytesS64 (src : Bytes) : Option Int64 := do
  return (ntohll (← readU64 src) ^^^ signMask).toInt64

/-- The length argument of the `substr` in `DecodeBytes`: the padding is a `char`, the length is
converted to `size_t`. -/
def segmentLength (marker : UInt8) : Nat :=
  let paddingBytes : Int8 := Int8.ofInt (127 - marker.toInt8.toInt)
  ((7 - paddingBytes.toInt) % 2 ^ 64).toNat

/-- `DecodeBytes(.., std::string &)`, from the bytes that are left. -/
def decodeBytes (src : Bytes) : Option Bytes :=
  if _h : src = [] then some []
  else do
    let marker ← charAt src 7
    let dst ← decodeBytes (src.drop segmentSize)
    return src.take (segmentLength marker) ++ dst
termination_by src.length
decreasing_by
  have := List.length_pos_iff.mpr _h
  simp only [segmentSize, List.length_drop]
  omega

/-- One iteration of `Encode`. -/
def encodeField (value : Bytes) : FieldType → Bytes
  | .signed => encodeBytesS64 (strtoll value)
  | .unsigned => encodeBytesU64 (strtoull value)
  | .binary | .string => encodeBytes value

/-- `Encode(fieldValues, fieldTypes)`. -/
def encode : List Bytes → List FieldType → Option Bytes
  | _, [] => some []
  | [], _ :: _ => none
  | value :: fieldValues, t :: fieldTypes => do
    return encodeField value t ++ (← encode fieldValues fieldTypes)

/-- The loop of `Decode` over the segments of a string: the position after the last one. -/
def segmentsEnd (src : Bytes) (pos : Nat) : Option Nat :=
  match _h : charAt src (pos - 1) with
  | none => none
  | some c => if c = encoderMarker then segmentsEnd src (pos + segmentSize) else some pos
termination_by src.length + 2 - pos
decreasing_by
  have hlt := (List.getElem?_eq_some_iff.mp _h).1
  simp only [segmentSize, List.length_append, List.length_singleton] at *
  omega

/-- One iteration of `Decode` at `pos`: the value and the position after it. -/
def decodeField (src : Bytes) (pos : Nat) : FieldType → Option (Bytes × Nat)
  | .signed => do
    return (toStringS64 (← decodeBytesS64 (← substr src pos 8)), pos + 8)
  | .unsigned => do
    return (toStringU64 (← decodeBytesU64 (← substr src pos 8)), pos + 8)
  | .binary | .string => do
    let pos' ← segmentsEnd src (pos + segmentSize)
    return (← decodeBytes (← substr src pos (pos' - pos)), pos')

/-- `Decode(src, fieldTypes, fieldValues)` from `pos` on. -/
def decodeFrom (src : Bytes) (pos : Nat) : List FieldType → Option (List Bytes)
  | [] => some []
  | t :: fieldTypes => do
    let (value, pos') ← decodeField src pos t
    return value :: (← decodeFrom src pos' fieldTypes)

def decode (src : Bytes) (fieldTypes : List FieldType) : Option (List Bytes) :=
  decodeFrom src 0 fieldTypes

end ISearch.KeyFormat
