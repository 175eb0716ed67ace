import ISearch.KeyFormat.Defs
import ISearch.Lib.Ensures

/-!
# Values on the wire (`encode.cc`, `decode.cc`)

A value is written behind its length, an integer in as few bytes as hold it as a signed number and
with the high byte first, a string with a zero byte behind it. `DTCBinary` is what is left of a
section from a place in it; a read behind the section is the failure `outside`.

`snprintf` and `sscanf` of the C library are the parameter `FloatFormat`.
-/

namespace ISearch.Protocol

open KeyFormat (Bytes)

/-- `DField::None` to `DField::Binary`. -/
inductive DField where
  | none
  | signed
  | unsigned
  | float
  | string
  | binary
  deriving DecidableEq, Repr

inductive ErrorCode where
  | badSectionLength
  | badValueLength
  | badFloatValue
  | badStringValue
  | badFieldName
  | badFieldId
  | badInvalidField
  | badValueType
  | badOperator
  | badMultikey
  | readonlyField
  | duplicateTag
  | duplicateField
  | extraSectionData
  | noMoreData
  deriving DecidableEq, Repr

/-- An error code, or an access that the code must not make. -/
inductive Failure where
  | err (code : ErrorCode)
  | outside
  deriving DecidableEq, Repr

abbrev Decode (α : Type) := Except Failure α

def maxPacketSize : Nat := 64 * 2 ^ 20

/-- The bytes from a place in the section on; a string value ends before the section does. -/
structure DTCBinary where
  ptr : Nat
  bytes : Bytes
  deriving DecidableEq, Repr

namespace DTCBinary

variable (bin : DTCBinary)

def len : Nat := bin.bytes.length

/-- `bin[n]`. -/
def get (n : Nat) : Decode UInt8 :=
  match bin.bytes[n]? with
  | some b => .ok b
  | none => .error .outside

/-- `bin += n`. -/
def advance (n : Nat) : DTCBinary := ⟨bin.ptr + n, bin.bytes.drop n⟩

/-- `*bin++`. -/
def next : Decode (UInt8 × DTCBinary) := do
  return (← bin.get 0, bin.advance 1)

/-- The bytes from `bin[0]` to `bin[n - 1]`. -/
def read (n : Nat) : Decode Bytes :=
  if n ≤ bin.len then .ok (bin.bytes.take n) else .error .outside

/-- The string that a C function reads at `bin.ptr`. -/
def cString : Decode Bytes :=
  if 0 ∈ bin.bytes then .ok (bin.bytes.takeWhile (· ≠ 0)) else .error .outside

end DTCBinary

/-- `snprintf` and `sscanf` with the format `"%LA"`, and the constants of `math.h`. -/
structure FloatFormat (F : Type) where
  print : F → Bytes
  scan : Bytes → Option F
  nan : F
  infinity : F
  negInfinity : F

/-- `"NAN"`, `"INF"` and `"-INF"`. -/
def nanText : Bytes := [78, 65, 78]
def infText : Bytes := [73, 78, 70]
def negInfText : Bytes := [45, 73, 78, 70]

/-- `sizeof(buf)`: `sizeof(long double) * 2 + 8`. -/
def floatBufSize : Nat := 40

/-- The member of the union that holds a value; `none` is a string without a pointer. -/
def DField.Value (F : Type) : DField → Type
  | .none => Unit
  | .signed => Int64
  | .unsigned => UInt64
  | .float => F
  | .string | .binary => Option DTCBinary

variable {F : Type} (lib : FloatFormat F)

def encodeLength (len : Nat) : Bytes :=
  if len < 240 then [UInt8.ofNat len]
  else if len < 13 * 256 then [UInt8.ofNat (0xF0 + len / 2 ^ 8), UInt8.ofNat len]
  else if len < 2 ^ 16 then [253, UInt8.ofNat (len / 2 ^ 8), UInt8.ofNat len]
  else if len < 2 ^ 24 then
    [254, UInt8.ofNat (len / 2 ^ 16), UInt8.ofNat (len / 2 ^ 8), UInt8.ofNat len]
  else
    [255, UInt8.ofNat (len / 2 ^ 24), UInt8.ofNat (len / 2 ^ 16), UInt8.ofNat (len / 2 ^ 8),
      UInt8.ofNat len]

def encodedBytesLength (n : Nat) : Nat :=
  if n < 240 then 1
  else if n < 13 * 256 then 2
  else if n < 2 ^ 16 then 3
  else if n < 2 ^ 24 then 4
  else 5

def decodeLength (bin : DTCBinary) : Decode (Nat × DTCBinary) := do
  if bin.len = 0 then throw (.err .badSectionLength)
  let (b, bin) ← bin.next
  let len := b.toNat
  if len < 240 then return (len, bin)
  else if len ≤ 252 then
    if bin.len = 0 then throw (.err .badSectionLength)
    let (b, bin) ← bin.next
    return (len % 16 * 2 ^ 8 + b.toNat, bin)
  else if len = 253 then
    if bin.len < 2 then throw (.err .badSectionLength)
    return ((← bin.get 0).toNat * 2 ^ 8 + (← bin.get 1).toNat, bin.advance 2)
  else if len = 254 then
    if bin.len < 3 then throw (.err .badSectionLength)
    return ((← bin.get 0).toNat * 2 ^ 16 + (← bin.get 1).toNat * 2 ^ 8 + (← bin.get 2).toNat,
      bin.advance 3)
  else
    if bin.len < 4 then throw (.err .badSectionLength)
    let len := (← bin.get 0).toNat * 2 ^ 24 + (← bin.get 1).toNat * 2 ^ 16 +
      (← bin.get 2).toNat * 2 ^ 8 + (← bin.get 3).toNat
    if len > maxPacketSize then throw (.err .badValueLength)
    return (len, bin.advance 4)

/-- The number `n` of bytes that `encode_data_value` writes for an integer. -/
def intBytes (s64 : Int64) : Nat :=
  if 0 ≤ s64 then
    if s64 < 0x80 then 1
    else if s64 < 0x8000 then 2
    else if s64 < 0x800000 then 3
    else if s64 < 0x80000000 then 4
    else if s64 < 0x8000000000 then 5
    else if s64 < 0x800000000000 then 6
    else if s64 < 0x80000000000000 then 7
    else 8
  else
    if -0x80 ≤ s64 then 1
    else if -0x8000 ≤ s64 then 2
    else if -0x800000 ≤ s64 then 3
    else if -0x80000000 ≤ s64 then 4
    else if -0x8000000000 ≤ s64 then 5
    else if -0x800000000000 ≤ s64 then 6
    else if -0x80000000000000 ≤ s64 then 7
    else 8

def encodeInt (s64 : Int64) : Bytes :=
  UInt8.ofNat (intBytes s64) :: (leBytes (intBytes s64) s64.toUInt64.toNat).reverse

/-- The integer cases of `encoded_bytes_data_value`. -/
def encodedBytesInt (s64 : Int64) : Nat :=
  if 0 ≤ s64 then
    if s64 < 0x80 then 2
    else if s64 < 0x8000 then 3
    else if s64 < 0x800000 then 4
    else if s64 < 0x80000000 then 5
    else if s64 < 0x8000000000 then 6
    else if s64 < 0x800000000000 then 7
    else if s64 < 0x80000000000000 then 8
    else 9
  else
    if -0x80 ≤ s64 then 2
    else if -0x8000 ≤ s64 then 3
    else if -0x800000 ≤ s64 then 4
    else if -0x80000000 ≤ s64 then 5
    else if -0x8000000000 ≤ s64 then 6
    else if -0x800000000000 ≤ s64 then 7
    else if -0x80000000000000 ≤ s64 then 8
    else 9

/-- The bytes of an integer, the first of them signed. `(s64 << 8) | *p++` is `s64 * 256 + *p++`. -/
def decodeInt : Bytes → Int64
  | [] => 0
  | b :: bs => bs.foldl (fun s64 b => s64 * 256 + Int64.ofNat b.toNat) b.toInt8.toInt64

/-! ### Values -/

/-- The text of a float in the buffer. -/
def floatText (flt : F) : Bytes :=
  if (lib.print flt).length ≥ floatBufSize then nanText else lib.print flt

/-- A string or binary value: its length and a zero byte are counted. -/
def encodeStr : Option DTCBinary → Bytes
  | none => [0]
  | some str => encodeLength (str.len + 1) ++ str.bytes ++ [0]

def encodeDataValue : (type : DField) → type.Value F → Bytes
  | .none, _ => [0]
  | .signed, v => encodeInt v
  | .unsigned, v => encodeInt (UInt64.toInt64 v)
  | .float, v => UInt8.ofNat ((floatText lib v).length + 1) :: floatText lib v ++ [0]
  | .string, v | .binary, v => encodeStr v

def encodedBytesStr : Option DTCBinary → Nat
  | none => 1
  | some str => str.len + 1 + encodedBytesLength (str.len + 1)

def encodedBytesDataValue : (type : DField) → type.Value F → Nat
  | .none, _ => 1
  | .signed, v => encodedBytesInt v
  | .unsigned, v => encodedBytesInt (UInt64.toInt64 v)
  | .float, v =>
    if (lib.print v).length ≥ floatBufSize then 5 else 2 + (lib.print v).length
  | .string, v | .binary, v => encodedBytesStr v

def decodeFloat (bin : DTCBinary) (len : Nat) : Decode F := do
  if len < 3 then throw (.err .badValueLength)
  if (← bin.get (len - 1)) ≠ 0 then throw (.err .badFloatValue)
  let text ← bin.cString
  if text = nanText then return lib.nan
  else if text = infText then return lib.infinity
  else if text = negInfText then return lib.negInfinity
  else
    match lib.scan text with
    | none => throw (.err .badFloatValue)
    | some flt => return flt

def decodeInteger (bin : DTCBinary) (len : Nat) : Decode Int64 := do
  if len = 0 ∨ len > 8 then throw (.err .badValueLength)
  return decodeInt (← bin.read len)

/-- With `CONVERT_NULL_TO_EMPTY_STRING` a string of length zero is empty, and has a pointer. -/
def decodeStr (bin : DTCBinary) (len : Nat) : Decode (Option DTCBinary) := do
  if len = 0 then return some ⟨bin.ptr - 1, []⟩
  if (← bin.get (len - 1)) ≠ 0 then throw (.err .badStringValue)
  return some ⟨bin.ptr, ← bin.read (len - 1)⟩

/-- The switch of `decode_data_value`. A value without a type is left as it is. -/
def decodeByType (bin : DTCBinary) (len : Nat) : (type : DField) → type.Value F →
    Decode (type.Value F)
  | .none, val => return val
  | .signed, _ => decodeInteger bin len
  | .unsigned, _ => return (← decodeInteger bin len).toUInt64
  | .float, _ => decodeFloat lib bin len
  | .string, _ | .binary, _ => decodeStr bin len

def decodeDataValue (bin : DTCBinary) (type : DField) (val : type.Value F) :
    Decode (type.Value F × DTCBinary) := do
  let (len, bin) ← decodeLength bin
  if bin.len < len then throw (.err .badSectionLength)
  return (← decodeByType lib bin len type val, bin.advance len)

namespace DTCBinary

section

variable (ptr : Nat) (b : UInt8) (bs : Bytes)

@[simp] theorem len_mk : (DTCBinary.mk ptr bs).len = bs.length := rfl

@[simp] theorem next_cons : (DTCBinary.mk ptr (b :: bs)).next = .ok (b, ⟨ptr + 1, bs⟩) := rfl

@[simp] theorem get_cons_zero : (DTCBinary.mk ptr (b :: bs)).get 0 = .ok b := rfl

@[simp] theorem get_cons_succ (n : Nat) :
    (DTCBinary.mk ptr (b :: bs)).get (n + 1) = (DTCBinary.mk ptr bs).get n := rfl

theorem advance_append {n : Nat} {front : Bytes} (hn : front.length = n) :
    (DTCBinary.mk ptr (front ++ bs)).advance n = ⟨ptr + n, bs⟩ := by
  rw [advance, List.drop_left' hn]

theorem read_append {n : Nat} {front : Bytes} (hn : front.length = n) :
    (DTCBinary.mk ptr (front ++ bs)).read n = .ok front := by
  rw [read, if_pos (by simp [hn]), List.take_left' hn]

theorem get_append (front : Bytes) :
    (DTCBinary.mk ptr (front ++ b :: bs)).get front.length = .ok b := by
  simp [get]

end

theorem eq_cons_of_len {bin : DTCBinary} (h : bin.len ≠ 0) :
    ∃ b bs, bin = ⟨bin.ptr, b :: bs⟩ := by
  obtain ⟨ptr, _ | ⟨b, bs⟩⟩ := bin
  · exact absurd rfl h
  · exact ⟨b, bs, rfl⟩

end DTCBinary

/-! ## Values lie inside their section -/

/-- The computation does not read outside, and `Q` holds of what it returns. -/
abbrev Inside {α : Type} (Q : α → Prop) (x : Decode α) : Prop := Ensures .outside Q x

/-- `bin'` is what is left of `bin` from some place on. -/
def DTCBinary.Within (bin bin' : DTCBinary) : Prop := ∃ n ≤ bin.len, bin' = bin.advance n

/-- The bytes of a value are those of the section at its place. -/
def DTCBinary.Holds (bin : DTCBinary) (str : DTCBinary) : Prop :=
  bin.ptr ≤ str.ptr ∧ str.ptr + str.len ≤ bin.ptr + bin.len ∧
    str.bytes <+: bin.bytes.drop (str.ptr - bin.ptr)

namespace DTCBinary

variable {bin bin' bin'' : DTCBinary}

@[simp] theorem len_advance (bin : DTCBinary) (n : Nat) : (bin.advance n).len = bin.len - n :=
  List.length_drop

theorem advance_advance (bin : DTCBinary) (m n : Nat) :
    (bin.advance m).advance n = bin.advance (m + n) := by
  simp [advance, add_assoc]

theorem within_advance {n : Nat} (h : n ≤ bin.len) : bin.Within (bin.advance n) := ⟨n, h, rfl⟩

theorem Within.refl (bin : DTCBinary) : bin.Within bin := ⟨0, Nat.zero_le _, by simp [advance]⟩

theorem Within.trans (h : bin.Within bin') (h' : bin'.Within bin'') : bin.Within bin'' := by
  obtain ⟨m, hm, rfl⟩ := h
  obtain ⟨n, hn, rfl⟩ := h'
  rw [len_advance] at hn
  exact ⟨m + n, by omega, advance_advance ..⟩

theorem get_inside {n : Nat} (h : n < bin.len) :
    Inside (fun b => bin.bytes[n]? = some b) (bin.get n) := by
  rw [get, List.getElem?_eq_getElem h]
  exact rfl

theorem next_inside (h : bin.len ≠ 0) :
    Inside (fun r => r.2 = bin.advance 1) bin.next :=
  (get_inside (pos_of_ne_zero h)).bind fun _ _ => rfl

theorem read_inside {n : Nat} (h : n ≤ bin.len) :
    Inside (fun bs => bs = bin.bytes.take n) (bin.read n) := by
  rw [read, if_pos h]
  rfl

end DTCBinary

/-- The code of a length. -/
inductive LengthCode : Bytes → Prop
  | one {a : UInt8} : a.toNat < 240 → LengthCode [a]
  | two {a b : UInt8} : 240 ≤ a.toNat → a.toNat ≤ 252 → LengthCode [a, b]
  | three {a b : UInt8} : LengthCode [253, a, b]
  | four {a b c : UInt8} : LengthCode [254, a, b, c]
  | five {a b c d : UInt8} : a.toNat * 2 ^ 24 + b.toNat * 2 ^ 16 + c.toNat * 2 ^ 8 + d.toNat ≤
    maxPacketSize → LengthCode [255, a, b, c, d]

theorem LengthCode.length_pos {code : Bytes} (h : LengthCode code) : 1 ≤ code.length := by
  cases h <;> simp

/-- What is read is the code of a length. -/
theorem decodeLength_inside (bin : DTCBinary) :
    Inside (fun r => ∃ code, LengthCode code ∧ bin.bytes = code ++ r.2.bytes ∧
      r.2 = bin.advance code.length) (decodeLength bin) := by
  rw [decodeLength]
  refine .ite (by simp) fun hlen => ?_
  obtain ⟨a, bs, hbin⟩ := DTCBinary.eq_cons_of_len hlen
  rw [hbin, DTCBinary.next_cons, ok_bind]
  dsimp only
  refine .ite (fun ha => ⟨[a], .one ha, rfl, rfl⟩) fun ha => ?_
  refine .ite (fun ha' => ?_) fun ha' => ?_
  · rcases bs with _ | ⟨b, bs⟩
    · simp
    · exact ⟨[a, b], .two (not_lt.mp ha) ha', rfl, rfl⟩
  · refine .ite (fun ha3 => ?_) fun ha3 => ?_
    · obtain rfl : a = 253 := UInt8.toNat_inj.mp ha3
      refine .ite (by simp) fun hlen => ?_
      rcases bs with _ | ⟨b, _ | ⟨c, bs⟩⟩
      · simp at hlen
      · simp at hlen
      · exact ⟨[253, b, c], .three, rfl, rfl⟩
    · refine .ite (fun ha4 => ?_) fun ha4 => ?_
      · obtain rfl : a = 254 := UInt8.toNat_inj.mp ha4
        refine .ite (by simp) fun hlen => ?_
        rcases bs with _ | ⟨b, _ | ⟨c, _ | ⟨d, bs⟩⟩⟩
        · simp at hlen
        · simp at hlen
        · simp at hlen
        · exact ⟨[254, b, c, d], .four, rfl, rfl⟩
      · obtain rfl : a = 255 := by
          have hlt := a.toNat_lt
          apply UInt8.toNat_inj.mp
          show a.toNat = 255
          omega
        refine .ite (by simp) fun hlen => ?_
        rcases bs with _ | ⟨b, _ | ⟨c, _ | ⟨d, _ | ⟨e, bs⟩⟩⟩⟩
        · simp at hlen
        · simp at hlen
        · simp at hlen
        · simp at hlen
        · simp only [DTCBinary.get_cons_succ, DTCBinary.get_cons_zero]
          rw [ok_bind, ok_bind, ok_bind, ok_bind]
          refine .ite (fun _ => Ensures.throw_bind.mpr (by simp)) fun hmax => ?_
          exact ⟨[255, b, c, d, e], .five (not_lt.mp hmax), rfl, rfl⟩

/-- A string value is one of the section, from which the bytes at `bin` are left. -/
def DField.Value.Inside (whole : DTCBinary) : (type : DField) → type.Value F → Prop
  | .string, v | .binary, v => ∀ str, v = some str → whole.Holds str
  | .none, _ | .signed, _ | .unsigned, _ | .float, _ => True

theorem decodeInteger_inside {bin : DTCBinary} {len : Nat} (hlen : len ≤ bin.len) :
    Inside (fun _ => True) (decodeInteger bin len) := by
  rw [decodeInteger]
  refine .ite (by simp) fun _ => ?_
  exact (DTCBinary.read_inside hlen).bind fun _ _ => trivial

theorem decodeFloat_inside {bin : DTCBinary} {len : Nat} (hlen : len ≤ bin.len) :
    Inside (fun _ => True) (decodeFloat lib bin len) := by
  rw [decodeFloat]
  refine .ite (by simp) fun h3 => ?_
  refine (DTCBinary.get_inside (by omega)).bind fun b hb => ?_
  refine .ite (by simp) fun h0 => ?_
  have hzero : 0 ∈ bin.bytes := by
    rw [not_not] at h0
    exact List.mem_of_getElem? (h0 ▸ hb)
  rw [DTCBinary.cString, if_pos hzero]
  refine .ite (fun _ => trivial) fun _ => .ite (fun _ => trivial) fun _ => .ite (fun _ => trivial) ?_
  intro _
  split <;> simp

theorem decodeStr_inside {whole bin : DTCBinary} {len : Nat} (hlen : len ≤ bin.len)
    (hwhole : whole.Within bin) (hptr : whole.ptr < bin.ptr) :
    Inside (fun r => ∀ str, r = some str → whole.Holds str) (decodeStr bin len) := by
  obtain ⟨n, hn, rfl⟩ := hwhole
  rw [decodeStr]
  refine .ite (fun _ => ?_) fun h0 => ?_
  · rintro _ ⟨⟩
    refine ⟨Nat.le_pred_of_lt hptr, ?_, List.nil_prefix⟩
    simp only [DTCBinary.advance, DTCBinary.len, List.length_nil] at hn ⊢
    omega
  · refine (DTCBinary.get_inside (by omega)).bind fun _ _ => ?_
    refine .ite (by simp) fun _ => ?_
    refine (DTCBinary.read_inside (by omega)).bind ?_
    rintro _ rfl _ ⟨⟩
    refine ⟨hptr.le, ?_, ?_⟩
    · simp only [DTCBinary.advance, DTCBinary.len, List.length_take, List.length_drop] at hlen hn ⊢
      omega
    · simp only [DTCBinary.advance, Nat.add_sub_cancel_left]
      exact List.take_prefix _ _

theorem decodeByType_inside {whole bin : DTCBinary} {len : Nat} (hlen : len ≤ bin.len)
    (hwhole : whole.Within bin) (hptr : whole.ptr < bin.ptr) (type : DField)
    (val : type.Value F) :
    Inside (DField.Value.Inside whole type) (decodeByType lib bin len type val) := by
  cases type with
  | none => exact trivial
  | signed => exact decodeInteger_inside hlen
  | unsigned => exact (decodeInteger_inside hlen).bind fun _ _ => trivial
  | float => exact decodeFloat_inside lib hlen
  | string => exact decodeStr_inside hlen hwhole hptr
  | binary => exact decodeStr_inside hlen hwhole hptr

/-- A value is read from the section, and what is left is shorter. -/
theorem decodeDataValue_inside {whole bin : DTCBinary} (hwhole : whole.Within bin) (type : DField)
    (val : type.Value F) :
    Inside (fun r => DField.Value.Inside whole type r.1 ∧ whole.Within r.2 ∧ r.2.len < bin.len)
      (decodeDataValue lib bin type val) := by
  rw [decodeDataValue]
  refine (decodeLength_inside bin).bind ?_
  rintro ⟨len, _⟩ ⟨code, hcode, hbytes, rfl⟩
  obtain ⟨n, hlen_code⟩ : ∃ n, code.length = n := ⟨_, rfl⟩
  have h1 : 1 ≤ n := hlen_code ▸ hcode.length_pos
  have hn : n ≤ bin.len := by
    rw [DTCBinary.len, hbytes, List.length_append, hlen_code]
    exact Nat.le_add_right ..
  rw [hlen_code]
  refine .ite (by simp) fun hlen => ?_
  have hlen : len ≤ (bin.advance n).len := Nat.le_of_not_lt hlen
  have hbin : whole.Within (bin.advance n) := hwhole.trans (DTCBinary.within_advance hn)
  have hptr : whole.ptr < (bin.advance n).ptr := by
    obtain ⟨m, -, rfl⟩ := hwhole
    simp only [DTCBinary.advance]
    omega
  refine (decodeByType_inside lib hlen hbin hptr type val).bind fun v hv => ?_
  refine ⟨hv, hbin.trans (DTCBinary.within_advance hlen), ?_⟩
  simp only [DTCBinary.len_advance] at hlen ⊢
  omega

end ISearch.Protocol
