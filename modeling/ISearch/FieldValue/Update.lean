import ISearch.FieldValue.Defs
import ISearch.RocksProcess.RowUpdate

/-!
# Updates in the cache and in the storage

`Update` cuts an integer to the range of the declared size and a string to the declared length. The
storage helper adds the integers as decimal strings, to an empty one in the last value field, keeps
four or eight of their bytes in a value field and eight in a key field, and stores a string as it
is. The value that is read back from the storage is computed here, and compared with the cached one.
-/

namespace ISearch.FieldValue

open KeyFormat RocksProcess Option

variable {t : Table}

/-- The operation as `update_row` reads it. -/
def FieldOper.toOperation (op : FieldOper t) : Operation t op.id :=
  match h : op.oper with
  | .set => .set (readAs (t.type op.id) op.type (h ▸ op.valid) op.val)
  | .add => .add op.type op.val
  | .setBits | .or => .unsupported

/-- The string of a key field, written to the key and the case bitmaps and read back. -/
def rereadKey (ty : FieldType) (str : Bytes) : Option Bytes := do
  let (keys, bitmaps) := encodeBitmapKeys [ty] [str]
  let keys ← decode (← encode keys [ty]) [ty]
  (← decodeBitmapKeys [ty] bitmaps keys).1.head?

/-- The string of a field, written by `update_row` and read back. -/
def reread (t : Table) (i : t.FieldId) (str : Bytes) : Option Bytes :=
  if i ∈ t.uniqFields then rereadKey (t.type i) str
  else (getValueById (t.field i) (storeValue (t.field i) str)).map (·.1)

/-- The operation on the strings that `update_row` reads. -/
def FieldOper.stored (op : FieldOper t) (row : Row t) : Option (t.FieldId → Bytes) :=
  let updateInfo := [⟨op.id, op.toOperation⟩]
  applyOperations updateInfo (row.baseStr updateInfo)

/-- The cached value is the value that is read back. -/
def UpdateAgrees (op : FieldOper t) (row : Row t) : Prop :=
  ∃ strs, op.stored row = some strs ∧
    reread t op.id (strs op.id) = some ((t.type op.id).toStr (update [op] row op.id))

/-- The bits that the storage keeps of an integer. -/
def storeBits (t : Table) (i : t.FieldId) : Nat :=
  if i ∈ t.uniqFields then 64 else 8 * (t.field i).width

/-- The range that `TruncateIntValue` leaves. -/
def intRange (ft : FieldType) (size : Nat) : Int × Int :=
  if 8 ≤ size then (-2 ^ 63, 2 ^ 63 - 1)
  else if ft = .unsigned then (0, 2 ^ (8 * size) - 1)
  else (-2 ^ (8 * size - 1), 2 ^ (8 * size - 1) - 1)

def cut (r : Int × Int) (y : Int) : Int := if y < r.1 then r.1 else if r.2 < y then r.2 else y

/-- What `cut` leaves of `y` is `y'` modulo `m`. -/
def CutsTo (r : Int × Int) (m y y' : Int) : Prop :=
  (r.1 ≤ y ∧ y ≤ r.2 ∧ (y - y') % m = 0) ∨ (y < r.1 ∧ (r.1 - y') % m = 0) ∨
    (r.2 < y ∧ (r.2 - y') % m = 0)

/-- The sum in the cache, which has `0` for twice the smallest number. -/
def cacheSum (x v : Int) : Int := if x = -2 ^ 63 ∧ v = -2 ^ 63 then 0 else x + v

/-- The operations and old values for which the cached and the stored value are the same: the result
of the cache, cut to the range of the declared size, is that of the storage up to multiples of what
it cuts off. With `last` the storage adds to zero. A value of type Unsigned must be one that does
not change the stored value, as the cache ignores it, except for `Set` on an Unsigned field. -/
def Agreeing (size bits : Nat) (last : Bool) :
    (ft : FieldType) → ft.Value → Oper → (vt : FieldType) → vt.Value → Prop
  | .signed, _, .set, .signed, v =>
    CutsTo (intRange .signed size) (2 ^ bits) (Int64.toInt v) (Int64.toInt v)
  | .unsigned, _, .set, .signed, v =>
    CutsTo (intRange .unsigned size) (2 ^ bits) (Int64.toInt v) (Int64.toInt v)
  | .unsigned, _, .set, .unsigned, v =>
    let y := (UInt64.toInt64 v).toInt
    CutsTo (intRange .unsigned size) (2 ^ bits) y y
  | .signed, x, .set, .unsigned, v =>
    (-2 ^ (bits - 1) ≤ Int64.toInt x ∧ Int64.toInt x < 2 ^ (bits - 1)) ∧
      (UInt64.toNat v - Int64.toInt x) % 2 ^ bits = 0
  | .signed, x, .add, .signed, v =>
    CutsTo (intRange .signed size) (2 ^ bits) (cacheSum (Int64.toInt x) (Int64.toInt v))
      ((if last then 0 else Int64.toInt x) + Int64.toInt v)
  | .unsigned, x, .add, .signed, v =>
    -- `strtoll` reads a large old value as `2 ^ 63 - 1`
    CutsTo (intRange .unsigned size) (2 ^ bits)
      (cacheSum (UInt64.toInt64 x).toInt (Int64.toInt v))
      ((if last then 0 else min (2 ^ 63 - 1) (UInt64.toNat x : Int)) + Int64.toInt v)
  | .unsigned, x, .add, .unsigned, v =>
    UInt64.toNat x < 2 ^ bits ∧
      ((if last then 0 else UInt64.toNat x : Int) + UInt64.toNat v - UInt64.toNat x) % 2 ^ bits = 0
  | .signed, x, .add, .unsigned, v =>
    let y := (if last then 0 else Int64.toInt x) + UInt64.toNat v
    if y % 2 ^ 64 < 2 ^ 63 then
      (-2 ^ (bits - 1) ≤ Int64.toInt x ∧ Int64.toInt x < 2 ^ (bits - 1)) ∧
        (y - Int64.toInt x) % 2 ^ bits = 0
    else Int64.toInt x = if bits = 64 then 2 ^ 63 - 1 else -1
  | .string, _, .set, .string, v => (show Bytes from v).length ≤ size
  | .binary, _, .set, .string, v => (show Bytes from v).length ≤ size
  | .binary, _, .set, .binary, v => (show Bytes from v).length ≤ size
  | _, _, _, _, _ => True

theorem intRange_of_truncateBounds {ft : FieldType} {size : Nat} {lo hi : Int64}
    (h : truncateBounds ft size = some (lo, hi)) : intRange ft size = (lo.toInt, hi.toInt) := by
  rw [truncateBounds.eq_def] at h
  split at h
  all_goals first
    | (obtain ⟨rfl, rfl⟩ := Prod.mk.inj (Option.some.inj h); decide)
    | cases h

theorem size_of_truncateBounds {ft : FieldType} {size : Nat} (hft : ft = .signed ∨ ft = .unsigned)
    (hsize : 0 < size) (h : truncateBounds ft size = none) : 8 ≤ size := by
  by_contra hlt
  have hlt : size < 8 := Nat.lt_of_not_le hlt
  interval_cases size <;> rcases hft with rfl | rfl <;> cases h

theorem toInt_truncateIntValue {ft : FieldType} {size : Nat} (hft : ft = .signed ∨ ft = .unsigned)
    (hsize : 0 < size) (v : Int64) :
    (truncateIntValue v ft size).toInt = cut (intRange ft size) v.toInt := by
  have hlo := v.le_toInt
  have hhi := v.toInt_lt
  rw [truncateIntValue]
  split
  · rename_i h
    rw [intRange, if_pos (size_of_truncateBounds hft hsize h), cut, if_neg (by omega),
      if_neg (by omega)]
  · rename_i lo hi h
    rw [intRange_of_truncateBounds h, cut]
    simp only [Int64.lt_iff_toInt_lt]
    split
    · rfl
    · split <;> rfl

theorem toInt_addS64 (x v : Int64) :
    (addS64 x v).toInt = cut (-2 ^ 63, 2 ^ 63 - 1) (cacheSum x.toInt v.toInt) := by
  have hx := x.le_toInt
  have hx' := x.toInt_lt
  have hv := v.le_toInt
  have hv' := v.toInt_lt
  have hadd : (x + v).toInt = Int.bmod (x.toInt + v.toInt) (2 ^ 64) := Int64.toInt_add x v
  have h0 : (0 : Int64).toInt = 0 := rfl
  have hmax : (0x7FFFFFFFFFFFFFFF : Int64).toInt = 2 ^ 63 - 1 := by decide
  have hmin : (-0x8000000000000000 : Int64).toInt = -2 ^ 63 := by decide
  rw [Int.bmod_def] at hadd
  simp only [addS64, cacheSum, cut, Int64.lt_iff_toInt_lt, h0]
  split
  · split
    · rw [hmax]
      split at hadd <;> split <;> omega
    · split at hadd <;> split <;> omega
  · split
    · rw [hmin]
      split at hadd <;> split <;> omega
    · split at hadd <;> split <;> omega

theorem toInt_strtoll_toStringU64 (x : UInt64) :
    (strtoll (toStringU64 x)).toInt = min (2 ^ 63 - 1) (x.toNat : Int) := by
  have hx := x.toNat_lt
  rw [toStringU64, strtoll, strtonum_decimal]
  simp only [Bool.false_eq_true, if_false]
  have hsize : (Int64.size : Int) = 2 ^ 64 := rfl
  rw [Int64.toInt_ofInt, Int.bmod_eq_of_le] <;> omega

theorem strtoull_toStringS64 (x : Int64) : strtoull (toStringS64 x) = x.toUInt64 := by
  have hlo := x.le_toInt
  have hhi := x.toInt_lt
  have hx := toNat_toUInt64 x
  rw [← UInt64.toNat_inj, toStringS64]
  split_ifs with h
  · rw [strtoull, strtonum_minus_decimal]
    simp only [if_true]
    rw [if_neg (by omega), UInt64.toNat_ofNat']
    omega
  · rw [strtoull, strtonum_decimal]
    simp only [Bool.false_eq_true, if_false]
    rw [if_neg (by omega), UInt64.toNat_ofNat']
    omega

/-! ## Reading back -/

/-- The value that a key field has after `Decode`. -/
theorem decode_encode_single (ty : FieldType) (x : ty.Value) :
    (encode [ty.toStr x] [ty]).bind (decode · [ty]) = some [ty.toStr x] := by
  have henc := KeyFormat.Row.encode_strings [ty] (x, ())
  have hdec := KeyFormat.Row.decodeFrom_enc [ty] (x, ()) []
  simp only [KeyFormat.Row.strings] at henc hdec
  rw [henc, bind_some]
  exact hdec

theorem encode_str2Value (ty : FieldType) (str : Bytes) :
    encode [str] [ty] = encode [ty.toStr (str2Value str ty)] [ty] := by
  cases ty with
  | signed =>
    simp only [encode, encodeField, str2Value, FieldType.toStr, strtoll_toStringS64]
  | unsigned =>
    simp only [encode, encodeField, str2Value, FieldType.toStr, strtoull_toStringU64]
  | string => rfl
  | binary => rfl

theorem rereadKey_eq (ty : FieldType) (str : Bytes) :
    rereadKey ty str = some (ty.toStr (str2Value str ty)) := by
  have hdecode : ∀ key, (encode [key] [ty]).bind (decode · [ty]) =
      some [ty.toStr (str2Value key ty)] := by
    intro key
    rw [encode_str2Value]
    exact decode_encode_single ty _
  by_cases hty : ty = .string
  · subst hty
    have hbitmap := @decodeBitmapKeys_encodeBitmapKeys [.string] [str] rfl []
    have hkeys : (encodeBitmapKeys [.string] [str]).1 = [toLower str] := encodeBitmapKeys_fst rfl
    rw [List.append_nil] at hbitmap
    have hlower := hdecode (toLower str)
    rw [rereadKey]
    simp only [hkeys, bind_eq_bind, ← bind_assoc, hlower, bind_some]
    exact congrArg (·.bind fun r => r.1.head?) hbitmap
  · have hno : noBitmapKey [ty] = true := by
      cases ty with
      | string => exact absurd rfl hty
      | _ => rfl
    simp only [rereadKey, encodeBitmapKeys, decodeBitmapKeys, hno, if_true, bind_eq_bind,
      ← bind_assoc, hdecode, bind_some, List.head?_cons]

theorem toInt_signedOf_leBytes (f : Field) (x : Int64) :
    (signedOf f.width (ofLeBytes (leBytes f.width x.toUInt64.toNat))).toInt =
      Int.bmod x.toInt (2 ^ (8 * f.width)) := by
  have hlo := x.le_toInt
  have hhi := x.toInt_lt
  have hx := toNat_toUInt64 x
  rw [ofLeBytes_leBytes]
  rcases f.width_cases with ⟨-, hw⟩ | ⟨-, hw⟩
  · have hmod : x.toUInt64.toNat % 256 ^ 8 = x.toUInt64.toNat := toNat_mod_256_pow_8 _
    rw [hw, signedOf, if_pos rfl, hmod, UInt64.ofNat_toNat, Int.bmod_eq_of_le (by omega) (by omega)]
    rfl
  · have hy : ∀ y : UInt32, y.toInt32.toInt = Int.bmod y.toNat (2 ^ 32) := fun y =>
      y.toInt32.toBitVec.toInt_eq_toNat_bmod
    rw [hw, signedOf, if_neg (by decide), Int32.toInt_toInt64, hy, UInt32.toNat_ofNat']
    simp only [Int.bmod_def]
    split <;> split <;> omega

/-- The bits of an integer that are kept. -/
theorem reread_signed {i : t.FieldId} (hty : t.type i = .signed) (str : Bytes) (y : Int64) :
    reread t i str = some (toStringS64 y) ↔
      y.toInt = Int.bmod (strtoll str).toInt (2 ^ storeBits t i) := by
  have hinj : ∀ z : Int64, some (toStringS64 z) = some (toStringS64 y) ↔ z = y := by
    intro z
    rw [some_inj]
    exact (toStr_injective .signed).eq_iff
  rw [reread, storeBits]
  split
  · rw [rereadKey_eq, hty]
    refine (hinj (strtoll str)).trans ?_
    have hlo := (strtoll str).le_toInt
    have hhi := (strtoll str).toInt_lt
    rw [← Int64.toInt_inj, Int.bmod_eq_of_le (by omega) (by omega), eq_comm]
  · have hfield : (t.field i).type = .signed := hty
    generalize t.field i = f at hfield
    obtain ⟨_, size⟩ := f
    subst hfield
    have hread : (getValueById ⟨.signed, size⟩ (storeValue ⟨.signed, size⟩ str)).map (·.1) =
        some (toStringS64 (signedOf (Field.width ⟨.signed, size⟩) (ofLeBytes (leBytes
          (Field.width ⟨.signed, size⟩) (strtoll str).toUInt64.toNat)))) := by
      have hstore : storeValue ⟨.signed, size⟩ str =
          leBytes (Field.width ⟨.signed, size⟩) (strtoll str).toUInt64.toNat := rfl
      rw [hstore]
      simp only [getValueById]
      rw [if_pos (by simp), List.take_of_length_le (by simp)]
      rfl
    rw [hread, hinj, ← Int64.toInt_inj, toInt_signedOf_leBytes, eq_comm]

theorem reread_unsigned {i : t.FieldId} (hty : t.type i = .unsigned) (str : Bytes) (y : UInt64) :
    reread t i str = some (toStringU64 y) ↔
      y.toNat = (strtoull str).toNat % 2 ^ storeBits t i := by
  have hinj : ∀ z : UInt64, some (toStringU64 z) = some (toStringU64 y) ↔ z = y := by
    intro z
    rw [some_inj]
    exact (toStr_injective .unsigned).eq_iff
  rw [reread, storeBits]
  split
  · rw [rereadKey_eq, hty]
    refine (hinj (strtoull str)).trans ?_
    have hlt := (strtoull str).toNat_lt
    rw [← UInt64.toNat_inj, Nat.mod_eq_of_lt hlt, eq_comm]
  · have hfield : (t.field i).type = .unsigned := hty
    generalize t.field i = f at hfield
    obtain ⟨_, size⟩ := f
    subst hfield
    have hread : (getValueById ⟨.unsigned, size⟩ (storeValue ⟨.unsigned, size⟩ str)).map (·.1) =
        some (toStringU64 (UInt64.ofNat (ofLeBytes (leBytes (Field.width ⟨.unsigned, size⟩)
          (strtoull str).toNat)))) := by
      have hstore : storeValue ⟨.unsigned, size⟩ str =
          leBytes (Field.width ⟨.unsigned, size⟩) (strtoull str).toNat := rfl
      rw [hstore]
      simp only [getValueById]
      rw [if_pos (by simp), List.take_of_length_le (by simp)]
      rfl
    have hlt := (strtoull str).toNat_lt
    rw [hread, hinj, ← UInt64.toNat_inj, UInt64.toNat_ofNat', ofLeBytes_leBytes, eq_comm]
    rcases Field.width_cases ⟨.unsigned, size⟩ with ⟨-, hw⟩ | ⟨-, hw⟩ <;> rw [hw] <;> omega

theorem reread_str {i : t.FieldId} (hty : t.type i = .string ∨ t.type i = .binary) {str : Bytes}
    (hlen : str.length < 2 ^ 31) : reread t i str = some str := by
  rw [reread]
  split
  · rw [rereadKey_eq]
    rcases hty with hty | hty <;> rw [hty] <;> rfl
  · have hfield : (t.field i).type = .string ∨ (t.field i).type = .binary := hty
    generalize t.field i = f at hfield
    obtain ⟨ty, size⟩ := f
    have hread := (readBack_str size str).fits hlen []
    rw [List.append_nil] at hread
    rcases hfield with hfield | hfield
    · cases hfield
      exact congrArg (Option.map (·.1)) hread
    · cases hfield
      exact congrArg (Option.map (·.1)) hread

/-- What is read back of a string that was written to a field. -/
def Rereads (read : Bytes → Option Bytes) (bits : Nat) : FieldType → Prop
  | .signed => ∀ str (y : Int64), read str = some (toStringS64 y) ↔
      y.toInt = Int.bmod (strtoll str).toInt (2 ^ bits)
  | .unsigned => ∀ str (y : UInt64), read str = some (toStringU64 y) ↔
      y.toNat = (strtoull str).toNat % 2 ^ bits
  | .string | .binary => ∀ str : Bytes, str.length < 2 ^ 31 → read str = some str

theorem rereads (t : Table) (i : t.FieldId) :
    Rereads (reread t i) (storeBits t i) (t.type i) := by
  cases hty : t.type i with
  | signed => exact reread_signed hty
  | unsigned => exact reread_unsigned hty
  | string => exact fun str hlen => reread_str (.inl hty) hlen
  | binary => exact fun str hlen => reread_str (.inr hty) hlen

/-- The bits that are kept are enough for the range. -/
def Keeps (size bits : Nat) : Prop := bits = 64 ∨ (bits = 32 ∧ size ≤ 4)

theorem keeps (t : Table) (i : t.FieldId) : Keeps (t.field i).size (storeBits t i) := by
  rw [storeBits]
  split
  · exact .inl rfl
  · rcases (t.field i).width_cases with ⟨-, hw⟩ | ⟨hs, hw⟩
    · exact .inl (by rw [hw])
    · exact .inr ⟨by rw [hw], Nat.le_of_not_lt hs⟩

theorem intRange_signed {size bits : Nat} (hsize : 0 < size) (hbits : Keeps size bits) :
    -2 ^ (bits - 1) ≤ (intRange .signed size).1 ∧ (intRange .signed size).2 < 2 ^ (bits - 1) := by
  rw [intRange]
  split
  · rename_i h
    rcases hbits with rfl | ⟨-, hle⟩
    · decide
    · omega
  · rename_i h
    have hlt : size < 8 := Nat.lt_of_not_le h
    rcases hbits with rfl | ⟨rfl, hle⟩
    · interval_cases size <;> decide
    · interval_cases size <;> decide

theorem intRange_unsigned {size : Nat} (hsize : 0 < size) (hle : size ≤ 4) :
    0 ≤ (intRange .unsigned size).1 ∧ (intRange .unsigned size).2 < 2 ^ 32 := by
  rw [intRange, if_neg (by omega), if_pos rfl]
  interval_cases size <;> decide

theorem intRange_within {ft : FieldType} {size : Nat} (hsize : 0 < size) :
    -2 ^ 63 ≤ (intRange ft size).1 ∧ (intRange ft size).1 ≤ 0 ∧ 0 ≤ (intRange ft size).2 ∧
      (intRange ft size).2 ≤ 2 ^ 63 - 1 := by
  rw [intRange]
  split
  · decide
  · rename_i h
    have hlt : size < 8 := Nat.lt_of_not_le h
    interval_cases size <;> split <;> decide

theorem intRange_le {ft : FieldType} {size : Nat} (hsize : 0 < size) :
    (intRange ft size).1 ≤ (intRange ft size).2 := by
  have hwithin := @intRange_within ft size hsize
  omega

theorem cut_cut {ft : FieldType} {size : Nat} (hsize : 0 < size) (y : Int) :
    cut (intRange ft size) (cut (-2 ^ 63, 2 ^ 63 - 1) y) = cut (intRange ft size) y := by
  have hwithin := @intRange_within ft size hsize
  simp only [cut]
  grind

theorem cut_mem {r : Int × Int} (h : r.1 ≤ r.2) (y : Int) : r.1 ≤ cut r y ∧ cut r y ≤ r.2 := by
  rw [cut]
  split
  · omega
  · split <;> omega

theorem cut_sub_mod {r : Int × Int} (h : r.1 ≤ r.2) {m y y' : Int} :
    (cut r y - y') % m = 0 ↔ CutsTo r m y y' := by
  rw [cut, CutsTo]
  split
  · next hlt => simp [hlt, not_le.mpr hlt, not_lt.mpr (hlt.le.trans h)]
  · next hge =>
    split
    · next hgt => simp [hge, hgt, not_le.mpr hgt]
    · next hle => simp [hge, hle, not_lt.mp hge, not_lt.mp hle]

theorem eq_bmod_iff {size bits : Nat} (hbits : Keeps size bits) {c y : Int} :
    c = Int.bmod y (2 ^ bits) ↔
      (-2 ^ (bits - 1) ≤ c ∧ c < 2 ^ (bits - 1)) ∧ (c - y) % 2 ^ bits = 0 := by
  rw [Int.bmod_def]
  rcases hbits with rfl | ⟨rfl, -⟩ <;> split <;> omega

theorem eq_mod_iff {size bits : Nat} (hbits : Keeps size bits) {c : Int} {n : Nat} {y : Int}
    (hn : (n : Int) = y % 2 ^ 64) (hc : bits = 32 → 0 ≤ c ∧ c < 2 ^ 32) :
    c % 2 ^ 64 = (n % 2 ^ bits : Nat) ↔ (c - y) % 2 ^ bits = 0 := by
  rcases hbits with rfl | ⟨rfl, -⟩ <;> omega

/-! ## One field -/

section Field

variable {read : Bytes → Option Bytes} {size bits : Nat} (hsize : 0 < size)
  (hbits : Keeps size bits)

include hsize hbits

/-- What `update_row` writes of a signed number `y`, of which the cache keeps what is in range. -/
theorem signed_agrees (hread : Rereads read bits .signed) {str : Bytes} {z : Int64} {y : Int}
    (hstr : (strtoll str).toInt = Int.bmod y (2 ^ 64)) :
    read str = some (toStringS64 (truncateIntValue z .signed size)) ↔
      (cut (intRange .signed size) z.toInt - y) % 2 ^ bits = 0 := by
  have hrange := intRange_signed hsize hbits
  have hmem := cut_mem (@intRange_le .signed size hsize) z.toInt
  rw [hread, toInt_truncateIntValue (.inl rfl) hsize, eq_bmod_iff hbits, hstr,
    and_iff_right (by omega)]
  rw [Int.bmod_def]
  rcases hbits with rfl | ⟨rfl, -⟩ <;> split <;> omega

theorem unsigned_agrees (hread : Rereads read bits .unsigned) {str : Bytes} {z : Int64} {y : Int}
    (hstr : ((strtoull str).toNat : Int) = y % 2 ^ 64) :
    read str = some (toStringU64 (truncateIntValue z .unsigned size).toUInt64) ↔
      (cut (intRange .unsigned size) z.toInt - y) % 2 ^ bits = 0 := by
  have hmem := cut_mem (@intRange_le .unsigned size hsize) z.toInt
  rw [hread, ← Int.natCast_inj, toNat_toUInt64, toInt_truncateIntValue (.inr rfl) hsize,
    eq_mod_iff hbits hstr]
  intro h32
  have hle : size ≤ 4 := by
    rcases hbits with rfl | ⟨-, hle⟩
    · cases h32
    · exact hle
  have hrange := intRange_unsigned hsize hle
  omega

omit hsize hbits in
theorem str_agrees {read : Bytes → Option Bytes} {v : Bytes}
    (hread : ∀ str : Bytes, str.length < 2 ^ 31 → read str = some str) (hlen : v.length < 2 ^ 31) :
    read v = some (v.take size) ↔ v.length ≤ size := by
  rw [hread v hlen, some_inj, eq_comm, List.take_eq_self_iff]

omit hsize hbits in
theorem toInt_bmod (x : Int64) : x.toInt = Int.bmod x.toInt (2 ^ 64) := by
  have hlo := x.le_toInt
  have hhi := x.toInt_lt
  rw [Int.bmod_eq_of_le (by omega) (by omega)]

section Signed

variable (hread : Rereads read bits .signed)

include hread

theorem set_signed_signed (v : Int64) :
    read (toStringS64 v) = some (toStringS64 (truncateIntValue v .signed size)) ↔
      CutsTo (intRange .signed size) (2 ^ bits) v.toInt v.toInt := by
  have hstr : (strtoll (toStringS64 v)).toInt = Int.bmod v.toInt (2 ^ 64) := by
    rw [strtoll_toStringS64, ← toInt_bmod]
  rw [signed_agrees hsize hbits hread hstr, cut_sub_mod (intRange_le hsize)]

omit hsize in
theorem set_signed_unsigned (x : Int64) (v : UInt64) :
    read (toStringS64 v.toInt64) = some (toStringS64 x) ↔
      (-2 ^ (bits - 1) ≤ x.toInt ∧ x.toInt < 2 ^ (bits - 1)) ∧
        (v.toNat - x.toInt) % 2 ^ bits = 0 := by
  have hv : v.toInt64.toInt = Int.bmod v.toNat (2 ^ 64) := v.toInt64.toBitVec.toInt_eq_toNat_bmod
  rw [hread, strtoll_toStringS64, eq_bmod_iff hbits, hv, Int.bmod_def]
  refine and_congr_right fun _ => ?_
  rcases hbits with rfl | ⟨rfl, -⟩ <;> split <;> omega

theorem add_signed_signed (x v : Int64) {base : Bytes} {b : Int}
    (hbase : (strtoll base).toInt = b) :
    read (toStringS64 (strtoll base + v)) =
        some (toStringS64 (truncateIntValue (addS64 x v) .signed size)) ↔
      CutsTo (intRange .signed size) (2 ^ bits) (cacheSum x.toInt v.toInt) (b + v.toInt) := by
  have hstr : (strtoll (toStringS64 (strtoll base + v))).toInt =
      Int.bmod (b + v.toInt) (2 ^ 64) := by
    rw [strtoll_toStringS64, ← hbase]
    exact Int64.toInt_add _ v
  rw [signed_agrees hsize hbits hread hstr, toInt_addS64, cut_cut hsize,
    cut_sub_mod (intRange_le hsize)]

omit hsize in
theorem add_signed_unsigned (x : Int64) (v : UInt64) {base : Bytes} {b : Int}
    (hbase : ((strtoull base).toNat : Int) = b % 2 ^ 64) :
    read (toStringU64 (strtoull base + v)) = some (toStringS64 x) ↔
      if (b + v.toNat) % 2 ^ 64 < 2 ^ 63 then
        (-2 ^ (bits - 1) ≤ x.toInt ∧ x.toInt < 2 ^ (bits - 1)) ∧
          (b + v.toNat - x.toInt) % 2 ^ bits = 0
      else x.toInt = if bits = 64 then 2 ^ 63 - 1 else -1 := by
  have hsum : ((strtoull base + v).toNat : Int) = (b + v.toNat) % 2 ^ 64 := by
    rw [UInt64.toNat_add]
    omega
  rw [hread, toInt_strtoll_toStringU64, hsum, eq_bmod_iff hbits]
  rcases hbits with rfl | ⟨rfl, -⟩ <;> split <;> omega

end Signed

section Unsigned

variable (hread : Rereads read bits .unsigned)

include hread

theorem set_unsigned (v : UInt64) :
    read (toStringU64 v) = some (toStringU64 (truncateIntValue v.toInt64 .unsigned size).toUInt64) ↔
      CutsTo (intRange .unsigned size) (2 ^ bits) v.toInt64.toInt v.toInt64.toInt := by
  have hstr : ((strtoull (toStringU64 v)).toNat : Int) = v.toInt64.toInt % 2 ^ 64 := by
    rw [strtoull_toStringU64, ← toNat_toUInt64]
    rfl
  rw [unsigned_agrees hsize hbits hread hstr, cut_sub_mod (intRange_le hsize)]

theorem set_unsigned_signed (v : Int64) :
    read (toStringU64 v.toUInt64) =
        some (toStringU64 (truncateIntValue v .unsigned size).toUInt64) ↔
      CutsTo (intRange .unsigned size) (2 ^ bits) v.toInt v.toInt := by
  have hset := set_unsigned hsize hbits hread v.toUInt64
  rwa [Int64.toInt64_toUInt64] at hset

theorem add_unsigned_signed (x : UInt64) (v : Int64) {base : Bytes} {b : Int}
    (hbase : (strtoll base).toInt = b) :
    read (toStringS64 (strtoll base + v)) =
        some (toStringU64 (truncateIntValue (addS64 x.toInt64 v) .unsigned size).toUInt64) ↔
      CutsTo (intRange .unsigned size) (2 ^ bits) (cacheSum x.toInt64.toInt v.toInt)
        (b + v.toInt) := by
  have hstr : ((strtoull (toStringS64 (strtoll base + v))).toNat : Int) =
      (b + v.toInt) % 2 ^ 64 := by
    rw [strtoull_toStringS64, toNat_toUInt64, Int64.toInt_add, hbase, Int.bmod_def]
    split <;> omega
  rw [unsigned_agrees hsize hbits hread hstr, toInt_addS64, cut_cut hsize,
    cut_sub_mod (intRange_le hsize)]

omit hsize in
theorem add_unsigned_unsigned (x v : UInt64) {base : Bytes} {b : Int}
    (hbase : ((strtoull base).toNat : Int) = b) :
    read (toStringU64 (strtoull base + v)) = some (toStringU64 x) ↔
      x.toNat < 2 ^ bits ∧ (b + v.toNat - x.toNat) % 2 ^ bits = 0 := by
  have hx := x.toNat_lt
  rw [hread, strtoull_toStringU64, UInt64.toNat_add]
  rcases hbits with rfl | ⟨rfl, -⟩ <;> omega

end Unsigned

theorem set_agrees {ft vt : FieldType} (last : Bool) (hread : Rereads read bits ft) (x : ft.Value)
    (v : vt.Value) (h : validxtype .set ft vt = true) (hlen : IntLen vt v) :
    read (ft.toStr (readAs ft vt h v)) = some (ft.toStr (updateValue size ft x .set vt v)) ↔
      Agreeing size bits last ft x .set vt v := by
  cases ft with
  | signed =>
    cases vt with
    | signed => exact set_signed_signed hsize hbits hread v
    | unsigned => exact set_signed_unsigned hbits hread x v
    | string | binary => cases h
  | unsigned =>
    cases vt with
    | signed => exact set_unsigned_signed hsize hbits hread v
    | unsigned => exact set_unsigned hsize hbits hread v
    | string | binary => cases h
  | string =>
    cases vt with
    | string => exact str_agrees hread hlen
    | signed | unsigned | binary => cases h
  | binary =>
    cases vt with
    | signed | unsigned => cases h
    | string => exact str_agrees hread hlen
    | binary => exact str_agrees hread hlen

theorem add_agrees {ft vt : FieldType} (last : Bool) (hread : Rereads read bits ft) (x : ft.Value)
    (v : vt.Value) (h : validxtype .add ft vt = true) :
    read (valueAddToStr (if last then [] else ft.toStr x) vt v) =
        some (ft.toStr (updateValue size ft x .add vt v)) ↔
      Agreeing size bits last ft x .add vt v := by
  cases ft with
  | signed =>
    cases vt with
    | signed =>
      refine add_signed_signed hsize hbits hread x v ?_
      cases last with
      | true => rfl
      | false => exact congrArg Int64.toInt (strtoll_toStringS64 x)
    | unsigned =>
      refine add_signed_unsigned hbits hread x v ?_
      cases last with
      | true => rfl
      | false =>
        have hx := strtoull_toStringS64 x
        exact hx ▸ toNat_toUInt64 x
    | string | binary => cases h
  | unsigned =>
    cases vt with
    | signed =>
      refine add_unsigned_signed hsize hbits hread x v ?_
      cases last with
      | true => rfl
      | false => exact toInt_strtoll_toStringU64 x
    | unsigned =>
      refine add_unsigned_unsigned hbits hread x v ?_
      cases last with
      | true => rfl
      | false => exact congrArg (fun y : UInt64 => (y.toNat : Int)) (strtoull_toStringU64 x)
    | string | binary => cases h
  | string => cases vt <;> cases h
  | binary => cases vt <;> cases h

end Field

theorem update_single (op : FieldOper t) (row : Row t) :
    update [op] row op.id = updateValue (t.field op.id).size (t.type op.id) (row op.id) op.oper
      op.type op.val :=
  Row.set_self ..

theorem baseStr_single (row : Row t) {i : t.FieldId} (op : Operation t i) :
    row.baseStr [⟨i, op⟩] i =
      if decide (t.valueFields.getLast? = some i) then [] else row.str i := by
  by_cases hlast : t.valueFields.getLast? = some i
  · have hvalue : updatesValue [⟨i, op⟩] = true := by
      have hmem := List.mem_of_getLast? hlast
      simpa [updatesValue, Table.valueFields] using hmem
    rw [Row.baseStr, if_pos hvalue, Row.splitStr, if_pos hlast, if_pos (decide_eq_true hlast)]
  · rw [baseStr_of_ne_last hlast, if_neg (by simpa using hlast)]

/-- The cached value of an updated field is the one that is read back from the storage, exactly if
the operation is agreeing. -/
theorem updateAgrees_iff (op : FieldOper t) (row : Row t) (hsize : 0 < (t.field op.id).size)
    (hoper : op.oper = .set ∨ op.oper = .add) :
    UpdateAgrees op row ↔ Agreeing (t.field op.id).size (storeBits t op.id)
      (t.valueFields.getLast? = some op.id) (t.type op.id) (row op.id) op.oper op.type op.val := by
  have hbits := keeps t op.id
  have hread := rereads t op.id
  rw [UpdateAgrees, update_single, FieldOper.stored]
  obtain ⟨id, oper, type, val, valid, intLen⟩ := op
  cases oper with
  | set =>
    rw [← set_agrees hsize hbits _ hread (row id) val valid intLen]
    simp [FieldOper.toOperation, applyOperations]
  | add =>
    rw [← add_agrees hsize hbits _ hread (row id) val valid]
    simp [FieldOper.toOperation, applyOperations, baseStr_single, Row.str]
  | setBits => simp at hoper
  | or => simp at hoper

attribute [local instance (2000)] Table.neZero_three in
/-- A key, a signed byte and a note. -/
def byteTable : Table where
  numFields := 2
  column i := if i = 0 then ⟨⟨.string, 32⟩, ([] : Bytes)⟩
    else if i = 1 then ⟨⟨.signed, 1⟩, (0 : Int64)⟩ else ⟨⟨.string, 64⟩, ([] : Bytes)⟩
  uniqFields := [0]
  head_uniqFields := Table.head?_first_three
  nodup_uniqFields := Table.nodup_first_three

/-- The byte `100`. -/
def byteRow : Row byteTable :=
  Row.set (t := byteTable) (fun i => (byteTable.column i).defaultValue) 1 (100 : Int64)

def byteAdd (v : Int64) : FieldOper byteTable := ⟨1, .add, .signed, v, rfl, trivial⟩

theorem updateAgrees_byteAdd : UpdateAgrees (byteAdd 27) byteRow := by
  refine (updateAgrees_iff (byteAdd 27) byteRow (by decide) (.inr rfl)).mpr ?_
  exact .inl (by decide +kernel)

/-- The sum of `100` and `100` is `127` in the cache and `200` in the storage. -/
theorem not_updateAgrees_byteAdd : ¬ UpdateAgrees (byteAdd 100) byteRow := by
  rintro ⟨strs, happly, hread⟩
  obtain rfl := Option.some.inj happly
  exact absurd hread (by decide +kernel)

end ISearch.FieldValue
