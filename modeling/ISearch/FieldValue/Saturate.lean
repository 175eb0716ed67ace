import ISearch.FieldValue.Update
import ISearch.RawData.Encode

/-!
# Integers that stay in the range of their field (`field.cc`)

`Update` cuts the results of `Set`, `Add` and `OR` to the range of the field, and leaves those of
`SetBits` and of eight bytes as they are.
-/

namespace ISearch.FieldValue

open KeyFormat RocksProcess

variable {t : Table} {size i : Nat}

/-- The number that the value of an integer field stands for. -/
def number : (ft : FieldType) → ft.Value → Int
  | .signed, v => Int64.toInt v
  | .unsigned, v => UInt64.toNat v
  | .string, _ | .binary, _ => 0

/-- The range of an integer type with `size` bytes. -/
def fieldRange (ft : FieldType) (size : Nat) : Int × Int :=
  if ft = .unsigned then (0, 2 ^ (8 * size) - 1)
  else (-2 ^ (8 * size - 1), 2 ^ (8 * size - 1) - 1)

def InRange (r : Int × Int) (y : Int) : Prop := r.1 ≤ y ∧ y ≤ r.2

/-- The field as `encode_row` and `decode_row` see it. -/
def rawField (f : Field) : RawData.FieldDef where
  type := match f.type with
    | .signed => .signed
    | .unsigned => .unsigned
    | .string => .string
    | .binary => .binary
  size := f.size
  discard := false

def rawValue : (ft : FieldType) → ft.Value → RawData.DTCValue
  | .signed, v => .s64 v
  | .unsigned, v => .u64 v
  | .string, v | .binary, v => .bin v

/-- `decode_row` reads the value that `encode_row` wrote, wherever the field lies in the chunk. -/
def ReadsBack (f : Field) (v : f.type.Value) : Prop :=
  ∀ pre post : Bytes,
    let bytes := RawData.encodeField (rawField f) (rawValue f.type v)
    pre.length + bytes.length < 2 ^ 32 →
      RawData.decodeField (rawField f) (pre ++ (bytes ++ post)) pre.length =
        some (rawValue f.type v, pre.length + bytes.length)

/-- `Add` gives the sum, cut to the range of the field; every result lies in the range, and is read
back from the row. -/
def Saturates (op : FieldOper t) (row : Row t) : Prop :=
  let r := fieldRange (t.type op.id) (t.field op.id).size
  let y := update [op] row op.id
  (op.oper = .add →
    number _ y = cut r (number _ (row op.id) + number op.type op.val)) ∧
  InRange r (number _ y) ∧ ReadsBack (t.field op.id) y

/-- Bit `i` after `SetBits`, which the operand gives or leaves. -/
def bitAfter (x v : UInt64) (i : Nat) : Bool :=
  let off := v.toNat / 2 ^ 32 % 2 ^ 24
  let size := v.toNat / 2 ^ 56
  if off ≤ i ∧ i < off + min size 32 then v.toNat.testBit (i - off) else x.toNat.testBit i

/-- The bits above a field of `size` bytes extend its value. -/
def Extends (size : Nat) (ft : FieldType) (bit : Nat → Bool) : Prop :=
  if ft = .unsigned then ∀ i, 8 * size ≤ i → i < 64 → bit i = false
  else ∀ i, 8 * size - 1 ≤ i → i < 64 → bit i = bit 63

/-- The operations and old values for which the result is right. A signed sum of eight bytes must
not be that of the two least numbers. An unsigned one must stay in its half of the range, or be
`0` as the sum of the numbers in the middle. An operand of type Unsigned is not added. -/
def Saturating (size : Nat) :
    (ft : FieldType) → ft.Value → Oper → (vt : FieldType) → vt.Value → Prop
  | .signed, x, .add, .signed, v =>
    ¬ (Int64.toInt x = -2 ^ 63 ∧ Int64.toInt v = -2 ^ 63)
  | .unsigned, x, .add, .signed, v =>
    size = 8 →
      if UInt64.toNat x < 2 ^ 63 then
        0 ≤ UInt64.toNat x + Int64.toInt v ∧ UInt64.toNat x + Int64.toInt v < 2 ^ 63
      else
        (2 ^ 63 ≤ UInt64.toNat x + Int64.toInt v ∧ UInt64.toNat x + Int64.toInt v < 2 ^ 64) ∨
          UInt64.toNat x + Int64.toInt v = 0
  | .signed, x, .add, .unsigned, v =>
    UInt64.toNat v = 0 ∨ Int64.toInt x = (fieldRange .signed size).2
  | .unsigned, x, .add, .unsigned, v =>
    UInt64.toNat v = 0 ∨ UInt64.toNat x = (fieldRange .unsigned size).2
  | .signed, x, .setBits, .signed, v =>
    Extends size .signed (bitAfter (Int64.toUInt64 x) (Int64.toUInt64 v))
  | .signed, x, .setBits, .unsigned, v => Extends size .signed (bitAfter (Int64.toUInt64 x) v)
  | .unsigned, x, .setBits, .signed, v => Extends size .unsigned (bitAfter x (Int64.toUInt64 v))
  | .unsigned, x, .setBits, .unsigned, v => Extends size .unsigned (bitAfter x v)
  | _, _, _, _, _ => True

theorem testBit_ofNat_mul (m off : Nat) (hi : i < 64) :
    (UInt64.ofNat (m * 2 ^ off)).toNat.testBit i = (decide (off ≤ i) && m.testBit (i - off)) := by
  rw [UInt64.toNat_ofNat', Nat.testBit_mod_two_pow, Nat.testBit_mul_two_pow]
  simp [hi]

theorem testBit_not (x : UInt64) (hi : i < 64) :
    (~~~x).toNat.testBit i = !x.toNat.testBit i := by
  have hx := x.toNat_lt
  have hnot : (~~~x).toNat = 2 ^ 64 - (x.toNat + 1) := by
    rw [UInt64.toNat_not, Nat.sub_sub, add_comm 1]
    rfl
  rw [hnot, Nat.testBit_two_pow_sub_succ hx]
  simp [hi]

theorem testBit_setBitsInt (x v : UInt64) (hi : i < 64) :
    (setBitsInt x v).toNat.testBit i = bitAfter x v i := by
  have hv := v.toNat_lt
  have hhi : (v >>> 32).toUInt32.toNat = v.toNat / 2 ^ 32 := by
    rw [UInt64.toNat_toUInt32, UInt64.toNat_shiftRight, Nat.shiftRight_eq_div_pow,
      Nat.mod_eq_of_lt]
    · rfl
    · exact Nat.div_lt_of_lt_mul hv
  have hsize : ((v >>> 32).toUInt32 >>> 24).toNat = v.toNat / 2 ^ 56 := by
    rw [UInt32.toNat_shiftRight, hhi, Nat.shiftRight_eq_div_pow, Nat.div_div_eq_div_mul]
    rfl
  have hoff : ((v >>> 32).toUInt32 &&& 0xFFFFFF).toNat = v.toNat / 2 ^ 32 % 2 ^ 24 := by
    rw [UInt32.toNat_and, hhi]
    exact Nat.and_two_pow_sub_one_eq_mod _ 24
  have hvalue : (v &&& 0xFFFFFFFF).toNat = v.toNat % 2 ^ 32 := by
    rw [UInt64.toNat_and]
    exact Nat.and_two_pow_sub_one_eq_mod _ 32
  simp only [setBitsInt, hsize, hoff, hvalue, bitAfter]
  generalize v.toNat / 2 ^ 32 % 2 ^ 24 = off
  generalize v.toNat / 2 ^ 56 = size
  split
  · rename_i h
    rw [if_neg (by omega)]
  · rename_i h
    rw [UInt64.toNat_or, UInt64.toNat_and, UInt64.toNat_and, Nat.testBit_or, Nat.testBit_and,
      Nat.testBit_and, testBit_not _ hi, testBit_ofNat_mul _ _ hi, testBit_ofNat_mul _ _ hi,
      Nat.testBit_two_pow_sub_one, Nat.testBit_mod_two_pow]
    by_cases hin : off ≤ i ∧ i < off + min size 32
    · have hlt : i - off < min (min size 32) (64 - off) := by omega
      have h32 : i - off < 32 := by omega
      rw [if_pos hin, decide_eq_true hin.1, decide_eq_true hlt, decide_eq_true h32]
      simp
    · have hnot : ¬ (off ≤ i ∧ i - off < min (min size 32) (64 - off)) := by omega
      rw [if_neg hin, ← Bool.decide_and, decide_eq_false hnot]
      rw [Bool.not_false, Bool.and_true, Bool.and_false, Bool.or_false]

/-- The bits of an unsigned number above `k` are those of `0`. -/
theorem toNat_lt_iff_testBit (y : UInt64) (k : Nat) :
    y.toNat < 2 ^ k ↔ ∀ i, k ≤ i → i < 64 → y.toNat.testBit i = false := by
  constructor
  · intro h i hki _
    exact Nat.testBit_lt_two_pow (lt_of_lt_of_le h (Nat.pow_le_pow_right (by decide) hki))
  · intro h
    refine Nat.lt_pow_two_of_testBit _ fun i hki => ?_
    by_cases hi : i < 64
    · exact h i hki hi
    · exact Nat.testBit_lt_two_pow
        (lt_of_lt_of_le y.toNat_lt (Nat.pow_le_pow_right (by decide) (by omega)))

theorem toInt_mem_iff_testBit (y : UInt64) {k : Nat} (hk : k < 64) :
    (-2 ^ k ≤ y.toInt64.toInt ∧ y.toInt64.toInt < 2 ^ k) ↔
      ∀ i, k ≤ i → i < 64 → y.toNat.testBit i = y.toNat.testBit 63 := by
  have hy := y.toNat_lt
  have hint : y.toInt64.toInt = Int.bmod y.toNat (2 ^ 64) :=
    y.toInt64.toBitVec.toInt_eq_toNat_bmod
  have hpow : (2 : Int) ^ k = (2 ^ k : Nat) := by norm_cast
  have hle : 2 ^ k ≤ 2 ^ 63 := Nat.pow_le_pow_right (by decide) (by omega)
  rw [hint, Int.bmod_def, hpow]
  by_cases hneg : y.toNat < 2 ^ 63
  · have h63 : y.toNat.testBit 63 = false := Nat.testBit_lt_two_pow hneg
    rw [h63, ← toNat_lt_iff_testBit, if_pos (by omega)]
    omega
  · have h63 : y.toNat.testBit 63 = true := by
      by_contra hbit
      refine hneg ((toNat_lt_iff_testBit y 63).mpr fun i hi hi' => ?_)
      rw [show i = 63 by omega]
      exact Bool.eq_false_iff.mpr hbit
    have hnot : (~~~y).toNat = 2 ^ 64 - (y.toNat + 1) := by
      rw [UInt64.toNat_not, Nat.sub_sub, add_comm 1]
      rfl
    have hbits : (~~~y).toNat < 2 ^ k ↔ ∀ i, k ≤ i → i < 64 → y.toNat.testBit i = true := by
      rw [toNat_lt_iff_testBit]
      refine forall_congr' fun i => forall_congr' fun _ => forall_congr' fun hi => ?_
      rw [testBit_not _ hi, Bool.not_eq_false']
    rw [h63, ← hbits, hnot, if_neg (by omega)]
    omega

/-! ## One value -/

theorem fieldRange_signed (hle : size ≤ 8) :
    fieldRange .signed size = intRange .signed size := by
  rw [fieldRange, if_neg (by decide), intRange]
  split
  · rw [show size = 8 by omega]
  · rw [if_neg (by decide)]

theorem fieldRange_unsigned (hlt : size < 8) :
    fieldRange .unsigned size = intRange .unsigned size := by
  rw [fieldRange, if_pos rfl, intRange, if_neg (by omega), if_pos rfl]

theorem fieldRange_le (ft : FieldType) (size : Nat) :
    (fieldRange ft size).1 ≤ (fieldRange ft size).2 := by
  have hpow (k : Nat) : (0 : Int) < 2 ^ k := by positivity
  have hunsigned := hpow (8 * size)
  have hsigned := hpow (8 * size - 1)
  rw [fieldRange]
  split
  · dsimp only
    omega
  · dsimp only
    omega

theorem number_truncate_signed (hsize : 0 < size) (hle : size ≤ 8) (v : Int64) :
    (truncateIntValue v .signed size).toInt = cut (fieldRange .signed size) v.toInt := by
  rw [fieldRange_signed hle]
  exact toInt_truncateIntValue (.inl rfl) hsize v

theorem number_truncate_unsigned (hsize : 0 < size) (hlt : size < 8) (v : Int64) :
    ((truncateIntValue v .unsigned size).toUInt64.toNat : Int) =
      cut (fieldRange .unsigned size) v.toInt := by
  have hcut : (truncateIntValue v .unsigned size).toInt = cut (intRange .unsigned size) v.toInt :=
    toInt_truncateIntValue (.inr rfl) hsize v
  have hwithin := @intRange_within .unsigned size hsize
  have hmem := cut_mem (@intRange_le .unsigned size hsize) v.toInt
  have hzero : (intRange .unsigned size).1 = 0 := by
    rw [← fieldRange_unsigned hlt, fieldRange, if_pos rfl]
  rw [toNat_toUInt64, hcut, fieldRange_unsigned hlt]
  exact Int.emod_eq_of_lt (by omega) (by omega)

/-- A result that was cut lies in the range. -/
theorem inRange_truncate_unsigned (hsize : 0 < size) (hle : size ≤ 8) (v : Int64) :
    InRange (fieldRange .unsigned size)
      (number .unsigned (truncateIntValue v .unsigned size).toUInt64) := by
  by_cases hlt : size < 8
  · have hnum : number .unsigned (truncateIntValue v .unsigned size).toUInt64 =
        cut (fieldRange .unsigned size) v.toInt := number_truncate_unsigned hsize hlt v
    rw [hnum]
    exact cut_mem (fieldRange_le ..) _
  · have hy := (truncateIntValue v .unsigned size).toUInt64.toNat_lt
    rw [show size = 8 by omega] at hy ⊢
    exact ⟨Int.natCast_nonneg _, by change (_ : Int) ≤ 2 ^ 64 - 1; dsimp only [number]; omega⟩

theorem add_signed (hsize : 0 < size) (hle : size ≤ 8) {x v : Int64}
    (hx : InRange (fieldRange .signed size) x.toInt) :
    (truncateIntValue (addS64 x v) .signed size).toInt =
        cut (fieldRange .signed size) (x.toInt + v.toInt) ↔
      ¬ (x.toInt = -2 ^ 63 ∧ v.toInt = -2 ^ 63) := by
  rw [number_truncate_signed hsize hle, toInt_addS64, cacheSum, apply_ite (cut (-2 ^ 63, 2 ^ 63 - 1)),
    fieldRange_signed hle]
  rw [fieldRange_signed hle] at hx
  split
  · rename_i hmin
    have h8 : size = 8 := by
      by_contra hne
      have hlt : size < 8 := by omega
      have hlo := hx.1
      rw [intRange, if_neg (by omega), if_neg (by decide)] at hlo
      interval_cases size <;> omega
    rw [h8, hmin.1, hmin.2]
    decide
  · rename_i hmin
    exact ⟨fun _ => hmin, fun _ => cut_cut hsize _⟩

theorem add_unsigned (hsize : 0 < size) (hle : size ≤ 8) {x : UInt64} {v : Int64}
    (hx : InRange (fieldRange .unsigned size) x.toNat) :
    ((truncateIntValue (addS64 x.toInt64 v) .unsigned size).toUInt64.toNat : Int) =
        cut (fieldRange .unsigned size) (x.toNat + v.toInt) ↔
      Saturating size .unsigned x .add .signed v := by
  have hxint : x.toInt64.toInt = Int.bmod x.toNat (2 ^ 64) :=
    x.toInt64.toBitVec.toInt_eq_toNat_bmod
  have hxlt := x.toNat_lt
  have hlo := v.le_toInt
  have hhi := v.toInt_lt
  have hadd := toInt_addS64 x.toInt64 v
  rw [hxint, cacheSum, apply_ite (cut _)] at hadd
  by_cases hlt : size < 8
  · have hsmall : (x.toNat : Int) < 2 ^ 63 := by
      have hx2 := hx.2
      have hwithin := @intRange_within .unsigned size hsize
      rw [fieldRange_unsigned hlt] at hx2
      omega
    have hbmod : Int.bmod x.toNat (2 ^ 64) = x.toNat := Int.bmod_eq_of_le (by omega) (by omega)
    rw [hbmod, if_neg (by omega)] at hadd
    rw [number_truncate_unsigned hsize hlt, hadd, fieldRange_unsigned hlt, cut_cut hsize]
    exact iff_of_true rfl fun h8 => absurd h8 (by omega)
  · obtain rfl : size = 8 := by omega
    have htrunc : truncateIntValue (addS64 x.toInt64 v) .unsigned 8 = addS64 x.toInt64 v := rfl
    have hrange : fieldRange .unsigned 8 = (0, 2 ^ 64 - 1) := rfl
    have hcond : Saturating 8 .unsigned x .add .signed v ↔ if x.toNat < 2 ^ 63 then
        0 ≤ x.toNat + v.toInt ∧ x.toNat + v.toInt < 2 ^ 63 else
        (2 ^ 63 ≤ x.toNat + v.toInt ∧ x.toNat + v.toInt < 2 ^ 64) ∨ x.toNat + v.toInt = 0 :=
      forall_prop_of_true rfl
    have hcut (y : Int) : cut (0, 2 ^ 64 - 1) y =
        if y < 0 then 0 else if 2 ^ 64 - 1 < y then 2 ^ 64 - 1 else y := rfl
    rw [htrunc, toNat_toUInt64, hrange, hcond, hcut]
    by_cases hhalf : x.toNat < 2 ^ 63
    · rw [Int.bmod_eq_of_le (by omega) (by omega), if_neg (by omega), cut] at hadd
      rw [if_pos hhalf]
      split at hadd
      · split <;> omega
      · split at hadd <;> split <;> omega
    · have hbmod : Int.bmod x.toNat (2 ^ 64) = x.toNat - 2 ^ 64 := by
        rw [Int.bmod_def]
        split <;> omega
      rw [hbmod, cut, cut] at hadd
      rw [if_neg hhalf, if_neg (by omega)]
      split at hadd
      · split <;> omega
      · split at hadd
        · split <;> omega
        · split at hadd <;> split <;> omega

/-- A sum that is not added. -/
theorem eq_cut_add_iff {r : Int × Int} {x v : Int} (hx : InRange r x) (hv : 0 ≤ v) :
    x = cut r (x + v) ↔ v = 0 ∨ x = r.2 := by
  obtain ⟨hlo, hhi⟩ := hx
  rw [cut, if_neg (by omega)]
  split <;> omega

theorem setBits_signed (hsize : 0 < size) (hle : size ≤ 8) (x v : UInt64) :
    InRange (fieldRange .signed size) (setBitsInt x v).toInt64.toInt ↔
      Extends size .signed (bitAfter x v) := by
  have hmem := toInt_mem_iff_testBit (setBitsInt x v) (k := 8 * size - 1) (by omega)
  rw [Extends, if_neg (by decide), InRange, fieldRange, if_neg (by decide), Int.le_sub_one_iff,
    hmem]
  refine forall_congr' fun i => forall_congr' fun _ => forall_congr' fun hi => ?_
  rw [testBit_setBitsInt x v hi, testBit_setBitsInt x v (by decide)]

theorem setBits_unsigned (x v : UInt64) :
    InRange (fieldRange .unsigned size) (setBitsInt x v).toNat ↔
      Extends size .unsigned (bitAfter x v) := by
  have hmem := toNat_lt_iff_testBit (setBitsInt x v) (8 * size)
  have hrange : InRange (fieldRange .unsigned size) (setBitsInt x v).toNat ↔
      (setBitsInt x v).toNat < 2 ^ (8 * size) := by
    rw [InRange, fieldRange, if_pos rfl, Int.le_sub_one_iff]
    exact ⟨fun h => by exact_mod_cast h.2, fun h => ⟨Int.natCast_nonneg _, by exact_mod_cast h⟩⟩
  rw [Extends, if_pos rfl, hrange, hmem]
  refine forall_congr' fun i => forall_congr' fun _ => forall_congr' fun hi => ?_
  rw [testBit_setBitsInt x v hi]

/-- What `Saturates` says about the value. -/
def SaturatesValue (size : Nat) (ft : FieldType) (x : ft.Value) (oper : Oper) (vt : FieldType)
    (v : vt.Value) : Prop :=
  (oper = .add → number ft (updateValue size ft x oper vt v) =
    cut (fieldRange ft size) (number ft x + number vt v)) ∧
  InRange (fieldRange ft size) (number ft (updateValue size ft x oper vt v))

theorem saturatesValue_of_add {ft vt : FieldType} {x : ft.Value} {v : vt.Value} :
    SaturatesValue size ft x .add vt v ↔ number ft (updateValue size ft x .add vt v) =
      cut (fieldRange ft size) (number ft x + number vt v) := by
  refine ⟨fun h => h.1 rfl, fun h => ⟨fun _ => h, ?_⟩⟩
  rw [h]
  exact cut_mem (fieldRange_le ..) _

theorem saturatesValue_of_ne_add {ft vt : FieldType} {x : ft.Value} {oper : Oper} {v : vt.Value}
    (h : oper ≠ .add) : SaturatesValue size ft x oper vt v ↔
      InRange (fieldRange ft size) (number ft (updateValue size ft x oper vt v)) :=
  ⟨fun hs => hs.2, fun hs => ⟨fun ha => absurd ha h, hs⟩⟩

theorem numeric_of_validxtype {oper : Oper} {ft vt : FieldType} (hft : ft = .signed ∨ ft = .unsigned)
    (h : validxtype oper ft vt = true) : vt = .signed ∨ vt = .unsigned := by
  cases vt with
  | signed => exact .inl rfl
  | unsigned => exact .inr rfl
  | string | binary => obtain rfl | rfl := hft <;> cases oper <;> cases h

theorem saturatesValue_iff_signed (hsize : 0 < size) (hle : size ≤ 8) {oper : Oper}
    {vt : FieldType} (hvalid : validxtype oper .signed vt = true) (x : FieldType.signed.Value)
    (v : vt.Value) (hx : InRange (fieldRange .signed size) (number .signed x)) :
    SaturatesValue size .signed x oper vt v ↔ Saturating size .signed x oper vt v := by
  have hcut (y : Int64) : InRange (fieldRange .signed size)
      (number .signed (truncateIntValue y .signed size)) := by
    have hnum : number .signed (truncateIntValue y .signed size) =
        cut (fieldRange .signed size) y.toInt := number_truncate_signed hsize hle y
    rw [hnum]
    exact cut_mem (fieldRange_le ..) _
  have hvt := numeric_of_validxtype (.inl rfl) hvalid
  cases oper with
  | set =>
    refine (saturatesValue_of_ne_add (by decide)).trans ?_
    obtain rfl | rfl := hvt
    · exact iff_of_true (hcut v) trivial
    · exact iff_of_true hx trivial
  | add =>
    refine saturatesValue_of_add.trans ?_
    obtain rfl | rfl := hvt
    · exact add_signed hsize hle hx
    · refine (eq_cut_add_iff hx (Int.natCast_nonneg _)).trans ?_
      exact or_congr_left Int.natCast_eq_zero
  | setBits =>
    refine (saturatesValue_of_ne_add (by decide)).trans ?_
    obtain rfl | rfl := hvt <;> exact setBits_signed hsize hle _ _
  | or =>
    refine (saturatesValue_of_ne_add (by decide)).trans ?_
    obtain rfl | rfl := hvt
    · exact iff_of_true (hcut ((show Int64 from x) ||| (show Int64 from v))) trivial
    · exact iff_of_true hx trivial

theorem saturatesValue_iff_unsigned (hsize : 0 < size) (hle : size ≤ 8) {oper : Oper}
    {vt : FieldType} (hvalid : validxtype oper .unsigned vt = true)
    (x : FieldType.unsigned.Value) (v : vt.Value)
    (hx : InRange (fieldRange .unsigned size) (number .unsigned x)) :
    SaturatesValue size .unsigned x oper vt v ↔ Saturating size .unsigned x oper vt v := by
  have hvt := numeric_of_validxtype (.inr rfl) hvalid
  cases oper with
  | set =>
    refine (saturatesValue_of_ne_add (by decide)).trans ?_
    obtain rfl | rfl := hvt
    · exact iff_of_true (inRange_truncate_unsigned hsize hle v) trivial
    · exact iff_of_true (inRange_truncate_unsigned hsize hle (UInt64.toInt64 v)) trivial
  | add =>
    refine saturatesValue_of_add.trans ?_
    obtain rfl | rfl := hvt
    · exact add_unsigned hsize hle hx
    · refine (eq_cut_add_iff hx (Int.natCast_nonneg _)).trans ?_
      exact or_congr_left Int.natCast_eq_zero
  | setBits =>
    refine (saturatesValue_of_ne_add (by decide)).trans ?_
    obtain rfl | rfl := hvt <;> exact setBits_unsigned _ _
  | or =>
    refine (saturatesValue_of_ne_add (by decide)).trans ?_
    obtain rfl | rfl := hvt
    · exact iff_of_true
        (inRange_truncate_unsigned hsize hle (UInt64.toInt64 x ||| (show Int64 from v))) trivial
    · exact iff_of_true hx trivial

theorem readsBack (f : Field) (hft : f.type = .signed ∨ f.type = .unsigned) (hsize : 0 < f.size)
    {v : f.type.Value} (hv : InRange (fieldRange f.type f.size) (number f.type v)) :
    ReadsBack f v := by
  intro pre post bytes hlen
  refine RawData.decodeField_encodeField ?_ hlen
  obtain ⟨ty, size⟩ := f
  rcases hft with rfl | rfl
  · refine ⟨rfl, ?_⟩
    obtain ⟨hlo, hhi⟩ := hv
    by_cases h4 : size ≤ 4
    · right
      dsimp only at hsize hlo hhi
      interval_cases size <;> exact ⟨le_trans (by decide) hlo, lt_of_le_of_lt hhi (by decide)⟩
    · exact .inl (by change (size : Int) > 4; omega)
  · refine ⟨rfl, ?_⟩
    obtain ⟨-, hhi⟩ := hv
    by_cases h4 : size ≤ 4
    · right
      have hlt : (UInt64.toNat v : Int) < 2 ^ 32 := by
        dsimp only at hsize hhi
        interval_cases size <;> exact lt_of_le_of_lt hhi (by decide)
      exact_mod_cast hlt
    · exact .inl (by change (size : Int) > 4; omega)

/-- An operation on an integer field gives what it should exactly if it is a saturating one. -/
theorem saturates_iff (op : FieldOper t) (row : Row t)
    (hft : t.type op.id = .signed ∨ t.type op.id = .unsigned)
    (hsize : 0 < (t.field op.id).size) (hle : (t.field op.id).size ≤ 8)
    (hold : InRange (fieldRange (t.type op.id) (t.field op.id).size) (number _ (row op.id))) :
    Saturates op row ↔ Saturating (t.field op.id).size (t.type op.id) (row op.id) op.oper op.type
      op.val := by
  have hvalue : Saturates op row ↔ SaturatesValue (t.field op.id).size (t.type op.id) (row op.id)
      op.oper op.type op.val := by
    rw [Saturates, update_single]
    exact ⟨fun h => ⟨h.1, h.2.1⟩, fun h => ⟨h.1, h.2, readsBack (t.field op.id) hft hsize h.2⟩⟩
  rw [hvalue]
  have hvalid := op.valid
  generalize row op.id = x at hold
  generalize op.val = v
  rcases hft with hft | hft
  · generalize t.type op.id = ft at hft hvalid x
    subst hft
    exact saturatesValue_iff_signed hsize hle hvalid x v hold
  · generalize t.type op.id = ft at hft hvalid x
    subst hft
    exact saturatesValue_iff_unsigned hsize hle hvalid x v hold

/-- The sum of `100` and `27` in a signed byte. -/
theorem saturates_byteAdd : Saturates (byteAdd 27) byteRow := by
  refine (saturates_iff (byteAdd 27) byteRow (.inl rfl) (by decide) (by decide) ?_).mpr ?_
  · exact ⟨by decide +kernel, by decide +kernel⟩
  · exact fun h => absurd h.1 (by decide +kernel)

attribute [local instance (2000)] Table.neZero_two in
/-- A counter of eight bytes besides the key. -/
def counterTable : Table where
  numFields := 1
  column i := if i = 0 then ⟨⟨.string, 32⟩, ([] : Bytes)⟩ else ⟨⟨.unsigned, 8⟩, (0 : UInt64)⟩
  uniqFields := [0]
  head_uniqFields := Table.head?_first_two
  nodup_uniqFields := Table.nodup_first_two

/-- The counter `1`. -/
def counterRow : Row counterTable :=
  Row.set (t := counterTable) (fun i => (counterTable.column i).defaultValue) 1 (1 : UInt64)

def counterAdd (v : Int64) : FieldOper counterTable := ⟨1, .add, .signed, v, rfl, trivial⟩

/-- The sum of `1` and `-2` is `2 ^ 64 - 1`. -/
theorem not_saturates_counterAdd :
    InRange (fieldRange .unsigned 8) (number .unsigned (counterRow 1)) ∧
      ¬ Saturates (counterAdd (-2)) counterRow := by
  refine ⟨⟨by decide +kernel, by decide +kernel⟩, fun h => ?_⟩
  exact absurd (h.1 rfl) (by decide +kernel)

end ISearch.FieldValue
