import ISearch.KeyFormat.Fields

/-!
# The key codec

A `Row types` is a list of field values of the given types, and `Row.strings` are the strings in
which the callers pass them. `codec` states that `Decode` inverts `Encode` on every row and that
the bytes of two keys compare as the rows do, field by field.
-/

namespace ISearch.KeyFormat

open List

/-! ## Decimal strings are read back -/

theorem isDigit_ofNat {d : Nat} (hd : d < 10) : isDigit (UInt8.ofNat (48 + d)) = true := by
  interval_cases d <;> rfl

theorem toNat_digit {d : Nat} (hd : d < 10) : (UInt8.ofNat (48 + d)).toNat - 48 = d := by
  interval_cases d <;> rfl

theorem not_sign_of_isDigit {c : UInt8} (hc : isDigit c = true) :
    isSpace c = false ∧ c ≠ 45 ∧ c ≠ 43 := by
  simp only [isDigit, Bool.and_eq_true, decide_eq_true_eq, UInt8.le_iff_toNat_le] at hc
  simp only [isSpace, Bool.or_eq_false_iff, beq_eq_false_iff_ne, ne_eq, Bool.and_eq_false_iff,
    decide_eq_false_iff_not, UInt8.le_iff_toNat_le, ← UInt8.toNat_inj]
  have h48 : UInt8.toNat 48 = 48 := rfl
  have h45 : UInt8.toNat 45 = 45 := rfl
  have h43 : UInt8.toNat 43 = 43 := rfl
  have h32 : UInt8.toNat 32 = 32 := rfl
  have h13 : UInt8.toNat 13 = 13 := rfl
  omega

theorem digitsValue_append {a b : Bytes} (ha : ∀ c ∈ a, isDigit c = true) (acc : Nat) :
    digitsValue acc (a ++ b) = digitsValue (digitsValue acc a) b := by
  induction a generalizing acc with
  | nil => rfl
  | cons c a ih =>
    have hc := ha c (mem_cons_self ..)
    rw [cons_append, digitsValue, digitsValue, if_pos hc, if_pos hc]
    exact ih (fun c hc => ha c (mem_cons_of_mem _ hc)) _

theorem isDigit_of_mem_decimal {n : Nat} : ∀ c ∈ decimal n, isDigit c = true := by
  induction n using Nat.strong_induction_on with
  | h n ih =>
    intro c hc
    rw [decimal] at hc
    split_ifs at hc with hn
    · rw [mem_singleton.mp hc]
      exact isDigit_ofNat hn
    · rcases mem_append.mp hc with hc | hc
      · exact ih (n / 10) (by omega) c hc
      · rw [mem_singleton.mp hc]
        exact isDigit_ofNat (by omega)

theorem digitsValue_decimal (n : Nat) : digitsValue 0 (decimal n) = n := by
  induction n using Nat.strong_induction_on with
  | h n ih =>
    rw [decimal]
    split_ifs with hn
    · rw [digitsValue, if_pos (isDigit_ofNat hn), toNat_digit hn, digitsValue]
      omega
    · have hd : n % 10 < 10 := by omega
      rw [digitsValue_append isDigit_of_mem_decimal, ih (n / 10) (by omega), digitsValue,
        if_pos (isDigit_ofNat hd), toNat_digit hd, digitsValue]
      omega

theorem decimal_ne_nil (n : Nat) : decimal n ≠ [] := by
  rw [decimal]
  split_ifs <;> simp

theorem strtonum_decimal_append (n : Nat) (rest : Bytes) :
    strtonum (decimal n ++ rest) = (false, digitsValue n rest) := by
  obtain ⟨c, s, hcs⟩ := exists_cons_of_ne_nil (decimal_ne_nil n)
  have hc : isDigit c = true := isDigit_of_mem_decimal c (hcs ▸ mem_cons_self ..)
  have hvalue : digitsValue 0 (decimal n ++ rest) = digitsValue n rest := by
    rw [digitsValue_append isDigit_of_mem_decimal, digitsValue_decimal]
  rw [hcs, cons_append] at hvalue ⊢
  obtain ⟨hspace, hminus, hplus⟩ := not_sign_of_isDigit hc
  rw [strtonum, dropWhile_cons_of_neg (by simp [hspace])]
  split
  · rename_i heq
    exact absurd (List.cons.inj heq).1 hminus
  · rename_i heq
    exact absurd (List.cons.inj heq).1 hplus
  · rw [hvalue]

theorem strtonum_minus_decimal_append (n : Nat) (rest : Bytes) :
    strtonum (45 :: (decimal n ++ rest)) = (true, digitsValue n rest) := by
  have hspace : isSpace 45 = false := rfl
  rw [strtonum, dropWhile_cons_of_neg (by simp [hspace])]
  simp [digitsValue_append isDigit_of_mem_decimal, digitsValue_decimal]

theorem strtonum_decimal (n : Nat) : strtonum (decimal n) = (false, n) := by
  simpa [digitsValue] using strtonum_decimal_append n []

theorem strtonum_minus_decimal (n : Nat) : strtonum (45 :: decimal n) = (true, n) := by
  simpa [digitsValue] using strtonum_minus_decimal_append n []

theorem strtoll_toStringS64 (x : Int64) : strtoll (toStringS64 x) = x := by
  have hlo := x.le_toInt
  have hhi := x.toInt_lt
  rw [toStringS64]
  split_ifs with h
  · have habs : max (-(2 ^ 63)) (-(x.toInt.natAbs : Int)) = x.toInt := by omega
    rw [strtoll, strtonum_minus_decimal]
    simp only [if_true, habs, Int64.ofInt_toInt]
  · have habs : min (2 ^ 63 - 1) (x.toInt.natAbs : Int) = x.toInt := by omega
    rw [strtoll, strtonum_decimal]
    simp only [Bool.false_eq_true, if_false, habs, Int64.ofInt_toInt]

theorem strtoull_toStringU64 (x : UInt64) : strtoull (toStringU64 x) = x := by
  have hx := x.toNat_lt
  rw [toStringU64, strtoull, strtonum_decimal]
  simp only [Bool.false_eq_true, if_false, if_neg (Nat.not_le.mpr hx), UInt64.ofNat_toNat]

theorem substr_mid (pre k post : Bytes) :
    substr (pre ++ (k ++ post)) pre.length k.length = some k := by
  rw [substr, if_pos (by simp), drop_left, take_left]

theorem decodeField_s64 (x : Int64) (pre post : Bytes) :
    decodeField (pre ++ (encodeBytesS64 x ++ post)) pre.length .signed =
      some (toStringS64 x, pre.length + (encodeBytesS64 x).length) := by
  have hsub := substr_mid pre (encodeBytesS64 x) post
  rw [length_encodeBytesS64] at hsub ⊢
  simp [decodeField, hsub, decodeBytesS64_encodeBytesS64]

theorem decodeField_u64 (x : UInt64) (pre post : Bytes) :
    decodeField (pre ++ (encodeBytesU64 x ++ post)) pre.length .unsigned =
      some (toStringU64 x, pre.length + (encodeBytesU64 x).length) := by
  have hsub := substr_mid pre (encodeBytesU64 x) post
  rw [length_encodeBytesU64] at hsub ⊢
  simp [decodeField, hsub, decodeBytesU64_encodeBytesU64]

theorem decodeField_bytes (x pre post : Bytes) :
    decodeField (pre ++ (encodeBytes x ++ post)) pre.length .string =
      some (x, pre.length + (encodeBytes x).length) := by
  rw [decodeField, segmentsEnd_encodeBytes]
  simp [substr_mid, decodeBytes_encodeBytes]

/-! ## Rows -/

/-- The values of a field type. -/
def FieldType.Value : FieldType → Type
  | .signed => Int64
  | .unsigned => UInt64
  | .string | .binary => Bytes

namespace FieldType

/-- The string in which a value is passed. -/
def toStr : (t : FieldType) → t.Value → Bytes
  | .signed, x => toStringS64 x
  | .unsigned, x => toStringU64 x
  | .string, x | .binary, x => x

/-- The order of a field type: signed, unsigned, and bytewise. -/
def cmp : (t : FieldType) → t.Value → t.Value → Ordering
  | .signed => fun x y : Int64 => compare x y
  | .unsigned => fun x y : UInt64 => compare x y
  | .string | .binary => fun x y : Bytes => compare x y

/-- The bytes of a value. -/
def enc (t : FieldType) (x : t.Value) : Bytes := encodeField (t.toStr x) t

theorem orderCode (t : FieldType) : OrderCode t.cmp t.enc := by
  cases t with
  | signed =>
    have henc : FieldType.signed.enc = encodeBytesS64 :=
      funext fun x : Int64 => congrArg encodeBytesS64 (strtoll_toStringS64 x)
    rw [henc]
    exact orderCode_s64
  | unsigned =>
    have henc : FieldType.unsigned.enc = encodeBytesU64 :=
      funext fun x : UInt64 => congrArg encodeBytesU64 (strtoull_toStringU64 x)
    rw [henc]
    exact orderCode_u64
  | string => exact orderCode_bytes
  | binary => exact orderCode_bytes

theorem cmp_eq_eq (t : FieldType) {x y : t.Value} : t.cmp x y = .eq ↔ x = y := by
  cases t <;> exact Std.LawfulEqOrd.compare_eq_iff_eq

/-- `Decode` reads a field back, wherever it stands. -/
theorem decodeField_enc (t : FieldType) (x : t.Value) (pre post : Bytes) :
    decodeField (pre ++ (t.enc x ++ post)) pre.length t =
      some (t.toStr x, pre.length + (t.enc x).length) := by
  cases t with
  | signed =>
    have henc : FieldType.signed.enc x = encodeBytesS64 x :=
      congrArg encodeBytesS64 (strtoll_toStringS64 x)
    rw [henc]
    exact decodeField_s64 x pre post
  | unsigned =>
    have henc : FieldType.unsigned.enc x = encodeBytesU64 x :=
      congrArg encodeBytesU64 (strtoull_toStringU64 x)
    rw [henc]
    exact decodeField_u64 x pre post
  | string => exact decodeField_bytes x pre post
  | binary => exact decodeField_bytes x pre post

end FieldType

/-- Field values of the given types. -/
def Row : List FieldType → Type
  | [] => Unit
  | t :: types => t.Value × Row types

namespace Row

/-- The strings in which the values are passed to `Encode`. -/
def strings : (types : List FieldType) → Row types → List Bytes
  | [], _ => []
  | t :: types, row => t.toStr row.1 :: strings types row.2

/-- Lexicographic comparison, field by field. -/
def cmp : (types : List FieldType) → Row types → Row types → Ordering
  | [], _, _ => .eq
  | t :: types, u, v => (t.cmp u.1 v.1).then (cmp types u.2 v.2)

def enc : (types : List FieldType) → Row types → Bytes
  | [], _ => []
  | t :: types, row => t.enc row.1 ++ enc types row.2

theorem orderCode (types : List FieldType) : OrderCode (cmp types) (enc types) := by
  induction types with
  | nil => exact .nil
  | cons t types ih => exact t.orderCode.append ih

theorem encode_strings (types : List FieldType) (u : Row types) :
    encode (strings types u) types = some (enc types u) := by
  induction types with
  | nil => rfl
  | cons t types ih => simp [strings, encode, enc, ih, FieldType.enc]

theorem decodeFrom_enc (types : List FieldType) (u : Row types) (pre : Bytes) :
    decodeFrom (pre ++ enc types u) pre.length types = some (strings types u) := by
  induction types generalizing pre with
  | nil => rfl
  | cons t types ih =>
    have hrest := ih u.2 (pre ++ t.enc u.1)
    rw [append_assoc, length_append] at hrest
    rw [enc, decodeFrom, t.decodeField_enc]
    simp [hrest, strings]

end Row

/-- `Decode` inverts `Encode`, keys compare as the rows they encode, and the code of a field value
is a prefix of no code but its own. -/
theorem codec (types : List FieldType) (u v : Row types) :
    ∃ eu ev, encode (u.strings types) types = some eu ∧ encode (v.strings types) types = some ev ∧
      decode eu types = some (u.strings types) ∧
      compare eu ev = Row.cmp types u v ∧
      ∀ (t : FieldType) (x y : t.Value), t.enc x <+: t.enc y ↔ x = y := by
  refine ⟨_, _, Row.encode_strings types u, Row.encode_strings types v, ?_,
    (Row.orderCode types).compare_eq u v, ?_⟩
  · exact Row.decodeFrom_enc types u []
  · intro t x y
    constructor
    · intro hpre
      by_contra hne
      exact t.orderCode.not_isPrefix (mt t.cmp_eq_eq.mp hne) hpre
    · rintro rfl
      exact prefix_rfl

end ISearch.KeyFormat
