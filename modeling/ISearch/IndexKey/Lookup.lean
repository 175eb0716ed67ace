import ISearch.IndexKey.Doubles

/-!
# Keys that are written and keys that are looked up

`index_write` turns the value of a field into the key of a keyword row, `GetDocIdSetByWord` in
`index_read` turns the word of a term query into the key it reads. Each side has its own copy of the
key codec; that of the reader knows the geographic types.

An application is a number. A double is a whole number (see `IndexKey.Doubles`); `none` of `encode`
stands for other doubles, which are left out.
-/

namespace ISearch.IndexKey

open KeyFormat (decimal toStringS64 strtoll encodeBytes encodeBytesS64 htonl atof)

inductive FieldType where
  | int
  | string
  | text
  | ip
  | geoPoint
  | double
  | long
  | geoShape
  | index
  deriving DecidableEq, Repr

inductive Side where
  | writer
  | reader
  deriving DecidableEq, Repr

/-- `EncodeBytes(strtod(value))`, for whole numbers. -/
def encodeDoubleText (value : Bytes) : Option Bytes := do
  let q ← atof value
  if q.den = 1 then some (encodeBytesDouble q.num) else none

/-- One iteration of `KeyFormat::Encode`. -/
def encodeStep (side : Side) (unionKey : Bytes) (field : FieldType × Bytes) : Option Bytes :=
  match field.1 with
  | .int | .long | .ip => some (unionKey ++ encodeBytesS64 (strtoll field.2))
  | .double => (encodeDoubleText field.2).map (unionKey ++ ·)
  | .string | .text => some (unionKey ++ encodeBytes field.2)
  | .geoPoint | .geoShape =>
    match side with
    | .reader => some (unionKey ++ encodeBytes field.2)
    | .writer => some []
  | .index => some []

/-- `KeyFormat::Encode`. -/
def encode (side : Side) (unionKey : List (FieldType × Bytes)) : Option Bytes :=
  unionKey.foldlM (encodeStep side) []

/-- `GenerateDtcKey(appid, "00", key)`, and the key that the reader puts together. -/
def generateDtcKey (appid : UInt32) (key : Bytes) : Bytes :=
  decimal appid.toNat ++ [35, 48, 48, 35] ++ key

/-- A part of an address: up to three digits without a leading zero, at most 255. -/
def octet (s : Bytes) : Option Nat :=
  if s ≠ [] ∧ s.all KeyFormat.isDigit ∧ (s.head? = some 48 → s.length = 1) ∧ s.length ≤ 3 ∧
      KeyFormat.digitsValue 0 s ≤ 255 then some (KeyFormat.digitsValue 0 s)
  else none

/-- `inet_pton(AF_INET, ..)`: the bytes of the address in memory, as a number of a little-endian
host. -/
def inetPton (s : Bytes) : Option UInt32 :=
  match s.splitOn 46 with
  | [a, b, c, d] => do
    let a ← octet a
    let b ← octet b
    let c ← octet c
    let d ← octet d
    return UInt32.ofNat (a + 256 * b + 65536 * c + 16777216 * d)
  | _ => none

def getIpNum (ip : Bytes) : UInt32 := (inetPton ip).elim 0 htonl

/-- A value of an indexed field: a number, an address, a word of a text or a geohash. -/
inductive FieldValue where
  | int (v : Int32)
  | long (v : Int64)
  | double (v : Int)
  | ip (a b c d : UInt8)
  | string (w : Bytes)
  | text (w : Bytes)
  | geo (gisId : Bytes)
  deriving DecidableEq

namespace FieldValue

def fieldType : FieldValue → FieldType
  | int _ => .int
  | long _ => .long
  | double _ => .double
  | ip .. => .ip
  | string _ => .string
  | text _ => .text
  | geo _ => .geoPoint

/-- A double is a whole number of magnitude below `2 ^ 53`. -/
def Valid : FieldValue → Prop
  | double v => v.natAbs < 2 ^ 53
  | _ => True

end FieldValue

def ipText (a b c d : UInt8) : Bytes :=
  [46].intercalate [decimal a.toNat, decimal b.toNat, decimal c.toNat, decimal d.toNat]

/-- `FigureParser::GenerateKeyWords`: the key of a value that is streamed to a text. -/
def figureKey (appid : UInt32) (fieldType : FieldType) (streamKey : Bytes) : Option Bytes :=
  (encode .writer [(fieldType, streamKey)]).map (generateDtcKey appid)

/-- The keys of `GenerateKeyWords` of the parsers, and that of `do_insert_index` for a word. -/
def storedKey (appid : UInt32) : FieldValue → Option Bytes
  | .int v => figureKey appid .int (toStringS64 v.toInt64)
  | .long v => figureKey appid .long (toStringS64 v)
  | .double v => figureKey appid .double (streamDouble v)
  | .ip a b c d => do
    let ipBinary ← inetPton (ipText a b c d)
    (encode .writer [(.ip, decimal (htonl ipBinary).toNat)]).map (generateDtcKey appid)
  | .string w | .text w => some (generateDtcKey appid (encodeBytes w))
  | .geo gisId => some (generateDtcKey appid (encodeBytes gisId))

/-- `GetDocIdSetByWord`, up to the lookup; `none` is a return without one. -/
def lookupKey (isSensitiveWord : Bytes → Bool) (appid : UInt32) (fieldType : FieldType)
    (word : Bytes) : Option Bytes :=
  if isSensitiveWord word then none
  else if fieldType = .ip then
    let wordId := getIpNum word
    if wordId = 0 then none
    else (encode .reader [(fieldType, decimal wordId.toNat)]).map (generateDtcKey appid)
  else if fieldType = .index then some (generateDtcKey appid word)
  else (encode .reader [(fieldType, word)]).map (generateDtcKey appid)

/-- The words of a term query for a value: the decimal text of an integer, any text of a double. -/
def Asks (word : Bytes) : FieldValue → Prop
  | .int v => word = toStringS64 v.toInt64
  | .long v => word = toStringS64 v
  | .double v => atof word = some (v : ℚ)
  | .ip a b c d => word = ipText a b c d
  | .string w | .text w => word = w
  | .geo gisId => word = gisId

theorem decimal_of_lt_ten {n : Nat} (h : n < 10) : decimal n = [UInt8.ofNat (48 + n)] := by
  rw [decimal, dif_pos h]

theorem decimal_of_ge_ten {n : Nat} (h : 10 ≤ n) :
    decimal n = decimal (n / 10) ++ [UInt8.ofNat (48 + n % 10)] := by
  rw [decimal, dif_neg (by omega)]

/-- A number above 0 has no leading zero. -/
theorem head?_decimal {n : Nat} (hn : n ≠ 0) : (decimal n).head? ≠ some 48 := by
  induction n using Nat.strong_induction_on with
  | h n ih =>
    by_cases hlt : n < 10
    · rw [decimal_of_lt_ten hlt]
      interval_cases n <;> simp_all
    · rw [decimal_of_ge_ten (by omega), List.head?_append_of_ne_nil _ (KeyFormat.decimal_ne_nil _)]
      exact ih (n / 10) (by omega) (by omega)

theorem length_decimal_le {k n : Nat} (h : n < 10 ^ (k + 1)) : (decimal n).length ≤ k + 1 := by
  induction k generalizing n with
  | zero =>
    rw [decimal_of_lt_ten (by simpa using h)]
    exact le_refl _
  | succ k ih =>
    by_cases hlt : n < 10
    · rw [decimal_of_lt_ten hlt]
      exact Nat.succ_le_succ (Nat.zero_le _)
    · rw [pow_succ] at h
      rw [decimal_of_ge_ten (by omega), List.length_append]
      exact Nat.succ_le_succ (ih (by omega))

theorem octet_decimal {n : Nat} (h : n ≤ 255) : octet (decimal n) = some n := by
  have hlen : (decimal n).length ≤ 3 := length_decimal_le (k := 2) (by omega)
  have hzero : (decimal n).head? = some 48 → (decimal n).length = 1 := by
    intro hhead
    have hn : n = 0 := by
      by_contra hne
      exact head?_decimal hne hhead
    rw [hn, decimal_of_lt_ten (by decide)]
    rfl
  have hvalue := KeyFormat.digitsValue_decimal n
  rw [octet, if_pos, hvalue]
  exact ⟨KeyFormat.decimal_ne_nil n, List.all_eq_true.mpr KeyFormat.isDigit_of_mem_decimal,
    hzero, hlen,
    hvalue.trans_le h⟩

/-- An address as a number, the first part most significant. -/
def ipNumber (a b c d : UInt8) : Nat :=
  16777216 * a.toNat + 65536 * b.toNat + 256 * c.toNat + d.toNat

theorem inetPton_ipText (a b c d : UInt8) :
    inetPton (ipText a b c d) =
      some (UInt32.ofNat (a.toNat + 256 * b.toNat + 65536 * c.toNat + 16777216 * d.toNat)) := by
  have hdot : ∀ l ∈ [decimal a.toNat, decimal b.toNat, decimal c.toNat, decimal d.toNat],
      (46 : UInt8) ∉ l := by
    intro l hl hmem
    have hdigit : KeyFormat.isDigit 46 = true := by
      simp only [List.mem_cons, List.not_mem_nil, or_false] at hl
      rcases hl with rfl | rfl | rfl | rfl <;> exact KeyFormat.isDigit_of_mem_decimal _ hmem
    exact absurd hdigit (by decide)
  have hoctet (x : UInt8) : octet (decimal x.toNat) = some x.toNat :=
    octet_decimal (Nat.le_of_lt_succ x.toNat_lt)
  rw [inetPton, ipText, List.splitOn_intercalate 46 hdot (by simp)]
  simp [hoctet]

theorem toNat_htonl_address (a b c d : UInt8) :
    (htonl (UInt32.ofNat (a.toNat + 256 * b.toNat + 65536 * c.toNat + 16777216 * d.toNat))).toNat =
      ipNumber a b c d := by
  have ha := a.toNat_lt
  have hb := b.toNat_lt
  have hc := c.toNat_lt
  have hd := d.toNat_lt
  have hsum : ofLeBytes [a, b, c, d] =
      a.toNat + 256 * b.toNat + 65536 * c.toNat + 16777216 * d.toNat := by
    simp only [ofLeBytes]
    omega
  have hvalue : ofLeBytes [a, b, c, d].reverse = ipNumber a b c d := by
    simp [ofLeBytes, ipNumber]
    omega
  have hlt : ipNumber a b c d < 2 ^ 32 := by
    rw [ipNumber]
    omega
  have hsize : UInt32.size = 2 ^ 32 := rfl
  have hnat : (UInt32.ofNat (ofLeBytes [a, b, c, d])).toNat = ofLeBytes [a, b, c, d] :=
    UInt32.toNat_ofNat_of_lt' (by omega)
  have hbytes : leBytes 4 (ofLeBytes [a, b, c, d]) = [a, b, c, d] := leBytes_ofLeBytes [a, b, c, d]
  rw [← hsum, htonl, hnat, hbytes, hvalue, UInt32.toNat_ofNat_of_lt' (by omega)]

/-! ## Both keys -/

/-- The encoded value in the key that is stored. -/
def storedValue : FieldValue → Bytes
  | .int v => encodeBytesS64 v.toInt64
  | .long v => encodeBytesS64 v
  | .double v => encodeBytesDouble (roundSix v)
  | .ip a b c d => encodeBytesS64 (Int64.ofNat (ipNumber a b c d))
  | .string w | .text w => encodeBytes w
  | .geo gisId => encodeBytes gisId

theorem encodeDoubleText_of_atof {word : Bytes} {v : Int} (h : atof word = some (v : ℚ)) :
    encodeDoubleText word = some (encodeBytesDouble v) := by
  simp [encodeDoubleText, h]

theorem strtoll_decimal {n : Nat} (h : n < 2 ^ 63) : strtoll (decimal n) = Int64.ofNat n := by
  have hmin : min (2 ^ 63 - 1) (n : Int) = n := by omega
  rw [strtoll, KeyFormat.strtonum_decimal]
  simp only [Bool.false_eq_true, if_false, hmin]
  rfl

theorem ipNumber_lt (a b c d : UInt8) : ipNumber a b c d < 2 ^ 32 := by
  have ha := a.toNat_lt
  have hb := b.toNat_lt
  have hc := c.toNat_lt
  have hd := d.toNat_lt
  rw [ipNumber]
  omega

theorem encode_ip (side : Side) (a b c d : UInt8) :
    encode side [(.ip, decimal (ipNumber a b c d))] =
      some (encodeBytesS64 (Int64.ofNat (ipNumber a b c d))) := by
  rw [← strtoll_decimal ((ipNumber_lt a b c d).trans (by decide))]
  rfl

/-- What each parser stores. -/
theorem storedKey_eq (appid : UInt32) (v : FieldValue) :
    storedKey appid v = some (generateDtcKey appid (storedValue v)) := by
  cases v with
  | int v => simp [storedKey, figureKey, encode, encodeStep, storedValue,
    KeyFormat.strtoll_toStringS64]
  | long v =>
    simp [storedKey, figureKey, encode, encodeStep, storedValue, KeyFormat.strtoll_toStringS64]
  | double v =>
    simp [storedKey, figureKey, encode, encodeStep, storedValue,
      encodeDoubleText_of_atof (atof_streamDouble v)]
  | ip a b c d =>
    rw [storedKey, inetPton_ipText]
    simp only [Option.bind_eq_bind, Option.bind_some, toNat_htonl_address, encode_ip, storedValue]
    rfl
  | string w => rfl
  | text w => rfl
  | geo gisId => rfl

/-- The value as the reader encodes it; `none` for the address 0. -/
def askedValue : FieldValue → Option Bytes
  | .double v => some (encodeBytesDouble v)
  | .ip a b c d => if ipNumber a b c d = 0 then none else some (storedValue (.ip a b c d))
  | v => some (storedValue v)

theorem lookupKey_eq {isSensitiveWord : Bytes → Bool} {appid : UInt32} {v : FieldValue}
    {word : Bytes} (hask : Asks word v) (hword : isSensitiveWord word = false) :
    lookupKey isSensitiveWord appid v.fieldType word =
      (askedValue v).map (generateDtcKey appid) := by
  rw [lookupKey, if_neg (by simp [hword])]
  cases v with
  | int v =>
    cases hask
    simp [FieldValue.fieldType, encode, encodeStep, askedValue, storedValue,
      KeyFormat.strtoll_toStringS64]
  | long v =>
    cases hask
    simp [FieldValue.fieldType, encode, encodeStep, askedValue, storedValue,
      KeyFormat.strtoll_toStringS64]
  | double v =>
    simp [FieldValue.fieldType, encode, encodeStep, askedValue,
      encodeDoubleText_of_atof (show atof word = some (v : ℚ) from hask)]
  | ip a b c d =>
    cases hask
    rw [FieldValue.fieldType, if_pos rfl, getIpNum, inetPton_ipText, Option.elim_some, askedValue]
    dsimp only
    rw [toNat_htonl_address, encode_ip]
    have hzero : htonl (UInt32.ofNat (a.toNat + 256 * b.toNat + 65536 * c.toNat +
        16777216 * d.toNat)) = 0 ↔ ipNumber a b c d = 0 := by
      rw [← toNat_htonl_address, ← UInt32.toNat_inj]
      rfl
    simp only [hzero, storedValue]
    split <;> rfl
  | string w =>
    cases hask
    rfl
  | text w =>
    cases hask
    rfl
  | geo gisId =>
    cases hask
    rfl

theorem generateDtcKey_inj {appid : UInt32} {k k' : Bytes}
    (h : generateDtcKey appid k = generateDtcKey appid k') : k = k' :=
  List.append_cancel_left h

/-! ## When both agree -/

/-- The reader builds the key that is stored, and another value of the field type has another key.
-/
def KeysMatch (isSensitiveWord : Bytes → Bool) (appid : UInt32) (v w : FieldValue) (word : Bytes) :
    Prop :=
  lookupKey isSensitiveWord appid v.fieldType word = storedKey appid v ∧
    storedKey appid v ≠ storedKey appid w

/-- The word is not held back, the value is not the address 0, and a double has at most six
significant digits and is not what is left of the other one with six digits. -/
def KeysHold (isSensitiveWord : Bytes → Bool) (v w : FieldValue) (word : Bytes) : Prop :=
  isSensitiveWord word = false ∧
    match v, w with
    | .ip a b c d, _ => ¬ (a = 0 ∧ b = 0 ∧ c = 0 ∧ d = 0)
    | .double x, .double y => SixSignificant x.natAbs ∧ roundSix y ≠ x
    | _, _ => True

theorem encodeBytesS64_inj {x y : Int64} : encodeBytesS64 x = encodeBytesS64 y → x = y :=
  KeyFormat.orderCode_s64.injective

theorem encodeBytes_inj {s t : Bytes} : encodeBytes s = encodeBytes t → s = t :=
  KeyFormat.orderCode_bytes.injective

theorem ipNumber_inj {a b c d a' b' c' d' : UInt8} (h : ipNumber a b c d = ipNumber a' b' c' d') :
    a = a' ∧ b = b' ∧ c = c' ∧ d = d' := by
  simp only [← UInt8.toNat_inj]
  have hb := b.toNat_lt
  have hc := c.toNat_lt
  have hd := d.toNat_lt
  have hb' := b'.toNat_lt
  have hc' := c'.toNat_lt
  have hd' := d'.toNat_lt
  rw [ipNumber, ipNumber] at h
  omega

theorem ipNumber_eq_zero {a b c d : UInt8} :
    ipNumber a b c d = 0 ↔ a = 0 ∧ b = 0 ∧ c = 0 ∧ d = 0 := by
  constructor
  · intro h
    exact ipNumber_inj (h.trans rfl)
  · rintro ⟨rfl, rfl, rfl, rfl⟩
    rfl

/-- Different values are encoded differently, but for doubles with the same first six digits. -/
theorem storedValue_eq_iff {v w : FieldValue} (hv : v.Valid) (hw : w.Valid)
    (htype : v.fieldType = w.fieldType) :
    storedValue v = storedValue w ↔
      v = w ∨ ∃ x y, v = .double x ∧ w = .double y ∧ roundSix x = roundSix y := by
  constructor
  · intro h
    cases v with
    | int v =>
      cases w with
      | int w =>
        have heq := congrArg Int64.toInt (encodeBytesS64_inj h)
        rw [Int32.toInt_toInt64, Int32.toInt_toInt64] at heq
        exact .inl (by rw [Int32.toInt_inj.mp heq])
      | _ => cases htype
    | long v =>
      cases w with
      | long w =>
        exact .inl (by rw [encodeBytesS64_inj h])
      | _ => cases htype
    | double x =>
      cases w with
      | double y =>
        exact .inr ⟨x, y, rfl, rfl,
          encodeBytesDouble_inj (isDouble_roundSix hv) (isDouble_roundSix hw) h⟩
      | _ => cases htype
    | ip a b c d =>
      cases w with
      | ip a' b' c' d' =>
        have hint := congrArg Int64.toInt (encodeBytesS64_inj h)
        have hlt := ipNumber_lt a b c d
        have hlt' := ipNumber_lt a' b' c' d'
        rw [Int64.toInt_ofNat_of_lt (by omega), Int64.toInt_ofNat_of_lt (by omega)] at hint
        obtain ⟨rfl, rfl, rfl, rfl⟩ := ipNumber_inj (Int.ofNat.inj hint)
        exact .inl rfl
      | _ => cases htype
    | string v =>
      cases w with
      | string w =>
        exact .inl (by rw [encodeBytes_inj h])
      | _ => cases htype
    | text v =>
      cases w with
      | text w =>
        exact .inl (by rw [encodeBytes_inj h])
      | _ => cases htype
    | geo v =>
      cases w with
      | geo w =>
        exact .inl (by rw [encodeBytes_inj h])
      | _ => cases htype
  · rintro (rfl | ⟨x, y, rfl, rfl, hround⟩)
    · rfl
    · rw [storedValue, storedValue, hround]

/-- For two values of a field type and a word that asks for the first one: the keys match precisely
if `KeysHold`. -/
theorem keysMatch_iff (isSensitiveWord : Bytes → Bool) (appid : UInt32) (v w : FieldValue)
    (word : Bytes) (hv : v.Valid) (hw : w.Valid) (htype : v.fieldType = w.fieldType) (hne : v ≠ w)
    (hask : Asks word v) :
    KeysMatch isSensitiveWord appid v w word ↔ KeysHold isSensitiveWord v w word := by
  unfold KeysMatch KeysHold
  cases hword : isSensitiveWord word with
  | true =>
    rw [lookupKey, if_pos hword, storedKey_eq]
    simp
  | false =>
    have hkey (k : Bytes) : generateDtcKey appid k = generateDtcKey appid (storedValue v) ↔
        k = storedValue v := ⟨generateDtcKey_inj, congrArg _⟩
    have hdiff : storedKey appid v ≠ storedKey appid w ↔
        ¬ ∃ x y, v = .double x ∧ w = .double y ∧ roundSix x = roundSix y := by
      rw [storedKey_eq, storedKey_eq, ne_eq, Option.some.injEq, eq_comm, hkey, eq_comm,
        storedValue_eq_iff hv hw htype, not_or, and_iff_right hne]
    rw [lookupKey_eq hask hword, hdiff, storedKey_eq, Option.map_eq_some_iff]
    simp only [hkey, exists_eq_right, true_and]
    cases v with
    | double x =>
      cases w with
      | double y =>
        have hasked : encodeBytesDouble x = encodeBytesDouble (roundSix x) ↔ roundSix x = x :=
          ⟨fun h => (encodeBytesDouble_inj (.inl hv) (isDouble_roundSix hv) h).symm, fun h => by
            rw [h]⟩
        simp only [askedValue, storedValue, Option.some.injEq, hasked, ← roundSix_eq_iff]
        constructor
        · rintro ⟨hx, hround⟩
          refine ⟨hx, fun hy => hround ⟨x, y, rfl, rfl, ?_⟩⟩
          rw [hx, hy]
        · rintro ⟨hx, hy⟩
          refine ⟨hx, ?_⟩
          rintro ⟨x', y', heqx, heqy, hround⟩
          cases heqx
          cases heqy
          exact hy (hround.symm.trans hx)
      | _ => cases htype
    | ip a b c d =>
      simp only [askedValue, ← ipNumber_eq_zero]
      split <;> simp_all
    | _ => simp [askedValue]

theorem keysMatch_five :
    KeysMatch (fun _ => false) 1 (.int 5) (.int 6) (toStringS64 (5 : Int32).toInt64) :=
  (keysMatch_iff (fun _ => false) 1 (.int 5) (.int 6) _ trivial trivial rfl (by decide) rfl).mpr
    ⟨rfl, trivial⟩

theorem atof_decimal_sevenDigits : atof (decimal 1234567) = some ((1234567 : Int) : ℚ) := by
  have htext : decimal 1234567 = 49 :: [50, 51, 52, 53, 54, 55] := by
    repeat rw [decimal_of_ge_ten (by decide)]
    rw [decimal_of_lt_ten (by decide)]
    rfl
  have hvalue := KeyFormat.decimalNumber_decimal 1234567
  rw [htext] at hvalue ⊢
  rw [(KeyFormat.atof_of_digit (by decide) (by decide)).1, hvalue]
  norm_num

/-- A double with seven digits is stored under the key of its first six digits, which is the key of
another double as well, and it is looked up under its own key. -/
theorem not_keysMatch_sevenDigits :
    (FieldValue.double 1234567).Valid ∧ Asks (decimal 1234567) (.double 1234567) ∧
      lookupKey (fun _ => false) 1 .double (decimal 1234567) ≠ storedKey 1 (.double 1234567) ∧
      storedKey 1 (.double 1234567) = storedKey 1 (.double 1234568) := by
  have hround : roundSix 1234567 = 1234570 ∧ roundSix 1234568 = 1234570 := by decide
  have hlookup : lookupKey (fun _ => false) 1 .double (decimal 1234567) =
      some (generateDtcKey 1 (encodeBytesDouble 1234567)) :=
    lookupKey_eq (v := .double 1234567) atof_decimal_sevenDigits rfl
  refine ⟨show (1234567 : Int).natAbs < 2 ^ 53 by decide, atof_decimal_sevenDigits, ?_, ?_⟩
  · rw [hlookup, storedKey_eq, storedValue, hround.1, ne_eq, Option.some.injEq]
    intro heq
    exact absurd
      (encodeBytesDouble_inj (.inl (by decide)) (.inl (by decide)) (generateDtcKey_inj heq))
      (by decide)
  · rw [storedKey_eq, storedKey_eq, storedValue, storedValue, hround.1, hround.2]

end ISearch.IndexKey
