import ISearch.KeyFormat.Codec

/-!
# The key encoders of a table definition (`key_format.cc`)

Besides the codec for a list of field types there are three functions that walk the key fields of a
table definition: `Encode` from a map of values, `Encode` from a vector of texts, and `Decode`. Both
encoders also count the bytes of the `String` fields.

The case for `Binary` in the encoder from a vector has no `break` and runs on into the one for
`String`: such a field is appended twice.
-/

namespace ISearch.KeyFormat

/-- A `DTCValue`, read through the member that its field type uses. -/
inductive DTCValue where
  | s64 (v : Int64)
  | u64 (v : UInt64)
  | str (v : Bytes)
  | bin (v : Bytes)
  deriving DecidableEq, Repr

/-- What the encoders use of a `DTCTableDefinition`. -/
structure TableDef where
  uniqFieldsList : List UInt8
  fieldType : UInt8 → FieldType

namespace TableDef

variable (t : TableDef)

/-- The types of the key fields. -/
def keyTypes : List FieldType := t.uniqFieldsList.map t.fieldType

/-- One iteration of `Encode` from a map: the bytes, and how many of them are case-insensitive;
`none` reads another member than the one that is set. -/
def encodeMapField : FieldType → DTCValue → Option (Bytes × Nat)
  | .signed, .s64 v => some (encodeBytesS64 v, 0)
  | .unsigned, .u64 v => some (encodeBytesU64 v, 0)
  | .binary, .bin v => some (encodeBytes v, 0)
  | .string, .str v => some (encodeBytes v, (encodeBytes v).length)
  | _, _ => none

def encodeMapFields (fieldValues : UInt8 → Option DTCValue) : List UInt8 → Option (Bytes × Nat)
  | [] => some ([], 0)
  | f :: fields => do
    let (tail, len) ← encodeMapFields fieldValues fields
    match fieldValues f with
    | none => return (tail, len)
    | some value =>
      let (piece, n) ← encodeMapField (t.fieldType f) value
      return (piece ++ tail, n + len)

/-- `Encode(fieldValues, table_def, caseSensitiveFreeLen)` from a map; a field without a value is
skipped. -/
def encodeMap (fieldValues : UInt8 → Option DTCValue) : Option (Bytes × Nat) :=
  t.encodeMapFields fieldValues t.uniqFieldsList

/-- One iteration of `Encode` from a vector. -/
def encodeVectorField (value : Bytes) : FieldType → Bytes × Nat
  | .signed => (encodeBytesS64 (strtoll value), 0)
  | .unsigned => (encodeBytesU64 (strtoull value), 0)
  -- there is no `break` before the case for `String`
  | .binary => (encodeBytes value ++ encodeBytes value, (encodeBytes value).length)
  | .string => (encodeBytes value, (encodeBytes value).length)

def encodeVectorFields : List Bytes → List UInt8 → Option (Bytes × Nat)
  | _, [] => some ([], 0)
  | [], _ :: _ => none
  | value :: fieldValues, f :: fields => do
    let (piece, n) := encodeVectorField value (t.fieldType f)
    let (tail, len) ← encodeVectorFields fieldValues fields
    return (piece ++ tail, n + len)

/-- `Encode(fieldValues, table_def, caseSensitiveFreeLen)` from a vector. -/
def encodeVector (fieldValues : List Bytes) : Option (Bytes × Nat) :=
  t.encodeVectorFields fieldValues t.uniqFieldsList

/-- `Decode(src, fieldValues, table_def)`. -/
def decode (src : Bytes) : Option (List Bytes) := decodeFrom src 0 t.keyTypes

/-! ## The encoders on the values of a row -/

/-- A value for each field. -/
abbrev Values : Type := (f : UInt8) → (t.fieldType f).Value

/-- The value of a field as a `DTCValue`. -/
def dtcValue : (type : FieldType) → type.Value → DTCValue
  | .signed, v => .s64 v
  | .unsigned, v => .u64 v
  | .string, v => .str v
  | .binary, v => .bin v

variable {t}

/-- The texts of the key fields. -/
def Values.strings (v : t.Values) (fields : List UInt8) : List Bytes :=
  fields.map fun f => (t.fieldType f).toStr (v f)

/-- The bytes of the key fields. -/
def Values.enc (v : t.Values) (fields : List UInt8) : Bytes :=
  fields.flatMap fun f => (t.fieldType f).enc (v f)

/-- The key fields as a row. -/
def Values.row (v : t.Values) : (fields : List UInt8) → Row (fields.map t.fieldType)
  | [] => ()
  | f :: fields => (v f, row v fields)

theorem Values.strings_row (v : t.Values) (fields : List UInt8) :
    (v.row fields).strings = v.strings fields := by
  induction fields with
  | nil => rfl
  | cons f fields ih =>
    have htail : Row.strings (fields.map t.fieldType) (v.row fields) = v.strings fields := ih
    exact congrArg ((t.fieldType f).toStr (v f) :: ·) htail

theorem Values.enc_row (v : t.Values) (fields : List UInt8) :
    Row.enc (fields.map t.fieldType) (v.row fields) = v.enc fields := by
  induction fields with
  | nil => rfl
  | cons f fields ih =>
    have htail : Row.enc (fields.map t.fieldType) (v.row fields) = v.enc fields := ih
    exact congrArg ((t.fieldType f).enc (v f) ++ ·) htail

theorem encodeMapField_dtcValue (type : FieldType) (x : type.Value) :
    ∃ n, encodeMapField type (dtcValue type x) = some (type.enc x, n) := by
  cases type with
  | signed =>
    have henc : FieldType.signed.enc x = encodeBytesS64 x :=
      congrArg encodeBytesS64 (strtoll_toStringS64 x)
    exact ⟨0, by rw [henc]; rfl⟩
  | unsigned =>
    have henc : FieldType.unsigned.enc x = encodeBytesU64 x :=
      congrArg encodeBytesU64 (strtoull_toStringU64 x)
    exact ⟨0, by rw [henc]; rfl⟩
  | string => exact ⟨_, rfl⟩
  | binary => exact ⟨_, rfl⟩

/-- The map gives the bytes of the key fields. -/
theorem encodeMapFields_values (v : t.Values) (fields : List UInt8) :
    (t.encodeMapFields (fun f => some (dtcValue _ (v f))) fields).map (·.1) =
      some (v.enc fields) := by
  induction fields with
  | nil => rfl
  | cons f fields ih =>
    obtain ⟨⟨tail, len⟩, htail, heq⟩ := Option.map_eq_some_iff.mp ih
    obtain ⟨n, hn⟩ := encodeMapField_dtcValue (t.fieldType f) (v f)
    rw [encodeMapFields, htail]
    simp only [Option.bind_eq_bind, Option.bind_some, hn]
    exact congrArg some (congrArg ((t.fieldType f).enc (v f) ++ ·) heq)

/-- The vector gives the bytes of each key field, those of a `Binary` field twice. -/
theorem encodeVectorFields_strings (v : t.Values) (fields : List UInt8) :
    (t.encodeVectorFields (v.strings fields) fields).map (·.1) =
      some (fields.flatMap fun f =>
        if t.fieldType f = .binary then (t.fieldType f).enc (v f) ++ (t.fieldType f).enc (v f)
        else (t.fieldType f).enc (v f)) := by
  induction fields with
  | nil => rfl
  | cons f fields ih =>
    obtain ⟨⟨tail, len⟩, htail, heq⟩ := Option.map_eq_some_iff.mp ih
    have hpiece : (encodeVectorField ((t.fieldType f).toStr (v f)) (t.fieldType f)).1 =
        if t.fieldType f = .binary then (t.fieldType f).enc (v f) ++ (t.fieldType f).enc (v f)
        else (t.fieldType f).enc (v f) := by
      generalize v f = x
      revert x
      cases t.fieldType f <;> intro x <;> rfl
    dsimp only at heq
    rw [Values.strings, List.map_cons, encodeVectorFields]
    rw [Values.strings] at htail
    simp only [htail, Option.bind_eq_bind, Option.bind_some, List.flatMap_cons, ← hpiece, ← heq]
    rfl

theorem encodeBytes_ne_nil (s : Bytes) : encodeBytes s ≠ [] := by
  rw [encodeBytes]
  split <;> simp

variable (t) in
/-- The encoders give one key, which is decoded to the values in field order. -/
def EncodersAgree (v : t.Values) : Prop :=
  ∃ key, (t.encodeVector (v.strings t.uniqFieldsList)).map (·.1) = some key ∧
    (t.encodeMap fun f => some (dtcValue _ (v f))).map (·.1) = some key ∧
    encode (v.strings t.uniqFieldsList) t.keyTypes = some key ∧
    t.decode key = some (v.strings t.uniqFieldsList)

/-- Bytes some of which are doubled are the plain ones precisely if none is doubled. -/
theorem flatMap_double_eq_iff {α β : Type} {p : α → Prop} [DecidablePred p] {code : α → List β}
    (hcode : ∀ a, p a → code a ≠ []) (l : List α) :
    (l.flatMap fun a => if p a then code a ++ code a else code a) = l.flatMap code ↔
      ∀ a ∈ l, ¬ p a := by
  have hle (l : List α) : (l.flatMap code).length ≤
      (l.flatMap fun a => if p a then code a ++ code a else code a).length := by
    induction l with
    | nil => exact le_refl _
    | cons a l ih =>
      simp only [List.flatMap_cons, List.length_append]
      split
      · rw [List.length_append]
        omega
      · omega
  induction l with
  | nil => simp
  | cons a l ih =>
    rw [List.flatMap_cons, List.flatMap_cons, List.forall_mem_cons]
    by_cases ha : p a
    · have hpos := List.length_pos_iff.mpr (hcode a ha)
      have hrest := hle l
      rw [if_pos ha]
      refine iff_of_false (fun heq => ?_) fun h => h.1 ha
      have hlen := congrArg List.length heq
      simp only [List.length_append] at hlen
      omega
    · rw [if_neg ha, List.append_cancel_left_eq, and_iff_right ha]
      exact ih

/-- The encoders agree precisely if no key field is `Binary`. -/
theorem encodersAgree_iff (t : TableDef) (v : t.Values) :
    t.EncodersAgree v ↔ ∀ f ∈ t.uniqFieldsList, t.fieldType f ≠ .binary := by
  have hmap := encodeMapFields_values v t.uniqFieldsList
  have hvector := encodeVectorFields_strings v t.uniqFieldsList
  have htypes : encode (v.strings t.uniqFieldsList) t.keyTypes = some (v.enc t.uniqFieldsList) := by
    rw [← Values.strings_row, ← Values.enc_row]
    exact Row.encode_strings _ _
  have hdecode : t.decode (v.enc t.uniqFieldsList) = some (v.strings t.uniqFieldsList) := by
    rw [← Values.strings_row, ← Values.enc_row]
    exact Row.decodeFrom_enc _ _ []
  have hcode (f : UInt8) (hf : t.fieldType f = .binary) : (t.fieldType f).enc (v f) ≠ [] := by
    generalize v f = x
    revert x
    rw [hf]
    exact encodeBytes_ne_nil
  rw [← flatMap_double_eq_iff hcode]
  constructor
  · rintro ⟨key, hkey, hkey', -⟩
    exact Option.some.inj (hvector.symm.trans (hkey.trans (hkey'.symm.trans hmap)))
  · intro heq
    rw [heq] at hvector
    exact ⟨_, hvector, hmap, htypes, hdecode⟩

/-- One `Binary` key field. -/
def binaryKey : TableDef where
  uniqFieldsList := [0]
  fieldType _ := .binary

/-- The empty value is encoded in eight bytes, and in sixteen from a vector. -/
theorem not_encodersAgree_binaryKey :
    ¬ binaryKey.EncodersAgree fun _ => ([] : Bytes) := by
  rintro ⟨key, hkey, hkey', -⟩
  exact absurd (hkey.trans hkey'.symm) (by decide +kernel)

end TableDef

end ISearch.KeyFormat
