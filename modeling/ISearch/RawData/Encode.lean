import ISearch.RawData.Defs

/-!
# Writing rows (`raw_data.cc`)

`encode_row` appends a flag and the fields that are not discarded. `decode_row` reads them back
where each value fits its field.
-/

namespace ISearch.RawData

open List Option

variable {f : FieldDef} {v : DTCValue} {pre post : Bytes} {n w : Nat}

/-- The eight bytes of a value that is no string. -/
def DTCValue.word : DTCValue → Nat
  | .s64 v => v.toUInt64.toNat
  | .u64 v => v.toNat
  | .flt bits => bits
  | .bin _ => 0

/-- The bytes that `bin` points to. -/
def DTCValue.str : DTCValue → Bytes
  | .bin v => v
  | _ => []

/-- One case of the `switch` in `encode_row`. -/
def encodeField (f : FieldDef) (v : DTCValue) : Bytes :=
  match f.type with
  | .signed | .unsigned | .float =>
    if f.size > 4 then leBytes 8 v.word else leBytes 4 v.word
  | .string | .binary => leBytes 4 v.str.length ++ v.str

/-- The loop over the fields from field `j` on. -/
def encodeFields : List FieldDef → Nat → (Nat → DTCValue) → Bytes
  | [], _, _ => []
  | f :: fs, j, row =>
    if f.discard then encodeFields fs (j + 1) row
    else encodeField f (row j) ++ encodeFields fs (j + 1) row

/-- What `RawData::encode_row` appends. -/
def encodeRow (t : TableDef) (uchOp : UInt8) (row : Nat → DTCValue) : Bytes :=
  uchOp :: encodeFields (t.fields.drop t.keyFields) t.keyFields row

/-- The values of the fields from field `j` on, without those of discarded fields. -/
def keptFields : List FieldDef → Nat → (Nat → DTCValue) → List (Nat × DTCValue)
  | [], _, _ => []
  | f :: fs, j, row =>
    if f.discard then keptFields fs (j + 1) row else (j, row j) :: keptFields fs (j + 1) row

/-- The values of the type of a field that its bytes can hold. -/
def FieldDef.Fits (f : FieldDef) : DTCValue → Prop
  | .s64 v => f.type = .signed ∧ (f.size > 4 ∨ -2 ^ 31 ≤ v.toInt ∧ v.toInt < 2 ^ 31)
  | .u64 v => f.type = .unsigned ∧ (f.size > 4 ∨ v.toNat < 2 ^ 32)
  | .flt bits => f.type = .float ∧ bits < 2 ^ (if f.size > 4 then 64 else 32)
  | .bin v => (f.type = .string ∨ f.type = .binary) ∧ v.length < 2 ^ 31

/-! ## Reading back -/

theorem valueAt_leBytes (n w : Nat) (pre post : Bytes) :
    valueAt n (pre ++ (leBytes n w ++ post)) pre.length = some (w % 256 ^ n) := by
  rw [valueAt, if_pos (by simp), drop_left,
    take_left' (length_leBytes n w), ofLeBytes_leBytes]

theorem getValue_leBytes (n w : Nat) (pre post : Bytes) :
    getValue n (pre ++ (leBytes n w ++ post)) pre.length =
      some (w % 256 ^ n, pre.length + n) := by
  rw [getValue, valueAt_leBytes, map_some]

/-- Four bytes are read with their sign. -/
theorem toInt64_of_mod {v : Int64} (h : -2 ^ 31 ≤ v.toInt ∧ v.toInt < 2 ^ 31) :
    (UInt32.ofNat (v.toUInt64.toNat % 256 ^ 4)).toInt32.toInt64 = v := by
  have hv := toNat_toUInt64 v
  have hint (y : UInt32) : y.toInt32.toInt = Int.bmod y.toNat (2 ^ 32) :=
    y.toInt32.toBitVec.toInt_eq_toNat_bmod
  apply Int64.toInt_inj.mp
  rw [Int32.toInt_toInt64, hint, UInt32.toNat_ofNat', Int.bmod_def]
  split <;> omega

theorem decodeField_encodeField (hfit : f.Fits v)
    (hlen : pre.length + (encodeField f v).length < 2 ^ 32) :
    decodeField f (pre ++ (encodeField f v ++ post)) pre.length =
      some (v, pre.length + (encodeField f v).length) := by
  cases v with
  | s64 v =>
    obtain ⟨hty, hsize⟩ := hfit
    simp only [encodeField, decodeField, hty, DTCValue.word]
    split
    · have hmod : v.toUInt64.toNat % 256 ^ 8 = v.toUInt64.toNat :=
        Nat.mod_eq_of_lt v.toUInt64.toNat_lt
      rw [getValue_leBytes, hmod, map_some, UInt64.ofNat_toNat, length_leBytes]
      rfl
    · rename_i hle
      rw [getValue_leBytes, map_some, length_leBytes,
        toInt64_of_mod (hsize.resolve_left hle)]
  | u64 v =>
    obtain ⟨hty, hsize⟩ := hfit
    simp only [encodeField, decodeField, hty, DTCValue.word]
    split
    · have hmod : v.toNat % 256 ^ 8 = v.toNat := Nat.mod_eq_of_lt v.toNat_lt
      rw [getValue_leBytes, hmod, map_some, UInt64.ofNat_toNat, length_leBytes]
    · rename_i hle
      have hmod : v.toNat % 256 ^ 4 = v.toNat := Nat.mod_eq_of_lt (hsize.resolve_left hle)
      rw [getValue_leBytes, hmod, map_some, UInt64.ofNat_toNat, length_leBytes]
  | flt bits =>
    obtain ⟨hty, hsize⟩ := hfit
    simp only [encodeField, decodeField, hty, DTCValue.word]
    split
    · rename_i hgt
      rw [if_pos hgt] at hsize
      rw [getValue_leBytes, Nat.mod_eq_of_lt (by omega), map_some, length_leBytes]
    · rename_i hle
      rw [if_neg hle] at hsize
      rw [getValue_leBytes, Nat.mod_eq_of_lt (by omega), map_some, length_leBytes]
  | bin v =>
    obtain ⟨hty, hsize⟩ := hfit
    have henc : encodeField f (.bin v) = leBytes 4 v.length ++ v := by
      rcases hty with hty | hty <;> simp [encodeField, hty, DTCValue.str]
    have hmod : v.length % 256 ^ 4 = v.length := Nat.mod_eq_of_lt (by omega)
    have hget : getValue 4 (pre ++ (leBytes 4 v.length ++ v ++ post)) pre.length =
        some (v.length, pre.length + 4) := by
      rw [append_assoc, getValue_leBytes, hmod]
    rw [henc, length_append, length_leBytes] at hlen
    have hskip : skipLen v.length (pre ++ (leBytes 4 v.length ++ v ++ post)) (pre.length + 4) =
        some (pre.length + 4 + v.length) := by
      rw [skipLen, Nat.mod_eq_of_lt (by omega), if_pos (by simp; omega)]
    have hstr : ((pre ++ (leBytes 4 v.length ++ v ++ post)).drop (pre.length + 4)).take v.length =
        v := by
      rw [← drop_drop, drop_left, append_assoc,
        drop_left' (length_leBytes 4 v.length), take_left]
    have hdec : decodeField f (pre ++ (leBytes 4 v.length ++ v ++ post)) pre.length =
        some (.bin v, pre.length + 4 + v.length) := by
      generalize pre ++ (leBytes 4 v.length ++ v ++ post) = content at hget hskip hstr
      rcases hty with hty | hty <;> simp [decodeField, hty, hget, hskip, hstr]
    rw [henc, hdec, length_append, length_leBytes, Nat.add_assoc]

/-- The values of the fields from field `j` on fit. -/
def FieldsFit (fs : List FieldDef) (j : Nat) (row : Nat → DTCValue) : Prop :=
  ∀ i (f : FieldDef), fs[i]? = some f → f.discard = false → f.Fits (row (j + i))

theorem FieldsFit.tail {fs : List FieldDef} {j : Nat} {row : Nat → DTCValue}
    (h : FieldsFit (f :: fs) j row) : FieldsFit fs (j + 1) row := fun i g hg hkept => by
  rw [Nat.add_assoc, Nat.add_comm 1 i]
  exact h (i + 1) g hg hkept

theorem decodeFields_encodeFields {fs : List FieldDef} {j : Nat} {row : Nat → DTCValue}
    (hfit : FieldsFit fs j row) (hlen : pre.length + (encodeFields fs j row).length < 2 ^ 32) :
    decodeFields (pre ++ (encodeFields fs j row ++ post)) fs j pre.length =
      some (keptFields fs j row, pre.length + (encodeFields fs j row).length) := by
  induction fs generalizing j pre with
  | nil => rfl
  | cons f fs ih =>
    rw [encodeFields] at hlen ⊢
    rw [decodeFields, keptFields]
    by_cases hdiscard : f.discard = true
    · rw [if_pos hdiscard] at hlen ⊢
      rw [if_pos hdiscard, if_pos hdiscard]
      exact ih hfit.tail hlen
    · rw [if_neg hdiscard] at hlen ⊢
      rw [if_neg hdiscard, if_neg hdiscard, append_assoc]
      rw [length_append] at hlen
      have hfirst : f.Fits (row j) := hfit 0 f rfl (Bool.not_eq_true _ ▸ hdiscard)
      have hrest := @ih (pre ++ encodeField f (row j)) (j + 1) hfit.tail
        (by rw [length_append]; omega)
      rw [append_assoc, length_append] at hrest
      rw [decodeField_encodeField hfirst (by omega)]
      simp only [bind_eq_bind, bind_some, hrest, Option.pure_def, length_append,
        Nat.add_assoc]

/-- Rows with the same values in the fields that are kept are written alike. -/
theorem encodeFields_congr {fs : List FieldDef} {j : Nat} {row row' : Nat → DTCValue}
    (h : ∀ i (f : FieldDef), fs[i]? = some f → f.discard = false → row (j + i) = row' (j + i)) :
    encodeFields fs j row = encodeFields fs j row' := by
  induction fs generalizing j with
  | nil => rfl
  | cons f fs ih =>
    have htail : encodeFields fs (j + 1) row = encodeFields fs (j + 1) row' :=
      ih fun i g hg hkept => by
        rw [Nat.add_assoc, Nat.add_comm 1 i]
        exact h (i + 1) g hg hkept
    rw [encodeFields, encodeFields, htail]
    split
    · rfl
    · rename_i hkept
      rw [show row j = row' j from h 0 f rfl (Bool.not_eq_true _ ▸ hkept)]

/-- A row of a node: its flag and the values of its fields. -/
structure Row where
  flag : UInt8
  values : Nat → DTCValue

/-- What `decode_row` returns of a row: the flag and the values. -/
def readRow (t : TableDef) (content : Bytes) (offset : Nat) :
    Option ((UInt8 × List (Nat × DTCValue)) × Nat) := do
  let flag ← valueAt 1 content offset
  let (values, next) ← decodeRow t content offset
  return ((UInt8.ofNat flag, values), next)

/-- `n` rows in succession. -/
def readRows (t : TableDef) (content : Bytes) :
    Nat → Nat → Option (List (UInt8 × List (Nat × DTCValue)))
  | 0, _ => some []
  | n + 1, offset => do
    let (row, next) ← readRow t content offset
    return row :: (← readRows t content n next)

/-- The values of the fields that the node keeps. -/
def Row.kept (t : TableDef) (row : Row) : List (Nat × DTCValue) :=
  keptFields (t.fields.drop t.keyFields) t.keyFields row.values

def Row.Fits (t : TableDef) (row : Row) : Prop :=
  FieldsFit (t.fields.drop t.keyFields) t.keyFields row.values

def encodeRows (t : TableDef) (rows : List Row) : Bytes :=
  rows.flatMap fun row => encodeRow t row.flag row.values

variable {t : TableDef} {row : Row} {rows : List Row}

theorem valueAt_flag : valueAt 1 (pre ++ (encodeRow t row.flag row.values ++ post)) pre.length =
    some row.flag.toNat := by
  have hone : leBytes 1 row.flag.toNat = [row.flag] := by
    rw [leBytes, leBytes, UInt8.ofNat_toNat]
  have hvalue := valueAt_leBytes 1 row.flag.toNat pre
    (encodeFields (t.fields.drop t.keyFields) t.keyFields row.values ++ post)
  rw [hone, Nat.mod_eq_of_lt (by have := row.flag.toNat_lt; omega)] at hvalue
  exact hvalue

theorem decodeRow_encodeRow (hfit : row.Fits t)
    (hlen : pre.length + (encodeRow t row.flag row.values).length < 2 ^ 32) :
    decodeRow t (pre ++ (encodeRow t row.flag row.values ++ post)) pre.length =
      some (row.kept t, pre.length + (encodeRow t row.flag row.values).length) := by
  rw [encodeRow, length_cons] at hlen
  have hfields := @decodeFields_encodeFields (pre ++ [row.flag]) post _ _ _ hfit
    (by rw [length_append, length_singleton]; omega)
  rw [length_append, length_singleton, append_assoc] at hfields
  rw [decodeRow, getValue, valueAt_flag, map_some, bind_eq_bind, bind_some]
  simp only [encodeRow, cons_append, nil_append] at hfields ⊢
  rw [hfields, length_cons, Nat.add_assoc, Nat.add_comm 1]
  rfl

theorem readRow_encodeRow (hfit : row.Fits t)
    (hlen : pre.length + (encodeRow t row.flag row.values).length < 2 ^ 32) :
    readRow t (pre ++ (encodeRow t row.flag row.values ++ post)) pre.length =
      some ((row.flag, row.kept t), pre.length + (encodeRow t row.flag row.values).length) := by
  rw [readRow, valueAt_flag, decodeRow_encodeRow hfit hlen]
  simp only [bind_eq_bind, bind_some, Option.pure_def, UInt8.ofNat_toNat]

/-- The rows of a node are read as they were written. -/
theorem readRows_encodeRows (hfit : ∀ row ∈ rows, row.Fits t)
    (hlen : pre.length + (encodeRows t rows).length < 2 ^ 32) :
    readRows t (pre ++ (encodeRows t rows ++ post)) rows.length pre.length =
      some (rows.map fun row => (row.flag, row.kept t)) := by
  induction rows generalizing pre with
  | nil => rfl
  | cons row rows ih =>
    rw [encodeRows, flatMap_cons] at hlen ⊢
    rw [← encodeRows] at hlen ⊢
    rw [length_append] at hlen
    have hrest := @ih (pre ++ encodeRow t row.flag row.values)
      (fun r hr => hfit r (mem_cons_of_mem row hr)) (by rw [length_append]; omega)
    rw [append_assoc, length_append] at hrest
    rw [length_cons, readRows, append_assoc,
      readRow_encodeRow (hfit row mem_cons_self) (by omega)]
    simp only [bind_eq_bind, bind_some, hrest, Option.pure_def, map_cons]

end ISearch.RawData
