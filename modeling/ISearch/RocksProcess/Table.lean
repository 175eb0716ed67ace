import ISearch.Lib.SortedMap
import ISearch.RocksProcess.Bitmap
import ISearch.RocksProcess.Values

/-!
# Tables and stored rows of the storage helper (`db_process_rocks.cc`)

The key fields of a table come first in the order of the storage (`mFieldIndexMapping`). The entry
of a row has the encoded key fields for its key, lower case in the String fields, and for its value
the case bitmaps and the other fields.

Volatile fields are not stored; the tables here have none.
-/

namespace ISearch.RocksProcess

open KeyFormat

abbrev Db := SortedMap Bytes Bytes

structure Column where
  field : Field
  defaultValue : field.type.Value

/-- A table definition. Field `0` is the primary key and begins the list of the key fields. -/
structure Table where
  numFields : Nat
  column : Fin (numFields + 1) → Column
  uniqFields : List (Fin (numFields + 1))
  head_uniqFields : uniqFields.head? = some 0
  nodup_uniqFields : uniqFields.Nodup

namespace Table

variable (t : Table)

abbrev FieldId : Type := Fin (t.numFields + 1)

instance (priority := 2000) neZeroFields : NeZero (t.numFields + 1) := ⟨Nat.succ_ne_zero _⟩

instance lawfulBEqFieldId : LawfulBEq t.FieldId := inferInstance

def field (i : t.FieldId) : Field := (t.column i).field

def type (i : t.FieldId) : FieldType := (t.field i).type

def valueFields : List t.FieldId := (List.finRange (t.numFields + 1)).filter (· ∉ t.uniqFields)

/-- `mFieldIndexMapping`. -/
def fieldIndexMapping : List t.FieldId := t.uniqFields ++ t.valueFields

/-- `mKeyfield_types`. -/
def keyTypes : List FieldType := t.uniqFields.map t.type

theorem neZero_two : NeZero (1 + 1) := ⟨by decide⟩

theorem neZero_three : NeZero (2 + 1) := ⟨by decide⟩

attribute [local instance (2000)] neZero_two neZero_three

theorem head?_first_two : ([0] : List (Fin (1 + 1))).head? = some 0 := rfl

theorem nodup_first_two : ([0] : List (Fin (1 + 1))).Nodup := by simp

theorem head?_first_three : ([0] : List (Fin (2 + 1))).head? = some 0 := rfl

theorem nodup_first_three : ([0] : List (Fin (2 + 1))).Nodup := by simp

theorem uniqFields_eq : t.uniqFields = 0 :: t.uniqFields.tail :=
  (List.cons_head?_tail t.head_uniqFields).symm

theorem mem_fieldIndexMapping (i : t.FieldId) : i ∈ t.fieldIndexMapping := by
  by_cases h : i ∈ t.uniqFields <;> simp [fieldIndexMapping, valueFields, h]

theorem nodup_fieldIndexMapping : t.fieldIndexMapping.Nodup := by
  refine List.nodup_append.mpr ⟨t.nodup_uniqFields, (List.nodup_finRange _).filter _, ?_⟩
  rintro i hi _ hi' rfl
  simp [valueFields, hi] at hi'

/-- What `process_insert` writes for the field values. -/
def rocksEntry (keys values : List Bytes) : Option (Bytes × Bytes) := do
  let (keys, keyBitmaps) := encodeBitmapKeys t.keyTypes keys
  let rocksKey ← encode keys t.keyTypes
  return (rocksKey, keyBitmaps ++ shrinkValue (t.valueFields.map t.field) values)

end Table

/-- A key value as it is stored. -/
def lowerValue : (t : FieldType) → t.Value → t.Value
  | .string, x => toLower x
  | .signed, x | .unsigned, x | .binary, x => x

theorem toStr_lowerValue (t : FieldType) (x : t.Value) :
    t.toStr (lowerValue t x) = lowerKey t (t.toStr x) := by
  cases t <;> rfl

theorem toNat_lowerChar (c : UInt8) :
    (lowerChar c).toNat = if 65 ≤ c.toNat ∧ c.toNat ≤ 90 then c.toNat + 32 else c.toNat := by
  have h65 : UInt8.toNat 65 = 65 := rfl
  have h90 : UInt8.toNat 90 = 90 := rfl
  simp only [lowerChar, isUpper, Bool.and_eq_true, decide_eq_true_eq, UInt8.le_iff_toNat_le, h65,
    h90]
  split
  · rename_i h
    rw [UInt8.toNat_add, Nat.mod_eq_of_lt]
    · rfl
    · have h32 : UInt8.toNat 32 = 32 := rfl
      omega
  · rfl

theorem lowerChar_lowerChar (c : UInt8) : lowerChar (lowerChar c) = lowerChar c := by
  rcases Bool.eq_false_or_eq_true (isUpper c) with h | h
  · obtain ⟨hlo, -, -⟩ := lowerChar_sub h
    have hnot : isUpper (lowerChar c) = false := by
      rw [isUpper, Bool.and_eq_false_iff]
      right
      rw [decide_eq_false_iff_not, UInt8.not_le]
      exact lt_of_lt_of_le (by decide) hlo
    conv_lhs => rw [lowerChar, if_neg (by simp [hnot])]
  · have hc : lowerChar c = c := by rw [lowerChar, if_neg (by simp [h])]
    rw [hc, hc]

theorem toLower_toLower (s : Bytes) : toLower (toLower s) = toLower s := by
  simp only [toLower, List.map_map]
  exact List.map_congr_left fun c _ => lowerChar_lowerChar c

/-! ## Rows -/

/-- The values of a row, whether or not the bytes of the fields hold them. -/
def Row (t : Table) : Type := (i : t.FieldId) → (t.type i).Value

namespace Row

variable {t : Table} (row : Row t)

def set (i : t.FieldId) (value : (t.type i).Value) : Row t := Function.update row i value

@[simp] theorem set_self (i : t.FieldId) (value : (t.type i).Value) : row.set i value i = value :=
  Function.update_self (β := fun i => (t.type i).Value) i value row

theorem set_of_ne {i j : t.FieldId} (h : j ≠ i) (value : (t.type i).Value) :
    row.set i value j = row j :=
  Function.update_of_ne (β := fun i => (t.type i).Value) h value row

def str (i : t.FieldId) : Bytes := (t.type i).toStr (row i)

def keys : List Bytes := t.uniqFields.map row.str

def values : List Bytes := t.valueFields.map row.str

/-- The row with its String fields in lower case. -/
def lower : Row t := fun i => lowerValue (t.type i) (row i)

/-- The key of the entry. -/
def rocksKey : Bytes := t.uniqFields.flatMap fun i => (t.type i).enc (row.lower i)

/-- The value of the entry, without the case bitmaps. -/
def shrunk : Bytes := shrinkValue (t.valueFields.map t.field) row.values

/-- The value of the entry. -/
def rocksValue : Bytes := (encodeBitmapKeys t.keyTypes row.keys).2 ++ row.shrunk

def entry : Bytes × Bytes := (row.rocksKey, row.rocksValue)

/-- Every value is held by the bytes of its field. -/
def Fits : Prop := ∀ i ∈ t.valueFields, (t.field i).Fits (row i)

/-- The row is stored under a primary key. String keys are the same in lower and in upper case. -/
def Under (key : (t.type 0).Value) : Prop := lowerValue (t.type 0) (row 0) = lowerValue (t.type 0) key

theorem lower_keys : row.lower.keys = List.zipWith lowerKey t.keyTypes row.keys := by
  simp only [keys, Table.keyTypes, List.zipWith_map, List.zipWith_self]
  apply List.map_congr_left
  intro i _
  exact toStr_lowerValue (t.type i) (row i)

theorem length_keys : t.keyTypes.length = row.keys.length := by simp [keys, Table.keyTypes]

/-- The key fields as a row of the key codec. -/
def keyRow (row : Row t) : (ids : List t.FieldId) → KeyFormat.Row (ids.map t.type)
  | [] => ()
  | i :: ids => (row i, keyRow row ids)

theorem strings_keyRow (ids : List t.FieldId) :
    (keyRow row ids).strings = ids.map row.str := by
  induction ids with
  | nil => rfl
  | cons i ids ih => exact congrArg (row.str i :: ·) ih

theorem enc_keyRow (ids : List t.FieldId) :
    (keyRow row ids).enc = ids.flatMap fun i => (t.type i).enc (row i) := by
  induction ids with
  | nil => rfl
  | cons i ids ih => exact congrArg ((t.type i).enc (row i) ++ ·) ih

theorem encode_keys : encode row.keys t.keyTypes =
    some (t.uniqFields.flatMap fun i => (t.type i).enc (row i)) := by
  have h := KeyFormat.Row.encode_strings _ (keyRow row t.uniqFields)
  rwa [strings_keyRow, enc_keyRow] at h

theorem decode_rocksKey : decode row.rocksKey t.keyTypes = some row.lower.keys := by
  have h := KeyFormat.Row.decodeFrom_enc _ (keyRow row.lower t.uniqFields) []
  rwa [strings_keyRow, enc_keyRow] at h

theorem rocksEntry_eq : t.rocksEntry row.keys row.values = some row.entry := by
  have hfst := encodeBitmapKeys_fst row.length_keys
  rw [← row.lower_keys] at hfst
  simp only [Table.rocksEntry, hfst, row.lower.encode_keys]
  rfl

theorem decodeBitmapKeys_rocksValue :
    decodeBitmapKeys t.keyTypes row.rocksValue row.lower.keys = some (row.keys, row.shrunk) := by
  rw [row.lower_keys]
  exact decodeBitmapKeys_encodeBitmapKeys row.length_keys row.shrunk

theorem skipKeyBitmap_rocksValue : skipKeyBitmap t.keyTypes row.rocksValue = some row.shrunk :=
  skipKeyBitmap_encodeBitmapKeys row.length_keys row.shrunk

theorem getValues_shrunk :
    getValues (t.valueFields.map t.field) row.shrunk = some row.values ↔ row.Fits :=
  getValues_shrinkValue

theorem splitValues_shrunk (hfits : row.Fits) :
    splitValues (t.valueFields.map t.field) row.shrunk =
      some (if t.valueFields = [] then [] else t.valueFields.dropLast.map row.str ++ [[]]) :=
  splitValues_shrinkValue hfits

end Row

end ISearch.RocksProcess
