import ISearch.RocksProcess.Table

/-!
# Requests to the storage helper (`db_process_rocks.cc`)

`process_insert`, `process_select`, `process_update` and `process_delete`. A request names fields of
the table, so its values have the types of these fields. A loop over the storage iterates over the
entries from the seek key on and stops where `key_matched` fails.

`none` stands for an `assert` that fails and for an access the code must not make. The storage does
not fail here.
-/

namespace ISearch.RocksProcess

open KeyFormat

/-! ## Conditions -/

/-- `DField::EQ` to `DField::GE`. -/
inductive Comparator where
  | eq
  | ne
  | lt
  | le
  | gt
  | ge
  deriving DecidableEq, Repr

def Comparator.test : Comparator → Ordering → Bool
  | .eq, o => o == .eq
  | .ne, o => o != .eq
  | .lt, o => o == .lt
  | .le, o => o != .gt
  | .gt, o => o == .gt
  | .ge, o => o != .lt

/-- `is_matched<T>`. -/
def isMatched {α : Type} [Ord α] (lv : α) (comparator : Comparator) (rv : α) : Bool :=
  comparator.test (compare lv rv)

def memcmp (lv rv : Bytes) (count : Nat) : Ordering := compare (lv.take count) (rv.take count)

def memcmpIgnoreCase (lv rv : Bytes) (count : Nat) : Ordering :=
  memcmp (toLower lv) (toLower rv) count

/-- `is_matched` of strings. -/
def isMatchedStr (lv : Bytes) (comparator : Comparator) (rv : Bytes) (caseSensitive : Bool) :
    Bool :=
  let minLen := min lv.length rv.length
  let ret := if caseSensitive then memcmp lv rv minLen else memcmpIgnoreCase lv rv minLen
  match comparator with
  | .eq => lv.length == rv.length && ret == .eq
  | .ne => if lv.length ≠ rv.length then true else ret != .eq
  | .lt => ret == .lt || (ret == .eq && lv.length < rv.length)
  | .le => ret == .lt || (ret == .eq && lv.length ≤ rv.length)
  | .gt => ret == .gt || (ret == .eq && lv.length > rv.length)
  | .ge => ret == .gt || (ret == .eq && lv.length ≥ rv.length)

/-- The switch of `condition_filter` over the field types. The String case has no `break`. -/
def fieldMatched (rocksValue : Bytes) (comparator : Comparator) : (t : FieldType) → t.Value → Bool
  | .signed, v => isMatched (strtoll rocksValue) comparator (show Int64 from v)
  | .unsigned, v => isMatched (strtoull rocksValue) comparator (show UInt64 from v)
  | .string, v =>
    isMatchedStr rocksValue comparator v false && isMatchedStr rocksValue comparator v true
  | .binary, v => isMatchedStr rocksValue comparator v true

structure Condition (t : Table) where
  fieldId : t.FieldId
  comparator : Comparator
  value : (t.type fieldId).Value

variable {t : Table}

/-- The conditions on one field. -/
def conditionFilter (rocksValue : Bytes) (fieldId : t.FieldId) (conds : List (Condition t)) : Bool :=
  conds.all fun c =>
    c.fieldId ≠ fieldId || fieldMatched rocksValue c.comparator (t.type c.fieldId) c.value

/-- The loop of `saveRow` and `update_row` over the fields that are left, those of the key first:
their strings, or `none` if a condition is not met. -/
def filterFields (conds : List (Condition t)) :
    List t.FieldId → List Bytes → Bytes → Option (Option (List Bytes))
  | [], _, _ => some (some [])
  | i :: ids, key :: keys, valueHead =>
    if conditionFilter key i conds then do
      return (← filterFields conds ids keys valueHead).map (key :: ·)
    else some none
  | i :: ids, [], valueHead => do
    let (value, valueHead) ← getValueById (t.field i) valueHead
    if conditionFilter value i conds then
      return (← filterFields conds ids [] valueHead).map (value :: ·)
    else some none

def keyMatched (dtcKey rocksKey : Bytes) : Bool :=
  if (dtcKey.length = 0 ∧ rocksKey.length ≠ 0) ∨ dtcKey.length > rocksKey.length then false
  else rocksKey.take dtcKey.length == dtcKey

/-- The key that is looked for: the primary key as a string, whatever its type. -/
def prefixKey (key : (t.type 0).Value) : Bytes := lowerKey (t.type 0) ((t.type 0).toStr key)
def encodePreKey (key : (t.type 0).Value) : Bytes := encodeBytes (prefixKey key)

/-- The calls of `Task->set_error` and `set_error_dup`. -/
inductive Error where
  | getPrimaryKey
  | dupEntry
  deriving DecidableEq, Repr

/-- The writes of `batch_update`. -/
def batchUpdate (db : Db) (deletedKeys : List Bytes) (newEntries : List (Bytes × Bytes)) : Db :=
  (deletedKeys.foldl SortedMap.erase db).putAll newEntries

/-- The fields of a row from their strings in the order of the storage. -/
def rowValue (strs : List Bytes) : Row t := fun i =>
  str2Value (strs[t.fieldIndexMapping.idxOf i]?.getD []) (t.type i)

inductive Saved (t : Table) where
  | counted
  | unmatched
  | row (row : Row t)

def saveRow (conds : List (Condition t)) (countOnly : Bool) (compoundKey compoundValue : Bytes) :
    Option (Saved t) := do
  let keys ← decode compoundKey t.keyTypes
  if countOnly then return .counted
  else
    let (keys, valueHead) ← decodeBitmapKeys t.keyTypes compoundValue keys
    match ← filterFields conds t.fieldIndexMapping keys valueHead with
    | some strs => return .row (rowValue strs)
    | none => return .unmatched

/-- The loop of `process_select`: the rows that are appended, and `totalRows`. -/
def selectLoop (conds : List (Condition t)) (countOnly : Bool) (preKey : Bytes) :
    List (Bytes × Bytes) → Option (List (Row t) × Nat)
  | [] => some ([], 0)
  | (fullKey, value) :: rest =>
    if keyMatched preKey fullKey then do
      let saved ← saveRow conds countOnly fullKey value
      let (rows, totalRows) ← selectLoop conds countOnly preKey rest
      match saved with
      | .counted => return (rows, totalRows + 1)
      | .unmatched => return (rows, totalRows)
      | .row row => return (row :: rows, totalRows)
    else some ([], 0)

def processSelect (db : Db) (key : (t.type 0).Value) (conds : List (Condition t))
    (countOnly : Bool) : Option (Except Error (List (Row t) × Nat)) :=
  if prefixKey key = [] then some (.error .getPrimaryKey)
  else (selectLoop conds countOnly (encodePreKey key) (db.seek (encodePreKey key))).map .ok

structure InsertRequest (t : Table) where
  key : (t.type 0).Value
  operation : List ((i : t.FieldId) × (t.type i).Value)

/-- `filledMap`, with the strings that are filled in. -/
def InsertRequest.filled (req : InsertRequest t) : t.FieldId → Option Bytes :=
  req.operation.foldl
    (fun filled op =>
      if op.1 = 0 then filled else Function.update filled op.1 (some ((t.type op.1).toStr op.2)))
    (Function.update (fun _ => none) 0 (some ((t.type 0).toStr req.key)))

/-- The string of a field, after the default values are set. -/
def InsertRequest.str (req : InsertRequest t) (i : t.FieldId) : Bytes :=
  (req.filled i).getD ((t.type i).toStr (t.column i).defaultValue)

def processInsert (db : Db) (req : InsertRequest t) : Option (Except Error Db) :=
  if (t.type 0).toStr req.key = [] then some (.error .getPrimaryKey)
  else do
    let (rocksKey, rocksValue) ← t.rocksEntry (t.uniqFields.map req.str) (t.valueFields.map req.str)
    if (db.get? rocksKey).isSome then return .error .dupEntry
    else return .ok (db.put rocksKey rocksValue)

/-! ## Update -/

/-- The operation on a field. An addition carries a type of its own. `SetBits` and `OR` are not
supported. -/
inductive Operation (t : Table) (i : t.FieldId) where
  | set (value : (t.type i).Value)
  | add (type : FieldType) (value : type.Value)
  | unsupported

def valueAddToStr (baseValue : Bytes) : (t : FieldType) → t.Value → Bytes
  | .signed, v => toStringS64 (strtoll baseValue + (show Int64 from v))
  | .unsigned, v => toStringU64 (strtoull baseValue + (show UInt64 from v))
  | .string, _ | .binary, _ => baseValue

abbrev UpdateInfo (t : Table) := List ((i : t.FieldId) × Operation t i)

def updatesKey (updateInfo : UpdateInfo t) : Bool := updateInfo.any fun op => op.1 ∈ t.uniqFields
def updatesValue (updateInfo : UpdateInfo t) : Bool := updateInfo.any fun op => op.1 ∉ t.uniqFields

/-- The loop over the operations, on the strings of the fields. -/
def applyOperations : UpdateInfo t → (t.FieldId → Bytes) → Option (t.FieldId → Bytes)
  | [], strs => some strs
  | ⟨i, .set value⟩ :: ops, strs =>
    applyOperations ops (Function.update strs i ((t.type i).toStr value))
  | ⟨i, .add type value⟩ :: ops, strs =>
    applyOperations ops (Function.update strs i (valueAddToStr (strs i) type value))
  | ⟨_, .unsupported⟩ :: _, _ => none

inductive Updated where
  | failed
  | unmatched
  | row (newKey newValue : Bytes)
  deriving DecidableEq, Repr

/-- The end of `update_row`: the new key and the new value. -/
def updatedEntry (upKey upVal : Bool) (compoundKey bitmapKey realValue : Bytes)
    (strs : t.FieldId → Bytes) : Option (Bytes × Bytes) := do
  let newValue :=
    if upVal then shrinkValue (t.valueFields.map t.field) (t.valueFields.map strs) else realValue
  if upKey then
    let (keys, bitmapKey) := encodeBitmapKeys t.keyTypes (t.uniqFields.map strs)
    return (← encode keys t.keyTypes, bitmapKey ++ newValue)
  else return (compoundKey, bitmapKey ++ newValue)

/-- The value fields, as far as `update_row` needs them. -/
def updateValues (t : Table) (upVal : Bool) (realValue : Bytes) : Option (List Bytes) :=
  if upVal then splitValues (t.valueFields.map t.field) realValue else some []

/-- `update_row`. Without a change of the key its fields stay in lower case. -/
def updateRow (conds : List (Condition t)) (updateInfo : UpdateInfo t)
    (compoundKey compoundValue : Bytes) : Option Updated := do
  let keys ← decode compoundKey t.keyTypes
  let (keys, realValue) ←
    if updatesKey updateInfo then decodeBitmapKeys t.keyTypes compoundValue keys
    else (skipKeyBitmap t.keyTypes compoundValue).map (keys, ·)
  match ← filterFields conds t.fieldIndexMapping.tail keys.tail realValue with
  | none => return .unmatched
  | some _ =>
    let values ← updateValues t (updatesValue updateInfo) realValue
    match applyOperations updateInfo fun i =>
        (keys ++ values)[t.fieldIndexMapping.idxOf i]?.getD [] with
    | none => return .failed
    | some strs =>
      let bitmapKey := compoundValue.take (compoundValue.length - realValue.length)
      let (newKey, newValue) ← updatedEntry (updatesKey updateInfo) (updatesValue updateInfo)
        compoundKey bitmapKey realValue strs
      return .row newKey newValue

structure UpdateState where
  originKeys : List Bytes
  deletedKeys : List Bytes
  newEntries : List (Bytes × Bytes)
  affectRows : Nat

/-- The loop of `process_update` for a change of the key. -/
def updateKeyLoop (conds : List (Condition t)) (updateInfo : UpdateInfo t) (preKey : Bytes) :
    List (Bytes × Bytes) → UpdateState → Option (Except Error UpdateState)
  | [], s => some (.ok s)
  | (fullKey, compoundValue) :: rest, s =>
    if fullKey ∈ s.newEntries.map (·.1) then some (.error .dupEntry)
    else if keyMatched preKey fullKey then do
      match ← updateRow conds updateInfo fullKey compoundValue with
      | .failed => updateKeyLoop conds updateInfo preKey rest s
      | .unmatched =>
        updateKeyLoop conds updateInfo preKey rest { s with originKeys := fullKey :: s.originKeys }
      | .row newKey newValue =>
        if newKey = fullKey then some (.error .dupEntry)
        else if newKey ∉ s.originKeys ∧ newKey ∉ s.newEntries.map (·.1) ∧
            newKey ∉ s.deletedKeys then
          updateKeyLoop conds updateInfo preKey rest
            { s with
              affectRows := s.affectRows + 1
              deletedKeys := fullKey :: s.deletedKeys
              newEntries := (newKey, newValue) :: s.newEntries }
        else some (.error .dupEntry)
    else some (.ok s)

/-- The loop of `process_update` for a change of values only. -/
def updateValueLoop (conds : List (Condition t)) (updateInfo : UpdateInfo t) (preKey : Bytes) :
    List (Bytes × Bytes) → Option (List (Bytes × Bytes))
  | [] => some []
  | (fullKey, compoundValue) :: rest =>
    if keyMatched preKey fullKey then do
      let updated ← updateRow conds updateInfo fullKey compoundValue
      let newEntries ← updateValueLoop conds updateInfo preKey rest
      match updated with
      | .row _ newValue => return (fullKey, newValue) :: newEntries
      | _ => return newEntries
    else some []

/-- `process_update`: the storage and the number of affected rows. -/
def processUpdate (db : Db) (key : (t.type 0).Value) (conds : List (Condition t))
    (updateInfo : UpdateInfo t) : Option (Except Error (Db × Nat)) :=
  let preKey := encodePreKey key
  if updatesKey updateInfo then do
    match ← updateKeyLoop conds updateInfo preKey (db.seek preKey) ⟨[], [], [], 0⟩ with
    | .error e => return .error e
    | .ok s => return .ok (batchUpdate db s.deletedKeys s.newEntries, s.affectRows)
  else if updatesValue updateInfo then do
    let newEntries ← updateValueLoop conds updateInfo preKey (db.seek preKey)
    return .ok (batchUpdate db [] newEntries, newEntries.length)
  else some (.ok (db, 0))

/-- The loop of `process_delete`. `condMatch` is set before the loop, and never again to `true`. -/
def deleteLoop (conds : List (Condition t)) (key : (t.type 0).Value) (condMatch : Bool) :
    List (Bytes × Bytes) → Option (List Bytes)
  | [] => some []
  | (fullKey, compoundValue) :: rest =>
    if keyMatched (encodePreKey key) fullKey then do
      let keys ← decode fullKey t.keyTypes
      if keys.head? ≠ some (prefixKey key) then some []
      else
        let (keys, realValue) ← decodeBitmapKeys t.keyTypes compoundValue keys
        let values ← splitValues (t.valueFields.map t.field) realValue
        let matched := (t.fieldIndexMapping.tail.zip (keys ++ values).tail).all fun f =>
          conditionFilter f.2 f.1 conds
        let deleteKeys ← deleteLoop conds key (condMatch && matched) rest
        return if condMatch && matched then fullKey :: deleteKeys else deleteKeys
    else some []

end ISearch.RocksProcess
