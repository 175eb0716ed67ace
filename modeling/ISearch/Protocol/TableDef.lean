import Mathlib.Data.List.TakeWhile
import ISearch.Protocol.RoundTrip

/-!
# Table definitions on the wire (`table_def.cc`)

The server packs its table definition behind the MD5 of the packet, and the client unpacks it. The
packet has the names, types and sizes of the fields and the attributes of the table; defaults and
flags of fields stay with the server. MD5 is a parameter.

The chains of the name hash, and the members that neither side sends (last access, increment, unique
fields, offsets), are left out.
-/

namespace ISearch.Protocol

open Function
open KeyFormat (Bytes)

def tableAttributeDefinition : SectionDefinition where
  sectionId := 1
  maxTags := 4
  tagTypes := [.none, .unsigned, .unsigned, .unsigned]

/-- No attribute is a float, so the format of floats does not matter. -/
def noFloat : FloatFormat Unit where
  print _ := nanText
  scan _ := none
  nan := ()
  infinity := ()
  negInfinity := ()

theorem noFloat_exact : noFloat.Exact where
  no_zero _ := (by decide : 0 ∉ nanText)
  two_le _ := (by decide : 2 ≤ nanText.length)
  lt_bufSize _ := (by decide : nanText.length < floatBufSize)
  eq_nan _ _ := rfl
  eq_infinity _ _ := rfl
  eq_negInfinity _ _ := rfl
  scan_print _ h := absurd rfl h

abbrev TableAttribute := SimpleSection Unit tableAttributeDefinition .none

namespace TableAttribute

def empty : TableAttribute where
  numTags := 0
  tagPresent _ := false
  tagValue i :=
    match tableAttributeDefinition.typeOf .none i with
    | .none | .float => ()
    | .signed => (0 : Int64)
    | .unsigned => (0 : UInt64)
    | .string | .binary => (none : Option DTCBinary)

variable (attr : TableAttribute)

/-- `get_tag(1)->u64`. -/
def flags : Option UInt64 := if attr.present 1 then some (attr.tagValue 1) else none

/-- `get_tag(3)->u64`, the number of key fields. -/
def keyFieldCount : Option UInt64 := if attr.present 3 then some (attr.tagValue 3) else none

def setFlags (v : UInt64) : TableAttribute where
  numTags := if attr.tagPresent 1 then attr.numTags else attr.numTags + 1
  tagPresent := update attr.tagPresent 1 true
  tagValue := update attr.tagValue 1 v

def setKeyFieldCount (v : UInt64) : TableAttribute where
  numTags := if attr.tagPresent 3 then attr.numTags else attr.numTags + 1
  tagPresent := update attr.tagPresent 3 true
  tagValue := update attr.tagValue 3 v

def setSingleRow : TableAttribute := attr.setFlags ((flags attr).elim 1 (· ||| 1))

def setAdminTab : TableAttribute := attr.setFlags ((flags attr).elim 2 (· ||| 2))

/-- Flags that are set already are not kept. -/
def setCompressFlag (n : Nat) : TableAttribute :=
  let tmp := (UInt64.ofNat n &&& 0xFF) <<< 56
  attr.setFlags ((flags attr).elim tmp (· &&& tmp))

end TableAttribute

/-! ## Definitions -/

/-- A field; the name is missing where none was added. -/
structure FieldDefinition where
  fieldName : Option Bytes
  fieldSize : Int
  fieldType : DField
  flags : UInt8
  deriving DecidableEq

/-- An element of `fieldList` after `calloc`. -/
def FieldDefinition.zero : FieldDefinition := ⟨none, 0, .none, 0⟩

/-- `FF_READONLY` and `FF_DISCARD`. -/
def FieldDefinition.ffReadOnly : UInt8 := 1
def FieldDefinition.ffDiscard : UInt8 := 4

/-- The defaults are the server's; `none` is the zero of the type of the field. -/
structure DTCTableDefinition (F : Type) where
  fieldList : Nat → FieldDefinition
  maxFields : Nat
  usedFields : Nat
  numFields : Nat
  keyFields : Nat
  attr : TableAttribute
  tableName : Option Bytes
  hash : Option (Vector UInt8 16)
  defaultValue : Option (Nat → Option ((type : DField) × type.Value F))
  maxKeySize : Nat

/-- The error codes, of the decoder and of the definition. -/
inductive TableError where
  | failure (f : Failure)
  | badFieldId
  | badFieldSize
  | badFieldType
  | badFieldName
  | tableRedefined
  | versionMismatch
  | badSectionLength
  deriving DecidableEq

/-- A function of the decoder returns its code. -/
def TableError.lift {α : Type} : Decode α → Except TableError α
  | .ok a => .ok a
  | .error e => .error (.failure e)

/-- `strlen`, and the bytes before. -/
def cStr (name : Bytes) : Bytes := name.takeWhile (· ≠ 0)

namespace DTCTableDefinition

variable {F : Type}

/-- `DTCTableDefinition(m)`. The members `hash` and `maxKeySize` are not set. -/
def new (m : Nat) (maxKeySize : Nat) : DTCTableDefinition F where
  fieldList _ := .zero
  maxFields := m
  usedFields := 0
  numFields := 0
  keyFields := 0
  attr := .empty
  tableName := none
  hash := none
  defaultValue := if m > 0 then some fun _ => none else none
  maxKeySize := maxKeySize

/-- The `switch` of `add_field`. -/
def checkSize (type : Option DField) (size : Int) : Except TableError DField :=
  match type with
  | some .signed => if size > 8 then .error .badFieldSize else .ok .signed
  | some .unsigned => if size > 8 then .error .badFieldSize else .ok .unsigned
  | some .float => if size ≠ 8 ∧ size ≠ 4 then .error .badFieldSize else .ok .float
  | some .string => if size > maxPacketSize then .error .badFieldSize else .ok .string
  | some .binary => if size > maxPacketSize then .error .badFieldSize else .ok .binary
  | _ => .error .badFieldType

variable (tdef : DTCTableDefinition F)

def addField (id : Int) (name : Bytes) (type : Nat) (size : Int) :
    Except TableError (DTCTableDefinition F) :=
  if id < 0 ∨ id > 255 ∨ id ≥ tdef.maxFields ∨ (tdef.fieldList id.toNat).fieldName.isSome then
    .error .badFieldId
  else if size ≤ 0 then .error .badFieldSize
  else
    match checkSize (DField.ofCode type) size with
    | .error e => .error e
    | .ok type =>
      if (cStr name).length = 0 ∨ (cStr name).length > 255 then .error .badFieldName
      else .ok { tdef with
        fieldList := update tdef.fieldList id.toNat
          ⟨some (cStr name), size, type, if id = 0 then FieldDefinition.ffReadOnly else 0⟩
        numFields := max id.toNat tdef.numFields
        usedFields := if id = 0 then tdef.usedFields else tdef.usedFields + 1
        defaultValue := tdef.defaultValue.map fun values => update values id.toNat none }

def setTableName (name : Bytes) : DTCTableDefinition F :=
    { tdef with tableName := some (cStr name) }

def setDefaultValue (id : Int) (dval : (type : DField) × type.Value F) : DTCTableDefinition F :=
  if id ≤ 0 ∨ id > 255 ∨ id ≥ tdef.maxFields then tdef
  else { tdef with
    defaultValue := tdef.defaultValue.map fun values =>
      update values id.toNat (some dval) }

/-- An assignment to the flags of a field. -/
def withFlags (n : Nat) (f : UInt8 → UInt8) : DTCTableDefinition F :=
  { tdef with
    fieldList := update tdef.fieldList n
      { tdef.fieldList n with flags := f (tdef.fieldList n).flags } }

def markAsDiscard (n : Nat) := tdef.withFlags n (· ||| FieldDefinition.ffDiscard)

def setSingleRow : DTCTableDefinition F := { tdef with attr := tdef.attr.setSingleRow }

def setAdminTable : DTCTableDefinition F := { tdef with attr := tdef.attr.setAdminTab }

def setCompressFlag (n : Nat) : DTCTableDefinition F :=
  if n ≤ tdef.numFields then { tdef with attr := tdef.attr.setCompressFlag n } else tdef

/-- The loop of `set_key_fields`: `maxSize` and `nvar`. -/
def keySizes (n : Nat) : Int × Nat :=
  (List.range n).foldl (fun (maxSize, nvar) i =>
    match (tdef.fieldList i).fieldType with
    | .signed | .unsigned | .float => (maxSize + (tdef.fieldList i).fieldSize, nvar)
    | _ => (1 + (tdef.fieldList i).fieldSize, nvar + 1)) (0, 0)

/-- `set_key_fields`; `none` for the return code -1. The size is compared before it is set. -/
def setKeyFields (n : Int) : Option (DTCTableDefinition F) :=
  let n := if n < 0 then 1 else n
  if n ≤ 0 then some tdef
  else if n > 32 then none
  else
    let n := min n.toNat (tdef.numFields + 1)
    let (maxSize, nvar) := tdef.keySizes n
    let fieldList i :=
      if i < n then
        { tdef.fieldList i with flags := (tdef.fieldList i).flags ||| FieldDefinition.ffReadOnly }
      else tdef.fieldList i
    let tdef : DTCTableDefinition F := { tdef with
      fieldList := fieldList, keyFields := n
      attr := tdef.attr.setKeyFieldCount (UInt64.ofNat n) }
    if nvar = 0 then
      if tdef.maxKeySize ≥ 256 then none
      else some { tdef with maxKeySize := (maxSize % 2 ^ 16).toNat }
    else if tdef.maxKeySize ≥ 256 + 1 then none
    else if n ≠ 1 then none
    else some { tdef with maxKeySize := ((maxSize + if nvar > 1 then 1 else 0) % 2 ^ 16).toNat }

/-- The ids of the fields that were added. -/
def fieldIds : List Nat :=
  (List.range (tdef.numFields + 1)).filter fun i => (tdef.fieldList i).fieldName.isSome

/-- One field of the packet. -/
def packField (i : Nat) : Bytes :=
  let name := (tdef.fieldList i).fieldName.getD []
  [UInt8.ofNat i, UInt8.ofNat (tdef.fieldList i).fieldType.code] ++
    (encodeLength (tdef.fieldList i).fieldSize.toNat ++ (UInt8.ofNat name.length :: name))

/-- The packet behind the MD5. -/
def packBody : Bytes :=
  let name := tdef.tableName.getD []
  1 :: UInt8.ofNat name.length :: (name ++
    (UInt8.ofNat tdef.fieldIds.length :: (tdef.fieldIds.flatMap tdef.packField ++
      tdef.attr.encode noFloat)))

/-- `build_info_cache`: the packet, and the definition with its hash. Without a field behind the key
there is no packet. -/
def buildInfoCache (md5 : Bytes → Vector UInt8 16) : Option (Bytes × DTCTableDefinition F) :=
  if tdef.numFields = 0 then none
  else
    let hash := md5 tdef.packBody
    some (hash.toList ++ tdef.packBody, { tdef with hash := some hash })

/-- The loop of `Unpack`. -/
def unpackFields : Nat → DTCBinary → DTCTableDefinition F →
    Except TableError (DTCTableDefinition F × DTCBinary)
  | 0, b, tdef => return (tdef, b)
  | nf + 1, b, tdef => do
    if b.len < 5 then throw .badSectionLength
    let (id, b) ← TableError.lift b.next
    let (type, b) ← TableError.lift b.next
    let (size, b) ← TableError.lift (decodeLength b)
    if b.len < 2 then throw .badSectionLength
    let (n, b) ← TableError.lift b.next
    if n = 0 ∨ b.len < n.toNat then throw .badSectionLength
    let name ← TableError.lift (b.read n.toNat)
    let tdef ← tdef.addField id.toNat name type.toNat size
    unpackFields nf (b.advance n.toNat) tdef

/-- `Unpack`, on the packet from its place `ptr` on. -/
def unpack (md5 : Bytes → Vector UInt8 16) (ptr : Nat) (packet : Bytes) :
    Except TableError (DTCTableDefinition F) := do
  if tdef.numFields ≠ 0 ∨ tdef.maxFields ≠ 0 then throw .tableRedefined
  let b : DTCBinary := ⟨ptr, packet⟩
  if b.len < 24 then throw .badSectionLength
  let h := md5 (packet.drop 16)
  if h.toList ≠ packet.take 16 then throw .versionMismatch
  let b := b.advance 16
  let (n, b) ← TableError.lift b.next
  if n ≠ 1 then throw .versionMismatch
  let (n, b) ← TableError.lift b.next
  if n = 0 ∨ b.len < n.toNat + 1 then throw .badSectionLength
  let tableName ← TableError.lift (b.read n.toNat)
  let (nf, b) ← TableError.lift (b.advance n.toNat).next
  if nf = 0 then throw .badSectionLength
  let tdef : DTCTableDefinition F := { tdef with
    hash := some h, tableName := some tableName, maxFields := nf.toNat }
  let (tdef, b) ← unpackFields nf.toNat b tdef
  let attr ← TableError.lift (decodeSimpleSection noFloat b tdef.attr)
  return { tdef with attr := attr }

/-! ## Definitions that the server builds -/

/-- A definition built by the functions of the server; `withFlags` stands for the functions that
mark fields. -/
inductive Built : DTCTableDefinition F → Prop
  | new {m : Nat} (hm : 0 < m) (maxKeySize : Nat) : Built (new m maxKeySize)
  | addField {tdef tdef' : DTCTableDefinition F} {id : Int} {name : Bytes} {type : Nat} {size : Int}
    (h : Built tdef) (hadd : tdef.addField id name type size = .ok tdef') : Built tdef'
  | setTableName {tdef : DTCTableDefinition F} (h : Built tdef) (name : Bytes) :
    Built (tdef.setTableName name)
  | setDefaultValue {tdef : DTCTableDefinition F} (h : Built tdef) (id : Int)
    (dval : (type : DField) × type.Value F) : Built (tdef.setDefaultValue id dval)
  | withFlags {tdef : DTCTableDefinition F} (h : Built tdef) (n : Nat) (f : UInt8 → UInt8) :
    Built (tdef.withFlags n f)
  | setSingleRow {tdef : DTCTableDefinition F} (h : Built tdef) : Built tdef.setSingleRow
  | setAdminTable {tdef : DTCTableDefinition F} (h : Built tdef) : Built tdef.setAdminTable
  | setCompressFlag {tdef : DTCTableDefinition F} (h : Built tdef) (n : Nat) :
    Built (tdef.setCompressFlag n)
  | setKeyFields {tdef tdef' : DTCTableDefinition F} {n : Int} (h : Built tdef)
    (hset : tdef.setKeyFields n = some tdef') : Built tdef'

/-- What `add_field` has checked of a field. -/
structure FieldOk (f : FieldDefinition) (name : Bytes) : Prop where
  cStr : cStr name = name
  length_pos : 0 < name.length
  length_le : name.length ≤ 255
  size_pos : 0 < f.fieldSize
  size : checkSize (some f.fieldType) f.fieldSize = .ok f.fieldType

/-- The fields are as `add_field` lets them be, and only two attributes are set. -/
structure Valid (tdef : DTCTableDefinition F) : Prop where
  fields : ∀ i name, (tdef.fieldList i).fieldName = some name → FieldOk (tdef.fieldList i) name
  numFields_le : tdef.numFields ≤ 255
  attr : ∀ i, tdef.attr.tagPresent i = true → i = 1 ∨ i = 3

theorem checkSize_eq {type : Option DField} {size : Int} {type' : DField}
    (h : checkSize type size = .ok type') : type = some type' := by
  rcases type with _ | (_ | _ | _ | _ | _ | _) <;> simp only [checkSize] at h
  all_goals first
    | cases h
    | (split at h
       · cases h
       · rw [Except.ok.inj h])

theorem addField_eq {tdef tdef' : DTCTableDefinition F} {id : Int} {name : Bytes} {type : Nat}
    {size : Int} (h : tdef.addField id name type size = .ok tdef') :
    ∃ type' : DField, 0 ≤ id ∧ id ≤ 255 ∧
      FieldOk ⟨some (cStr name), size, type', if id = 0 then FieldDefinition.ffReadOnly else 0⟩
        (cStr name) ∧
      tdef' = { tdef with
        fieldList := update tdef.fieldList id.toNat
          ⟨some (cStr name), size, type', if id = 0 then FieldDefinition.ffReadOnly else 0⟩
        numFields := max id.toNat tdef.numFields
        usedFields := if id = 0 then tdef.usedFields else tdef.usedFields + 1
        defaultValue := tdef.defaultValue.map fun values => update values id.toNat none } := by
  rw [addField] at h
  split at h
  · cases h
  · rename_i hid
    split at h
    · cases h
    · rename_i hsize
      cases hcheck : checkSize (DField.ofCode type) size with
      | error e =>
        rw [hcheck] at h
        cases h
      | ok type' =>
        simp only [hcheck] at h
        split at h
        · cases h
        · rename_i hname
          refine ⟨type', by omega, by omega, ⟨?_, by omega, by omega, by dsimp only; omega, ?_⟩,
            (Except.ok.inj h).symm⟩
          · exact List.takeWhile_idem
          · rw [← checkSize_eq hcheck, hcheck]

theorem setKeyFields_eq {tdef tdef' : DTCTableDefinition F} {n : Int}
    (h : tdef.setKeyFields n = some tdef') : tdef' = tdef ∨ ∃ (n : Nat) (maxKeySize : Nat),
      tdef' = { tdef with
        fieldList := fun i =>
          if i < n then
            { tdef.fieldList i with flags := (tdef.fieldList i).flags |||
              FieldDefinition.ffReadOnly }
          else tdef.fieldList i
        keyFields := n
        attr := tdef.attr.setKeyFieldCount (UInt64.ofNat n)
        maxKeySize := maxKeySize } := by
  rw [setKeyFields] at h
  dsimp only at h
  generalize (if n < 0 then 1 else n) = n at h
  split at h
  · exact .inl (Option.some.inj h).symm
  · split at h
    · cases h
    · right
      generalize tdef.keySizes (min n.toNat (tdef.numFields + 1)) = sizes at h
      split at h
      · split at h
        · cases h
        · exact ⟨_, _, (Option.some.inj h).symm⟩
      · split at h
        · cases h
        · split at h
          · cases h
          · exact ⟨_, _, (Option.some.inj h).symm⟩

/-- The functions that mark fields, and those that set attributes, keep a definition valid. -/
theorem Valid.of_marks {tdef tdef' : DTCTableDefinition F} (h : tdef.Valid)
    (hfields : ∀ i, ∃ flags, tdef'.fieldList i = { tdef.fieldList i with flags := flags })
    (hnum : tdef'.numFields = tdef.numFields)
    (hattr : ∀ i, tdef'.attr.tagPresent i = true → tdef.attr.tagPresent i = true ∨ i = 1 ∨ i = 3) :
    tdef'.Valid where
  fields i name hname := by
    obtain ⟨flags, hflags⟩ := hfields i
    rw [hflags] at hname ⊢
    obtain ⟨hcStr, hpos, hle, hsize, hcheck⟩ := h.fields i name hname
    exact ⟨hcStr, hpos, hle, hsize, hcheck⟩
  numFields_le := hnum ▸ h.numFields_le
  attr i hi := (hattr i hi).elim (h.attr i) id

theorem Built.valid {tdef : DTCTableDefinition F} (h : Built tdef) : tdef.Valid := by
  have hsame (tdef : DTCTableDefinition F) :
      ∀ i, ∃ flags, tdef.fieldList i = { tdef.fieldList i with flags := flags } := fun i => ⟨_, rfl⟩
  have hupdate (attr : TableAttribute) (j : Nat) (hj : j = 1 ∨ j = 3) :
      ∀ i, update attr.tagPresent j true i = true →
        attr.tagPresent i = true ∨ i = 1 ∨ i = 3 := by
    intro i hi
    by_cases hij : i = j
    · exact .inr (hij ▸ hj)
    · rw [update_of_ne hij] at hi
      exact .inl hi
  induction h with
  | new hm maxKeySize => exact ⟨fun _ _ h => (nomatch h), Nat.zero_le _, fun _ h => (nomatch h)⟩
  | addField h hadd ih =>
    obtain ⟨type', hid, hle, hok, rfl⟩ := addField_eq hadd
    refine ⟨fun i name hname => ?_, by have := ih.numFields_le; dsimp only; omega, ih.attr⟩
    dsimp only at hname ⊢
    rw [update_apply] at hname ⊢
    split at hname
    · rename_i hi
      rw [if_pos hi]
      rwa [← Option.some.inj hname]
    · rename_i hi
      rw [if_neg hi]
      exact ih.fields i name hname
  | setTableName h name ih => exact ih.of_marks (hsame _) rfl fun i hi => .inl hi
  | setDefaultValue h id dval ih =>
    rw [DTCTableDefinition.setDefaultValue]
    split
    · exact ih
    · exact ih.of_marks (hsame _) rfl fun i hi => .inl hi
  | withFlags h n f ih =>
    refine ih.of_marks (fun i => ?_) rfl fun i hi => .inl hi
    by_cases hi : i = n
    · exact ⟨f (_ : FieldDefinition).flags, by rw [hi]; exact update_self ..⟩
    · exact ⟨_, update_of_ne hi ..⟩
  | setSingleRow h ih => exact ih.of_marks (hsame _) rfl (hupdate _ 1 (.inl rfl))
  | setAdminTable h ih => exact ih.of_marks (hsame _) rfl (hupdate _ 1 (.inl rfl))
  | setCompressFlag h n ih =>
    rw [DTCTableDefinition.setCompressFlag]
    split
    · exact ih.of_marks (hsame _) rfl (hupdate _ 1 (.inl rfl))
    · exact ih
  | setKeyFields h hset ih =>
    rcases setKeyFields_eq hset with rfl | ⟨n, maxKeySize, rfl⟩
    · exact ih
    · refine ih.of_marks (fun i => ?_) rfl (hupdate _ 3 (.inr rfl))
      dsimp only
      split
      · exact ⟨_, rfl⟩
      · exact ⟨_, rfl⟩

/-! ## The round trip -/

/-- A field as the client keeps it: the key is read only, and no other flag is set. -/
def sentField (i : Nat) : FieldDefinition :=
  { tdef.fieldList i with flags := if i = 0 then FieldDefinition.ffReadOnly else 0 }

/-- The client's definition after `k` fields. -/
def received (base : DTCTableDefinition F) (k : Nat) : DTCTableDefinition F :=
  { base with
    fieldList := fun i => if i < k then tdef.sentField i else .zero
    numFields := k - 1
    usedFields := k - 1 }

theorem FieldOk.ofCode {f : FieldDefinition} {name : Bytes} (h : FieldOk f name) :
    checkSize (DField.ofCode f.fieldType.code) f.fieldSize = .ok f.fieldType := by
  rw [ofCode_code]
  exact h.size

theorem FieldOk.size_le {f : FieldDefinition} {name : Bytes} (h : FieldOk f name) :
    f.fieldSize.toNat ≤ maxPacketSize := by
  have hsize := h.size
  rw [maxPacketSize]
  rcases htype : f.fieldType with _ | _ | _ | _ | _ | _ <;> simp only [htype, checkSize] at hsize
  case none => cases hsize
  case signed | unsigned =>
    split at hsize
    · cases hsize
    · omega
  case float =>
    split at hsize
    · cases hsize
    · omega
  case string | binary =>
    split at hsize
    · cases hsize
    · rename_i hle
      rw [maxPacketSize] at hle
      omega

variable {tdef}

/-- The client adds the next field. -/
theorem addField_received {base : DTCTableDefinition F} {k : Nat} {name : Bytes}
    (hname : (tdef.fieldList k).fieldName = some name) (hok : FieldOk (tdef.fieldList k) name)
    (hk : k ≤ 255) (hmax : k < base.maxFields) (hdefault : base.defaultValue = none) :
    (tdef.received base k).addField k name (tdef.fieldList k).fieldType.code
      (tdef.fieldList k).fieldSize = .ok (tdef.received base (k + 1)) := by
  have hfree : ((tdef.received base k).fieldList (k : Int).toNat).fieldName.isSome = false := by
    rw [Int.toNat_natCast, received]
    dsimp only
    rw [if_neg (lt_irrefl k)]
    rfl
  have hid : ¬((k : Int) < 0 ∨ (k : Int) > 255 ∨ (k : Int) ≥ (tdef.received base k).maxFields ∨
      ((tdef.received base k).fieldList (k : Int).toNat).fieldName.isSome = true) := by
    rw [hfree, received]
    rintro (h | h | h | h)
    · omega
    · omega
    · exact absurd (Int.ofNat_le.mp h) (not_le.mpr hmax)
    · cases h
  have hpos := hok.size_pos
  have hlen := hok.length_pos
  have hle := hok.length_le
  rw [addField, if_neg hid, if_neg (by omega), hok.ofCode]
  dsimp only
  rw [hok.cStr, if_neg (by omega), Int.toNat_natCast]
  simp only [received, hdefault, Option.map_none]
  congr 1
  congr 1
  · funext i
    rw [update_apply]
    by_cases hi : i = k
    · subst hi
      rw [if_pos rfl, if_pos (Nat.lt_succ_self i), sentField, hname]
      simp only [Nat.cast_eq_zero]
    · rw [if_neg hi]
      by_cases hlt : i < k
      · rw [if_pos hlt, if_pos (Nat.lt_succ_of_lt hlt)]
      · rw [if_neg hlt, if_neg (by omega)]
  · simp only [Nat.cast_eq_zero]
    split <;> omega
  · omega

/-- The client reads the next field. -/
theorem unpackFields_succ {base : DTCTableDefinition F} {k n : Nat} {name rest : Bytes}
    (hname : (tdef.fieldList k).fieldName = some name) (hok : FieldOk (tdef.fieldList k) name)
    (hk : k ≤ 255) (hmax : k < base.maxFields) (hdefault : base.defaultValue = none) (ptr : Nat) :
    unpackFields (n + 1) ⟨ptr, tdef.packField k ++ rest⟩ (tdef.received base k) =
      unpackFields n ⟨ptr + (tdef.packField k).length, rest⟩ (tdef.received base (k + 1)) := by
  have hbyte : (UInt8.ofNat k).toNat = k := by
    rw [toNat_ofNat_uint8]
    omega
  have hcode : (UInt8.ofNat (tdef.fieldList k).fieldType.code).toNat =
      (tdef.fieldList k).fieldType.code := by
    generalize (tdef.fieldList k).fieldType = type
    cases type <;> rfl
  have hlen : (UInt8.ofNat name.length).toNat = name.length := by
    have hle := hok.length_le
    rw [toNat_ofNat_uint8]
    omega
  have hpos := hok.length_pos
  have hlenNe : UInt8.ofNat name.length ≠ 0 := by
    intro h
    rw [h] at hlen
    exact hpos.ne hlen
  have hsize : (((tdef.fieldList k).fieldSize.toNat : Nat) : Int) = (tdef.fieldList k).fieldSize :=
    Int.toNat_of_nonneg hok.size_pos.le
  have hadd := addField_received hname hok hk hmax hdefault
  have hencode : 0 < (encodeLength (tdef.fieldList k).fieldSize.toNat).length := by
    rw [length_encodeLength, encodedBytesLength]
    split_ifs <;> omega
  have hpack : tdef.packField k ++ rest = UInt8.ofNat k ::
      UInt8.ofNat (tdef.fieldList k).fieldType.code ::
        (encodeLength (tdef.fieldList k).fieldSize.toNat ++
          (UInt8.ofNat name.length :: (name ++ rest))) := by
    simp [packField, hname]
  have hlength : (tdef.packField k).length =
      1 + 1 + encodedBytesLength (tdef.fieldList k).fieldSize.toNat + 1 + name.length := by
    simp only [packField, hname, Option.getD_some, List.length_append, List.length_cons,
      List.length_nil, length_encodeLength]
    omega
  rw [hpack, hlength, unpackFields,
    if_neg (by simp only [DTCBinary.len, List.length_cons, List.length_append]; omega),
    DTCBinary.next_cons]
  simp only [TableError.lift, ok_bind, DTCBinary.next_cons,
    decodeLength_encodeLength _ _ hok.size_le]
  rw [if_neg (by simp only [DTCBinary.len, List.length_cons, List.length_append]; omega)]
  simp only [hlen]
  rw [if_neg (by simp [hlenNe])]
  simp only [ok_bind, DTCBinary.read_append _ _ rfl, DTCBinary.advance_append _ _ rfl, hbyte, hcode,
    hsize, hadd]
  congr 2
  omega

/-- The client reads the fields from `k` on. -/
theorem unpackFields_range {base : DTCTableDefinition F} (hvalid : tdef.Valid) {k n : Nat}
    (hnames : ∀ i < k + n, (tdef.fieldList i).fieldName.isSome = true) (hle : k + n ≤ 256)
    (hmax : k + n ≤ base.maxFields) (hdefault : base.defaultValue = none) (ptr : Nat)
    (rest : Bytes) :
    unpackFields n ⟨ptr, (List.range' k n).flatMap tdef.packField ++ rest⟩ (tdef.received base k) =
      .ok (tdef.received base (k + n),
        ⟨ptr + ((List.range' k n).flatMap tdef.packField).length, rest⟩) := by
  induction n generalizing k ptr with
  | zero => rfl
  | succ n ih =>
    obtain ⟨name, hname⟩ := Option.isSome_iff_exists.mp (hnames k (by omega))
    rw [List.range'_succ, List.flatMap_cons, List.append_assoc,
      unpackFields_succ hname (hvalid.fields k name hname) (by omega) (by omega) hdefault,
      ih (fun i hi => hnames i (by omega)) (by omega) (by omega), List.length_append,
      show k + 1 + n = k + (n + 1) by omega, add_assoc]

/-- The client's definition before the fields. -/
def clientBase (hash : Vector UInt8 16) (tableName : Bytes) (nf maxKeySize : Nat) :
    DTCTableDefinition F :=
  { new 0 maxKeySize with hash := some hash, tableName := some tableName, maxFields := nf }

theorem fieldIds_of_names
    (hnames : ∀ i ≤ tdef.numFields, (tdef.fieldList i).fieldName.isSome = true) :
    tdef.fieldIds = List.range (tdef.numFields + 1) := by
  rw [fieldIds, List.filter_eq_self]
  intro i hi
  exact hnames i (by have := List.mem_range.mp hi; omega)

/-- The attributes arrive. -/
theorem unpack_attr (hvalid : tdef.Valid) (ptr : Nat) :
    ∃ attr : TableAttribute,
      decodeSimpleSection noFloat ⟨ptr, tdef.attr.encode noFloat⟩ TableAttribute.empty = .ok attr ∧
      TableAttribute.flags attr = TableAttribute.flags tdef.attr ∧
      TableAttribute.keyFieldCount attr = TableAttribute.keyFieldCount tdef.attr := by
  have htag : ∀ i ∈ tdef.attr.tags, i = 1 ∨ i = 3 := by
    intro i hi
    have hpresent := (List.mem_filter.mp hi).2
    rw [SimpleSection.present] at hpresent
    split at hpresent
    · cases hpresent
    · exact hvalid.attr i hpresent
  obtain ⟨attr, hreceives, hdecode⟩ := decodeSimpleSection_encode noFloat noFloat_exact tdef.attr
    TableAttribute.empty (fun i hi => by
      rcases htag i hi with rfl | rfl
      · exact ⟨by decide, trivial⟩
      · exact ⟨by decide, trivial⟩) ptr
  have hpresent (i : Nat) (hi : i < 5) : attr.present i = tdef.attr.present i := by
    have hmem : (decide (i ∈ tdef.attr.tags)) = tdef.attr.present i := by
      rw [SimpleSection.tags]
      have hrange : i ∈ List.range (tableAttributeDefinition.maxTags + 1) := List.mem_range.mpr hi
      simp [List.mem_filter, hrange]
    rw [SimpleSection.present, hreceives.tagPresent, hmem]
    simp only [SimpleSection.present, TableAttribute.empty, Bool.or_false]
    split <;> rfl
  have hmem (i : Nat) (hi : i < 5) (h : tdef.attr.present i = true) : i ∈ tdef.attr.tags :=
    List.mem_filter.mpr ⟨List.mem_range.mpr hi, h⟩
  refine ⟨attr, hdecode, ?_, ?_⟩
  · rw [TableAttribute.flags, TableAttribute.flags, hpresent 1 (by decide)]
    split
    · rename_i h
      exact congrArg some (hreceives.sameAs 1 (hmem 1 (by decide) h))
    · rfl
  · rw [TableAttribute.keyFieldCount, TableAttribute.keyFieldCount, hpresent 3 (by decide)]
    split
    · rename_i h
      exact congrArg some (hreceives.sameAs 3 (hmem 3 (by decide) h))
    · rfl

theorem length_packField {i : Nat} {name : Bytes} (hname : (tdef.fieldList i).fieldName = some name)
    (hpos : 0 < name.length) : 5 ≤ (tdef.packField i).length := by
  have hencode : 0 < (encodeLength (tdef.fieldList i).fieldSize.toNat).length := by
    rw [length_encodeLength, encodedBytesLength]
    split_ifs <;> omega
  simp only [packField, hname, Option.getD_some, List.length_append, List.length_cons,
    List.length_nil]
  omega

/-- The parts of a packet are read one after the other. -/
theorem unpack_body (md5 : Bytes → Vector UInt8 16) {ptr ptr' maxKeySize : Nat} {n nf : UInt8}
    {name fields attrs : Bytes} {client : DTCTableDefinition F} {attr : TableAttribute}
    (hn : n.toNat = name.length) (hnNe : n ≠ 0) (hnf : nf ≠ 0) (hlong : 5 ≤ fields.length)
    (hfields : unpackFields nf.toNat ⟨ptr + 16 + 1 + 1 + name.length + 1, fields ++ attrs⟩
      { (new 0 maxKeySize : DTCTableDefinition F) with
        hash := some (md5 (1 :: n :: (name ++ (nf :: (fields ++ attrs)))))
        tableName := some name
        maxFields := nf.toNat } = .ok (client, ⟨ptr', attrs⟩))
    (hattr : decodeSimpleSection noFloat ⟨ptr', attrs⟩ client.attr = .ok attr) :
    (new 0 maxKeySize).unpack md5 ptr
      ((md5 (1 :: n :: (name ++ (nf :: (fields ++ attrs))))).toList ++
      (1 :: n :: (name ++ (nf :: (fields ++ attrs))))) = .ok { client with attr := attr } := by
  have hnpos : 0 < name.length := by
    rw [← hn]
    exact UInt8.pos_iff_ne_zero.mpr hnNe
  generalize hh : md5 (1 :: n :: (name ++ (nf :: (fields ++ attrs)))) = h at hfields ⊢
  have hhash : h.toList.length = 16 := Vector.length_toList
  have hlen : ¬(DTCBinary.mk ptr (h.toList ++ 1 :: n :: (name ++ (nf :: (fields ++ attrs))))).len
      < 24 := by
    simp only [DTCBinary.len_mk, List.length_append, List.length_cons]
    omega
  rw [unpack, if_neg (by simp [new])]
  simp only [pure_eq_ok]
  rw [if_neg hlen, List.drop_left' hhash, List.take_left' hhash, hh, if_neg (not_not_intro rfl),
    DTCBinary.advance_append _ _ hhash]
  simp only [TableError.lift, ok_bind, DTCBinary.next_cons]
  rw [if_neg (by simp), if_neg (by simp [hnNe, hn])]
  simp only [hn, ok_bind, DTCBinary.read_append _ _ rfl, DTCBinary.advance_append _ _ rfl,
    DTCBinary.next_cons]
  rw [if_neg hnf, hfields, ok_bind, hattr]
  rfl

/-- The packet of a definition whose fields are numbered from 0 without a gap is unpacked. -/
theorem unpack_packBody (md5 : Bytes → Vector UInt8 16) {name : Bytes} (hvalid : tdef.Valid)
    (hname : tdef.tableName = some name) (hpos : 0 < name.length) (hle : name.length ≤ 255)
    (hnum : tdef.numFields < 255)
    (hnames : ∀ i ≤ tdef.numFields, (tdef.fieldList i).fieldName.isSome = true)
    (ptr maxKeySize : Nat) :
    ∃ attr, TableAttribute.flags attr = TableAttribute.flags tdef.attr ∧
      TableAttribute.keyFieldCount attr = TableAttribute.keyFieldCount tdef.attr ∧
      (new 0 maxKeySize).unpack md5 ptr ((md5 tdef.packBody).toList ++ tdef.packBody) =
        .ok { tdef.received (clientBase (md5 tdef.packBody) name (tdef.numFields + 1) maxKeySize)
          (tdef.numFields + 1) with attr := attr } := by
  have hids := fieldIds_of_names hnames
  have hnamelen : (UInt8.ofNat name.length).toNat = name.length := by
    rw [toNat_ofNat_uint8]
    omega
  have hnf : (UInt8.ofNat tdef.fieldIds.length).toNat = tdef.numFields + 1 := by
    rw [toNat_ofNat_uint8, hids, List.length_range]
    omega
  have hnameNe : UInt8.ofNat name.length ≠ 0 := by
    intro h
    rw [h] at hnamelen
    exact hpos.ne hnamelen
  have hnfNe : UInt8.ofNat tdef.fieldIds.length ≠ 0 := by
    intro h
    rw [h] at hnf
    exact Nat.succ_ne_zero _ hnf.symm
  have hfields : 5 ≤ ((List.range (tdef.numFields + 1)).flatMap tdef.packField).length := by
    obtain ⟨key, hkey⟩ := Option.isSome_iff_exists.mp (hnames 0 (Nat.zero_le _))
    have hlen := length_packField hkey (hvalid.fields 0 key hkey).length_pos
    rw [List.range_succ_eq_map, List.flatMap_cons, List.length_append]
    omega
  have hbody : tdef.packBody = 1 :: UInt8.ofNat name.length :: (name ++
      (UInt8.ofNat tdef.fieldIds.length ::
        ((List.range' 0 (tdef.numFields + 1)).flatMap tdef.packField ++
          tdef.attr.encode noFloat))) := by
    rw [packBody, hname, ← List.range_eq_range', ← hids]
    rfl
  have hhash : (md5 tdef.packBody).toList.length = 16 := Vector.length_toList
  have hbase : ({ (new 0 maxKeySize : DTCTableDefinition F) with
      hash := some (md5 tdef.packBody), tableName := some name,
      maxFields := tdef.numFields + 1 } : DTCTableDefinition F) =
      tdef.received (clientBase (md5 tdef.packBody) name (tdef.numFields + 1) maxKeySize) 0 := by
    simp [received, clientBase, new]
  have hrun := @unpackFields_range _ tdef
    (clientBase (md5 tdef.packBody) name (tdef.numFields + 1) maxKeySize) hvalid 0
      (tdef.numFields + 1)
    (fun i hi => hnames i (by omega)) (by omega) (by simp [clientBase])
    rfl (ptr + 16 + 1 + 1 + name.length + 1) (tdef.attr.encode noFloat)
  obtain ⟨attr, hattr, hflags, hcount⟩ := unpack_attr hvalid
    (ptr + 16 + 1 + 1 + name.length + 1 +
      ((List.range' 0 (tdef.numFields + 1)).flatMap tdef.packField).length)
  rw [zero_add] at hrun
  refine ⟨attr, hflags, hcount, ?_⟩
  rw [← hbase] at hrun
  rw [hbody] at hrun ⊢
  exact unpack_body md5 hnamelen hnameNe hnfNe (by rwa [← List.range_eq_range']) (hnf ▸ hrun) hattr

/-- What arrives of a definition: everything but the defaults and the flags of the fields. -/
structure SameTable (tdef client : DTCTableDefinition F) : Prop where
  numFields : client.numFields = tdef.numFields
  fieldName : ∀ i ≤ tdef.numFields, (client.fieldList i).fieldName = (tdef.fieldList i).fieldName
  fieldType : ∀ i ≤ tdef.numFields, (client.fieldList i).fieldType = (tdef.fieldList i).fieldType
  fieldSize : ∀ i ≤ tdef.numFields, (client.fieldList i).fieldSize = (tdef.fieldList i).fieldSize
  tableName : client.tableName = tdef.tableName
  flags : TableAttribute.flags client.attr = TableAttribute.flags tdef.attr
  keyFieldCount : TableAttribute.keyFieldCount client.attr = TableAttribute.keyFieldCount tdef.attr
  hash : client.hash = tdef.hash

/-- The defaults and the flags of fields do not arrive. -/
structure Bare (client : DTCTableDefinition F) : Prop where
  defaultValue : client.defaultValue = none
  keyFlags : (client.fieldList 0).flags = FieldDefinition.ffReadOnly
  otherFlags : ∀ i, i ≠ 0 → (client.fieldList i).flags = 0

/-- A definition whose fields are numbered from 0 without a gap, with a table name that fits into a
byte, is unpacked as it was packed, but for its defaults and the flags of its fields. -/
theorem unpack_packed (md5 : Bytes → Vector UInt8 16) {tdef : DTCTableDefinition F} {name : Bytes}
    (hbuilt : Built tdef) (hname : tdef.tableName = some name) (hpos : 0 < name.length)
    (hle : name.length ≤ 255) (hnum : 0 < tdef.numFields ∧ tdef.numFields < 255)
    (hnames : ∀ i ≤ tdef.numFields, (tdef.fieldList i).fieldName.isSome = true)
    (ptr maxKeySize : Nat) :
    ∃ packet server client, tdef.buildInfoCache md5 = some (packet, server) ∧
      (new 0 maxKeySize).unpack md5 ptr packet = .ok client ∧ SameTable server client ∧
      Bare client := by
  obtain ⟨attr, hflags, hcount, hunpack⟩ :=
    unpack_packBody md5 hbuilt.valid hname hpos hle hnum.2 hnames ptr maxKeySize
  refine ⟨_, _, _, by rw [buildInfoCache, if_neg (by omega)], hunpack, ?_, ?_⟩
  · have hlist : ∀ i ≤ tdef.numFields, (if i < tdef.numFields + 1 then tdef.sentField i
        else FieldDefinition.zero) = tdef.sentField i := fun i hi => if_pos (Nat.lt_succ_of_le hi)
    refine ⟨Nat.add_sub_cancel .., fun i hi => ?_, fun i hi => ?_, fun i hi => ?_, hname.symm,
      hflags, hcount, rfl⟩
    all_goals
      dsimp only [received]
      rw [hlist i hi]
      rfl
  · refine ⟨rfl, rfl, fun i hi => ?_⟩
    dsimp only [received]
    split
    · exact if_neg hi
    · rfl

/-- The client has all that the server has. -/
def Survives (md5 : Bytes → Vector UInt8 16) (tdef : DTCTableDefinition F) : Prop :=
  ∀ packet server, tdef.buildInfoCache md5 = some (packet, server) →
    ∃ client, (new 0 0).unpack md5 0 packet = .ok client ∧ SameTable server client ∧
      client.keyFields = server.keyFields ∧ ∀ i ≤ server.numFields,
        (client.fieldList i).flags = (server.fieldList i).flags ∧
          client.defaultValue.bind (· i) = server.defaultValue.bind (· i)

/-- A key and a field that is discarded. -/
def discardTable : Option (DTCTableDefinition Unit) := do
  let tdef ← (((new 2 0).setTableName [116]).addField 0 [107] DField.unsigned.code 4).toOption
  let tdef ← (tdef.addField 1 [118] DField.signed.code 4).toOption
  (tdef.markAsDiscard 1).setKeyFields 1

theorem built_discardTable {tdef : DTCTableDefinition Unit} (h : discardTable = some tdef) :
    Built tdef := by
  have hok {r : Except TableError (DTCTableDefinition Unit)} {t : DTCTableDefinition Unit}
      (h : r.toOption = some t) : r = .ok t := by
    cases r with
    | error e => cases h
    | ok t' => rw [Option.some.inj h]
  simp only [discardTable, Option.bind_eq_bind, Option.bind_eq_some_iff] at h
  obtain ⟨t₁, h₁, t₂, h₂, h₃⟩ := h
  exact .setKeyFields (.withFlags (.addField (.addField (.setTableName (.new (by decide) 0) [116])
    (hok h₁)) (hok h₂)) 1 _) h₃

/-- The MD5 of the packet of that table. -/
def discardHash (_ : Bytes) : Vector UInt8 16 :=
  #v[12, 48, 39, 35, 6, 88, 149, 96, 154, 247, 69, 155, 116, 48, 235, 149]

/-- The flag of the discarded field does not arrive. -/
theorem not_survives_discardTable :
    ∃ tdef, discardTable = some tdef ∧ Built tdef ∧ ¬Survives discardHash tdef := by
  obtain ⟨tdef, htdef⟩ : ∃ tdef, discardTable = some tdef := ⟨_, rfl⟩
  have hbuilt := built_discardTable htdef
  refine ⟨tdef, htdef, hbuilt, fun h => ?_⟩
  have hnum : tdef.numFields = 1 := by
    cases htdef
    rfl
  have hname : tdef.tableName = some [116] := by
    cases htdef
    rfl
  have hflags : (tdef.fieldList 1).flags = FieldDefinition.ffDiscard := by
    cases htdef
    rfl
  have hnames : ∀ i ≤ tdef.numFields, (tdef.fieldList i).fieldName.isSome = true := by
    rw [hnum]
    cases htdef
    decide
  obtain ⟨attr, -, -, hunpack⟩ := unpack_packBody discardHash hbuilt.valid hname (by decide)
    (by decide) (by omega) hnames 0 0
  obtain ⟨client, hclient, -, -, hsame⟩ := h _ _ (by rw [buildInfoCache, if_neg (by omega)])
  rw [hunpack] at hclient
  cases hclient
  have hone := (hsame 1 hnum.ge).1
  dsimp only [received] at hone
  rw [if_pos (by omega), hflags] at hone
  have hzero : (tdef.sentField 1).flags = 0 := rfl
  rw [hzero] at hone
  exact absurd hone (by decide)

/-- The same table arrives but for that flag. -/
theorem unpack_discardTable : ∃ tdef packet server client, discardTable = some tdef ∧
    tdef.buildInfoCache discardHash = some (packet, server) ∧
    (new 0 0).unpack discardHash 0 packet = .ok client ∧ SameTable server client ∧
    Bare client := by
  obtain ⟨tdef, htdef⟩ : ∃ tdef, discardTable = some tdef := ⟨_, rfl⟩
  have hnames : ∀ i ≤ tdef.numFields, (tdef.fieldList i).fieldName.isSome = true := by
    have hnum : tdef.numFields = 1 := by
      cases htdef
      rfl
    rw [hnum]
    cases htdef
    decide
  have hname : tdef.tableName = some [116] := by
    cases htdef
    rfl
  obtain ⟨packet, server, client, h⟩ := unpack_packed discardHash (built_discardTable htdef) hname
    (by decide) (by decide) (by cases htdef; decide) hnames 0 0
  exact ⟨tdef, packet, server, client, htdef, h⟩

end DTCTableDefinition

end ISearch.Protocol
