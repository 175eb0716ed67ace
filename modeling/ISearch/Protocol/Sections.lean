import ISearch.Protocol.Values
import Mathlib.Data.List.Dedup

/-!
# Sections on the wire (`encode.cc`, `decode.cc`, `task_base.cc`)

The sections of a packet: simple sections of tags, field sets, lists of fields with an operation and
a value, and result sets. The packet header gives their lengths. The bytes of a section are the
bytes from its place in the packet on, as many as the header says.

The buffers of field lists and id lists are allocated from the table; a copy behind their end is the
failure `outside`, as is a read behind the section or behind a table of the code.
-/

namespace ISearch.Protocol

open KeyFormat (Bytes)

variable {F : Type} (lib : FloatFormat F)

/-! ## Simple sections -/

structure SectionDefinition where
  sectionId : Nat
  maxTags : Nat
  tagTypes : List DField

/-- `tagType[256]` is zero behind the types that are given. -/
def SectionDefinition.tagType (definition : SectionDefinition) (i : Nat) : DField :=
  definition.tagTypes.getD i .none

def versionInfoDefinition : SectionDefinition where
  sectionId := 0
  maxTags := 20
  tagTypes := [.none, .string, .binary, .unsigned, .binary, .string, .string, .string, .unsigned,
    .unsigned, .unsigned, .unsigned, .binary, .binary, .unsigned, .signed, .signed, .unsigned,
    .string, .unsigned]

def requestInfoDefinition : SectionDefinition where
  sectionId := 0
  maxTags := 8
  tagTypes := [.binary, .unsigned, .unsigned, .unsigned, .string, .unsigned, .string, .unsigned]

def resultInfoDefinition : SectionDefinition where
  sectionId := 3
  maxTags := 10
  tagTypes := [.binary, .signed, .string, .string, .signed, .unsigned, .unsigned, .binary,
    .unsigned, .unsigned]

def maxStaticSection : Nat := 20

/-- The type of a tag, the key being of type `kt`. -/
def SectionDefinition.typeOf (definition : SectionDefinition) (kt : DField) (i : Nat) : DField :=
  if i = 0 then kt else definition.tagType i

/-- The values of the tags, and `fieldMask`. The value of the key has type `kt`. -/
structure SimpleSection (F : Type) (definition : SectionDefinition) (kt : DField) where
  numTags : Nat
  tagPresent : Nat → Bool
  tagValue : (i : Nat) → (definition.typeOf kt i).Value F

namespace SimpleSection

variable {definition : SectionDefinition} {kt : DField}

/-- `tag_present`. -/
def present (sct : SimpleSection F definition kt) (i : Nat) : Bool :=
  if i ≥ maxStaticSection then false else sct.tagPresent i

/-- The ids that the loops of the encoder visit. -/
def tags (sct : SimpleSection F definition kt) : List Nat :=
  (List.range (definition.maxTags + 1)).filter sct.present

def encodedBytes (sct : SimpleSection F definition kt) : Nat :=
  (sct.tags.map fun i => 1 + encodedBytesDataValue lib _ (sct.tagValue i)).sum

def encode (sct : SimpleSection F definition kt) : Bytes :=
  sct.tags.flatMap fun i => UInt8.ofNat i :: encodeDataValue lib _ (sct.tagValue i)

/-- `decode_data_value` into `get_this_tag(id)`, and `SetTagMask`. The array has
`MAX_STATIC_SECTION` elements, of which those without a type are not written. -/
def setTag (sct : SimpleSection F definition kt) (id : Nat)
    (val : (definition.typeOf kt id).Value F) : Decode (SimpleSection F definition kt) :=
  if definition.typeOf kt id = .none then .ok sct
  else if id ≥ maxStaticSection then .error .outside
  else .ok {
    numTags := sct.numTags + 1
    tagPresent := Function.update sct.tagPresent id true
    tagValue := Function.update sct.tagValue id val }

end SimpleSection

/-- The loop of `decode_simple_section`. -/
def decodeTags {definition : SectionDefinition} {kt : DField} (bin : DTCBinary)
    (mask : List UInt8) (ss : SimpleSection F definition kt) :
    Decode (SimpleSection F definition kt) :=
  if _hlen : bin.len = 0 then .ok ss
  else
    match _hnext : bin.next with
    | .error e => .error e
    | .ok (id, bin₁) =>
      if id ∈ mask then .error (.err .duplicateTag)
      else
        match _hval : decodeDataValue lib bin₁ _ (ss.tagValue id.toNat) with
        | .error e => .error e
        | .ok (val, bin₂) =>
          match ss.setTag id.toNat val with
          | .error e => .error e
          | .ok ss =>
            decodeTags bin₂
              (if definition.typeOf kt id.toNat = .none then mask else id :: mask) ss
termination_by bin.len
decreasing_by
  have hval := (decodeDataValue_inside lib (.refl bin₁) _ _).of_eq_ok _hval
  have hnext := (DTCBinary.next_inside _hlen).of_eq_ok _hnext
  simp only at hval hnext
  have hbin₁ : bin₁.len = bin.len - 1 := by rw [hnext, DTCBinary.len_advance]
  omega

def decodeSimpleSection {definition : SectionDefinition} {kt : DField} (bin : DTCBinary)
    (ss : SimpleSection F definition kt) : Decode (SimpleSection F definition kt) :=
  decodeTags lib bin [] ss

/-- `FF_READONLY`. -/
def readonlyFlag : UInt32 := 1

/-- What the decoder asks of a table definition. -/
structure TableDefinition where
  numFields : Nat
  numFields_le : numFields ≤ 254
  keyFields : Nat
  fieldName : Nat → Bytes
  fieldType : Nat → DField
  fieldFlags : Nat → UInt32

namespace TableDefinition

variable (tdef : TableDefinition)

/-- `field_id`: the hash chain begins with the field that was added last. -/
def fieldId (name : Bytes) : Option Nat :=
  (List.range (tdef.numFields + 1)).reverse.find? fun i => tdef.fieldName i = name

def isReadOnly (i : Nat) : Bool := tdef.fieldFlags i &&& readonlyFlag ≠ 0

end TableDefinition

/-- The id of a field, whether it was given by its name, and what is left. -/
def decodeFieldId (tdef : TableDefinition) (bin : DTCBinary) :
    Decode (Nat × Bool × DTCBinary) := do
  if bin.len = 0 then throw (.err .badSectionLength)
  let (n, bin) ← bin.next
  if n ≠ 0 then return (n.toNat, false, bin)
  else
    if bin.len = 0 then throw (.err .badSectionLength)
    let (n, bin) ← bin.next
    if n = 0 then return (0, false, bin)
    else
      if bin.len < n.toNat then throw (.err .badSectionLength)
      match tdef.fieldId (← bin.read n.toNat) with
      | none => throw (.err .badFieldName)
      | some fid => return (fid, true, bin.advance n.toNat)

/-- The allocated ids, the ids and the mask. -/
structure DTCFieldSet where
  maxFields : Nat
  ids : List Nat
  mask : Nat → Bool

namespace DTCFieldSet

/-- `DTCFieldSet(idtab, n, total)`. -/
def new (idtab : List Nat) (total : Nat) : Decode DTCFieldSet :=
  let ids := idtab.take 255
  let total := min total 255
  if ids.length > total then .error .outside
  else .ok ⟨total, ids, fun i => i ∈ ids⟩

/-- `Set`, which does not clear the mask. -/
def set (fs : DTCFieldSet) (idtab : List Nat) : Decode DTCFieldSet :=
  let ids := idtab.take 255
  if ids.length > fs.maxFields then .error .outside
  else .ok { fs with ids := ids, mask := fun i => fs.mask i || i ∈ ids }

def realloc (fs : DTCFieldSet) (total : Nat) : DTCFieldSet := { fs with maxFields := total }

/-- A new set, or the old one with other ids: what `decode_field_set` and `decode_result_set` do
with the ids. -/
def put (old : Option DTCFieldSet) (numFields : Nat) (idtab : List Nat) : Decode DTCFieldSet :=
  match old with
  | none => new idtab (numFields + 1)
  | some fs =>
    (if fs.maxFields < numFields + 1 then fs.realloc (numFields + 1) else fs).set idtab

def encodedBytes (fs : DTCFieldSet) : Nat :=
  if fs.ids.length = 0 then 0
  else if fs.mask 0 then fs.ids.length + 2
  else fs.ids.length + 1

def encode (fs : DTCFieldSet) : Bytes :=
  if fs.ids.length = 0 then []
  else UInt8.ofNat fs.ids.length ::
    fs.ids.flatMap fun id => if id = 0 then [0, 0] else [UInt8.ofNat id]

end DTCFieldSet

/-- The loop of `decode_field_set`: the ids, each once, and whether one was given by its name. -/
def decodeIds (tdef : TableDefinition) : Nat → DTCBinary → List Nat → Bool →
    Decode (List Nat × Bool × DTCBinary)
  | 0, bin, idtab, nd => return (idtab, nd, bin)
  | n + 1, bin, idtab, nd => do
    let (id, nd', bin) ← decodeFieldId tdef bin
    if id ∈ idtab then decodeIds tdef n bin idtab nd
    else decodeIds tdef n bin (idtab ++ [id]) (nd || nd')

/-- `decode_field_set`: the field list, and whether the table definition is asked for. -/
def decodeFieldSet (tdef : TableDefinition) (fieldList : Option DTCFieldSet) (bin : DTCBinary) :
    Decode (Option DTCFieldSet × Bool) := do
  if bin.len = 0 then throw (.err .badSectionLength)
  let (num, bin) ← bin.next
  if num = 0 then return (fieldList, false)
  let (idtab, nd, bin) ← decodeIds tdef num.toNat bin [] false
  if bin.len ≠ 0 then throw (.err .extraSectionData)
  return (some (← DTCFieldSet.put fieldList tdef.numFields idtab), nd)

end ISearch.Protocol
