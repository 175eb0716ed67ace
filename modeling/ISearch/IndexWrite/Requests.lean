import ISearch.IndexWrite.Storage

/-!
# Requests (`type_parser_manager.cc`, `type_parser_base.cc`)

`HandleTableContent` for an add or update reserves a version in the snapshot, writes the postings of
each field, and publishes the version with a second update of the snapshot. What the parsers make of
a field value is part of the request here, and so is which storage requests fail.
-/

namespace ISearch.IndexWrite

variable {C : Type}

inductive FieldType where
  | int
  | string
  | text
  | ip
  | geoPoint
  | double
  | long
  | geoShape
  deriving DecidableEq, Repr

inductive RetCode where
  | ok
  | errorGetSnapshot
  | errorDeleteSnapshot
  | errorUpdateSnapshot
  | errorInsertSnapshot
  | errorInsertIndexDtc
  | errorFieldFormat
  | updateSnapshotConflict
  | errorCmdTransform
  | errorWordSegmentation
  | errorIllegalParseCmd
  | errorDeleteHanpin
  deriving DecidableEq, Repr

/-- The errors of `GenerateKeyWords`. -/
inductive GenerateError where
  | fieldFormat
  | wordSegmentation
  deriving DecidableEq, Repr

def GenerateError.code : GenerateError → RetCode
  | fieldFormat => .errorFieldFormat
  | wordSegmentation => .errorWordSegmentation

/-- A key word of a field, and whether its insert fails. -/
structure Word where
  key : String
  fails : Bool
  deriving DecidableEq, Repr

/-- A field of the request, in the order of the field names. -/
structure Field where
  fieldId : Nat
  fieldType : FieldType
  /-- The table definition knows the field and gives it an index. -/
  indexed : Bool
  value : String
  /-- The result of `ConvertFieldValue2Cmd`. -/
  converts : Bool
  isReady : Bool
  generateError : Option GenerateError
  /-- `m_oIntelligentInfo`: for each entry, whether its insert fails. -/
  intelligent : List Bool
  words : List Word
  deriving DecidableEq, Repr

/-- Only `StrParser` makes pinyin rows. -/
def Field.intelligentInfo (f : Field) : List Bool :=
  if f.fieldType = .string ∨ f.fieldType = .text then f.intelligent else []

/-- The storage requests of an add or update, other than the inserts, that fail. -/
structure Faults where
  getSnapshot : Bool
  reserve : Bool
  getIndexData : Bool
  publish : Bool
  writeIndex : Bool
  union : String → Bool
  rollbackHanpin : Nat → Bool
  rollbackKeyword : Nat × String → Bool
  rollbackSnapshot : Bool

structure AddRequest (C : Type) where
  doc : Doc
  fields : List Field
  content : C
  faults : Faults

/-- A delete request, with the storage requests of it that fail. -/
structure DeleteRequest where
  doc : Doc
  /-- One of the deletes under the keys `appid#field`, which have no rows in this table. -/
  deleteHanpin : Bool
  getSnapshot : Bool
  getIndexData : Bool
  deleteSnapshot : Bool
  deleteDocidIndex : Bool

/-- `oInsertParam` of a command context. -/
structure InsertParam where
  docId : String := ""
  transVersion : Nat := 0
  deriving DecidableEq, Repr

/-- `TypeParserManager`, its parsers and their command contexts. -/
structure Manager (C : Type) where
  store : Store C
  cmdCont : FieldType → InsertParam
  /-- `m_oIntelligentkeysVet` of the parser of a type: the fields in its keys. -/
  intelligentKeys : FieldType → List Nat
  /-- `fieldid_formatkey` of the request. -/
  formatKey : FormatKey

namespace Manager

variable (t : AddRequest C) (v : Nat) (m : Manager C)

def setCmdContext (type : FieldType) (param : InsertParam) : Manager C :=
  { m with cmdCont := Function.update m.cmdCont type param }

/-- Goes on unless there was an error. -/
def andThen (r : RetCode × Manager C) (next : Manager C → RetCode × Manager C) :
    RetCode × Manager C :=
  match r with
  | (.ok, m) => next m
  | r => r

/-- The version that a request reserves. -/
def nextVersion (s : Store C) (doc : Doc) : Nat :=
  match s.getSnapshotActiveDoc doc with
  | some transVersion => transVersion + 1
  | none => 1

def updateTransVersion : RetCode × Nat × Store C :=
  if t.faults.getSnapshot then (.errorGetSnapshot, 0, m.store)
  else
    let v := nextVersion m.store t.doc
    if v ≠ 1 then
      match (if t.faults.reserve then none else m.store.updateSnapshotVersion t.doc v) with
      | none => (.errorUpdateSnapshot, v, m.store)
      | some (_, 0) => (.updateSnapshotConflict, v, m.store)
      | some (store, _ + 1) => (.ok, v, store)
    else
      match (if t.faults.reserve then none else m.store.insertSnapshotVersion t.doc v) with
      | none => (.errorInsertSnapshot, v, m.store)
      | some store => (.ok, v, store)

/-- The posting of a key word. -/
def keywordRow (field : Nat) (key : String) : KeywordRow :=
  { key, doc := t.doc, docVersion := v, transVersion := v, field }

/-- The pinyin row of a field. -/
def hanpinRow (f : Field) : HanpinRow :=
  { appid := t.doc.appid, field := f.fieldId, docId := t.doc.docId, docVersion := v, word := f.value }

/-- `InsertIndexDtc` and `do_insert_index`: a key is noted before it is inserted. -/
def insertWords (m : Manager C) (field : Nat) : List Word → RetCode × Manager C
  | [] => (.ok, m)
  | w :: words =>
    let m := { m with formatKey := m.formatKey ++ [(field, w.key)] }
    let row := keywordRow t v field w.key
    if w.fails || m.store.keyword row then (.errorInsertIndexDtc, m)
    else insertWords { m with store := m.store.insertKeyword row } field words

def doInsertIntelligent (s : Store C) (row : HanpinRow) : List Bool → Bool × Store C
  | [] => (true, s)
  | fails :: rest => if fails then (false, s) else doInsertIntelligent (s.insertHanpin row) row rest

/-- The key of the pinyin rows of a field is noted for the rollback. -/
def pushIntelligentKey (f : Field) : Manager C :=
  let keys := m.intelligentKeys f.fieldType ++ [f.fieldId]
  { m with intelligentKeys := Function.update m.intelligentKeys f.fieldType keys }

def insertDtcTable (f : Field) : RetCode × Manager C :=
  if f.intelligentInfo = [] then m.insertWords t v f.fieldId f.words
  else
    match doInsertIntelligent m.store (hanpinRow t v f) f.intelligentInfo with
    | (false, store) => (.errorInsertIndexDtc, { m with store })
    | (true, store) =>
      ({ m with store }.pushIntelligentKey f).insertWords t v f.fieldId f.words

/-- `StartParser`; the command context is cleared in any case. -/
def startParser (f : Field) : RetCode × Manager C :=
  if f.isReady = false then (.errorIllegalParseCmd, m.setCmdContext f.fieldType {})
  else match f.generateError with
    | some error => (error.code, m.setCmdContext f.fieldType {})
    | none =>
      let (ret, m) := m.insertDtcTable t v f
      (ret, m.setCmdContext f.fieldType {})

/-- The loop of `HandleTableContent` over the fields. -/
def indexFields (m : Manager C) : List Field → RetCode × Manager C
  | [] => (.ok, m)
  | f :: fields =>
    if f.indexed = false then indexFields m fields
    else
      let m := m.setCmdContext f.fieldType { docId := t.doc.docId, transVersion := v }
      if f.converts = false then (.errorCmdTransform, m)
      else andThen (m.startParser t v f) fun m => indexFields m fields

/-- `Combination`, which joins the first two lists until one is left. -/
def combination : List (List String) → List String
  | [] => []
  | keys :: rest =>
    rest.foldl (fun keys keys' => keys.flatMap fun k => keys'.map fun k' => k ++ k') keys

/-- The keys that a union key is made of; `none` when a field of it has no keys. -/
def unionKeysVec (keys : FormatKey) (unionFields : List Nat) : Option (List (List String)) :=
  unionFields.mapM fun field =>
    if keys.any fun k => k.1 = field then
      some ((keys.filter fun k => k.1 = field ∧ k.2 ≠ "").map (·.2))
    else none

/-- The union keys of a request: the loop ends at the first one with a field without keys. -/
def unionKeys (keys : FormatKey) : List (List Nat) → List String
  | [] => []
  | unionFields :: rest =>
    match unionKeysVec keys unionFields with
    | none => []
    | some keysVec => combination keysVec ++ unionKeys keys rest

/-- `insert_union_index_dtc`; the field has its default. -/
def unionRow (key : String) : KeywordRow := keywordRow t v 1 key

def insertUnion (s : Store C) : List String → Store C
  | [] => s
  | key :: keys =>
    let row := unionRow t v key
    insertUnion (if t.faults.union key || s.keyword row then s else s.insertKeyword row) keys

def handleUnifiedIndex (unionFields : List (List Nat)) : Manager C :=
  { m with store := insertUnion t v m.store (unionKeys m.formatKey.entries unionFields) }

/-- The deletions that `UpdateDocVersion` and `DeleteDtcFields` queue. -/
def deleteItems (doc : Doc) (docVersion : Nat) (keys : FormatKey) : List DeleteItem :=
  keys.map fun k => { word := k.2, doc, docVersion, field := k.1 }

def updateDocVersion : RetCode × Manager C :=
  let s := if v ≠ 1 ∧ t.faults.getIndexData = false then
      m.store.registerInfo (deleteItems t.doc (v - 1) (m.store.getIndexData t.doc (v - 1)))
    else m.store
  match (if t.faults.publish then none else s.updateSnapshotContent t.doc t.content v) with
  | none | some (_, 0) => (.errorUpdateSnapshot, { m with store := s })
  | some (s, _ + 1) =>
    let s := if t.faults.writeIndex then s
      else if v ≠ 1 then s.updateDocidIndexDtc t.doc m.formatKey v
      else s.insertDocidIndexDtc t.doc m.formatKey v
    (.ok, { m with store := s })

/-- `RollBackSelfIndex` of the parser of a type. -/
def rollBackSelfIndex (type : FieldType) : Manager C :=
  let param := m.cmdCont type
  { m with store := (m.intelligentKeys type).foldl (fun s field =>
      if t.faults.rollbackHanpin field then s
      else s.deleteIntelligent t.doc.appid field param.docId param.transVersion) m.store }

/-- The deletions of `RollBackIndex`. -/
def rollBackKeywords (s : Store C) (keys : FormatKey) : Store C :=
  keys.foldl (fun s k =>
    if t.faults.rollbackKeyword k then s
    else s.deleteIndex { word := k.2, doc := t.doc, docVersion := v, field := k.1 }) s

/-- The last step of `RollBackIndex`. -/
def rollBackSnapshot (s : Store C) : Store C :=
  if t.faults.rollbackSnapshot then s
  else if v = 1 then s.deleteSnapshotDtc t.doc
  else match s.updateSnapshotBack t.doc v with
    | none => s
    | some (s, _) => s

def rollBackIndex : Manager C :=
  let m := (m.rollBackSelfIndex t .string).rollBackSelfIndex t .text
  { m with store := rollBackSnapshot t v (rollBackKeywords t v m.store m.formatKey.entries) }

/-- `HandleTableContent` of an add or update once the version is reserved. -/
def handleFields (unionFields : List (List Nat)) : RetCode × Manager C :=
  let m := { m with intelligentKeys := fun _ => [], formatKey := [] }
  let (ret, m) := andThen (m.indexFields t v t.fields) fun m =>
    (m.handleUnifiedIndex t v unionFields).updateDocVersion t v
  if ret = .ok then (ret, m) else (ret, m.rollBackIndex t v)

/-- `HandleTableContent` of an add or update. -/
def handleAdd (unionFields : List (List Nat)) : RetCode × Manager C :=
  match m.updateTransVersion t with
  | (.ok, v, store) => { m with store }.handleFields t v unionFields
  | (ret, _, _) => (ret, m)

/-- `DeleteDtcFields`, by which `HandleTableContent` handles a delete. -/
def deleteDtcFields (d : DeleteRequest) : RetCode × Manager C :=
  if d.deleteHanpin then (.errorDeleteHanpin, m)
  else if d.getSnapshot then (.errorGetSnapshot, m)
  else
    let oldVersion := (m.store.getSnapshotActiveDoc d.doc).getD 0
    let s := if d.getIndexData then m.store
      else m.store.registerInfo
        (deleteItems d.doc oldVersion (m.store.getIndexData d.doc oldVersion))
    let (ret, s) := if d.deleteSnapshot then (RetCode.errorDeleteSnapshot, s)
      else (.ok, s.deleteSnapshotDtc d.doc)
    (ret, { m with store := if d.deleteDocidIndex then s else s.deleteDocidIndexDtc d.doc })

end Manager

end ISearch.IndexWrite
