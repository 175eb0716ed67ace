import Mathlib.Data.List.Nodup

/-!
# The tables of `index_write` (`index_tbl_op.cc`, `table.conf`)

One storage table holds, under keys that tell them apart, the snapshot of a document
(`appid#10#doc_id`), the record of its keys (`appid#20#doc_id`) and the postings of a key word
(`appid#00#word`). Rows of a key differ in `doc_id`, `doc_version`, `trans_version` or `field`, so
the snapshot of a document can have several rows. A second table holds the pinyin rows. `DeleteTask`
queues deletions of postings.

A storage request either takes effect or fails; a request that would duplicate a row fails.
-/

namespace ISearch.IndexWrite

structure Doc where
  appid : Nat
  docId : String
  deriving DecidableEq, Repr

/-- `fieldid_formatkey`: the keys of each field, in the order in which they were appended. -/
abbrev FormatKey := List (Nat × String)

/-- The entries by field, as the loops over the JSON array meet them. -/
def FormatKey.entries (keys : FormatKey) : FormatKey :=
  (List.range ((keys.map (·.1)).foldr max 0 + 1)).flatMap fun field =>
    keys.filter fun k => k.1 = field

/-- A row of the snapshot of a document; `content` is what the final update sets. -/
structure SnapshotRow (C : Type) where
  docVersion : Nat
  transVersion : Nat
  content : Option C := none
  deriving DecidableEq, Repr

/-- What tells the snapshot rows of a document apart. -/
def SnapshotRow.key {C : Type} (r : SnapshotRow C) : Nat × Nat := (r.docVersion, r.transVersion)

/-- A row of the record of the keys of a document. -/
structure IndexRow where
  docVersion : Nat
  keys : FormatKey
  deriving DecidableEq, Repr

structure KeywordRow where
  key : String
  doc : Doc
  docVersion : Nat
  transVersion : Nat
  field : Nat
  deriving DecidableEq, Repr

/-- A row under the key `appid#field`. -/
structure HanpinRow where
  appid : Nat
  field : Nat
  docId : String
  docVersion : Nat
  word : String
  deriving DecidableEq, Repr

structure DeleteItem where
  word : String
  doc : Doc
  docVersion : Nat
  field : Nat
  deriving DecidableEq, Repr

/-- The rows that `delete_index` and `DeleteIndex` match. -/
def DeleteItem.selects (item : DeleteItem) (row : KeywordRow) : Bool :=
  row.key = item.word ∧ row.doc = item.doc ∧ row.docVersion = item.docVersion ∧
    row.field = item.field

structure Store (C : Type) where
  snapshot : Doc → List (SnapshotRow C)
  docidIndex : Doc → List IndexRow
  keyword : KeywordRow → Bool
  hanpin : HanpinRow → Bool
  /-- The queue of `DeleteTask`. -/
  pending : List DeleteItem

/-- An update of the rows that match. It fails when a row would keep its key or get the key of
another row. -/
def updateRows {α β : Type} [DecidableEq β] (key : α → β) (matched : α → Bool) (f : α → α)
    (rows : List α) : Option (List α) :=
  let new := (rows.filter matched).map fun r => key (f r)
  if new.Nodup ∧ ∀ k ∈ new, k ∉ rows.map key then
    some (rows.map fun r => if matched r then f r else r)
  else none

namespace Store

variable {C : Type}

variable (s : Store C) (doc : Doc)

def setSnapshot (rows : List (SnapshotRow C)) : Store C :=
  { s with snapshot := Function.update s.snapshot doc rows }

def setDocidIndex (rows : List IndexRow) : Store C :=
  { s with docidIndex := Function.update s.docidIndex doc rows }

/-- `get_snapshot_active_doc`: the `trans_version` of the last row. -/
def getSnapshotActiveDoc : Option Nat := (s.snapshot doc).getLast?.map (·.transVersion)

/-- `insert_snapshot_version`, of `trans_version` 1. -/
def insertSnapshotVersion (transVersion : Nat) : Option (Store C) :=
  if (s.snapshot doc).any fun r => r.docVersion = 0 ∧ r.transVersion = transVersion then none
  else some (s.setSnapshot doc (s.snapshot doc ++ [{ docVersion := 0, transVersion }]))

/-- An update of the snapshot rows with a `trans_version`, with the number of affected rows. -/
def updateSnapshot (transVersion : Nat) (f : SnapshotRow C → SnapshotRow C) :
    Option (Store C × Nat) :=
  let matched (r : SnapshotRow C) : Bool := r.transVersion = transVersion
  (updateRows SnapshotRow.key matched f (s.snapshot doc)).map fun rows =>
    (s.setSnapshot doc rows, ((s.snapshot doc).filter matched).length)

def updateSnapshotVersion (transVersion : Nat) : Option (Store C × Nat) :=
  s.updateSnapshot doc (transVersion - 1) fun r => { r with transVersion }

/-- `update_sanpshot_dtc` with content. -/
def updateSnapshotContent (content : C) (transVersion : Nat) : Option (Store C × Nat) :=
  s.updateSnapshot doc transVersion fun r =>
    { r with docVersion := transVersion, content := some content }

/-- `update_sanpshot_dtc` of a rollback. -/
def updateSnapshotBack (transVersion : Nat) : Option (Store C × Nat) :=
  s.updateSnapshot doc transVersion fun r => { r with transVersion := transVersion - 1 }

def deleteSnapshotDtc : Store C := s.setSnapshot doc []

def getIndexData (docVersion : Nat) : FormatKey :=
  match (s.docidIndex doc).find? fun r => r.docVersion = docVersion with
  | none => []
  | some r => r.keys.entries

def updateDocidIndexDtc (keys : FormatKey) (docVersion : Nat) : Store C :=
  match updateRows IndexRow.docVersion (fun _ => true) (fun _ => IndexRow.mk docVersion keys)
      (s.docidIndex doc) with
  | none => s
  | some rows => s.setDocidIndex doc rows

def insertDocidIndexDtc (keys : FormatKey) (docVersion : Nat) : Store C :=
  if (s.docidIndex doc).any fun r => r.docVersion = docVersion then s
  else s.setDocidIndex doc (s.docidIndex doc ++ [IndexRow.mk docVersion keys])

def deleteDocidIndexDtc : Store C := s.setDocidIndex doc []

/-- The insert of `insert_index_dtc` and `insert_union_index_dtc`. -/
def insertKeyword (row : KeywordRow) : Store C :=
  { s with keyword := Function.update s.keyword row true }

def deleteIndex (item : DeleteItem) : Store C :=
  { s with keyword := fun row => s.keyword row && !item.selects row }

/-- The insert of `do_insert_intelligent`; that a row exists already is not an error. -/
def insertHanpin (row : HanpinRow) : Store C :=
  { s with hanpin := Function.update s.hanpin row true }

def deleteIntelligent (appid field : Nat) (docId : String) (transVersion : Nat) : Store C :=
  { s with hanpin := fun row => s.hanpin row && !(row.appid = appid && row.field = field &&
      row.docId = docId && row.docVersion = transVersion) }

def registerInfo (items : List DeleteItem) : Store C := { s with pending := s.pending ++ items }

/-- `Coalesce`: an item that is queued already is dropped. -/
def coalesce : Store C := { s with pending := s.pending.eraseDups }

/-- `ProcessCycle` carries out the first queued deletion. -/
def processCycle : Store C :=
  match s.pending with
  | [] => s
  | item :: pending => { s.deleteIndex item with pending }

end Store

end ISearch.IndexWrite
