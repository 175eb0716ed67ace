import ISearch.IndexSync.Defs
import ISearch.KeyFormat.Decimals
import ISearch.Lib.Ranks

/-!
# Range search in the storage (`SearchRocksDBIndex`)

The index of the storage answers a range by a direct range query of the storage helper. A bound is a
double; it is printed, read back as a whole number and encoded. The rows come back with the keys of
the table, from which `setEntry` is to recover the value.

The helper is a parameter: a function from queries to rows, assumed to return the rows that meet the
conditions, in the order and the slice that the query asks for (`Answers`). Rows are those of one
application and one field of type `int` or `long`.
-/

namespace ISearch.IndexSync

open KeyFormat (encodeBytesS64 strtoll toStringDouble wholePart atof)

/-! ## Queries -/

inductive CondOpr where
  | eq
  | ne
  | lt
  | le
  | gt
  | ge
  deriving DecidableEq, Repr

def CondOpr.test : CondOpr → Ordering → Bool
  | .eq, o => o.isEq
  | .ne, o => !o.isEq
  | .lt, o => o.isLT
  | .le, o => o.isLE
  | .gt, o => o.isGT
  | .ge, o => o.isGE

/-- The columns that queries are ordered by, `key` and `doc_id`: the fields 0 and 1 of the table. -/
inductive Column where
  | key
  | docId
  deriving DecidableEq, Repr

inductive QueryCond where
  | field (condOpr : CondOpr) (condValue : Int)
  | key (condOpr : CondOpr) (condValue : Bytes)
  deriving DecidableEq, Repr

/-- `RangeQuery_t`. A start or a step below zero is no limit. -/
structure RangeQuery where
  fieldConds : List QueryCond
  orderbyFields : List (Column × Bool)
  limitStart : Int
  limitStep : Int
  deriving DecidableEq, Repr

/-- A row of the table `keyword_index_data`. -/
structure KeywordRow where
  key : Bytes
  docId : Bytes
  field : Int
  docVersion : Int
  deriving DecidableEq, Repr

def QueryCond.meets (row : KeywordRow) : QueryCond → Bool
  | .field condOpr condValue => condOpr.test (compare row.field condValue)
  | .key condOpr condValue => condOpr.test (compare row.key condValue)

def KeywordRow.compareBy : Column → KeywordRow → KeywordRow → Ordering
  | .key, a, b => compare a.key b.key
  | .docId, a, b => compare a.docId b.docId

instance (c : Column) : Std.TransCmp (KeywordRow.compareBy c) := by
  cases c with
  | key => exact inferInstanceAs (Std.TransCmp (compareOn KeywordRow.key))
  | docId => exact inferInstanceAs (Std.TransCmp (compareOn KeywordRow.docId))

def rowOrder (fields : List (Column × Bool)) : KeywordRow → KeywordRow → Ordering :=
  lexBy KeywordRow.compareBy fields

instance (fields : List (Column × Bool)) : Std.TransCmp (rowOrder fields) :=
  transCmp_lexBy inferInstance fields

def slice {α : Type} (start step : Int) (l : List α) : List α :=
  if start < 0 ∨ step < 0 then l else (l.drop start.toNat).take step.toNat

/-- `res` is an answer to the query: the rows that meet the conditions, in the order and the slice
that are asked for. -/
def Answers (rows : List KeywordRow) (q : RangeQuery) (res : List KeywordRow) : Prop :=
  ∃ l : List KeywordRow, l.Perm (rows.filter fun row => q.fieldConds.all (·.meets row)) ∧
    SortedFor (rowOrder q.orderbyFields) l ∧ res = slice q.limitStart q.limitStep l

/-- The answers of a helper that sorts the rows it finds. -/
def sortedAnswer (rows : List KeywordRow) (q : RangeQuery) : List KeywordRow :=
  slice q.limitStart q.limitStep ((rows.filter fun row => q.fieldConds.all (·.meets row)).mergeSort
    fun a b => (rowOrder q.orderbyFields a b).isLE)

theorem answers_sortedAnswer (rows : List KeywordRow) (q : RangeQuery) :
    Answers rows q (sortedAnswer rows q) :=
  ⟨_, List.mergeSort_perm .., sortedFor_mergeSort _ _, rfl⟩

/-- `INDEX_SYMBOL`, `MAX_BORDER_SYMBOL` and `MIN_BORDER_SYMBOL`. -/
def indexSymbol : Bytes := [48, 48]
def maxBorderSymbol : Bytes := [49, 48]
def minBorderSymbol : Bytes := [48, 48]

/-- `gen_dtc_key_string(appid, type, key)`. -/
def genDtcKeyString (appid type key : Bytes) : Bytes := appid ++ 35 :: (type ++ 35 :: key)

/-- `gen_dtc_key_string(appid, type, key_type, key)` for the types `int` and `long`. -/
def genDtcKeyStringOf (appid type : Bytes) (key : ℚ) : Bytes :=
  genDtcKeyString appid type (encodeBytesS64 (strtoll (toStringDouble key)))

/-! ## The ranges -/

/-- What the queries read of a bound. -/
structure RangeBound where
  appid : Bytes
  field : Int
  key : ℚ

/-- The query of a range: the field and two conditions on the key. -/
def keyRangeQuery (field : Int) (lower upper : CondOpr × Bytes) : RangeQuery where
  fieldConds := [.field .eq field, .key lower.1 lower.2, .key upper.1 upper.2]
  orderbyFields := []
  limitStart := -1
  limitStep := -1

def RangeBound.indexKey (b : RangeBound) : Bytes := genDtcKeyStringOf b.appid indexSymbol b.key

def RangeBound.maxBorder (b : RangeBound) : Bytes := genDtcKeyString b.appid maxBorderSymbol []

def RangeBound.minBorder (b : RangeBound) : Bytes := genDtcKeyString b.appid minBorderSymbol []

/-- The query of `GetRangeIndexGELE` and its siblings, by the range type as in `GetRangeIndex`. -/
def rangeQuery (beginKey endKey : RangeBound) : RangeType → Option RangeQuery
  | .gele => some (keyRangeQuery beginKey.field (.ge, beginKey.indexKey) (.le, endKey.indexKey))
  | .gelt => some (keyRangeQuery beginKey.field (.ge, beginKey.indexKey) (.lt, endKey.indexKey))
  | .gtle => some (keyRangeQuery beginKey.field (.gt, beginKey.indexKey) (.le, endKey.indexKey))
  | .gtlt => some (keyRangeQuery beginKey.field (.gt, beginKey.indexKey) (.lt, endKey.indexKey))
  | .ge => some (keyRangeQuery beginKey.field (.ge, beginKey.indexKey) (.lt, beginKey.maxBorder))
  | .gt => some (keyRangeQuery beginKey.field (.gt, beginKey.indexKey) (.lt, beginKey.maxBorder))
  | .le => some (keyRangeQuery endKey.field (.le, endKey.indexKey) (.gt, endKey.minBorder))
  | .lt => some (keyRangeQuery endKey.field (.lt, endKey.indexKey) (.gt, endKey.minBorder))
  | .init => none

/-- An entry of the result, as far as `setEntry` fills it. -/
structure RocksEntry where
  docId : Bytes
  docVersion : Int
  field : Int
  key : Option ℚ
  deriving DecidableEq

/-- The part of a string behind the last `#`. -/
def afterLastSharp (s : Bytes) : Option Bytes :=
  if 35 ∈ s then some (s.reverse.takeWhile (· ≠ 35)).reverse else none

/-- The loop body of `setEntry`. -/
def setEntry (row : KeywordRow) : RocksEntry where
  docId := row.docId
  docVersion := row.docVersion
  field := row.field
  key := (afterLastSharp row.key).elim (some 0) atof

def getRangeIndex (helper : RangeQuery → List KeywordRow) (rangeType : RangeType)
    (startEntry endEntry : RangeBound) : List RocksEntry :=
  (rangeQuery startEntry endEntry rangeType).elim [] fun q => (helper q).map setEntry

/-- A number that is stored in an `int`. -/
def toInt (n : UInt32) : Int := n.toInt32.toInt

/-- `TerminalQryCond`: the direction, `limit_start` and `page_size`. -/
structure TerminalQryCond where
  ascending : Bool
  limitStart : UInt32
  pageSize : UInt32

/-- The query of `GetRangeIndexInTerminal`. -/
def terminalQuery (rangeType : RangeType) (beginKey endKey : RangeBound)
    (cond : TerminalQryCond) : RangeQuery :=
  let greaterType : CondOpr :=
    if rangeType = .gele ∨ rangeType = .gelt ∨ rangeType = .ge then .ge else .gt
  let lessType : CondOpr :=
    if rangeType = .gele ∨ rangeType = .gtle ∨ rangeType = .le then .le else .lt
  let endSymbol := if rangeType = .ge ∨ rangeType = .gt then maxBorderSymbol else indexSymbol
  let beginSymbol := if rangeType = .le ∨ rangeType = .lt then minBorderSymbol else indexSymbol
  { fieldConds := [.field .eq endKey.field,
      .key greaterType (genDtcKeyStringOf endKey.appid beginSymbol beginKey.key),
      .key lessType (genDtcKeyStringOf endKey.appid endSymbol endKey.key)]
    orderbyFields := [(.key, cond.ascending), (.docId, cond.ascending)]
    limitStart := toInt cond.limitStart
    limitStep := toInt cond.pageSize }

def getRangeIndexInTerminal (helper : RangeQuery → List KeywordRow) (rangeType : RangeType)
    (beginKey endKey : RangeBound) (cond : TerminalQryCond) : List RocksEntry :=
  (helper (terminalQuery rangeType beginKey endKey cond)).map setEntry

/-- A document with a value in the field. -/
structure IndexedDoc where
  value : Int64
  docId : Bytes
  docVersion : Int
  deriving DecidableEq

/-- The keyword row that is written for it. -/
def keywordRow (appid : Bytes) (field : Int) (d : IndexedDoc) : KeywordRow where
  key := genDtcKeyString appid indexSymbol (encodeBytesS64 d.value)
  docId := d.docId
  field := field
  docVersion := d.docVersion

/-- The entry that stands for a document. -/
def docEntry (field : Int) (d : IndexedDoc) : RocksEntry where
  docId := d.docId
  docVersion := d.docVersion
  field := field
  key := some d.value.toInt

def IndexedDoc.compareBy : Column → IndexedDoc → IndexedDoc → Ordering
  | .key, a, b => compare a.value b.value
  | .docId, a, b => compare a.docId b.docId

instance (c : Column) : Std.TransCmp (IndexedDoc.compareBy c) := by
  cases c with
  | key => exact inferInstanceAs (Std.TransCmp (compareOn IndexedDoc.value))
  | docId => exact inferInstanceAs (Std.TransCmp (compareOn IndexedDoc.docId))

/-- The order by value and document id. -/
def docOrder (ascending : Bool) : IndexedDoc → IndexedDoc → Ordering :=
  lexBy IndexedDoc.compareBy [(.key, ascending), (.docId, ascending)]

instance (ascending : Bool) : Std.TransCmp (docOrder ascending) :=
  transCmp_lexBy inferInstance _

end ISearch.IndexSync
