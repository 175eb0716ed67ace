import ISearch.DirectQuery.Context
import ISearch.RocksProcess.Requests

/-!
# Direct range queries (`process_direct_query` and `rocksdb_direct_worker.cc`)

A range query walks the storage forward or backward from the first condition on the primary key. Its
rows go to a deque that belongs to the worker, or to the heap of the `ORDER BY` unit, which belongs
to the storage process; both outlive the query.

An iteration of the storage may fail after some entries. The conditions arrive in the order the
worker has sorted them to. `none` stands for an access the code must not make, as in the key codec.
-/

namespace ISearch.DirectQuery

open KeyFormat RocksProcess

variable {t : Table}

/-- A condition whose index names a field. Operators other than `CondOpr` match nothing. -/
structure Cond (t : Table) where
  fieldId : t.FieldId
  condOpr : Option Comparator
  condValue : Bytes

structure Query (t : Table) where
  fieldConds : List (Cond t)
  orderbyFields : List (t.FieldId × Bool)
  limitCond : LimitCond

def condOprOf : UInt8 → Option Comparator
  | 0 => some .eq
  | 1 => some .ne
  | 2 => some .lt
  | 3 => some .le
  | 4 => some .gt
  | 5 => some .ge
  | _ => none

def fieldIdOf (t : Table) (i : Nat) : Option t.FieldId :=
  if h : i < t.numFields + 1 then some ⟨i, h⟩ else none

/-- The query of a message. An index that is no field of the table must not be looked up. -/
def RangeQuery.query (t : Table) (q : RangeQuery) : Option (Query t) := do
  let fieldConds ← q.fieldConds.mapM fun c => do
    return ⟨← fieldIdOf t c.fieldIndex.toNat, condOprOf c.condOpr, c.condValue⟩
  let orderbyFields ← q.orderbyFields.mapM fun f => do
    if f.1.toInt < 0 then none else return (← fieldIdOf t f.1.toInt.toNat, f.2)
  return ⟨fieldConds, orderbyFields, q.limitCond⟩

/-- `condition_filter` of direct queries, on strings. -/
def directMatched (rocksValue condValue : Bytes) (type : FieldType) : Option Comparator → Bool
  | none => false
  | some comparator =>
    match type with
    | .signed => isMatched (strtoll rocksValue) comparator (strtoll condValue)
    | .unsigned => isMatched (strtoull rocksValue) comparator (strtoull condValue)
    | .string | .binary => isMatchedStr rocksValue comparator condValue false

/-- `analyse_primary_key_conds`: the conditions on the primary key and the others. -/
def analysePrimaryKeyConds (conds : List (Cond t)) : Option (List (Cond t) × List (Cond t)) :=
  let primaryKeyConds := conds.filter fun c => c.fieldId = 0
  if primaryKeyConds.any (fun c => c.condOpr = some .ne || c.condOpr = none) then none
  else if primaryKeyConds = [] then none
  else some (primaryKeyConds, conds.filter fun c => c.fieldId ≠ 0)

structure OrderByUnitElement where
  rocksKeys : List Bytes
  rocksValues : List Bytes
  deriving DecidableEq

/-- The string of a field; the fields of the key come first. -/
def OrderByUnitElement.value (e : OrderByUnitElement) (i : t.FieldId) : Bytes :=
  (e.rocksKeys ++ e.rocksValues)[t.fieldIndexMapping.idxOf i]?.getD []

/-- `strncmp` with the length of the shorter string: it stops at a zero byte. -/
def strncmp (ls rs : Bytes) : Ordering :=
  let n := min ls.length rs.length
  compare ((ls.take n).takeWhile (· ≠ 0)) ((rs.take n).takeWhile (· ≠ 0))

/-- The order of two strings of a field. -/
def compareField (ls rs : Bytes) : FieldType → Ordering
  | .signed => compare (strtoll ls) (strtoll rs)
  | .unsigned => compare (strtoull ls) (strtoull rs)
  | .string => (strncmp (toLower ls) (toLower rs)).then (compare ls.length rs.length)
  | .binary => (strncmp ls rs).then (compare ls.length rs.length)

/-- `OrderByComparator`. Where all fields are equal the function ends without a `return`;
`noReturn` is what its caller finds then. -/
def orderByLess (noReturn : Bool) (lhs rhs : OrderByUnitElement) :
    List (t.FieldId × Bool) → Bool
  | [] => noReturn
  | (i, asc) :: fields =>
    match compareField (lhs.value i) (rhs.value i) (t.type i) with
    | .eq => orderByLess noReturn lhs rhs fields
    | .lt => asc
    | .gt => !asc

/-- `RocksdbOrderByUnit`. The rows of the priority queue stand in the order they are taken out,
the greatest first. -/
structure OrderByUnit (t : Table) where
  maxRowSize : Nat
  orderbyFields : List (t.FieldId × Bool)
  rawRows : List OrderByUnitElement
  deriving DecidableEq

def OrderByUnit.push (noReturn : Bool) (u : OrderByUnit t) (e : OrderByUnitElement) :
    List OrderByUnitElement :=
  u.rawRows.takeWhile (fun e' => orderByLess noReturn e e' u.orderbyFields) ++
    e :: u.rawRows.dropWhile fun e' => orderByLess noReturn e e' u.orderbyFields

def OrderByUnit.addRow (noReturn : Bool) (u : OrderByUnit t) (e : OrderByUnitElement) :
    OrderByUnit t :=
  let rawRows := u.push noReturn e
  { u with rawRows := if rawRows.length > u.maxRowSize then rawRows.tail else rawRows }

/-- The row of a response, as the list of the strings of its fields. -/
abbrev DirectRow := List Bytes

/-- `build_direct_row`, the fields in the order of the table. -/
def buildDirectRow (t : Table) (e : OrderByUnitElement) : DirectRow :=
  (List.finRange (t.numFields + 1)).map fun i => e.value i

/-- The string of a row. -/
def DirectRow.bytes (row : DirectRow) : Bytes :=
  row.flatMap fun field => leBytes 4 field.length ++ field

/-- What a query changes: `sRowValues`, `mOrderByUnit` and its own `totalRows`. -/
structure QueryState (t : Table) where
  rowValues : List DirectRow
  orderByUnit : Option (OrderByUnit t)
  totalRows : Nat

/-- A limit is given. -/
def LimitCond.limited (l : LimitCond) : Bool := 0 ≤ l.limitStart.toInt && 0 < l.limitStep.toInt

/-- `heapSize`; the heap compares it as a `size_t`. -/
def LimitCond.heapSize (l : LimitCond) : Nat :=
  if l.limited then ((l.limitStart + l.limitStep).toInt % 2 ^ 64).toNat else 50

/-- A matching row goes to the `ORDER BY` unit or, within the limit, to the deque. The result says
whether the limit is reached. -/
def keepRow (noReturn : Bool) (q : Query t) (e : OrderByUnitElement) (s : QueryState t) :
    QueryState t × Bool :=
  if s.orderByUnit.isSome || q.orderbyFields ≠ [] then
    let unit := s.orderByUnit.getD ⟨q.limitCond.heapSize, q.orderbyFields, []⟩
    ({ s with orderByUnit := some (unit.addRow noReturn e) }, false)
  else if q.limitCond.limited && decide ((s.totalRows : Int) < q.limitCond.limitStart.toInt) then
    ({ s with totalRows := s.totalRows + 1 }, false)
  else
    ({ s with rowValues := buildDirectRow t e :: s.rowValues, totalRows := s.totalRows + 1 },
      q.limitCond.limited && decide ((s.rowValues.length : Int) = q.limitCond.limitStep.toInt - 1))

/-- The fields of an entry that `save_direct_row` reads. -/
def directElement (t : Table) (compoundKey compoundValue : Bytes) : Option OrderByUnitElement := do
  let keys ← decode compoundKey t.keyTypes
  let (keys, realValue) ← decodeBitmapKeys t.keyTypes compoundValue keys
  return ⟨keys, ← splitValues (t.valueFields.map t.field) realValue⟩

def OrderByUnitElement.matched (e : OrderByUnitElement) (conds : List (Cond t)) : Bool :=
  conds.all fun c => directMatched (e.value c.fieldId) c.condValue (t.type c.fieldId) c.condOpr

/-- `save_direct_row`; `conds` are those that `analyse_primary_key_conds` has left. -/
def saveDirectRow (noReturn : Bool) (q : Query t) (conds : List (Cond t))
    (compoundKey compoundValue : Bytes) (s : QueryState t) : Option (QueryState t × Bool) := do
  let e ← directElement t compoundKey compoundValue
  return if e.matched conds then keepRow noReturn q e s else (s, false)

/-! ## The query -/

inductive Verdict where
  | stop
  | skip
  | accept
  deriving DecidableEq, Repr

/-- `range_key_matched` on the decoded primary key. -/
def rangeKeyMatched (primaryKey : Bytes) : List (Cond t) → Verdict
  | [] => .accept
  | c :: conds =>
    if directMatched primaryKey c.condValue (t.type 0) c.condOpr then
      rangeKeyMatched primaryKey conds
    else
      match c.condOpr with
      | some .lt | some .gt => if primaryKey = c.condValue then .skip else .stop
      | some _ => .stop
      | none => rangeKeyMatched primaryKey conds

/-- The field that begins a key: `decode_primary_key`. -/
def primaryKeyOf (t : Table) (rocksKey : Bytes) : Option Bytes := do
  return (← decodeField rocksKey 0 (t.type 0)).1

/-- An iteration of the storage: the entries, and whether it fails behind them. -/
structure Iteration where
  entries : List (Bytes × Bytes)
  fails : Bool

/-- A failure may come after any number of entries. -/
def Iteration.of (entries : List (Bytes × Bytes)) : Option Nat → Iteration
  | none => ⟨entries, false⟩
  | some n => ⟨entries.take n, true⟩

/-- `AdaptivePrefixExtractor::Transform`. -/
def keyPrefix (t : Table) (key : Bytes) : Option Bytes := do
  let len ← match t.type 0 with
    | .signed | .unsigned => some 8
    | .string | .binary => segmentsEnd key segmentSize
  return key.take len

/-- The entries of an iteration with `prefix_same_as_start`. -/
def samePrefix (t : Table) (db : Db) (key : Bytes) : List (Bytes × Bytes) :=
  (db.seek key).takeWhile fun e => keyPrefix t e.1 = keyPrefix t key

/-- The end of a loop: the state, the key it stands at and whether the storage failed. -/
structure Scanned (t : Table) where
  state : QueryState t
  fullKey : Bytes
  failed : Bool

/-- The loop over an iteration, from the entries that are left. -/
def scanLoop (noReturn : Bool) (q : Query t) (conds : List (Cond t))
    (verdict : Bytes → Option Verdict) (fails : Bool) (fullKey : Bytes) (s : QueryState t) :
    List (Bytes × Bytes) → Option (Scanned t)
  | [] => some ⟨s, fullKey, fails⟩
  | (key, value) :: rest => do
    match ← verdict key with
    | .stop => return ⟨s, key, false⟩
    | .skip => scanLoop noReturn q conds verdict fails key s rest
    | .accept =>
      let (s, full) ← saveDirectRow noReturn q conds key value s
      if full then return ⟨s, key, false⟩
      else scanLoop noReturn q conds verdict fails key s rest

/-- The failures of the storage during a query, in its two loops. -/
structure Faults where
  equal : Option Nat
  range : Option Nat
  deriving DecidableEq

/-- The members that outlive a query: `range_query_row_` and `mOrderByUnit`. -/
structure Worker (t : Table) where
  rowValues : List DirectRow
  orderByUnit : Option (OrderByUnit t)
  deriving DecidableEq

def Worker.fresh : Worker t := ⟨[], none⟩

def QueryState.worker (s : QueryState t) : Worker t := ⟨s.rowValues, s.orderByUnit⟩

/-- How a query ends. `refused` sets `sRowNums` to `-EC_ERROR_BASE`, `failed` to `0`. -/
inductive Outcome where
  | refused
  | failed
  | notFound
  | rows
  deriving DecidableEq, Repr

def ecErrorBase : Int := 2000

def Outcome.rowNums (rowValues : List DirectRow) : Outcome → Int16
  | .refused => Int16.ofInt (-ecErrorBase)
  | .failed | .notFound => 0
  | .rows => Int16.ofNat rowValues.length

/-- The primary-key equal loop of a `<=` query. -/
def equalLoop (db : Db) (noReturn : Bool) (q : Query t) (conds : List (Cond t)) (preKey : Bytes)
    (faults : Faults) (s : QueryState t) : Option (Scanned t) :=
  let it := Iteration.of (samePrefix t db preKey) faults.equal
  scanLoop noReturn q conds
    (fun key => some (if keyMatched preKey key then .accept else .stop)) it.fails preKey s it.entries

def Comparator.forward : Comparator → Bool
  | .eq | .gt | .ge => true
  | .ne | .lt | .le => false

/-- The range loop from `fullKey` on. -/
def rangeIteration (db : Db) (forwardDirection : Bool) (fullKey : Bytes) (faults : Faults) :
    Iteration :=
  Iteration.of (if forwardDirection then db.seek fullKey else db.seekForPrev fullKey) faults.range

/-- The rows of the `ORDER BY` unit are taken out, those before the limit are dropped. -/
def drainOrderBy (q : Query t) (s : QueryState t) : QueryState t :=
  match s.orderByUnit with
  | none => s
  | some u =>
    let start := if q.limitCond.limited then q.limitCond.limitStart.toInt.toNat else 0
    { s with
      rowValues := ((u.rawRows.drop start).map (buildDirectRow t)).reverse ++ s.rowValues
      orderByUnit := none }

/-- The range section of `process_direct_query`. -/
def rangeSection (db : Db) (noReturn : Bool) (q : Query t) (primaryKeyConds conds : List (Cond t))
    (forwardDirection : Bool) (faults : Faults) (fullKey : Bytes) (s : QueryState t) :
    Option (Outcome × Worker t) :=
  let it := rangeIteration db forwardDirection fullKey faults
  if it.entries = [] then
    some (if it.fails then .refused else .notFound, s.worker)
  else do
    let scanned ← scanLoop noReturn q conds
      (fun key => (primaryKeyOf t key).map fun pk => rangeKeyMatched pk primaryKeyConds)
      it.fails fullKey s it.entries
    if scanned.failed then return (.failed, scanned.state.worker)
    else return (.rows, (drainOrderBy q scanned.state).worker)

def processDirectQuery (db : Db) (noReturn : Bool) (faults : Faults) (q : Query t)
    (w : Worker t) : Option (Outcome × Worker t) :=
  match analysePrimaryKeyConds q.fieldConds with
  | none => some (.refused, w)
  | some ([], _) => none
  | some (c :: primaryKeyConds, conds) =>
    if c.condValue = [] then some (.refused, w)
    else
      let preKey := encodeBytes (lowerKey (t.type 0) c.condValue)
      let s : QueryState t := ⟨w.rowValues, w.orderByUnit, 0⟩
      let forwardDirection := c.condOpr.any Comparator.forward
      if c.condOpr = some .le then
        (equalLoop db noReturn q conds preKey faults s).bind fun scanned =>
          if scanned.failed then some (.refused, scanned.state.worker)
          else
            rangeSection db noReturn q (c :: primaryKeyConds) conds forwardDirection faults
              scanned.fullKey scanned.state
      else
        rangeSection db noReturn q (c :: primaryKeyConds) conds forwardDirection faults preKey s

end ISearch.DirectQuery
