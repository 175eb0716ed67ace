import ISearch.TreeData.Defs

/-!
# Requests that write a tree node (`tree_data.cc`, `tree_data_process.cc`)

The functions return the code of the C++ function and the state, and `none` where the code reads or
frees through a handle that is no longer live.
-/

namespace ISearch.TreeData

open TTree BufferProcess

variable {K R : Type}

/-- `delete_cur_row` of the row at `pos`. -/
def deleteCurRow (T : Table K R) (content : Handle) (pos : Nat) (st : State K R) :
    Int × State K R :=
  let record := st.mem content
  match record.rows[pos]? with
  | none => (-2, st)
  | some row => (0, { st.setRecord content (record.setRows T (record.rows.eraseIdx pos)) with
      data.rowCnt := st.data.rowCnt - 1
      data.totalRawSize := st.data.totalRawSize - .ofNat (T.rowSize row.value) })

/-- The end of `replace_cur_row`, once the chunk has its size. -/
def writeCurRow (T : Table K R) (content : Handle) (pos : Nat) (old : Row R) (newRow : R)
    (isDirty : Bool) (st : State K R) : State K R :=
  let record := st.mem content
  { st.setRecord content (record.setRows T (record.rows.set pos (old.replace newRow isDirty))) with
    data.totalRawSize := st.data.totalRawSize +
      (.ofNat (T.rowSize newRow) - .ofNat (T.rowSize old.value)) }

/-- `replace_cur_row` of the row at `pos`: the code, the handle of the record, and the state. A
chunk that cannot be made smaller keeps its size. -/
def replaceCurRow (T : Table K R) (env : Mallocator) (content : Handle) (pos : Nat) (newRow : R)
    (isDirty : Bool) (st : State K R) : Int × Handle × State K R :=
  match (st.mem content).rows[pos]? with
  | none => (-2, content, st)
  | some old =>
    let size := (st.mem content).dataSize T + T.rowSize newRow - T.rowSize old.value
    match reAlloc env content size st with
    | some (content, st) => (0, content, writeCurRow T content pos old newRow isDirty st)
    | none =>
      if T.rowSize newRow > T.rowSize old.value then (ecNoMem, content, st.failed)
      else (0, content, writeCurRow T content pos old newRow isDirty st.failed)

/-- The end of the row functions, when the record has no more rows: `Ttree::Delete` by the index
value of the row read last, and the chunk of `hRecord` is freed. -/
def dropRecord (T : Table K R) (hRecord content : Handle) (k : K) (st : State K R) :
    Option (Int × State K R) := do
  let (iret, isFreeNode, root) ←
    if st.root.isNil then some ((0 : Int), false, st.root)
    else (TtreeNode.delete (st.pfComp T) st.keyOf st.root.height st.root k false).map fun o =>
      (if o.iRet < 0 then -1 else 0, o.flag, o.hNode)
  let st := { st with root }
  if iret ≠ 0 then return (-4, st)
  if st.live hRecord = false then none
  let freed := (if isFreeNode then sizeofTtreeNode else 0) + (st.mem content).chunkSize
  return (0, { st with
    data.treeSize := st.data.treeSize - .ofNat freed
    data.nodeCnts := st.data.nodeCnts - 1
    data.hRoot := st.root
    live := Function.update st.live hRecord false })

/-! ## Update -/

/-- The locals of the loop of `update_sub_raw_data`. -/
structure UpdateVars (R : Type) where
  pos : Nat
  content : Handle
  iDelete : Nat
  iInsert : Nat
  curRow : Option R

/-- `m_ullAffectedrows` and `m_llDirtyRowsInc` after a row was updated. -/
def State.countUpdate (st : State K R) (dirty : Bool) : State K R :=
  { st with
    affectedRows := st.affectedRows + 1
    dirtyRowsInc := st.dirtyRowsInc - (if dirty then 1 else 0) + (if st.async then 1 else 0) }

section Requests

variable [LinearOrder K] {T : Table K R}

/-- The body of the loop of `update_sub_raw_data` for a row that matches: the row is moved to the
record of its new index value, or replaced in place. `Except.error` is a return of the function. -/
def updateMatched (env : Mallocator) (task : Task T) (hRecord : Handle) (v : UpdateVars R)
    (row : Row R) (st : State K R) : Option (Except Int (UpdateVars R) × State K R) :=
  match st.find T (T.index row.value) with
  | none => some (.error 0, st)
  | some hRaw =>
    let newRow := task.updateRow row.value
    if st.live hRecord = false then none
    else if T.keyCompare (T.index newRow) (st.mem hRecord).key ≠ 0 then do
      let (iRet, st) ← insertRow T env newRow st.async st
      if st.live v.content = false then none
      if iRet = ecNoMem then return (.error iRet, st)
      else if iRet = 0 then
        let (iRet, st) := deleteCurRow T v.content v.pos st
        let iDelete := if iRet = 0 then v.iDelete + 1 else v.iDelete
        return (.ok { v with iInsert := v.iInsert + 1, iDelete }, st.countUpdate row.dirty)
      else return (.ok { v with pos := v.pos + 1 }, st.countUpdate row.dirty)
    else if hRaw ≠ v.content then none
    else
      match replaceCurRow T env v.content v.pos newRow st.async st with
      | (0, content, st) =>
        some (.ok { v with pos := v.pos + 1, content }, st.countUpdate row.dirty)
      | (iRet, _, st) => some (.error (if iRet = ecNoMem then iRet else -6), st)

/-- The loop of `update_sub_raw_data`. -/
def updateRows (env : Mallocator) (task : Task T) (hRecord : Handle) :
    Nat → UpdateVars R → State K R → Option (Except Int (UpdateVars R) × State K R)
  | 0, v, st => some (.ok v, st)
  | n + 1, v, st =>
    if st.live v.content = false then none
    else match (st.mem v.content).rows[v.pos]? with
      | none => some (.error (-1), st)
      | some row =>
        let v := { v with curRow := some row.value }
        if task.compareRow row.value = false then
          updateRows env task hRecord n { v with pos := v.pos + 1 } st
        else do
          match ← updateMatched env task hRecord v row st with
          | (.ok v, st) => updateRows env task hRecord n v st
          | (.error iRet, st) => return (.error iRet, st)

def updateSubRawData (env : Mallocator) (task : Task T) (hRecord : Handle) (st : State K R) :
    Option (Int × State K R) := do
  if st.live hRecord = false then none
  let uiTotalRows := (st.mem hRecord).rows.length
  match ← updateRows env task hRecord uiTotalRows ⟨0, hRecord, 0, 0, none⟩ st with
  | (.error iRet, st) => return (iRet, st)
  | (.ok v, st) =>
    let (iRet, st) ←
      match v.curRow with
      | some row =>
        if uiTotalRows = v.iDelete then dropRecord T hRecord v.content (T.index row) st
        else some (0, st)
      | none => some (0, st)
    if iRet ≠ 0 then return (iRet, st)
    if v.iInsert ≠ v.iDelete then return (-10, st)
    return (0, st)

/-- The loops of `match_index_condition` over the records, until a row function fails. -/
def forEach (subRowProc : Handle → State K R → Option (Int × State K R)) :
    List Handle → State K R → Option (Int × State K R)
  | [], st => some (0, st)
  | h :: hs, st => do
    let (iRet, st) ← subRowProc h st
    if iRet ≠ 0 then return (iRet, st)
    forEach subRowProc hs st

def updateTreeData (env : Mallocator) (task : Task T) (isAsc async : Bool) (st : State K R) :
    Option (Int × State K R) :=
  if st.data.nodeCnts = 0 then some (0, st)
  else
    forEach (updateSubRawData env task) (matchIndexCondition st task isAsc)
      { st with async, dirtyRowsInc := 0 }

/-- The loop of `delete_sub_raw_data`: `iAffectRows`, the row read last, and the state. -/
def deleteRows (task : Task T) (content : Handle) :
    Nat → Nat → Nat → Option R → State K R → Option (Nat × Option R × State K R)
  | 0, _, iAffectRows, curRow, st => some (iAffectRows, curRow, st)
  | n + 1, pos, iAffectRows, _, st =>
    match (st.mem content).rows[pos]? with
    | none => none
    | some row =>
      if task.compareRow row.value = false then
        deleteRows task content n (pos + 1) iAffectRows (some row.value) st
      else
        let st' := (deleteCurRow T content pos st).2
        deleteRows task content n pos (iAffectRows + 1) (some row.value)
          { st' with
            rowsInc := st'.rowsInc - 1
            dirtyRowsInc := st'.dirtyRowsInc - (if row.dirty then 1 else 0) }

def deleteSubRawData (task : Task T) (hRecord : Handle) (st : State K R) :
    Option (Int × State K R) := do
  if st.live hRecord = false then none
  let uiTotalRows := (st.mem hRecord).rows.length
  let (iAffectRows, curRow, st) ← deleteRows task hRecord uiTotalRows 0 0 none st
  match curRow with
  | some row =>
    if iAffectRows = uiTotalRows then dropRecord T hRecord hRecord (T.index row) st
    else return (0, st)
  | none => return (0, st)

/-- `in_range` of a request for `total` rows. -/
def Task.inRange (task : Task T) (total : Nat) : Bool :=
  task.limitCount = 0 ∨ task.limitNext = 0 ∨ task.limitStart.toNat < total

/-- `delete_tree_data`. A request without conditions that asks for no field deletes nothing. -/
def deleteTreeData (task : Task T) (isAsc : Bool) (st : State K R) : Option (Int × State K R) :=
  if st.data.nodeCnts = 0 then some (0, st)
  else
    let st := { st with rowsInc := 0, dirtyRowsInc := 0 }
    if task.allRows ∧ (task.countOnly ∨ task.inRange st.data.nodeCnts.toNat = false) then
      some (0, st)
    else forEach (deleteSubRawData task) (matchIndexCondition st task isAsc) st

/-- The rows of a record that are the same in the unique fields: the position of the first. -/
def findUniq (uniq : R → R → Bool) (row : R) (record : Record K R) : Option Nat :=
  record.rows.findIdx? fun r => uniq row r.value

/-- `compare_tree_data`: the record and the position of the first row that is the same in the unique
fields. `indexUniq` says whether the index field is one of them. -/
def compareTreeData (T : Table K R) (uniq : R → R → Bool) (indexUniq : Bool) (row : R)
    (st : State K R) : Option (Handle × Nat) :=
  if st.data.nodeCnts = 0 then none
  else if indexUniq then do
    let h ← st.find T (T.index row)
    let pos ← findUniq uniq row (st.mem h)
    return (h, pos)
  else
    let handles := (st.root.traverseForward (visit st 0) ⟨[], 0⟩).handles
    handles.findSome? fun h => (findUniq uniq row (st.mem h)).map fun pos => (h, pos)

/-- `replace_tree_data`: the code, the row flags where the code sets them, and the state. The flag
of the new row is that of the last update, `m_async`. -/
def replaceTreeData (env : Mallocator) (T : Table K R) (uniq : R → R → Bool) (indexUniq : Bool)
    (newRow : R) (st : State K R) : Option (Int × Option Bool × State K R) :=
  let st := { st with affectedRows := 0 }
  match compareTreeData T uniq indexUniq newRow st with
  | none => some (0, none, st)
  | some (hRecord, pos) =>
    if T.keyCompare (T.index newRow) (st.mem hRecord).key ≠ 0 then do
      let (iRet, st) ← insertRow T env newRow st.async st
      if iRet = ecNoMem then return (iRet, none, st)
      if iRet ≠ 0 then return (0, none, { st with affectedRows := 2 })
      if st.live hRecord = false then none
      let old ← (st.mem hRecord).rows[pos]?
      let uiTotalRows := (st.mem hRecord).rows.length
      let (_, st) := deleteCurRow T hRecord pos st
      let (iret, st) ←
        if uiTotalRows = 1 then dropRecord T hRecord hRecord (T.index old.value) st
        else some (0, st)
      if iret ≠ 0 then return (iret, some old.dirty, st)
      return (0, some old.dirty, { st with affectedRows := 2 })
    else
      match st.find T (T.index newRow) with
      | none => some (0, none, st)
      | some hRaw =>
        if hRaw ≠ hRecord then none
        else match replaceCurRow T env hRecord pos newRow st.async st with
          | (0, _, st) => some (0, none, { st with affectedRows := 2 })
          | (iRet, _, st) => some (if iRet = ecNoMem then iRet else -6, none, st)

end Requests

end ISearch.TreeData
