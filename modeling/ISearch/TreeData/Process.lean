import ISearch.TreeData.Writes
import ISearch.BufferProcess.Counters

/-!
# Requests to a tree node and their counters (`tree_data_process.cc`)

`TreeDataProcess` runs a request once more after it ran out of memory, when other nodes could be
purged (`purged`), and reports `m_llRowsInc` and `m_llDirtyRowsInc`. `TreeData` has members of these
names too, which an update and a deletion copy: a call that returns before it resets them reports
what an earlier request left there.
-/

namespace ISearch.TreeData

open TTree BufferProcess

variable {K R A : Type}

/-- The second attempt after `EC_NO_MEM`. -/
def retry (purged : Bool) (op : State K R → Option (Int × A × State K R)) (st : State K R) :
    Option (Int × A × State K R) := do
  let (iRet, a, st) ← op st
  if iRet = ecNoMem ∧ purged then op st else return (iRet, a, st)

/-- A function without a result of its own. -/
def withUnit (op : State K R → Option (Int × State K R)) (st : State K R) :
    Option (Int × Unit × State K R) :=
  (op st).map fun (iRet, st) => (iRet, (), st)

/-- `append_data`; `duplicate` is its check for duplicate keys. -/
def appendData (T : Table K R) (env : Mallocator) (newRow : R) (isDirty duplicate purged : Bool)
    (st : State K R) : Option (Int × State K R × Inc) := do
  if st.data.rowCnt > 0 ∧ duplicate then return (-1062, st, 0)
  let (iRet, _, st) ← retry purged (withUnit (insertRow T env newRow isDirty)) st
  if iRet ≠ 0 then return (-2, st, 0)
  return (0, st, ⟨1, bit isDirty⟩)

section Requests

variable [LinearOrder K] {T : Table K R}

def updateData (env : Mallocator) (task : Task T) (isAsc async purged : Bool) (st : State K R) :
    Option (Int × State K R × Inc) := do
  let st := { st with affectedRows := 0 }
  let (iRet, _, st) ← retry purged (withUnit (updateTreeData env task isAsc async)) st
  if iRet ≠ 0 then return (iRet, st, 0)
  return (0, st, ⟨0, st.dirtyRowsInc⟩)

def deleteData (task : Task T) (isAsc : Bool) (st : State K R) :
    Option (Int × State K R × Inc) := do
  let (iRet, st) ← deleteTreeData task isAsc st
  if iRet ≠ 0 then return (iRet, st, 0)
  return (0, st, ⟨st.rowsInc, st.dirtyRowsInc⟩)

end Requests

/-- `replace_rows`. `uchRowFlags` is not initialised: `garbage` is what it holds as a dirty flag. -/
def replaceRows (T : Table K R) (env : Mallocator) (uniq : R → R → Bool) (indexUniq : Bool)
    (newRow : R) (async garbage purged : Bool) (st : State K R) :
    Option (Int × State K R × Inc) := do
  let (iRet, uchRowFlags, st) ← retry purged (replaceTreeData env T uniq indexUniq newRow) st
  if iRet ≠ 0 then return (iRet, st, 0)
  let dirtyRowsInc := bit async - bit (uchRowFlags.getD garbage)
  if st.affectedRows = 0 then
    let (iRet, _, st) ← retry purged (withUnit (insertRow T env newRow async)) st
    if iRet ≠ 0 then return (-3, st, ⟨0, dirtyRowsInc⟩)
    return (0, st, ⟨1, dirtyRowsInc + bit async⟩)
  return (0, st, ⟨0, dirtyRowsInc⟩)

end ISearch.TreeData
