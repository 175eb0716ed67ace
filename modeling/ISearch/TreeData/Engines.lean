import ISearch.TreeData.Bookkeeping

/-!
# The counters of a request in the two engines

The requests that write a node, to a raw node and to a tree node, and when the counters they report
are what they did to the rows.
-/

namespace ISearch.TreeData

open TTree BufferProcess State

variable {K R : Type}

/-- The requests of `RawDataProcess` that write rows. -/
inductive RawRequest (R : Type) where
  | append (newRow : R) (byFirst isDirty duplicate : Bool)
  | update (compareRow : R → Bool) (updateRow : R → R) (async : Bool)
  | delete (compareRow : R → Bool)
  | replace (conflicts : R → Bool) (newRow : R) (async : Bool)

namespace RawRequest

def run (failAt : Option Nat) (rows : List (Row R)) : RawRequest R → DataRet × List (Row R)
  | append newRow byFirst isDirty duplicate =>
    BufferProcess.appendData rows newRow byFirst isDirty duplicate failAt
  | update compareRow updateRow async =>
    let (ret, rows, _) := BufferProcess.updateData compareRow updateRow async failAt rows
    (ret, rows)
  | delete compareRow => BufferProcess.deleteData compareRow failAt rows
  | replace conflicts newRow async => BufferProcess.replaceRows conflicts newRow async failAt rows

/-- `m_llRowsInc` and `m_llDirtyRowsInc` after the request. -/
def inc (failAt : Option Nat) (rows : List (Row R)) : RawRequest R → Inc
  | append _ _ isDirty duplicate => appendInc rows isDirty duplicate failAt
  | update compareRow _ async => updateInc compareRow async failAt rows
  | delete compareRow => deleteInc compareRow failAt rows
  | replace conflicts _ async => replaceInc conflicts async failAt rows

/-- A row that a synchronous request rewrites is not dirty, and a replacement meets one row at
most. -/
def Countable (rows : List (Row R)) : RawRequest R → Prop
  | append .. => True
  | update compareRow _ async =>
    async = true ∨ ∀ r ∈ rows, compareRow r.value = true → r.dirty = false
  | delete _ => True
  | replace conflicts _ async =>
    rows.countP (fun r => conflicts r.value) ≤ 1 ∧
      (async = true ∨ ∀ r ∈ rows, conflicts r.value = true → r.dirty = false)

theorem exact_inc_iff {failAt : Option Nat} {rows rows' : List (Row R)} {q : RawRequest R}
    (hrun : q.run failAt rows = (.ok, rows')) :
    (q.inc failAt rows).Exact rows rows' ↔ q.Countable rows := by
  cases q with
  | append newRow byFirst isDirty duplicate => exact iff_of_true (exact_appendInc hrun) trivial
  | update compareRow updateRow async =>
    rcases hu : BufferProcess.updateData compareRow updateRow async failAt rows with ⟨ret, rows₁, n⟩
    rw [run, hu] at hrun
    cases hrun
    exact exact_updateInc_iff hu
  | delete compareRow => exact iff_of_true (exact_deleteInc hrun) trivial
  | replace conflicts newRow async => exact exact_replaceInc_iff hrun

end RawRequest

/-- The requests of `TreeDataProcess` that write rows. -/
inductive TreeRequest [LinearOrder K] (T : Table K R) where
  | append (newRow : R) (isDirty duplicate : Bool)
  | update (task : Task T) (isAsc async : Bool)
  | delete (task : Task T) (isAsc : Bool)
  | replace (uniq : R → R → Bool) (indexUniq : Bool) (newRow : R) (async garbage : Bool)

namespace TreeRequest

variable [LinearOrder K] {T : Table K R} {env : Mallocator} {st st' : State K R}

def run (env : Mallocator) (purged : Bool) (st : State K R) :
    TreeRequest T → Option (Int × State K R × Inc)
  | append newRow isDirty duplicate => appendData T env newRow isDirty duplicate purged st
  | update task isAsc async => updateData env task isAsc async purged st
  | delete task isAsc => deleteData task isAsc st
  | replace uniq indexUniq newRow async garbage =>
    replaceRows T env uniq indexUniq newRow async garbage purged st

/-- The member counters are zero where the node is empty, a synchronous update rewrites no dirty row
in place, and a replacement finds the flag it counts with: the uninitialised one where no row moves
to another index value, and that of the last update where one does. -/
def Countable (st : State K R) : TreeRequest T → Prop
  | append .. => True
  | update task _ async =>
    if st.data.nodeCnts = 0 then st.dirtyRowsInc = 0
    else async = true ∨ ∀ r ∈ st.rows, task.Reaches st (T.index r.value) →
      task.compareRow r.value = true → T.index (task.updateRow r.value) = T.index r.value →
        r.dirty = false
  | delete .. => st.data.nodeCnts = 0 → st.rowsInc = 0 ∧ st.dirtyRowsInc = 0
  | replace uniq indexUniq newRow async garbage =>
    match conflictRow T uniq indexUniq newRow st with
    | none => garbage = async
    | some row =>
      if T.index newRow = T.index row.value then
        bit async - bit garbage = bit (st.async || row.dirty) - bit row.dirty
      else st.async = async

theorem pending_false_iff {task : Task T} {async : Bool} {row : Row R} :
    pending task async row = false ↔ (async = true ∨ (task.compareRow row.value = true →
      T.index (task.updateRow row.value) = T.index row.value → row.dirty = false)) := by
  rw [pending]
  cases async <;> cases task.compareRow row.value <;> cases row.dirty <;> simp

omit [LinearOrder K] in
theorem mem_rows {r : Row R} : r ∈ st.rows ↔ ∃ h ∈ st.handles, r ∈ (st.mem h).rows :=
  List.mem_flatMap

theorem forall_pending_iff (H : T.Orders) (hinv : st.Inv T) {task : Task T} {isAsc async : Bool} :
    (∀ h ∈ matchIndexCondition st task isAsc, ∀ r ∈ (st.mem h).rows,
        pending task async r = false) ↔
      (async = true ∨ ∀ r ∈ st.rows, task.Reaches st (T.index r.value) →
        task.compareRow r.value = true → T.index (task.updateRow r.value) = T.index r.value →
          r.dirty = false) := by
  simp only [pending_false_iff]
  constructor
  · intro hall
    refine or_iff_not_imp_left.mpr fun hasync r hr hreach => ?_
    obtain ⟨h, hh, hr⟩ := mem_rows.mp hr
    rw [hinv.index h hh r hr, ← mem_matchIndexCondition_iff H hinv hh isAsc] at hreach
    exact (hall h hreach r hr).resolve_left hasync
  · intro hall h hmem r hr
    have hh := mem_handles_of_mem_matchIndexCondition H hinv hmem
    refine hall.imp_right fun hall => hall r (mem_rows.mpr ⟨h, hh, hr⟩) ?_
    rw [hinv.index h hh r hr, ← mem_matchIndexCondition_iff H hinv hh isAsc]
    exact hmem

theorem exact_inc_iff (H : T.Orders) (hok : env.Unlimited) (hinv : st.Inv T) (hfull : st.Full)
    {purged : Bool} {inc : Inc} {q : TreeRequest T}
    (hrun : q.run env purged st = some (0, st', inc)) :
    inc.Exact st.rows st'.rows ↔ q.Countable st := by
  cases q with
  | append newRow isDirty duplicate => exact iff_of_true (exact_appendData H hok hinv hrun) trivial
  | update task isAsc async =>
    rw [exact_updateData_iff H hok hinv hfull hrun, Countable]
    split_ifs with hcnts
    · rfl
    · exact forall_pending_iff H hinv
  | delete task isAsc => exact exact_deleteData_iff H hinv hfull hrun
  | replace uniq indexUniq newRow async garbage =>
    exact exact_replaceRows_iff H hok hinv hrun

end TreeRequest

section Engines

variable [LinearOrder K] {T : Table K R} {env : Mallocator}

/-- The counters of the requests that succeed. -/
theorem inc_exact_iff_countable (H : T.Orders) (hok : env.Unlimited) :
    (∀ (q : RawRequest R) (failAt : Option Nat) (rows rows' : List (Row R)),
      q.run failAt rows = (.ok, rows') →
        ((q.inc failAt rows).Exact rows rows' ↔ q.Countable rows)) ∧
    ∀ (q : TreeRequest T) (purged : Bool) (st st' : State K R) (inc : Inc), st.Inv T → st.Full →
      q.run env purged st = some (0, st', inc) →
        (inc.Exact st.rows st'.rows ↔ q.Countable st) :=
  ⟨fun _ _ _ _ hrun => RawRequest.exact_inc_iff hrun, fun _ _ _ _ _ hinv hfull hrun =>
    TreeRequest.exact_inc_iff H hok hinv hfull hrun⟩

/-- One of two rows is deleted. -/
theorem exact_delete_nonzero : ∃ st st' inc, run plainMallocator
      [Op.insertRow (T := natTable) (3, 0) true, .insertRow (4, 7) true] emptyNode = some st ∧
    (TreeRequest.delete nonzeroTask true).run plainMallocator false st = some (0, st', inc) ∧
      inc = ⟨-1, -1⟩ ∧ inc.Exact st.rows st'.rows := by
  have hrun : run plainMallocator [Op.insertRow (T := natTable) (3, 0) true, .insertRow (4, 7) true]
      emptyNode = some _ := rfl
  obtain ⟨hinv, hfull, -⟩ := run_accounted natTable_orders plainMallocator_unlimited
    (S := False) (State.inv_init _ _ _ _ _) (State.full_init _ _ _ _)
    (accounted_init natTable _ _ 0 0 false) False.elim hrun
  refine ⟨_, _, _, hrun, rfl, rfl, ?_⟩
  exact ((inc_exact_iff_countable natTable_orders plainMallocator_unlimited).2 (.delete nonzeroTask
    true) false _ _ _ hinv hfull rfl).mpr fun h => absurd h (by decide)

/-- A raw replacement that meets two rows deletes one and reports no change; a synchronous update
reports a dirty row less although the row stays dirty; and so does a tree replacement that meets no
row, when the uninitialised flag says so. -/
theorem not_exact_inc :
    (∃ rows', (RawRequest.replace (fun _ => true) 5 false).run none [⟨1, false⟩, ⟨2, false⟩] =
        (.ok, rows') ∧
      ¬((RawRequest.replace (fun _ => true) 5 false).inc none
        [⟨1, false⟩, ⟨2, false⟩]).Exact [⟨1, false⟩, ⟨2, false⟩] rows') ∧
    (∃ rows', (RawRequest.update (fun _ => true) id false).run none [⟨1, true⟩] = (.ok, rows') ∧
      ¬((RawRequest.update (fun _ => true) id false).inc none [⟨1, true⟩]).Exact [⟨1, true⟩]
        rows') ∧
    ∃ st' inc, (TreeRequest.replace (T := natTable) (fun _ _ => true) false (3, 7) false true).run
        plainMallocator false emptyNode = some (0, st', inc) ∧
      ¬inc.Exact emptyNode.rows st'.rows := by
  refine ⟨⟨_, rfl, fun h => ?_⟩, ⟨_, rfl, fun h => ?_⟩, ⟨_, _, rfl, fun h => ?_⟩⟩
  · exact absurd h.rows (by decide)
  · exact absurd h.dirtyRows (by decide)
  · exact absurd h.dirtyRows (by decide)

end Engines

end ISearch.TreeData
