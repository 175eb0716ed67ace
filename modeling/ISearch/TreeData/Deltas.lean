import ISearch.TreeData.Process
import ISearch.TreeData.Delete

/-!
# When the counters of a request are exact

The counters of a request to a tree node are compared with the rows before and after it. A row that
moves to another record is counted right; a dirty row that a synchronous update rewrites in place is
counted off although it stays dirty.
-/

namespace ISearch.TreeData

open TTree BufferProcess State Option

variable {K R : Type} [LinearOrder K] {T : Table K R} {env : Mallocator} {st st' : State K R}

omit [LinearOrder K] in
theorem RowsChange.length {old new : List (Row R)} (h : RowsChange st st' old new) :
    (st'.rows.length : Int) = st.rows.length - old.length + new.length := by
  obtain ⟨a, b, hst, hst'⟩ := h
  rw [hst, hst']
  simp only [List.length_append]
  push_cast
  omega

omit [LinearOrder K] in
theorem RowsChange.dirtyCount {old new : List (Row R)} (h : RowsChange st st' old new) :
    (dirtyCount st'.rows : Int) = dirtyCount st.rows - dirtyCount old + dirtyCount new := by
  obtain ⟨a, b, hst, hst'⟩ := h
  rw [hst, hst']
  simp only [dirtyCount_append]
  omega

theorem dirtyCount_singleton (r : Row R) : (dirtyCount [r] : Int) = bit r.dirty := by
  rw [dirtyCount_cons]
  simp

omit [LinearOrder K] in
theorem retry_of_ok {A : Type} {purged : Bool} {op : State K R → Option (Int × A × State K R)}
    {a : A} (h : op st = some (0, a, st')) : retry purged op st = some (0, a, st') := by
  simp only [retry, h, bind_eq_bind, bind_some]
  rw [if_neg fun hc => absurd hc.1 (by decide)]
  rfl

theorem exact_appendData (H : T.Orders) (hok : env.Unlimited) (hinv : st.Inv T) {newRow : R}
    {isDirty duplicate purged : Bool} {inc : Inc}
    (hrun : appendData T env newRow isDirty duplicate purged st = some (0, st', inc)) :
    inc.Exact st.rows st'.rows := by
  obtain ⟨st₁, heq, hins⟩ := insertRow_spec H hok hinv newRow isDirty
  have hretry : retry purged (withUnit (insertRow T env newRow isDirty)) st = some (0, (), st₁) :=
    retry_of_ok (by rw [withUnit, heq]; rfl)
  rw [appendData] at hrun
  split_ifs at hrun with hdup
  · cases hrun
  · simp only [hretry, bind_eq_bind, bind_some, ne_eq, not_true_eq_false,
      if_false] at hrun
    cases hrun
    have hchange := hins.rowsChange hinv
    refine ⟨?_, ?_⟩
    · rw [hchange.length]
      simp
    · rw [hchange.dirtyCount, dirtyCount_singleton]
      simp

/-! ## Deletion -/

/-- What the counters of a deletion leave unchanged. -/
structure Balanced (rows dirty : Int) (st : State K R) : Prop where
  rows : (st.rows.length : Int) - st.rowsInc = rows
  dirty : (dirtyCount st.rows : Int) - st.dirtyRowsInc = dirty

theorem deleteRule_balanced {content : Handle} {rows dirty : Int} :
    DeleteRule T content (Balanced rows dirty) := by
  intro st st' pos row hinv hcontent hrow hdel hbal
  have hchange := hdel.rowsChange hinv hcontent hrow
  have hlength := hchange.length
  have hdirty := hchange.dirtyCount
  rw [dirtyCount_singleton] at hdirty
  refine ⟨?_, ?_⟩
  · change (st'.rows.length : Int) - (st'.rowsInc - 1) = rows
    rw [hlength, hdel.members.rowsInc, ← hbal.rows]
    simp
  · change (dirtyCount st'.rows : Int) - (st'.dirtyRowsInc - bit row.dirty) = dirty
    rw [hdirty, hdel.members.dirtyRowsInc, ← hbal.dirty]
    simp

theorem UpdateEnd.rows {v : UpdateVars R} (hend : UpdateEnd v st st') :
    st'.rows = st.rows ∧ st'.rowsInc = st.rowsInc ∧ st'.dirtyRowsInc = st.dirtyRowsInc := by
  cases hend with
  | kept hrows => exact ⟨rfl, rfl, rfl⟩
  | dropped st' hrows hdrops hRoot hcnts hrowCnt hraw hsized hmembers =>
    obtain ⟨a, b, hst, hst'⟩ := hdrops.rowsChange
    rw [hrows] at hst
    exact ⟨hst'.trans hst.symm, hmembers.rowsInc, hmembers.dirtyRowsInc⟩

theorem deleteSubRawData_balanced (H : T.Orders) {task : Task T} {rows dirty : Int} {h : Handle}
    {iRet : Int} (hp : st.Inv T ∧ st.Full ∧ Balanced rows dirty st)
    (hrun : deleteSubRawData task h st = some (iRet, st')) :
    iRet = 0 ∧ st'.Inv T ∧ st'.Full ∧ Balanced rows dirty st' := by
  obtain ⟨hret, hinv', hfull', -, -, st₁, -, -, -, hbal, hend⟩ :=
    deleteSubRawData_rule H hp.1 hp.2.1 deleteRule_balanced hp.2.2 hrun
  obtain ⟨hrows, hinc, hdirty⟩ := hend.rows
  refine ⟨hret, hinv', hfull', ?_, ?_⟩
  · rw [hrows, hinc]
    exact hbal.rows
  · rw [hrows, hdirty]
    exact hbal.dirty

theorem exact_deleteData_iff (H : T.Orders) (hinv : st.Inv T) (hfull : st.Full) {task : Task T}
    {isAsc : Bool} {inc : Inc} (hrun : deleteData task isAsc st = some (0, st', inc)) :
    inc.Exact st.rows st'.rows ↔
      (st.data.nodeCnts = 0 → st.rowsInc = 0 ∧ st.dirtyRowsInc = 0) := by
  rw [deleteData, deleteTreeData] at hrun
  by_cases hcnts : st.data.nodeCnts = 0
  · simp only [if_pos hcnts, bind_eq_bind, bind_some, ne_eq, not_true_eq_false,
      if_false] at hrun
    cases hrun
    rw [Inc.exact_mk, sub_self, sub_self]
    exact ⟨fun h _ => h, fun h => h hcnts⟩
  · rw [if_neg hcnts] at hrun
    dsimp only at hrun
    refine iff_of_true ?_ fun h => absurd h hcnts
    have hstart : Balanced st.rows.length (dirtyCount st.rows)
        ({ st with rowsInc := 0, dirtyRowsInc := 0 } : State K R) :=
      ⟨sub_zero _, sub_zero _⟩
    have hend : ∀ {st₁ : State K R}, Balanced st.rows.length (dirtyCount st.rows) st₁ →
        (⟨st₁.rowsInc, st₁.dirtyRowsInc⟩ : Inc).Exact st.rows st₁.rows := by
      intro st₁ hbal
      have h1 := hbal.rows
      have h2 := hbal.dirty
      rw [Inc.exact_mk]
      omega
    split_ifs at hrun with hall
    · simp only [bind_eq_bind, bind_some, ne_eq, not_true_eq_false,
        if_false] at hrun
      cases hrun
      exact hend hstart
    · cases hloop : forEach (deleteSubRawData task)
          (matchIndexCondition ({ st with rowsInc := 0, dirtyRowsInc := 0 } : State K R) task isAsc)
          ({ st with rowsInc := 0, dirtyRowsInc := 0 } : State K R) with
      | none =>
        rw [hloop] at hrun
        cases hrun
      | some res =>
        obtain ⟨iRet, st₁⟩ := res
        have hkeep : State.Inv T { st with rowsInc := 0, dirtyRowsInc := 0 } ∧
            State.Full { st with rowsInc := 0, dirtyRowsInc := 0 } ∧
            Balanced st.rows.length (dirtyCount st.rows)
              ({ st with rowsInc := 0, dirtyRowsInc := 0 } : State K R) :=
          ⟨hinv.congr rfl rfl rfl rfl, hfull, hstart⟩
        obtain ⟨rfl, -, -, hbal⟩ := forEach_rule
          (P := fun _ st₁ => st₁.Inv T ∧ st₁.Full ∧
            Balanced st.rows.length (dirtyCount st.rows) st₁)
          (fun h hs st₁ iRet st₂ hp hproc => deleteSubRawData_balanced H hp hproc)
          hkeep hloop
        simp only [hloop, bind_eq_bind, bind_some, ne_eq, not_true_eq_false,
          if_false] at hrun
        cases hrun
        exact hend hbal

end ISearch.TreeData
