import ISearch.TreeData.Bookkeeping
import ISearch.Protocol.ResultPacket

/-!
# What a deletion does and reports in the two engines

`delete_data` of a tree node and of a raw node, with the affected rows and with the result that the
tree engine prepares. A tree node without a condition that asks for no field, or for rows behind the
last record, has its records counted as the result and stays as it is.
-/

namespace ISearch.Protocol.ResultPacket

open Function

/-- `ResultPacket::Set`. -/
def set (w : ResultPacket) (fs : List Nat) (st cnt : UInt32) : ResultPacket :=
  let st := if cnt = 0 then 0 else st
  { w with
    fieldSet := fs
    limitStart := st
    limitNext := st + cnt
    bc := w.bc.take 5 ++ fieldBytes fs
    rowDataBegin := 5 + 1 + fs.length }

def inRange (w : ResultPacket) (total start : UInt32) : Bool :=
  w.limitNext = 0 ∨ ¬(total ≤ w.limitStart ∨ start ≥ w.limitNext)

def addTotalRows (w : ResultPacket) (n : UInt32) : ResultPacket :=
  { w with totalRows := w.totalRows + n }

end ISearch.Protocol.ResultPacket

namespace ISearch.TreeData

open TTree BufferProcess State Protocol

variable {K R : Type}

/-! ## Replies -/

/-- `affected_rows`, `resultWriter` and `resultWriterReseted` of a task. -/
structure Reply where
  affectedRows : Nat
  resultWriter : Option ResultPacket
  resultWriterReseted : Bool

namespace Reply

def prepareResult (fs : List Nat) (st cnt : UInt32) (reply : Reply) : Reply :=
  match reply.resultWriter with
  | some w =>
    if reply.resultWriterReseted then reply
    else ⟨reply.affectedRows, some (w.set fs st cnt), true⟩
  | none => ⟨reply.affectedRows, some (.new fs st cnt), true⟩

/-- A call of a writer that is there. -/
def onWriter (f : ResultPacket → ResultPacket) (reply : Reply) : Reply :=
  { reply with resultWriter := reply.resultWriter.map f }

/-- `set_total_rows` of a task with a writer. -/
def setTotalRows (nr : UInt32) : Reply → Reply := onWriter fun w => (w.setRows nr).getD w

/-- The end of both `delete_data`; `timestamp` is `has_type_timestamp` of the condition. -/
def countAffected (timestamp : Bool) (iAffectRows : UInt32) (reply : Reply) : Reply :=
  if iAffectRows.toInt32 > 0 ∧ (reply.affectedRows = 0 ∨ timestamp) then
    { reply with affectedRows := iAffectRows.toNat }
  else reply

/-- The rows that the result has and counts. -/
def resultRows (reply : Reply) : UInt32 × UInt32 :=
  (reply.resultWriter.map fun w => (w.totalRows, w.numRows)).getD (0, 0)

end Reply

section Requests

variable [LinearOrder K] {T : Table K R}

/-- A request to delete, with what it takes to reply. -/
structure DeleteRequest (T : Table K R) where
  task : Task T
  fieldList : Option (List Nat)
  countOnly_eq : task.countOnly = fieldList.isNone
  isBatch : Bool
  timestamp : Bool

namespace DeleteRequest

/-- `prepare_result` for the limit of the request. -/
def prepare (q : DeleteRequest T) (reply : Reply) : Reply :=
  reply.prepareResult (q.fieldList.getD []) q.task.limitStart q.task.limitCount

/-- The records are counted as the result. -/
def countsRecords (q : DeleteRequest T) (reply : Reply) (st : State K R) : Bool :=
  q.task.allRows && (q.task.countOnly ||
    (q.prepare reply).resultWriter.all fun w => !w.inRange st.data.nodeCnts 0)

def deleteTreeData (q : DeleteRequest T) (isAsc : Bool) (reply : Reply) (st : State K R) :
    Option (Int × Reply × State K R) :=
  let rowCnt := st.data.nodeCnts
  if rowCnt = 0 then some (0, reply, st)
  else
    let st := { st with rowsInc := 0, dirtyRowsInc := 0 }
    let reply' := q.prepare reply
    if q.countsRecords reply st then
      if q.isBatch then
        some (0, if rowCnt.toInt32 > 0 then reply'.onWriter (·.addTotalRows rowCnt) else reply', st)
      else some (0, reply'.setTotalRows rowCnt, st)
    else
      (forEach (deleteSubRawData q.task) (matchIndexCondition st q.task isAsc) st).map
        fun (iRet, st) => (iRet, reply', st)

/-- `TreeDataProcess::delete_data`. -/
def deleteData (q : DeleteRequest T) (isAsc : Bool) (reply : Reply) (st : State K R) :
    Option (Int × Reply × State K R) := do
  let start := st.data.rowCnt
  let (iRet, reply, st) ← q.deleteTreeData isAsc reply st
  if iRet ≠ 0 then return (iRet, reply, st)
  return (0, reply.countAffected q.timestamp (start - st.data.rowCnt), st)

/-- The loop of `RawDataProcess::delete_data`: `iAffectRows`, and the rows. -/
def rawDeleteRows (compareRow : R → Bool) : List (Row R) → UInt32 × List (Row R)
  | [] => (0, [])
  | r :: rows =>
    let (iAffectRows, rows) := rawDeleteRows compareRow rows
    if compareRow r.value = false then (iAffectRows, r :: rows) else (iAffectRows + 1, rows)

/-- `RawDataProcess::delete_data`, on a node whose rows can be decoded. -/
def rawDeleteData (q : DeleteRequest T) (reply : Reply) (rows : List (Row R)) :
    Reply × List (Row R) :=
  let (iAffectRows, rows) := rawDeleteRows q.task.compareRow rows
  (reply.countAffected q.timestamp iAffectRows, rows)

/-- The tree node loses the rows that match, as a raw node with the same rows does; the affected
rows are the same, and the result has the rows that it had. -/
def DeletesAlike (q : DeleteRequest T) (isAsc : Bool) (reply : Reply) (st : State K R) : Prop :=
  ∃ reply' st', q.deleteData isAsc reply st = some (0, reply', st') ∧
    st'.rows.Perm (st.rows.filter fun r => !q.task.compareRow r.value) ∧
    (∀ raw : List (Row R), raw.Perm st.rows →
      st'.rows.Perm (q.rawDeleteData reply raw).2 ∧
      reply'.affectedRows = (q.rawDeleteData reply raw).1.affectedRows) ∧
    reply'.resultRows = reply.resultRows

end DeleteRequest

theorem Reply.prepareResult_spec (fs : List Nat) (start cnt : UInt32) (reply : Reply) :
    (reply.prepareResult fs start cnt).affectedRows = reply.affectedRows ∧
      (reply.prepareResult fs start cnt).resultRows = reply.resultRows := by
  obtain ⟨affectedRows, _ | w, reseted⟩ := reply
  · exact ⟨rfl, rfl⟩
  · cases reseted <;> exact ⟨rfl, rfl⟩

theorem Reply.countAffected_congr {reply reply' : Reply} (timestamp : Bool) (n : UInt32)
    (h : reply.affectedRows = reply'.affectedRows) :
    (reply.countAffected timestamp n).affectedRows =
      (reply'.countAffected timestamp n).affectedRows := by
  rw [countAffected, countAffected, h]
  split <;> first | rfl | exact h

theorem Reply.resultRows_countAffected (reply : Reply) (timestamp : Bool) (n : UInt32) :
    (reply.countAffected timestamp n).resultRows = reply.resultRows := by
  rw [countAffected]
  split <;> rfl

theorem rawDeleteRows_eq (compareRow : R → Bool) (rows : List (Row R)) :
    DeleteRequest.rawDeleteRows compareRow rows =
      (.ofNat (rows.countP fun r => compareRow r.value),
        rows.filter fun r => !compareRow r.value) := by
  induction rows with
  | nil => rfl
  | cons r rows ih =>
    rw [DeleteRequest.rawDeleteRows, ih]
    cases hcmp : compareRow r.value with
    | false => simp [hcmp]
    | true => simp [hcmp, UInt32.ofNat_add]

/-! ## One record -/

variable {st st' : State K R} {task : Task T} {content : Handle}

omit [LinearOrder K] in
/-- The rows that are not yet read when a deletion reaches `pos` are those it may delete. -/
theorem deleteRows_rows {n pos iAffectRows affected : Nat} {curRow cur : Option R}
    (hleft : pos + n = (st.mem content).rows.length)
    (hrun : deleteRows task content n pos iAffectRows curRow st = some (affected, cur, st')) :
    st'.root = st.root ∧ (∀ g ≠ content, st'.mem g = st.mem g) ∧
      (st'.mem content).rows = (st.mem content).rows.take pos ++
        ((st.mem content).rows.drop pos).filter fun r => !task.compareRow r.value := by
  induction n generalizing pos iAffectRows curRow st with
  | zero =>
    cases hrun
    have hdrop : (st'.mem content).rows.drop pos = [] := List.drop_eq_nil_of_le (by omega)
    rw [hdrop, List.filter_nil, List.append_nil, List.take_of_length_le (by omega)]
    exact ⟨rfl, fun _ _ => rfl, rfl⟩
  | succ n ih =>
    have hlt : pos < (st.mem content).rows.length := by omega
    have hrow := List.getElem?_eq_getElem hlt
    have hdrop := List.drop_eq_getElem_cons hlt
    set row := (st.mem content).rows[pos] with hrowdef
    simp only [deleteRows, hrow] at hrun
    cases hcmp : task.compareRow row.value with
    | false =>
      rw [if_pos hcmp] at hrun
      obtain ⟨hroot, hmem, hrows⟩ := ih (by omega) hrun
      refine ⟨hroot, hmem, ?_⟩
      rw [hrows, hdrop, List.filter_cons_of_pos (by simp [hcmp]),
        List.take_succ_eq_append_getElem hlt,
        List.append_assoc]
      rfl
    | true =>
      rw [if_neg (by simp [hcmp])] at hrun
      simp only [deleteCurRow, hrow] at hrun
      set record := (st.mem content).setRows T ((st.mem content).rows.eraseIdx pos)
      have hself : (Function.update st.mem content record content).rows =
          (st.mem content).rows.eraseIdx pos := by
        rw [Function.update_self]
        rfl
      have hlen : ((st.mem content).rows.eraseIdx pos).length = (st.mem content).rows.length - 1 :=
        List.length_eraseIdx_of_lt hlt
      obtain ⟨hroot, hmem, hrows⟩ := ih (by
        change pos + n = (Function.update st.mem content record content).rows.length
        rw [hself, hlen]
        omega) hrun
      refine ⟨hroot, fun g hg => (hmem g hg).trans (Function.update_of_ne hg _ _), ?_⟩
      change (st'.mem content).rows =
        (Function.update st.mem content record content).rows.take pos ++
          ((Function.update st.mem content record content).rows.drop pos).filter _ at hrows
      rw [hrows, hself, List.eraseIdx_eq_take_drop_succ, hdrop,
        List.filter_cons_of_neg (by simp [hcmp]),
        List.take_append_of_le_length (by rw [List.length_take]; omega), List.take_take,
        Nat.min_self, List.drop_append_of_le_length (by rw [List.length_take]; omega),
        List.drop_eq_nil_of_le (by rw [List.length_take]; omega), List.nil_append]

/-- The records that are left, and that one row of a record has the record's index value. -/
theorem rows_of_filtered (hinv : st.Inv T) (hh : content ∈ st.handles) (p : Row R → Bool)
    (hroot : st'.root = st.root) (hmem : ∀ g ≠ content, st'.mem g = st.mem g)
    (hrows : (st'.mem content).rows = (st.mem content).rows.filter p) :
    st'.rows = st.rows.filter fun r => p r || !decide (T.index r.value = st.keyOf content) := by
  have hhandles : st'.handles = st.handles := congrArg TtreeNode.toList hroot
  rw [State.rows, State.rows, List.filter_flatMap, hhandles]
  refine List.flatMap_congr fun g hg => ?_
  by_cases hgc : g = content
  · subst hgc
    rw [hrows]
    refine List.filter_congr fun r hr => ?_
    rw [hinv.index _ hh r hr]
    simp
  · have hkey : st.keyOf g ≠ st.keyOf content := fun heq => hgc (hinv.sorted.eq_of_key_eq hg hh heq)
    rw [hmem g hgc]
    refine (List.filter_eq_self.mpr fun r hr => ?_).symm
    rw [hinv.index g hg r hr]
    simp [hkey]

/-- `delete_sub_raw_data` deletes the rows of the record that match, and the other records stay. -/
theorem deleteSubRawData_rows (H : T.Orders) (hinv : st.Inv T) (hfull : st.Full)
    (hb : Booked T st) (hh : content ∈ st.handles) :
    ∃ st', deleteSubRawData task content st = some (0, st') ∧ st'.Inv T ∧ st'.Full ∧ Booked T st' ∧
      (∀ g ∈ st.handles, g ≠ content → g ∈ st'.handles ∧ st'.keyOf g = st.keyOf g) ∧
      st'.rows = st.rows.filter fun r =>
        !task.compareRow r.value || !decide (T.index r.value = st.keyOf content) := by
  obtain ⟨st', heq, hinv', hfull', affected, cur, st₁, hloop, hinv₁, hmem₁, ha, hend⟩ :=
    @deleteSubRawData_spec _ _ _ _ st task content H hinv hfull hh _
      (Accounted.deleteRule (S := False)) ⟨hb, False.elim⟩
  obtain ⟨hroot, hother, hrows⟩ := deleteRows_rows (zero_add _) hloop
  rw [List.take_zero, List.nil_append, List.drop_zero] at hrows
  have hhandles : st₁.handles = st.handles := congrArg TtreeNode.toList hroot
  refine ⟨st', heq, hinv', hfull', ha.booked.ended hend, fun g hg hne => ?_, ?_⟩
  · have hkey : st₁.keyOf g = st.keyOf g := congrArg Record.key (hother g hne)
    cases hend with
    | kept => exact ⟨hhandles ▸ hg, hkey⟩
    | dropped _ _ hdrops =>
      refine ⟨((hdrops.spliced.mem_iff.mp (hhandles ▸ hg)).resolve_left hne), ?_⟩
      rw [← hkey, State.keyOf, hdrops.mem, State.keyOf]
  · rw [hend.rows.1]
    exact rows_of_filtered hinv hh _ hroot hother hrows

theorem forEach_delete_rows (H : T.Orders) {hs : List Handle} (hinv : st.Inv T) (hfull : st.Full)
    (hb : Booked T st) (hnodup : hs.Nodup) (hhs : ∀ h ∈ hs, h ∈ st.handles) :
    ∃ st', forEach (deleteSubRawData task) hs st = some (0, st') ∧ st'.Inv T ∧ Booked T st' ∧
      st'.rows = st.rows.filter fun r =>
        !task.compareRow r.value || !decide (T.index r.value ∈ hs.map st.keyOf) := by
  induction hs generalizing st with
  | nil => exact ⟨st, rfl, hinv, hb, by simp⟩
  | cons h hs ih =>
    obtain ⟨hnew, hnodup⟩ := List.nodup_cons.mp hnodup
    obtain ⟨st₁, heq, hinv₁, hfull₁, hb₁, hothers, hrows⟩ :=
      @deleteSubRawData_rows _ _ _ T st task h H hinv hfull hb (hhs h List.mem_cons_self)
    have hother (g : Handle) (hg : g ∈ hs) : g ∈ st₁.handles ∧ st₁.keyOf g = st.keyOf g :=
      hothers g (hhs g (List.mem_cons_of_mem h hg)) fun heq => hnew (heq ▸ hg)
    obtain ⟨st', heq', hinv', hb', hrows'⟩ := ih hinv₁ hfull₁ hb₁ hnodup fun g hg => (hother g hg).1
    have hkeys : hs.map st₁.keyOf = hs.map st.keyOf := List.map_congr_left fun g hg =>
      (hother g hg).2
    refine ⟨st', ?_, hinv', hb', ?_⟩
    · simp only [forEach, heq, Option.bind_eq_bind, Option.bind_some, ne_eq, not_true_eq_false,
        if_false, heq']
    · rw [hrows', hkeys, hrows, List.filter_filter]
      refine List.filter_congr fun r _ => ?_
      cases hcmp : task.compareRow r.value <;>
        simp [List.mem_cons, Bool.and_comm]

/-! ## Both engines -/

namespace DeleteRequest

variable {q : DeleteRequest T} {isAsc : Bool} {reply reply₁ reply' : Reply}

omit [LinearOrder K] in
/-- Where the tree node is booked, both engines reply alike if they delete alike. -/
theorem deletesAlike_iff_perm (hb : Booked T st) (hb' : Booked T st')
    (hout : q.deleteData isAsc reply st =
      some (0, reply₁.countAffected q.timestamp (st.data.rowCnt - st'.data.rowCnt), st'))
    (haffected : reply₁.affectedRows = reply.affectedRows)
    (hresult : reply₁.resultRows = reply.resultRows) :
    q.DeletesAlike isAsc reply st ↔
      st'.rows.Perm (st.rows.filter fun r => !q.task.compareRow r.value) := by
  refine ⟨fun ⟨_, _, hrun, hperm, _⟩ => ?_, fun hperm => ⟨_, _, hout, hperm, ?_, ?_⟩⟩
  · rw [hout] at hrun
    cases hrun
    exact hperm
  · intro raw hraw
    rw [rawDeleteData, rawDeleteRows_eq]
    refine ⟨hperm.trans (hraw.filter _).symm, ?_⟩
    have hcount : st.data.rowCnt - st'.data.rowCnt =
        .ofNat (raw.countP fun r => q.task.compareRow r.value) := by
      have hlen := hperm.length_eq
      rw [← List.countP_eq_length_filter] at hlen
      have hsplit := st.rows.length_eq_countP_add_countP fun r => q.task.compareRow r.value
      simp only [Bool.not_eq_true, Bool.decide_eq_false] at hsplit
      have hsub := ofNat_eq_of_add_eq (a := st'.rows.length) (b := 0) hb.rowCnt
        (show raw.countP (fun r => q.task.compareRow r.value) + _ = _ by
          rw [hraw.countP_eq, hlen, hsplit, add_zero])
      rw [← hsub, hb'.rowCnt]
      exact (UInt32.add_zero _).symm
    rw [hcount]
    exact Reply.countAffected_congr _ _ haffected
  · rw [Reply.resultRows_countAffected]
    exact hresult

/-- The rows that a deletion removes are those of the records it visits. -/
theorem perm_filter_iff (H : T.Orders) (hinv : st.Inv T) (task : Task T) (isAsc : Bool) :
    (st.rows.filter fun r => !task.compareRow r.value ||
        !decide (T.index r.value ∈ (matchIndexCondition st task isAsc).map st.keyOf)).Perm
      (st.rows.filter fun r => !task.compareRow r.value) ↔
    ∀ r ∈ st.rows, task.compareRow r.value = true → task.Reaches st (T.index r.value) := by
  have hvisited (r : Row R) (hr : r ∈ st.rows) :
      T.index r.value ∈ (matchIndexCondition st task isAsc).map st.keyOf ↔
        task.Reaches st (T.index r.value) := by
    obtain ⟨h, hh, hrh⟩ := List.mem_flatMap.mp hr
    rw [hinv.index h hh r hrh, ← mem_matchIndexCondition_iff H hinv hh isAsc, List.mem_map]
    refine ⟨fun ⟨g, hg, hkey⟩ => ?_, fun hmem => ⟨h, hmem, rfl⟩⟩
    exact hinv.sorted.eq_of_key_eq (mem_handles_of_mem_matchIndexCondition H hinv hg) hh hkey ▸ hg
  constructor
  · intro hperm r hr hcmp
    rw [← hvisited r hr]
    by_contra hnot
    have hmem : r ∈ st.rows.filter fun r => !task.compareRow r.value :=
      hperm.subset (List.mem_filter.mpr ⟨hr, by rw [decide_eq_false hnot]; simp⟩)
    simp [hcmp] at hmem
  · intro hall
    refine .of_eq (List.filter_congr fun r hr => ?_)
    cases hcmp : task.compareRow r.value with
    | false => simp
    | true => simpa using (hvisited r hr).mpr (hall r hr hcmp)

/-- The engines delete alike where every row that matches is in a record that the tree visits, and
the records are not counted instead. -/
theorem deletesAlike_iff (H : T.Orders) (hinv : st.Inv T) (hfull : st.Full) (hb : Booked T st)
    (q : DeleteRequest T) (isAsc : Bool) (reply : Reply) :
    q.DeletesAlike isAsc reply st ↔
      if st.data.nodeCnts = 0 then ∀ r ∈ st.rows, q.task.compareRow r.value = false
      else q.countsRecords reply st = false ∧
        ∀ r ∈ st.rows, q.task.compareRow r.value = true →
          q.task.Reaches st (T.index r.value) := by
  by_cases hcnts : st.data.nodeCnts = 0
  · have hout : q.deleteData isAsc reply st =
        some (0, reply.countAffected q.timestamp (st.data.rowCnt - st.data.rowCnt), st) := by
      simp [deleteData, deleteTreeData, hcnts]
    rw [if_pos hcnts, deletesAlike_iff_perm hb hb hout rfl rfl]
    refine ⟨fun hperm r hr => ?_, fun hall => ?_⟩
    · simpa using (List.mem_filter.mp (hperm.subset hr)).2
    · exact .of_eq (List.filter_eq_self.mpr fun r hr => by simp [hall r hr]).symm
  rw [if_neg hcnts]
  let st₀ : State K R := { st with rowsInc := 0, dirtyRowsInc := 0 }
  have hinv₀ : st₀.Inv T := hinv.congr rfl rfl rfl rfl
  have hb₀ : Booked T st₀ := ⟨hb.rowCnt, hb.nodeCnts, hb.totalRawSize, hb.hRoot⟩
  cases hcount : q.countsRecords reply st with
  | true =>
    refine iff_of_false (fun ⟨_, st', hrun, hperm, _⟩ => ?_) nofun
    -- there are rows, all of them match, and all of them are left
    obtain ⟨h, hh⟩ : ∃ h, h ∈ st.handles := List.exists_mem_of_ne_nil _ fun hnil =>
      hcnts (by rw [hb.nodeCnts, hnil]; rfl)
    obtain ⟨r, hr⟩ := List.exists_mem_of_ne_nil _ (hfull h hh)
    have hmatch : q.task.compareRow r.value = true := by
      have hempty : q.task.condition = [] := by
        simpa [Task.allRows] using (Bool.and_eq_true_iff.mp hcount).1
      rw [Task.compareRow, hempty]
      rfl
    have hrows : st'.rows = st.rows := by
      have hcount₀ : q.countsRecords reply { st with rowsInc := 0, dirtyRowsInc := 0 } = true :=
        hcount
      simp only [deleteData, deleteTreeData, if_neg hcnts, if_pos hcount₀] at hrun
      split at hrun <;> cases hrun <;> rfl
    have hmem : r ∈ st'.rows := hrows ▸ List.mem_flatMap.mpr ⟨h, hh, hr⟩
    simpa [hmatch] using (List.mem_filter.mp (hperm.subset hmem)).2
  | false =>
    obtain ⟨st', heq, hinv', hb', hrows⟩ := @forEach_delete_rows _ _ _ T st₀ q.task H
      (matchIndexCondition st₀ q.task isAsc) hinv₀ hfull hb₀
      (nodup_matchIndexCondition H hinv₀ q.task isAsc)
      fun h hh => mem_handles_of_mem_matchIndexCondition H hinv₀ hh
    have hcount₀ : q.countsRecords reply st₀ = false := hcount
    have hout : q.deleteData isAsc reply st = some (0,
        (q.prepare reply).countAffected q.timestamp (st.data.rowCnt - st'.data.rowCnt), st') := by
      simp only [deleteData, deleteTreeData, if_neg hcnts]
      simp only [st₀] at heq hcount₀
      simp [hcount₀, heq]
    obtain ⟨haffected, hresult⟩ := reply.prepareResult_spec (q.fieldList.getD [])
      q.task.limitStart q.task.limitCount
    rw [deletesAlike_iff_perm hb hb' hout haffected hresult, hrows]
    exact (perm_filter_iff H hinv₀ q.task isAsc).trans (by simp; rfl)

end DeleteRequest

end Requests

/-- A request for no field, as a client deletes. -/
def countingRequest (task : Task natTable) (h : task.countOnly = true) : DeleteRequest natTable :=
  ⟨task, none, h, false, false⟩

/-- Up to the index value 2. -/
def upToTwo : Task natTable where
  condition := [.index ⟨.le, 2, fun row => row.1 ≤ 2⟩]
  countOnly := true
  limitStart := 0
  limitCount := 0
  updateRow := id

/-- Rows with the index values 1, 2 and 2. -/
def threeRows : Option (State Nat (Nat × Nat)) :=
  run plainMallocator [Op.insertRow (T := natTable) (1, 7) false, .insertRow (2, 8) false,
    .insertRow (2, 9) false] emptyNode

/-- By another column, all rows are visited. -/
theorem deletesAlike_threeRows : ∃ st, threeRows = some st ∧
    (countingRequest { upToTwo with condition := [.other fun row => row.2 ≠ 7] } rfl).DeletesAlike
      true ⟨0, none, false⟩ st := by
  obtain ⟨st, hst⟩ : ∃ st, threeRows = some st := ⟨_, rfl⟩
  have hcnts : threeRows.map (fun st => st.data.nodeCnts) = some 2 := by decide
  rw [hst] at hcnts
  obtain ⟨hinv, hfull, ha⟩ := run_accounted natTable_orders plainMallocator_unlimited
    (S := False) (State.inv_init _ _ _ _ _) (State.full_init _ _ _ _)
    (accounted_init natTable _ _ 0 0 false) False.elim hst
  refine ⟨st, hst,
    (DeleteRequest.deletesAlike_iff natTable_orders hinv hfull ha.booked _ true _).mpr ?_⟩
  rw [if_neg (by simp [Option.some.inj hcnts])]
  exact ⟨rfl, fun _ _ _ hall => nomatch hall⟩

/-- There are two records, and two rows in the one that is visited first: the row with the index
value 1 stays. -/
theorem not_deletesAlike_upToTwo : ∃ st, threeRows = some st ∧
    ¬(countingRequest upToTwo rfl).DeletesAlike true ⟨0, none, false⟩ st := by
  obtain ⟨st, hst⟩ : ∃ st, threeRows = some st := ⟨_, rfl⟩
  refine ⟨st, hst, fun ⟨reply', st', hrun, hperm, _⟩ => ?_⟩
  have hleft : (threeRows.bind fun st => ((countingRequest upToTwo rfl).deleteData true
      ⟨0, none, false⟩ st).map fun out => out.2.2.rows.length) = some 1 := by decide
  have hmatch : (threeRows.map fun st =>
      (st.rows.filter fun r => !upToTwo.compareRow r.value).length) = some 0 := by decide
  rw [hst, Option.bind_some, hrun] at hleft
  rw [hst] at hmatch
  have hone : st'.rows.length = 1 := Option.some.inj hleft
  have hzero : st'.rows.length = 0 := hperm.length_eq.trans (Option.some.inj hmatch)
  omega

end ISearch.TreeData
