import ISearch.TreeData.Primitives

/-!
# The loops of an update (`TreeData::update_sub_raw_data`)

A row that matches is moved to the record of its new index value or replaced in place
(`UpdateStep`). `Looping` is what the loop over the rows of one record keeps, and the rules below
carry a property of the caller along the loop and along the records of a request. An update returns
unless it meets a dead handle.
-/

namespace ISearch.TreeData

open TTree BufferProcess State List

variable {K R : Type} [LinearOrder K] {T : Table K R} {env : Mallocator} {st st' : State K R}
  {task : Task T} {hRecord : Handle} {v v' : UpdateVars R} {row : Row R} {k : K} {total n : Nat}

/-- One matching row is updated. -/
inductive UpdateStep (env : Mallocator) (task : Task T) (v : UpdateVars R) (row : Row R)
  (st : State K R) :
    UpdateVars R → State K R → Prop
  | moved (st₁ st₂ : State K R)
      (hne : T.index (task.updateRow row.value) ≠ st.keyOf v.content)
      (hins : Inserted env T (task.updateRow row.value) st.async st st₁)
      (hdel : RowDeleted T v.content v.pos row st₁ st₂) :
      UpdateStep env task v row st { v with iInsert := v.iInsert + 1, iDelete := v.iDelete + 1 }
        (st₂.countUpdate row.dirty)
  | replaced (h' : Handle) (st₁ : State K R)
      (heq : T.index (task.updateRow row.value) = st.keyOf v.content)
      (hrep : RowReplaced env T v.content h' v.pos row
        (row.replace (task.updateRow row.value) st.async) st st₁) :
      UpdateStep env task v row st { v with pos := v.pos + 1, content := h' }
        (st₁.countUpdate row.dirty)

theorem State.Inv.countUpdate (hinv : st.Inv T) (dirty : Bool) : (st.countUpdate dirty).Inv T :=
  ⟨hinv.shape, hinv.sorted, hinv.live_iff, hinv.lt_calls, hinv.index, hinv.fits⟩

theorem updateMatched_spec (H : T.Orders) (hok : env.Unlimited) (hinv : st.Inv T)
    (hcontent : v.content ∈ st.handles) (hsame : st.live hRecord = true → v.content = hRecord)
    (hrow : (st.mem v.content).rows[v.pos]? = some row) :
    st.live hRecord = false ∧ updateMatched env task hRecord v row st = none ∨
      v.content = hRecord ∧ ∃ v' st', updateMatched env task hRecord v row st = some (.ok v', st') ∧
        UpdateStep env task v row st v' st' := by
  have hindex : T.index row.value = st.keyOf v.content :=
    hinv.index _ hcontent row (mem_of_getElem? hrow)
  have hfind : st.find T (T.index row.value) = some v.content :=
    (hinv.find_eq_some H).mpr ⟨hcontent, hindex.symm⟩
  simp only [updateMatched, hfind]
  cases hlive : st.live hRecord with
  | false => exact .inl ⟨rfl, if_pos rfl⟩
  | true =>
    rw [if_neg (by decide)]
    refine .inr ⟨hsame hlive, ?_⟩
    rw [← hsame hlive]
    by_cases hkey : T.index (task.updateRow row.value) = st.keyOf v.content
    · -- the index value stays
      have hzero : T.keyCompare (T.index (task.updateRow row.value)) (st.mem v.content).key = 0 :=
        (H.keyCompare_eq_zero _ _).mpr hkey
      obtain ⟨h', st₁, heq, hrep⟩ := replaceCurRow_spec hok hinv hcontent hrow
        (task.updateRow row.value) st.async
      rw [if_neg (not_not_intro hzero), if_neg (not_not_intro rfl), heq]
      exact ⟨_, _, rfl, .replaced h' st₁ hkey hrep⟩
    · have hzero : T.keyCompare (T.index (task.updateRow row.value)) (st.mem v.content).key ≠ 0 :=
        fun h => hkey ((H.keyCompare_eq_zero _ _).mp h)
      obtain ⟨st₁, heq, hins⟩ := insertRow_spec H hok hinv (task.updateRow row.value) st.async
      obtain ⟨hmem, hsame₁⟩ := Inserted.mem_of_ne hins hinv hcontent
        (Ne.symm hkey)
      have hinv₁ : st₁.Inv T := Inserted.inv hins hinv
      obtain ⟨st₂, heq₂, hdel⟩ := deleteCurRow_spec hinv₁ hmem (hsame₁ ▸ hrow)
      have hlive₁ : st₁.live v.content = true := (hinv₁.live_iff _).mpr hmem
      simp only [if_pos hzero, heq, Option.bind_eq_bind, Option.bind_some, hlive₁,
        Bool.true_eq_false, if_false, show ¬(0 : Int) = ecNoMem from by decide, if_true, heq₂]
      exact ⟨_, _, rfl, .moved st₁ st₂ hkey hins hdel⟩

/-- What the loop over the `total` rows of a record keeps, with `n` rows left to read. -/
structure Looping (T : Table K R) (hRecord : Handle) (k : K) (total n : Nat) (v : UpdateVars R)
    (st : State K R) : Prop where
  inv : st.Inv T
  content : v.content ∈ st.handles
  key : st.keyOf v.content = k
  same : st.live hRecord = true → v.content = hRecord
  first : v.pos = 0 → v.content = hRecord
  left : v.pos + n = (st.mem v.content).rows.length
  deleted : v.iDelete + (st.mem v.content).rows.length = total
  inserted : v.iInsert = v.iDelete
  curRow : ∀ r, v.curRow = some r → T.index r = k
  read : v.curRow = none → n = total

theorem Looping.exists_row (hl : Looping T hRecord k total (n + 1) v st) :
    ∃ row, (st.mem v.content).rows[v.pos]? = some row ∧ T.index row.value = k := by
  have hlt : v.pos < (st.mem v.content).rows.length := by
    have := hl.left
    omega
  refine ⟨_, List.getElem?_eq_getElem hlt, ?_⟩
  rw [hl.inv.index _ hl.content _ (getElem_mem hlt), hl.key]

theorem Looping.skip (hl : Looping T hRecord k total (n + 1) v st)
    (hindex : T.index row.value = k) :
    Looping T hRecord k total n { v with curRow := some row.value, pos := v.pos + 1 } st where
  inv := hl.inv
  content := hl.content
  key := hl.key
  same := hl.same
  first h := absurd h (Nat.succ_ne_zero _)
  left := by
    have := hl.left
    change v.pos + 1 + n = (st.mem v.content).rows.length
    omega
  deleted := hl.deleted
  inserted := hl.inserted
  curRow r hr := Option.some.inj hr ▸ hindex
  read h := by cases h

section Step

variable (hl : Looping T hRecord k total (n + 1) v st) (hat : v.content = hRecord)
  (hrow : (st.mem v.content).rows[v.pos]? = some row)

include hl hrow hat

theorem Looping.moved {st₁ st₂ : State K R}
    (hne : T.index (task.updateRow row.value) ≠ st.keyOf v.content)
    (hins : Inserted env T (task.updateRow row.value) st.async st st₁)
    (hdel : RowDeleted T v.content v.pos row st₁ st₂) :
    Looping T hRecord k total n
      { v with curRow := some row.value, iInsert := v.iInsert + 1, iDelete := v.iDelete + 1 }
      (st₂.countUpdate row.dirty) := by
  obtain ⟨hmem, hsame⟩ := Inserted.mem_of_ne hins hl.inv hl.content
    (Ne.symm hne)
  have hinv₁ : st₁.Inv T := Inserted.inv hins hl.inv
  have hpos : v.pos < (st.mem v.content).rows.length := (List.getElem?_eq_some_iff.mp hrow).1
  have hrows : (st₂.mem v.content).rows = (st.mem v.content).rows.eraseIdx v.pos := by
    rw [hdel.rows, hsame]
  have hlen : (st₂.mem v.content).rows.length + 1 = (st.mem v.content).rows.length := by
    rw [hrows, length_eraseIdx_of_lt hpos]
    omega
  have hkeep : st₂.keyOf v.content = k := by
    rw [hdel.keyOf hinv₁ hmem, State.keyOf, hsame]
    exact hl.key
  exact
    { inv := (hdel.inv hinv₁ hmem).countUpdate _
      content := hdel.handles ▸ hmem
      key := hkeep
      same := fun _ => hat
      first := fun _ => hat
      left := by
        have := hl.left
        change v.pos + n = (st₂.mem v.content).rows.length
        omega
      deleted := by
        have := hl.deleted
        change v.iDelete + 1 + (st₂.mem v.content).rows.length = total
        omega
      inserted := congrArg (· + 1) hl.inserted
      curRow := fun r hr => by
        rw [← Option.some.inj hr, hl.inv.index _ hl.content row (mem_of_getElem? hrow), hl.key]
      read := fun h => by cases h }

theorem Looping.replaced {h' : Handle} {st₁ : State K R}
    (heq : T.index (task.updateRow row.value) = st.keyOf v.content)
    (hrep : RowReplaced env T v.content h' v.pos row
      (row.replace (task.updateRow row.value) st.async) st st₁) :
    Looping T hRecord k total n { v with curRow := some row.value, pos := v.pos + 1, content := h' }
      (st₁.countUpdate row.dirty) := by
  obtain ⟨chunkSize, hw⟩ := hrep.chunk
  have hinv₁ : st₁.Inv T := hrep.inv hl.inv hl.content heq
  have hlen : (st₁.mem h').rows.length = (st.mem v.content).rows.length := by
    rw [hw.mem_self]
    exact length_set
  have hkeep : st₁.keyOf h' = k := by
    rw [State.keyOf, hw.mem_self]
    refine (Record.setRows_key (k := st.keyOf v.content) rfl fun r hr => ?_).trans hl.key
    rcases mem_or_eq_of_mem_set hr with hr | rfl
    · exact hl.inv.index _ hl.content r hr
    · exact heq
  exact
    { inv := hinv₁.countUpdate _
      content := hw.mem_handles hl.content
      key := hkeep
      same := fun hlive => by
        have hmem : hRecord ∈ st₁.handles := (hinv₁.live_iff _).mp hlive
        rcases (hw.mem_handles_iff hl.content).mp hmem with h | ⟨-, hne⟩
        · exact h.symm
        · exact absurd hat.symm hne
      first := fun h => absurd h (Nat.succ_ne_zero _)
      left := by
        have := hl.left
        change v.pos + 1 + n = (st₁.mem h').rows.length
        omega
      deleted := by
        have := hl.deleted
        change v.iDelete + (st₁.mem h').rows.length = total
        omega
      inserted := hl.inserted
      curRow := fun r hr => by
        rw [← Option.some.inj hr, hl.inv.index _ hl.content row (mem_of_getElem? hrow), hl.key]
      read := fun h => by cases h }

end Step

theorem Looping.step (hl : Looping T hRecord k total (n + 1) v st) (hat : v.content = hRecord)
    (hrow : (st.mem v.content).rows[v.pos]? = some row)
    (hstep : UpdateStep env task { v with curRow := some row.value } row st v' st') :
    Looping T hRecord k total n v' st' := by
  cases hstep with
  | moved st₁ st₂ hne hins hdel => exact hl.moved hat hrow hne hins hdel
  | replaced h' st₁ heq hrep => exact hl.replaced hat hrow heq hrep

theorem drop_eq_cons {rows : List (Row R)} {pos : Nat} (hrow : rows[pos]? = some row) :
    rows.drop pos = row :: rows.drop (pos + 1) := by
  obtain ⟨hpos, hget⟩ := List.getElem?_eq_some_iff.mp hrow
  rw [drop_eq_getElem_cons hpos, hget]

/-- The rows behind the one updated stay to be read. -/
theorem UpdateStep.drop (hl : Looping T hRecord k total (n + 1) v st)
    (hrow : (st.mem v.content).rows[v.pos]? = some row)
    (hstep : UpdateStep env task { v with curRow := some row.value } row st v' st') :
    (st'.mem v'.content).rows.drop v'.pos = (st.mem v.content).rows.drop (v.pos + 1) := by
  have hpos : v.pos < (st.mem v.content).rows.length := (List.getElem?_eq_some_iff.mp hrow).1
  cases hstep with
  | moved st₁ st₂ hne hins hdel =>
    obtain ⟨-, hsame⟩ := hins.mem_of_ne hl.inv hl.content (Ne.symm hne)
    change (st₂.mem v.content).rows.drop v.pos = _
    rw [hdel.rows, hsame, eraseIdx_eq_take_drop_succ, drop_append,
      drop_eq_nil_of_le (by simp), nil_append, length_take,
      Nat.min_eq_left hpos.le, Nat.sub_self, drop_zero]
  | replaced h' st₁ heq hrep =>
    obtain ⟨chunkSize, hw⟩ := hrep.chunk
    change (st₁.mem h').rows.drop (v.pos + 1) = _
    rw [hw.mem_self]
    exact drop_set_of_lt (Nat.lt_succ_self _)

/-- A property of the loop is kept by the rows it skips and by those it updates. -/
structure LoopRule (env : Mallocator) (task : Task T) (hRecord : Handle) (k : K) (total : Nat)
    (Q : UpdateVars R → State K R → Prop) : Prop where
  skip : ∀ {n v st row}, Looping T hRecord k total (n + 1) v st →
    (st.mem v.content).rows[v.pos]? = some row → task.compareRow row.value = false → Q v st →
    Q { v with curRow := some row.value, pos := v.pos + 1 } st
  step : ∀ {n v st row v' st'}, Looping T hRecord k total (n + 1) v st → v.content = hRecord →
    (st.mem v.content).rows[v.pos]? = some row → task.compareRow row.value = true →
    UpdateStep env task { v with curRow := some row.value } row st v' st' → Q v st → Q v' st'

theorem updateRows_rule (H : T.Orders) (hok : env.Unlimited) {Q : UpdateVars R → State K R → Prop}
    (hQ : LoopRule env task hRecord k total Q) {r : Except Int (UpdateVars R)}
    (hl : Looping T hRecord k total n v st) (hq : Q v st)
    (hrun : updateRows env task hRecord n v st = some (r, st')) :
    ∃ v', r = .ok v' ∧ Looping T hRecord k total 0 v' st' ∧ Q v' st' := by
  induction n generalizing v st with
  | zero =>
    rw [updateRows] at hrun
    cases hrun
    exact ⟨v, rfl, hl, hq⟩
  | succ n ih =>
    obtain ⟨row, hrow, hindex⟩ := hl.exists_row
    have hlive : st.live v.content = true := (hl.inv.live_iff _).mpr hl.content
    simp only [updateRows, hlive, hrow, Bool.true_eq_false, if_false] at hrun
    cases hcmp : task.compareRow row.value with
    | false =>
      rw [if_pos hcmp] at hrun
      exact ih (hl.skip hindex) (hQ.skip hl hrow hcmp hq) hrun
    | true =>
      rw [if_neg (by rw [hcmp]; decide)] at hrun
      rcases updateMatched_spec (v := { v with curRow := some row.value }) H hok hl.inv hl.content
        hl.same hrow with ⟨-, hnone⟩ | ⟨hat, v₁, st₁, heq, hstep⟩
      · rw [hnone] at hrun
        cases hrun
      · rw [heq] at hrun
        exact ih (hl.step hat hrow hstep) (hQ.step hl hat hrow hcmp hstep hq) hrun

/-- The loop returns when the handle of the record is live at every matching row. -/
theorem updateRows_isSome (H : T.Orders) (hok : env.Unlimited) {Q : UpdateVars R → State K R → Prop}
    (hQ : LoopRule env task hRecord k total Q)
    (hlive : ∀ {n v st row}, Looping T hRecord k total (n + 1) v st →
      (st.mem v.content).rows[v.pos]? = some row → task.compareRow row.value = true → Q v st →
      st.live hRecord = true)
    (hl : Looping T hRecord k total n v st) (hq : Q v st) :
    ∃ r st', updateRows env task hRecord n v st = some (r, st') := by
  induction n generalizing v st with
  | zero => exact ⟨_, _, rfl⟩
  | succ n ih =>
    obtain ⟨row, hrow, hindex⟩ := hl.exists_row
    have hcontent : st.live v.content = true := (hl.inv.live_iff _).mpr hl.content
    simp only [updateRows, hcontent, hrow, Bool.true_eq_false, if_false]
    cases hcmp : task.compareRow row.value with
    | false =>
      rw [if_pos rfl]
      exact ih (hl.skip hindex) (hQ.skip hl hrow hcmp hq)
    | true =>
      rw [if_neg (by decide)]
      rcases updateMatched_spec (v := { v with curRow := some row.value }) H hok hl.inv hl.content
        hl.same hrow with ⟨hdead, -⟩ | ⟨hat, v₁, st₁, heq, hstep⟩
      · rw [hlive hl hrow hcmp hq] at hdead
        cases hdead
      · rw [heq]
        exact ih (hl.step hat hrow hstep) (hQ.step hl hat hrow hcmp hstep hq)

/-- How `update_sub_raw_data` ends: the loop has read all rows, and an empty record is dropped. -/
inductive UpdateEnd (v : UpdateVars R) (st : State K R) : State K R → Prop
  | kept (hrows : (st.mem v.content).rows ≠ []) : UpdateEnd v st st
  | dropped (st' : State K R) (hrows : (st.mem v.content).rows = [])
    (hdrops : Drops st v.content st')
      (hRoot : st'.data.hRoot = st'.root) (hcnts : st'.data.nodeCnts = st.data.nodeCnts - 1)
      (hrowCnt : st'.data.rowCnt = st.data.rowCnt)
      (hraw : st'.data.totalRawSize = st.data.totalRawSize)
      (hsized : DropReported st v.content → st.Sized → st'.Sized) (hmembers : SameMembers st st') :
      UpdateEnd v st st'

theorem looping_start (hinv : st.Inv T) (hh : hRecord ∈ st.handles) :
    Looping T hRecord (st.keyOf hRecord) (st.mem hRecord).rows.length (st.mem hRecord).rows.length
      ⟨0, hRecord, 0, 0, none⟩ st :=
  ⟨hinv, hh, rfl, fun _ => rfl, fun _ => rfl, Nat.zero_add _, Nat.zero_add _, rfl, nofun,
    fun _ => rfl⟩

/-- `update_sub_raw_data` after its loop. -/
theorem updateSubRawData_end (H : T.Orders) (hlive : st.live hRecord = true)
    (hne : (st.mem hRecord).rows ≠ []) {st₁ : State K R}
    (hloop : updateRows env task hRecord (st.mem hRecord).rows.length ⟨0, hRecord, 0, 0, none⟩ st =
      some (.ok v, st₁)) (hl : Looping T hRecord k (st.mem hRecord).rows.length 0 v st₁) :
    ∃ st', updateSubRawData env task hRecord st = some (0, st') ∧ UpdateEnd v st₁ st' := by
  simp only [updateSubRawData, hlive, Bool.true_eq_false, if_false, Option.bind_eq_bind, hloop,
    Option.bind_some]
  have hpos : (st.mem hRecord).rows.length ≠ 0 := mt length_eq_zero_iff.mp hne
  have hdeleted := hl.deleted
  cases hcur : v.curRow with
  | none => exact absurd (hl.read hcur).symm hpos
  | some cur =>
    by_cases hempty : (st₁.mem v.content).rows = []
    · -- all rows were moved: the record has not been replaced meanwhile
      have hcontent : v.content = hRecord := by
        have hleft := hl.left
        rw [hempty, length_nil] at hleft
        exact hl.first (by omega)
      have hall : (st.mem hRecord).rows.length = v.iDelete := by
        rw [hempty, length_nil] at hdeleted
        omega
      have hkey : T.index cur = st₁.keyOf v.content := (hl.curRow cur hcur).trans hl.key.symm
      obtain ⟨st₂, heq, hdrops, hroot, hcnt, hnodes, hraw, hsized, hmembers⟩ :=
        dropRecord_spec H hl.inv hl.content
      refine ⟨st₂, ?_, .dropped st₂ hempty hdrops hroot hnodes hcnt hraw hsized hmembers⟩
      simp only [if_pos hall]
      simp only [← hcontent, hkey, heq, Option.bind_some, ne_eq, not_true_eq_false, if_false,
        hl.inserted]
      rfl
    · have hall : ¬(st.mem hRecord).rows.length = v.iDelete := by
        have := mt length_eq_zero_iff.mp hempty
        omega
      refine ⟨st₁, ?_, .kept hempty⟩
      simp only [if_neg hall, ne_eq, not_true_eq_false, if_false, hl.inserted]
      rfl

/-- `update_sub_raw_data` of a live record with rows. -/
theorem updateSubRawData_rule (H : T.Orders) (hok : env.Unlimited)
    {Q : UpdateVars R → State K R → Prop} (hinv : st.Inv T) (hh : hRecord ∈ st.handles)
    (hne : (st.mem hRecord).rows ≠ [])
    (hQ : LoopRule env task hRecord (st.keyOf hRecord) (st.mem hRecord).rows.length Q)
    (hq : Q ⟨0, hRecord, 0, 0, none⟩ st) {iRet : Int}
    (hrun : updateSubRawData env task hRecord st = some (iRet, st')) :
    iRet = 0 ∧ ∃ v st₁,
      updateRows env task hRecord (st.mem hRecord).rows.length ⟨0, hRecord, 0, 0, none⟩ st =
        some (.ok v, st₁) ∧
      Looping T hRecord (st.keyOf hRecord) (st.mem hRecord).rows.length 0 v st₁ ∧
      Q v st₁ ∧ UpdateEnd v st₁ st' := by
  have hlive : st.live hRecord = true := (hinv.live_iff _).mpr hh
  cases hloop : updateRows env task hRecord (st.mem hRecord).rows.length ⟨0, hRecord, 0, 0, none⟩ st
    with
  | none =>
    simp only [updateSubRawData, hlive, Bool.true_eq_false, if_false, Option.bind_eq_bind, hloop,
      Option.bind_none] at hrun
    cases hrun
  | some res =>
    obtain ⟨r, st₁⟩ := res
    obtain ⟨v, rfl, hl, hqv⟩ := updateRows_rule H hok hQ (looping_start hinv hh) hq hloop
    obtain ⟨st₂, heq, hend⟩ := updateSubRawData_end H hlive hne hloop hl
    rw [heq] at hrun
    cases hrun
    exact ⟨rfl, v, st₁, rfl, hl, hqv, hend⟩

theorem updateSubRawData_isSome (H : T.Orders) (hok : env.Unlimited)
    {Q : UpdateVars R → State K R → Prop} (hinv : st.Inv T) (hh : hRecord ∈ st.handles)
    (hne : (st.mem hRecord).rows ≠ [])
    (hQ : LoopRule env task hRecord (st.keyOf hRecord) (st.mem hRecord).rows.length Q)
    (hlive : ∀ {n v st' row}, Looping T hRecord (st.keyOf hRecord) (st.mem hRecord).rows.length
      (n + 1) v st' → (st'.mem v.content).rows[v.pos]? = some row →
      task.compareRow row.value = true → Q v st' → st'.live hRecord = true)
    (hq : Q ⟨0, hRecord, 0, 0, none⟩ st) :
    ∃ iRet st', updateSubRawData env task hRecord st = some (iRet, st') := by
  have hstart := looping_start hinv hh
  obtain ⟨r, st₁, hloop⟩ := updateRows_isSome H hok hQ hlive hstart hq
  obtain ⟨v, rfl, hl, -⟩ := updateRows_rule H hok hQ hstart hq hloop
  obtain ⟨st₂, heq, -⟩ := updateSubRawData_end H ((hinv.live_iff _).mpr hh) hne hloop hl
  exact ⟨0, st₂, heq⟩

end ISearch.TreeData
