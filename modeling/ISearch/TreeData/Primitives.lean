import ISearch.TreeData.Insert
import ISearch.TreeData.Writes

/-!
# The current row and the record (`delete_cur_row`, `replace_cur_row`, `Ttree::Delete`)

What the primitives of the write requests do to a node that keeps the invariant.
-/

namespace ISearch.TreeData

open TTree BufferProcess State

variable {K R : Type} [LinearOrder K] {T : Table K R} {env : Mallocator} {st st' : State K R}
  {h : Handle} {pos : Nat} {row : Row R} {newRow : R} {dirty : Bool}

theorem Inserted.inv (hi : Inserted env T newRow dirty st st') (hinv : st.Inv T) :
    st'.Inv T := by
  cases hi.change with
  | added record hnew hadds hkey hrows hfits =>
    refine hadds.inv hinv (fun r hr => ?_) hfits
    rw [hrows, List.mem_singleton] at hr
    rw [hr, hkey]
  | extended h h' record hh hindex hw hkey hrows hfits =>
    refine hw.inv hinv hh (hkey.trans hindex.symm) (fun r hr => ?_) hfits
    rw [hrows, List.mem_append, List.mem_singleton] at hr
    rw [hkey]
    rcases hr with hr | rfl
    · rw [hinv.index h hh r hr, hindex]
    · rfl

theorem Inserted.rowsChange (hi : Inserted env T newRow dirty st st') (hinv : st.Inv T) :
    RowsChange st st' [] [⟨newRow, dirty⟩] := by
  cases hi.change with
  | added record hnew hadds hkey hrows => exact hrows ▸ hadds.rowsChange hinv
  | extended h h' record hh hindex hw hkey hrows =>
    obtain ⟨a, b, hst, hst'⟩ := hw.rowsChange hinv hh
    refine ⟨a ++ (st.mem h).rows, b, by simpa using hst, ?_⟩
    rw [hst', hrows]
    simp

/-- A handle other than the record the row went to keeps its record. -/
theorem Inserted.mem_of_ne (hi : Inserted env T newRow dirty st st') (hinv : st.Inv T)
    (hh : h ∈ st.handles) (hne : st.keyOf h ≠ T.index newRow) :
    h ∈ st'.handles ∧ st'.mem h = st.mem h := by
  cases hi.change with
  | added record hnew hadds hkey hrows =>
    exact ⟨hadds.spliced.mem_iff.mpr (.inr hh), hadds.mem_of_mem hinv hh⟩
  | extended g g' record hg hindex hw hkey hrows =>
    have hhg : h ≠ g := by
      rintro rfl
      exact hne hindex
    exact ⟨(hw.mem_handles_iff hg).mpr (.inr ⟨hh, hhg⟩),
      hw.mem_of_ne (hw.ne_of_mem hinv hh hhg)⟩

omit [LinearOrder K] in
theorem eq_take_cons_drop {rows : List (Row R)} (hrow : rows[pos]? = some row) :
    rows = rows.take pos ++ row :: rows.drop (pos + 1) := by
  obtain ⟨hpos, hget⟩ := List.getElem?_eq_some_iff.mp hrow
  rw [← hget, ← List.drop_eq_getElem_cons hpos, List.take_append_drop]

/-- The row at a position is deleted. -/
structure RowDeleted (T : Table K R) (h : Handle) (pos : Nat) (row : Row R) (st st' : State K R) :
    Prop where
  rewrites : Rewrites st h h ((st.mem h).setRows T ((st.mem h).rows.eraseIdx pos)) st'
  data : st'.data = { st.data with
    rowCnt := st.data.rowCnt - 1
    totalRawSize := st.data.totalRawSize - .ofNat (T.rowSize row.value) }
  members : SameMembers st st'

theorem deleteCurRow_spec (hinv : st.Inv T) (hh : h ∈ st.handles)
    (hrow : (st.mem h).rows[pos]? = some row) :
    ∃ st', deleteCurRow T h pos st = (0, st') ∧ RowDeleted T h pos row st st' := by
  simp only [deleteCurRow, hrow]
  refine ⟨_, rfl, ⟨?_, rfl, ?_, .inl rfl, le_rfl, ?_⟩, rfl, ⟨rfl, rfl, rfl, rfl⟩⟩
  · exact (replaceItem_self h st.root).symm
  · exact (live_rewrite hinv hh).symm
  · exact hinv.lt_calls h hh

theorem setRows_inv {h' : Handle} {record : Record K R} {rows : List (Row R)}
    (hw : Rewrites st h h' (record.setRows T rows) st') (hinv : st.Inv T) (hh : h ∈ st.handles)
    (hkey : record.key = st.keyOf h) (hrows : ∀ r ∈ rows, T.index r.value = st.keyOf h)
    (hfits : (record.setRows T rows).dataSize T ≤ (record.setRows T rows).chunkSize) :
    st'.Inv T := by
  have hset : (record.setRows T rows).key = st.keyOf h := Record.setRows_key hkey hrows
  refine hw.inv hinv hh hset (fun r hr => ?_) hfits
  rw [hset]
  exact hrows r hr

namespace RowDeleted

theorem inv (hd : RowDeleted T h pos row st st') (hinv : st.Inv T) (hh : h ∈ st.handles) :
    st'.Inv T :=
  setRows_inv hd.rewrites hinv hh rfl
    (fun r hr => hinv.index h hh r (List.mem_of_mem_eraseIdx hr))
    ((dataSize_eraseIdx_le T (st.mem h) pos).trans (hinv.fits h hh))

omit [LinearOrder K] in
theorem handles (hd : RowDeleted T h pos row st st') : st'.handles = st.handles := by
  rw [State.handles, hd.rewrites.root, replaceItem_self]
  rfl

omit [LinearOrder K] in
theorem rows (hd : RowDeleted T h pos row st st') :
    (st'.mem h).rows = (st.mem h).rows.eraseIdx pos := by
  rw [hd.rewrites.mem_self]
  rfl

theorem keyOf (hd : RowDeleted T h pos row st st') (hinv : st.Inv T) (hh : h ∈ st.handles) :
    st'.keyOf h = st.keyOf h := by
  rw [State.keyOf, hd.rewrites.mem_self]
  exact Record.setRows_key rfl fun r hr => hinv.index h hh r (List.mem_of_mem_eraseIdx hr)

theorem rowsChange (hd : RowDeleted T h pos row st st') (hinv : st.Inv T) (hh : h ∈ st.handles)
    (hrow : (st.mem h).rows[pos]? = some row) : RowsChange st st' [row] [] := by
  obtain ⟨a, b, hst, hst'⟩ := hd.rewrites.rowsChange hinv hh
  refine ⟨a ++ (st.mem h).rows.take pos, (st.mem h).rows.drop (pos + 1) ++ b, ?_, ?_⟩
  · rw [hst]
    conv_lhs => rw [eq_take_cons_drop hrow]
    simp
  · rw [hst']
    simp [Record.setRows, List.eraseIdx_eq_take_drop_succ]

end RowDeleted

/-- The row at a position is replaced, and the handle of the record is `h'` then. -/
structure RowReplaced (env : Mallocator) (T : Table K R) (h h' : Handle) (pos : Nat) (old new : Row R)
    (st st' : State K R) : Prop where
  chunk : ∃ chunkSize, Rewrites st h h' (Record.setRows T { st.mem h with chunkSize }
    ((st.mem h).rows.set pos new)) st'
  rowCnt : st'.data.rowCnt = st.data.rowCnt
  nodeCnts : st'.data.nodeCnts = st.data.nodeCnts
  totalRawSize : st'.data.totalRawSize = st.data.totalRawSize +
    (.ofNat (T.rowSize new.value) - .ofNat (T.rowSize old.value))
  hRoot : st'.data.hRoot = replaceItem h h' st.data.hRoot
  fits : (st'.mem h').dataSize T ≤ (st'.mem h').chunkSize
  stays : T.rowSize new.value ≤ T.rowSize old.value ∨ env.Fixed → h' = h
  sized : st.Sized → st'.Sized
  members : SameMembers st st'

theorem replaceCurRow_spec (hok : env.Unlimited) (hinv : st.Inv T) (hh : h ∈ st.handles)
    (hrow : (st.mem h).rows[pos]? = some row) (newRow : R) (isDirty : Bool) :
    ∃ h' st', replaceCurRow T env h pos newRow isDirty st = (0, h', st') ∧
      RowReplaced env T h h' pos row (row.replace newRow isDirty) st st' := by
  obtain ⟨h', st₁, heq, hw, hmembers, hdata, hstay⟩ := reAlloc_spec (hok st.calls) hinv hh
    ((st.mem h).dataSize T + T.rowSize newRow - T.rowSize row.value)
  have hw₁ : Rewrites st h h' ((st₁.mem h').setRows T ((st₁.mem h').rows.set pos
      (row.replace newRow isDirty))) (writeCurRow T h' pos row newRow isDirty st₁) :=
    hw.again rfl rfl rfl rfl
  rw [hw.mem_self] at hw₁
  have hsize := dataSize_set T ((st.mem h).dataSize T + T.rowSize newRow - T.rowSize row.value +
    env.slack st.calls) (row.replace newRow isDirty) hrow
  refine ⟨h', writeCurRow T h' pos row newRow isDirty st₁, ?_, ⟨_, hw₁⟩, ?_, ?_, ?_, ?_, ?_,
    fun hsmall => hstay (hsmall.imp_left fun hle => ?_), hw₁.sized hinv hh ?_, ?_⟩
  · simp only [replaceCurRow, hrow, heq]
  · change st₁.data.rowCnt = _
    rw [hdata]
  · change st₁.data.nodeCnts = _
    rw [hdata]
  · change st₁.data.totalRawSize + _ = _
    rw [hdata]
    rfl
  · change st₁.data.hRoot = _
    rw [hdata]
  · rw [hw₁.mem_self]
    exact (Nat.eq_sub_of_add_eq hsize).le.trans (Nat.le_add_right _ _)
  · have hfits := hinv.fits h hh
    change T.rowSize newRow ≤ T.rowSize row.value at hle
    omega
  · change st₁.data.treeSize = _
    rw [hdata]
    rfl
  · exact ⟨hmembers.affectedRows, hmembers.rowsInc, hmembers.dirtyRowsInc, hmembers.async⟩

namespace RowReplaced

variable {h' : Handle} {new : Row R}

theorem inv (hr : RowReplaced env T h h' pos row new st st') (hinv : st.Inv T) (hh : h ∈ st.handles)
    (hindex : T.index new.value = st.keyOf h) : st'.Inv T := by
  obtain ⟨chunkSize, hw⟩ := hr.chunk
  refine setRows_inv hw hinv hh rfl (fun r hmem => ?_) (hw.mem_self ▸ hr.fits)
  rcases List.mem_or_eq_of_mem_set hmem with hmem | rfl
  · exact hinv.index h hh r hmem
  · exact hindex

theorem rowsChange (hr : RowReplaced env T h h' pos row new st st') (hinv : st.Inv T)
    (hh : h ∈ st.handles) (hrow : (st.mem h).rows[pos]? = some row) :
    RowsChange st st' [row] [new] := by
  obtain ⟨chunkSize, hw⟩ := hr.chunk
  obtain ⟨a, b, hst, hst'⟩ := hw.rowsChange hinv hh
  refine ⟨a ++ (st.mem h).rows.take pos, (st.mem h).rows.drop (pos + 1) ++ b, ?_, ?_⟩
  · rw [hst]
    conv_lhs => rw [eq_take_cons_drop hrow]
    simp
  · rw [hst']
    simp [Record.setRows, List.set_eq_take_append_cons_drop,
      (List.getElem?_eq_some_iff.mp hrow).1]

end RowReplaced

/-- The T-tree reports the node it frees when it loses the record of `h`. -/
def DropReported (st : State K R) (h : Handle) : Prop :=
  (st.root.removal st.keyOf (st.keyOf h)).reports = (st.root.removal st.keyOf (st.keyOf h)).frees

/-- `Ttree::Delete` and the release of the chunk. -/
theorem dropRecord_spec (H : T.Orders) (hinv : st.Inv T) (hh : h ∈ st.handles) :
    ∃ st', dropRecord T h h (st.keyOf h) st = some (0, st') ∧ Drops st h st' ∧
      st'.data.hRoot = st'.root ∧ st'.data.rowCnt = st.data.rowCnt ∧
      st'.data.nodeCnts = st.data.nodeCnts - 1 ∧
      st'.data.totalRawSize = st.data.totalRawSize ∧
      (DropReported st h → st.Sized → st'.Sized) ∧ SameMembers st st' := by
  have hnil : st.root ≠ .nil := by
    intro hnil
    rw [State.handles, hnil] at hh
    cases hh
  have hn : st.root.isNil = false := Bool.eq_false_iff.mpr (mt TtreeNode.isNil_iff.mp hnil)
  obtain ⟨o, ho, hspec⟩ := TtreeNode.delete_spec (H.pfComp st) (H.zeroOnEqual st) st.root
    st.root.height le_rfl (st.keyOf h) false hinv.shape hinv.sorted hnil
  cases hspec with
  | missing hnew => exact absurd rfl (hnew h hh)
  | done x hk hshape hitems hheight =>
    have hx : x = h := hinv.sorted.eq_of_key_eq (hitems.mem_iff.mpr (.inl rfl)) hh hk
    subst hx
    have hret : ¬o.iRet < 0 := by
      rcases hheight with ⟨h, -⟩ | ⟨h, -⟩ <;> omega
    have hlive : st.live x = true := (hinv.live_iff x).mpr hh
    simp only [dropRecord, hn, ho, Bool.false_eq_true, if_false, Option.map_some, if_neg hret,
      Option.bind_eq_bind, Option.bind_some, ne_eq, not_true_eq_false, hlive, Bool.true_eq_false]
    refine ⟨_, rfl, ⟨hshape, hitems, rfl, rfl, rfl⟩, rfl, rfl, rfl, rfl, fun hrep hsized => ?_,
      rfl, rfl, rfl, rfl⟩
    have hremoves := TtreeNode.nodes_delete (H.pfComp st) (H.zeroOnEqual st) st.root
      st.root.height le_rfl x hh false o hinv.shape hinv.sorted ho
    have hnodes := hremoves.nodes
    have hflag : o.flag = (st.root.removal st.keyOf (st.keyOf x)).frees :=
      hremoves.flag.trans hrep
    rw [← hflag] at hnodes
    exact Drops.sized ⟨hshape, hitems, rfl, rfl, rfl⟩ rfl hnodes hsized

end ISearch.TreeData
