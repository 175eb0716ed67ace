import ISearch.TreeData.Invariant

/-!
# Insertion of a row (`TreeData::insert_row_flag`)

A row goes behind the rows of the record of its index value, which may move, or into a new record;
without memory, the records stay as they are.
-/

namespace ISearch.TreeData

open TTree BufferProcess State Function

variable {K R : Type} [LinearOrder K] {T : Table K R} {env : Mallocator} {st st' : State K R}

/-- The calls of the allocator never fail. -/
def Mallocator.Unlimited (env : Mallocator) : Prop := ∀ n, env.fails n = false

/-- A chunk that grows stays where it is. -/
def Mallocator.Fixed (env : Mallocator) : Prop := ∀ n, env.moves n = false

/-- An allocator that never fails and gives exactly what it is asked for. -/
def plainMallocator : Mallocator := ⟨fun _ => false, fun _ => false, fun _ => 0⟩

theorem plainMallocator_unlimited : plainMallocator.Unlimited := fun _ => rfl

/-- The members of `TreeData` that a primitive leaves alone. -/
structure SameMembers (st st' : State K R) : Prop where
  affectedRows : st'.affectedRows = st.affectedRows
  rowsInc : st'.rowsInc = st.rowsInc
  dirtyRowsInc : st'.dirtyRowsInc = st.dirtyRowsInc
  async : st'.async = st.async

/-- What becomes of the records when the row `row` is inserted. -/
inductive InsertChange (env : Mallocator) (T : Table K R) (row : R) (dirty : Bool)
    (st st' : State K R) : Prop
  | added (record : Record K R) (hnew : ∀ h ∈ st.handles, st.keyOf h ≠ T.index row)
      (hadds : Adds st record st') (hkey : record.key = T.index row)
      (hrows : record.rows = [⟨row, dirty⟩]) (hfits : record.dataSize T ≤ record.chunkSize)
      (hcnts : st'.data.nodeCnts = st.data.nodeCnts + 1)
  | extended (h h' : Handle) (record : Record K R) (hh : h ∈ st.handles)
      (hindex : st.keyOf h = T.index row) (hrewrites : Rewrites st h h' record st')
      (hkey : record.key = T.index row)
      (hrows : record.rows = (st.mem h).rows ++ [⟨row, dirty⟩])
      (hfits : record.dataSize T ≤ record.chunkSize)
      (hroom : (st.mem h).dataSize T + T.rowSize row ≤ (st.mem h).chunkSize →
        h' = h ∧ record.chunkSize = (st.mem h).chunkSize)
      (hfixed : env.Fixed → h' = h) (hcnts : st'.data.nodeCnts = st.data.nodeCnts)

structure Inserted (env : Mallocator) (T : Table K R) (row : R) (dirty : Bool)
    (st st' : State K R) : Prop where
  change : InsertChange env T row dirty st st'
  hRoot : st'.data.hRoot = st'.root
  rowCnt : st'.data.rowCnt = st.data.rowCnt + 1
  totalRawSize : st'.data.totalRawSize = st.data.totalRawSize + .ofNat (T.rowSize row)
  sized : st.Sized → st'.Sized
  members : SameMembers st st'

/-- An insertion that ran out of memory: the records are what they were. -/
structure Refused (env : Mallocator) (st st' : State K R) : Prop where
  failed : ∃ n, env.fails n = true
  root : st'.root = st.root
  mem : ∀ h ∈ st.handles, st'.mem h = st.mem h
  live : st'.live = st.live
  calls : st.calls ≤ st'.calls
  data : st'.data = st.data
  members : SameMembers st st'

omit [LinearOrder K] in
theorem refused_failed (h : env.fails st.calls = true) : Refused env st st.failed :=
  ⟨⟨_, h⟩, rfl, fun _ _ => rfl, rfl, Nat.le_succ _, rfl, ⟨rfl, rfl, rfl, rfl⟩⟩

omit [LinearOrder K] in
theorem Refused.not_unlimited (h : Refused env st st') : ¬env.Unlimited := fun hok => by
  obtain ⟨n, hn⟩ := h.failed
  rw [hok n] at hn
  cases hn

omit [LinearOrder K] in
theorem Record.setRows_key {record : Record K R} {rows : List (Row R)} {k : K}
    (hkey : record.key = k) (hrows : ∀ r ∈ rows, T.index r.value = k) :
    (record.setRows T rows).key = k := by
  cases rows with
  | nil => exact hkey
  | cons r rows => exact hrows r List.mem_cons_self

theorem ne_of_fresh (hinv : st.Inv T) {g : Handle} (hg : g ∈ st.handles) : g ≠ st.calls := by
  rintro rfl
  exact hinv.not_mem_calls hg

/-- `insert_sub_tree` of the record of a fresh handle. -/
theorem insertSubTree_spec (env : Mallocator) (H : T.Orders) {hRecord : Handle}
    (hshape : st.root.Shape) (hsorted : SortedBy st.keyOf st.handles)
    (hnew : ∀ h ∈ st.handles, st.keyOf h ≠ st.keyOf hRecord) :
    (insertSubTree T env (st.keyOf hRecord) hRecord st = some (ecNoMem, st.failed) ∧
      env.fails st.calls = true) ∨
    ∃ root treeSize, insertSubTree T env (st.keyOf hRecord) hRecord st =
        some (0, { st with
          calls := st.calls + 1
          root
          data.treeSize := treeSize }) ∧
      root.Shape ∧ Spliced st.keyOf hRecord st.handles root.toList ∧
      ∃ n, treeSize = st.data.treeSize + .ofNat (sizeofTtreeNode * n) ∧
        root.nodes = st.root.nodes + n := by
  by_cases hnil : st.root = .nil
  · cases hfails : env.fails st.calls with
    | true =>
      refine .inl ⟨?_, rfl⟩
      simp only [insertSubTree, hnil, TtreeNode.isNil, hfails, Bool.not_true, if_true,
        Bool.false_eq_true, if_false, State.failed]
    | false =>
      refine .inr ⟨.alloc hRecord, st.data.treeSize + .ofNat sizeofTtreeNode, ?_,
        TtreeNode.shape_alloc hRecord, ?_, 1, rfl, ?_⟩
      · simp only [insertSubTree, hnil, TtreeNode.isNil, hfails, Bool.not_false, if_true]
      · rw [State.handles, hnil]
        exact Spliced.nil
      · rw [hnil]
        rfl
  · have hn : st.root.isNil = false := Bool.eq_false_iff.mpr (mt TtreeNode.isNil_iff.mp hnil)
    obtain ⟨o, ho, hspec⟩ := TtreeNode.insert_spec (H.pfComp st) (!env.fails st.calls) st.root
      (2 * st.root.height) hRecord false hshape hsorted hnil le_rfl
    have heq : insertSubTree T env (st.keyOf hRecord) hRecord st =
        (do
          let st' : State K R := { st with
            calls := st.calls + 1
            root := o.hNode }
          if o.iRet = -2 then return (ecKeyExist, st')
          else if o.iRet = -1 then return (ecNoMem, st')
          else if o.iRet < 0 then return (-1, st')
          else if o.flag then
            return (0, { st' with data.treeSize := st'.data.treeSize + .ofNat sizeofTtreeNode })
          else return (0, st')) := by
      simp only [insertSubTree, hn, Bool.false_eq_true, if_false]
      have hcall : TtreeNode.insert
          (State.pfComp T { st with calls := st.calls + 1 })
          (State.keyOf { st with calls := st.calls + 1 }) (!env.fails st.calls)
          (2 * st.root.height) (st.keyOf hRecord) hRecord st.root false = some o := ho
      rw [hcall]
      rfl
    cases hspec with
    | keyExist hmem hret hsame =>
      obtain ⟨x, hx, hk⟩ := hmem
      exact absurd hk (hnew x hx)
    | noMem halloc _ hret hsame =>
      refine .inl ⟨?_, by simpa using halloc⟩
      rw [heq, hret, hsame, if_neg (by decide), if_pos rfl]
      rfl
    | done hshape' hitems hheight =>
      have hret : 0 ≤ o.iRet := by
        rcases hheight with ⟨h, -⟩ | ⟨h, -⟩ <;> omega
      have hnodes := TtreeNode.nodes_insert ho
      rw [heq, if_neg (by omega), if_neg (by omega), if_neg (by omega)]
      refine .inr ?_
      cases hflag : o.flag with
      | false =>
        rw [hflag] at hnodes
        exact ⟨o.hNode, st.data.treeSize, rfl, hshape', hitems, 0, (UInt32.add_zero _).symm, hnodes⟩
      | true =>
        rw [hflag] at hnodes
        exact ⟨o.hNode, _, rfl, hshape', hitems, 1, rfl, hnodes⟩

/-- Either the row is inserted, or memory ran out. -/
def InsertsOrRefuses (env : Mallocator) (T : Table K R) (row : R) (dirty : Bool) (st : State K R)
    (out : Option (Int × State K R)) : Prop :=
  (∃ st', out = some (ecNoMem, st') ∧ Refused env st st') ∨
    ∃ st', out = some (0, st') ∧ Inserted env T row dirty st st'

theorem insertNewRecord_spec (H : T.Orders) (hinv : st.Inv T) (row : R) (dirty : Bool)
    (hnew : ∀ h ∈ st.handles, st.keyOf h ≠ T.index row) :
    InsertsOrRefuses env T row dirty st (insertNewRecord T env row dirty st) := by
  cases hfails : env.fails st.calls with
  | true =>
    exact .inl ⟨st.failed, by rw [insertNewRecord, if_pos hfails], refused_failed hfails⟩
  | false =>
  set record : Record K R :=
    ⟨T.rowSize row + headerSize + env.slack st.calls, T.index row, [⟨row, dirty⟩]⟩ with hrecord
  set st₁ : State K R := { st with
    calls := st.calls + 1
    mem := update st.mem st.calls record
    live := update st.live st.calls true } with hst₁
  have hkey₁ : st₁.keyOf st.calls = T.index row := by
    simp [hst₁, State.keyOf, hrecord]
  have hkey : ∀ g ∈ st.handles, st₁.keyOf g = st.keyOf g := by
    intro g hg
    simp [hst₁, State.keyOf, update_of_ne (ne_of_fresh hinv hg)]
  have hsorted : SortedBy st₁.keyOf st₁.handles := by
    refine hinv.sorted.imp_of_mem fun hx hy hlt => ?_
    rwa [hkey _ hx, hkey _ hy]
  have hnew₁ : ∀ g ∈ st₁.handles, st₁.keyOf g ≠ st₁.keyOf st.calls := by
    intro g hg
    rw [hkey₁, hkey g hg]
    exact hnew g hg
  have hshape₁ : st₁.root.Shape := hinv.shape
  have hcall : insertNewRecord T env row dirty st =
      (insertSubTree T env (T.index row) st.calls st₁).bind fun r =>
        if r.1 ≠ 0 then some (r.1, { r.2 with live := update r.2.live st.calls false })
        else some (0, countRow T row { r.2 with
          data.treeSize := r.2.data.treeSize + .ofNat record.chunkSize
          data.nodeCnts := r.2.data.nodeCnts + 1 }) := by
    rw [insertNewRecord, hfails, if_neg Bool.false_ne_true]
    rfl
  obtain ⟨heq, hfails₁⟩ | ⟨root, treeSize, heq, hshape, hspl, n, htreeSize, hnodes⟩ :=
    insertSubTree_spec env H hshape₁ hsorted hnew₁
  · -- the record is given back
    rw [hkey₁] at heq
    refine .inl ⟨{ st₁.failed with live := update st₁.live st.calls false }, ?_,
      ⟨_, hfails₁⟩, rfl, fun g hg => ?_, ?_, ?_, rfl, ⟨rfl, rfl, rfl, rfl⟩⟩
    · rw [hcall, heq]
      rfl
    · exact update_of_ne (ne_of_fresh hinv hg) _ _
    · change update (update st.live st.calls true) st.calls false = st.live
      rw [update_idem, update_eq_self_iff]
      exact (Bool.eq_false_iff.mpr fun hlive =>
        hinv.not_mem_calls ((hinv.live_iff _).mp hlive)).symm
    · exact (Nat.le_succ _).trans (Nat.le_succ _)
  rw [hkey₁] at heq
  refine .inr ⟨countRow T row { st₁ with
    calls := st₁.calls + 1
    root
    data.treeSize := treeSize + .ofNat record.chunkSize
    data.nodeCnts := st.data.nodeCnts + 1 }, ?_, ?_⟩
  · rw [hcall, heq]
    rfl
  · set st₂ : State K R := countRow T row { st₁ with
      calls := st₁.calls + 1
      root
      data.treeSize := treeSize + .ofNat record.chunkSize
      data.nodeCnts := st.data.nodeCnts + 1 } with hst₂
    have hcalls : st.calls < st₂.calls := by
      change st.calls < st.calls + 1 + 1
      omega
    have hadds : Adds st record st₂ := ⟨hshape, hspl, rfl, rfl, hcalls⟩
    have hfits : record.dataSize T ≤ record.chunkSize := by
      simp only [hrecord, Record.dataSize, List.map_cons, List.map_nil, List.sum_cons, List.sum_nil]
      omega
    refine ⟨.added record hnew hadds rfl rfl hfits rfl, rfl, rfl, rfl, fun hsized => ?_, rfl, rfl,
      rfl, rfl⟩
    have hbytes := hadds.treeBytes hinv
    have hroot : st₂.root.nodes = st.root.nodes + n := hnodes
    rw [hroot, Nat.mul_add] at hbytes
    have hsum : st₂.treeBytes = st.treeBytes + record.chunkSize + sizeofTtreeNode * n := by omega
    rw [State.Sized, hsum, UInt32.ofNat_add, UInt32.ofNat_add, ← hsized]
    change treeSize + .ofNat record.chunkSize = _
    rw [htreeSize]
    grind

theorem live_rewrite (hinv : st.Inv T) {h : Handle} (hh : h ∈ st.handles) :
    update (update st.live h false) h true = st.live := by
  rw [update_idem, update_eq_self_iff]
  exact ((hinv.live_iff h).mpr hh).symm

/-- `ReAlloc` of a record. -/
theorem reAlloc_spec (hok : env.fails st.calls = false) (hinv : st.Inv T) {h : Handle}
    (hh : h ∈ st.handles)
    (size : Nat) :
    ∃ h' st', reAlloc env h size st = some (h', st') ∧
      Rewrites st h h' { st.mem h with chunkSize := size + env.slack st.calls } st' ∧
      SameMembers st st' ∧ st'.data = { st.data with
        hRoot := replaceItem h h' st.data.hRoot
        treeSize := st.data.treeSize - .ofNat (st.mem h).chunkSize +
          .ofNat (size + env.slack st.calls) } ∧
      (size ≤ (st.mem h).chunkSize ∨ env.Fixed → h' = h) := by
  rw [reAlloc, hok, if_neg Bool.false_ne_true]
  refine ⟨_, _, rfl, ⟨rfl, rfl, rfl, ?_, ?_, ?_⟩, ⟨rfl, rfl, rfl, rfl⟩, rfl, fun hstay => ?_⟩
  · split_ifs
    · exact .inr rfl
    · exact .inl rfl
  · exact Nat.le_succ _
  · change _ < st.calls + 1
    split_ifs
    · omega
    · exact (hinv.lt_calls h hh).trans (Nat.lt_succ_self _)
  · refine if_neg fun hmove => ?_
    rcases hstay with hroom | hfixed
    · omega
    · rw [hfixed] at hmove
      cases hmove.2

theorem expandTreeChunk_spec (env : Mallocator) (hinv : st.Inv T) {h : Handle}
    (hh : h ∈ st.handles) (size : Nat) :
    (expandTreeChunk T env h size st = (ecNoMem, h, st.failed) ∧ env.fails st.calls = true) ∨
    ∃ h' chunkSize st', expandTreeChunk T env h size st = (0, h', st') ∧
      Rewrites st h h' { st.mem h with chunkSize } st' ∧
      SameMembers st st' ∧ st'.data.rowCnt = st.data.rowCnt ∧
      st'.data.nodeCnts = st.data.nodeCnts ∧ st'.data.totalRawSize = st.data.totalRawSize ∧
      st'.data.treeSize =
        st.data.treeSize - .ofNat (st.mem h).chunkSize + .ofNat chunkSize ∧
      (st.mem h).dataSize T + size ≤ chunkSize ∧
      ((st.mem h).dataSize T + size ≤ (st.mem h).chunkSize →
        h' = h ∧ chunkSize = (st.mem h).chunkSize) ∧ (env.Fixed → h' = h) := by
  rw [expandTreeChunk]
  by_cases hlt : (st.mem h).chunkSize < (st.mem h).dataSize T + size
  · rw [if_pos hlt]
    cases hfails : env.fails st.calls with
    | true =>
      exact .inl ⟨by rw [reAlloc, if_pos hfails], rfl⟩
    | false =>
    obtain ⟨h', st', heq, hw, hmembers, hdata, hstay⟩ :=
      reAlloc_spec hfails hinv hh ((st.mem h).dataSize T + size)
    rw [heq]
    exact .inr ⟨h', _, st', rfl, hw, hmembers, by rw [hdata], by rw [hdata], by rw [hdata],
      by rw [hdata], Nat.le_add_right _ _, fun hroom => absurd hlt (not_lt.mpr hroom),
      fun hfixed => hstay (.inr hfixed)⟩
  · rw [if_neg hlt]
    refine .inr ⟨h, (st.mem h).chunkSize, st, rfl, ⟨?_, ?_, ?_, .inl rfl, le_rfl, ?_⟩,
      ⟨rfl, rfl, rfl, rfl⟩, rfl, rfl, rfl, ?_, not_lt.mp hlt, fun _ => ⟨rfl, rfl⟩, fun _ => rfl⟩
    · exact (replaceItem_self h st.root).symm
    · exact (update_eq_self h st.mem).symm
    · exact (live_rewrite hinv hh).symm
    · exact hinv.lt_calls h hh
    · grind

omit [LinearOrder K] in
/-- Rewriting the record again under its new handle is one rewriting. -/
theorem Rewrites.again {h h' : Handle} {record record' : Record K R} {st'' : State K R}
    (hw : Rewrites st h h' record st') (hroot : st''.root = st'.root)
    (hmem : st''.mem = update st'.mem h' record') (hlive : st''.live = st'.live)
    (hcalls : st''.calls = st'.calls) : Rewrites st h h' record' st'' where
  root := hroot.trans hw.root
  mem := by rw [hmem, hw.mem, update_idem]
  live := hlive.trans hw.live
  fresh := hw.fresh
  calls := hcalls ▸ hw.calls
  lt_calls := hcalls ▸ hw.lt_calls

theorem insertRow_cases (env : Mallocator) (H : T.Orders) (hinv : st.Inv T) (row : R)
    (dirty : Bool) :
    InsertsOrRefuses env T row dirty st (insertRow T env row dirty st) := by
  rw [insertRow]
  cases hf : st.find T (T.index row) with
  | none => exact insertNewRecord_spec H hinv row dirty ((hinv.find_eq_none H).mp hf)
  | some h =>
    obtain ⟨hh, hk⟩ := (hinv.find_eq_some H).mp hf
    obtain ⟨heq, hfails⟩ | ⟨h', chunkSize, st₁, heq, hw, hmembers, hcnt, hnodes, hraw, hsize, hfits,
        hroom, hfixed⟩ :=
      expandTreeChunk_spec env hinv hh (T.rowSize row)
    · exact .inl ⟨st.failed, by simp only [heq]; rfl, refused_failed hfails⟩
    have hmem : st₁.mem h' = { st.mem h with chunkSize } := hw.mem_self
    set rows := (st.mem h).rows ++ [⟨row, dirty⟩] with hrows
    have hindex : ∀ r ∈ rows, T.index r.value = T.index row := by
      intro r hr
      rw [hrows, List.mem_append, List.mem_singleton] at hr
      rcases hr with hr | rfl
      · rw [hinv.index h hh r hr, hk]
      · rfl
    set st₂ := countRow T row (st₁.setRecord h' ((st₁.mem h').setRows T
      ((st₁.mem h').rows ++ [⟨row, dirty⟩]))) with hst₂
    have hw₂ : Rewrites st h h'
      ((st₁.mem h').setRows T ((st₁.mem h').rows ++ [⟨row, dirty⟩])) st₂ :=
      hw.again rfl rfl rfl rfl
    refine .inr ⟨st₂, by simp only [heq, hst₂], ?_, rfl, ?_, ?_, hw₂.sized hinv hh ?_, ?_⟩
    · refine .extended h h' _ hh hk hw₂ (Record.setRows_key ?_ ?_) ?_ ?_ ?_ hfixed hnodes
      · rw [hmem]
        exact hk
      · rw [hmem]
        exact hindex
      · rw [hmem]
        rfl
      · rw [hmem]
        exact (dataSize_append T chunkSize (st.mem h) ⟨row, dirty⟩).trans_le hfits
      · rw [hmem]
        exact hroom
    · change st₁.data.rowCnt + 1 = _
      rw [hcnt]
    · change st₁.data.totalRawSize + _ = _
      rw [hraw]
    · rw [hmem]
      exact hsize
    · exact ⟨hmembers.affectedRows, hmembers.rowsInc, hmembers.dirtyRowsInc, hmembers.async⟩

/-- With memory, the row is inserted. -/
theorem insertRow_spec (H : T.Orders) (hok : env.Unlimited) (hinv : st.Inv T) (row : R)
    (dirty : Bool) :
    ∃ st', insertRow T env row dirty st = some (0, st') ∧ Inserted env T row dirty st st' :=
  (insertRow_cases env H hinv row dirty).resolve_left fun ⟨_, _, h⟩ => h.not_unlimited hok

end ISearch.TreeData
