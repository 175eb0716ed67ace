import ISearch.Lib.Run
import ISearch.DirectQuery.Scan

/-!
# One query after the other

The deque of the rows and the `ORDER BY` unit are shared by all the queries that a worker serves.
A query leaves them empty if the storage does not fail, the query is not refused and its rows are
counted right; then nothing of it is seen by the queries behind it.
-/

namespace ISearch.DirectQuery

open KeyFormat RocksProcess List Option

variable {t : Table} (noReturn : Bool) {q : Query t}

/-- A range query that a worker serves, with the storage it meets. -/
structure Served where
  db : Db
  faults : Faults
  magicNum : UInt16
  sequenceId : UInt64
  rangeQuery : RangeQuery

/-- The data that is sent for a query, and the worker behind it. `free` does not clear the deque:
its test for a null pointer is the wrong way round. -/
def serve (noReturn : Bool) (w : Worker t) (x : Served) : Option (Bytes × Worker t) := do
  let q ← x.rangeQuery.query t
  let (outcome, w) ← processDirectQuery x.db noReturn x.faults q w
  let (data, rest) ← (directResponse x.magicNum x.sequenceId outcome w).serializeTo
  return (data, ⟨rest, w.orderByUnit⟩)

def serveStep (noReturn : Bool) (w : Worker t) (x : Served) : Option (Worker t) :=
  (serve noReturn w x).map Prod.snd

/-- The response to a query that is served behind others. -/
def responseAfter (t : Table) (noReturn : Bool) (xs : List Served) (x : Served) : Option Bytes :=
  (runOps (serveStep noReturn) (Worker.fresh : Worker t) xs).bind fun w =>
    (serve noReturn w x).map Prod.fst

/-! ## How many rows are kept -/

def heapLength (s : QueryState t) : Nat := (s.orderByUnit.map fun u => u.rawRows.length).getD 0

theorem length_push (u : OrderByUnit t) (e : OrderByUnitElement) :
    (u.push noReturn e).length = u.rawRows.length + 1 := by
  have hlen := congrArg List.length (takeWhile_append_dropWhile
    (p := fun e' => orderByLess noReturn e e' u.orderbyFields) (l := u.rawRows))
  rw [length_append] at hlen
  rw [OrderByUnit.push, length_append, length_cons]
  omega

theorem length_addRow_le (u : OrderByUnit t) (e : OrderByUnitElement) :
    (u.addRow noReturn e).rawRows.length ≤ u.rawRows.length + 1 := by
  rw [← length_push noReturn u e, OrderByUnit.addRow]
  dsimp only
  split
  · rw [length_tail]
    exact Nat.sub_le _ _
  · exact le_rfl

theorem length_addRow_le_max {u : OrderByUnit t} (h : u.rawRows.length ≤ u.maxRowSize)
    (e : OrderByUnitElement) : (u.addRow noReturn e).rawRows.length ≤ u.maxRowSize := by
  have hlen := length_push noReturn u e
  rw [OrderByUnit.addRow]
  dsimp only
  split
  · rw [length_tail]
    omega
  · omega

theorem keepRow_count (e : OrderByUnitElement) (s : QueryState t) :
    (keepRow noReturn q e s).1.rowValues.length + heapLength (keepRow noReturn q e s).1 ≤
      s.rowValues.length + heapLength s + 1 := by
  rw [keepRow]
  split
  · have hadd := length_addRow_le noReturn
      (s.orderByUnit.getD ⟨q.limitCond.heapSize, q.orderbyFields, []⟩) e
    have hold : (s.orderByUnit.getD ⟨q.limitCond.heapSize, q.orderbyFields, []⟩).rawRows.length =
        heapLength s := by
      rw [heapLength]
      cases s.orderByUnit <;> rfl
    rw [hold] at hadd
    have hnew : ∀ u : OrderByUnit t,
        heapLength { s with orderByUnit := some u } = u.rawRows.length := fun _ => rfl
    dsimp only
    rw [hnew]
    omega
  · split
    · exact Nat.le_succ _
    · have hsame : ∀ rowValues totalRows,
          heapLength (⟨rowValues, s.orderByUnit, totalRows⟩ : QueryState t) = heapLength s :=
        fun _ _ => rfl
      dsimp only
      rw [hsame, length_cons]
      omega

theorem keepAll_count (s : QueryState t) (es : List OrderByUnitElement) :
    (keepAll noReturn q s es).1.rowValues.length + heapLength (keepAll noReturn q s es).1 ≤
      s.rowValues.length + heapLength s + es.length := by
  induction es generalizing s with
  | nil => exact le_rfl
  | cons e es ih =>
    have hrow := keepRow_count noReturn (q := q) e s
    rw [keepAll, length_cons]
    split
    · dsimp only
      omega
    · have hrest := ih (keepRow noReturn q e s).1
      omega

/-- All rows are in the heap, and the heap is not larger than it should be. -/
structure Heaped (q : Query t) (s : QueryState t) : Prop where
  rows : s.rowValues = []
  heap : ∀ u ∈ s.orderByUnit, u.maxRowSize = q.limitCond.heapSize ∧
    u.rawRows.length ≤ q.limitCond.heapSize

theorem Heaped.keepRow {s : QueryState t} (hs : Heaped q s) (horder : q.orderbyFields ≠ [])
    (e : OrderByUnitElement) : Heaped q (keepRow noReturn q e s).1 := by
  have hunit : ∀ u, u = s.orderByUnit.getD ⟨q.limitCond.heapSize, q.orderbyFields, []⟩ →
      u.maxRowSize = q.limitCond.heapSize ∧ u.rawRows.length ≤ q.limitCond.heapSize := by
    rintro u rfl
    cases hu : s.orderByUnit with
    | none => exact ⟨rfl, Nat.zero_le _⟩
    | some u => exact hs.heap u hu
  rw [DirectQuery.keepRow, if_pos (by simp [horder])]
  refine ⟨hs.rows, ?_⟩
  rintro _ ⟨⟩
  obtain ⟨hmax, hlen⟩ := hunit _ rfl
  refine ⟨hmax, ?_⟩
  have hadd := length_addRow_le_max noReturn (hlen.trans hmax.ge) e
  exact hadd.trans hmax.le

theorem Heaped.keepAll {s : QueryState t} (hs : Heaped q s) (horder : q.orderbyFields ≠ [])
    (es : List OrderByUnitElement) : Heaped q (keepAll noReturn q s es).1 := by
  induction es generalizing s with
  | nil => exact hs
  | cons e es ih =>
    rw [DirectQuery.keepAll]
    split
    · exact hs.keepRow noReturn horder e
    · exact ih (hs.keepRow noReturn horder e)

theorem length_drainOrderBy (s : QueryState t) :
    (drainOrderBy q s).rowValues.length ≤ s.rowValues.length + heapLength s := by
  rw [drainOrderBy, heapLength]
  split
  · exact Nat.le_add_right _ _
  · rename_i u hu
    simp only [hu, length_append, length_reverse, length_map, length_drop,
      map_some, getD_some]
    omega

theorem orderByUnit_drainOrderBy (s : QueryState t) : (drainOrderBy q s).orderByUnit = none := by
  rw [drainOrderBy]
  split
  · assumption
  · rfl

/-! ## Queries that leave nothing behind -/

/-- The key that the first condition on the primary key looks for. -/
def preKeyOf (c : Cond t) : Bytes := encodeBytes (lowerKey (t.type 0) c.condValue)

/-- The rows that pass the conditions; those equal to the bound of a `<=` query count twice. -/
def rowBound (rows : List (Row t)) (c : Cond t) (primaryKeyConds conds : List (Cond t)) : Nat :=
  (rows.filter fun row =>
    rangeVerdict primaryKeyConds row = .accept && passesDirect conds row).length +
    if c.condOpr = some .le then
      (rows.filter fun row => keyMatched (preKeyOf c) row.rocksKey && passesDirect conds row).length
    else 0

/-- The rows of the response fit their number: few rows pass the conditions, or a heap or a limit
keeps few of them. -/
def FewRows (rows : List (Row t)) (q : Query t) (c : Cond t)
    (primaryKeyConds conds : List (Cond t)) : Prop :=
  rowBound rows c primaryKeyConds conds < 2 ^ 15 ∨
    (q.orderbyFields ≠ [] ∧ q.limitCond.heapSize < 2 ^ 15) ∨
    (q.orderbyFields = [] ∧ c.condOpr ≠ some .le ∧ q.limitCond.limited = true ∧
      q.limitCond.limitStep.toInt < 2 ^ 15)

/-- A query that the storage and `process_direct_query` serve to its end, with few rows. -/
structure Harmless (t : Table) (x : Served) : Prop where
  faults : x.faults = ⟨none, none⟩
  rows : ∃ (rows : List (Row t)) (q : Query t) (c : Cond t) (primaryKeyConds conds : List (Cond t)),
    Stores x.db rows ∧ x.rangeQuery.query t = some q ∧
      analysePrimaryKeyConds q.fieldConds = some (c :: primaryKeyConds, conds) ∧
      c.condValue ≠ [] ∧ FewRows rows q c (c :: primaryKeyConds) conds

theorem length_accepted_le {rows visited : List (Row t)} {conds : List (Cond t)}
    {verdict : Row t → Verdict} {p : Row t → Bool} (hsub : visited.Subperm rows)
    (hp : ∀ row, verdict row = .accept → passesDirect conds row = true → p row = true) :
    (accepted verdict conds visited).length ≤ (rows.filter p).length := by
  have hfilter : (accepted verdict conds visited).Subperm (rows.filter p) := by
    refine List.Subperm.trans ?_ (hsub.filter p)
    refine List.Sublist.subperm ?_
    rw [accepted]
    refine (monotone_filter_right _ ?_).trans (List.Sublist.filter p (takeWhile_sublist _))
    intro row hrow
    rw [Bool.and_eq_true, decide_eq_true_iff] at hrow
    exact hp row hrow.1 hrow.2
  exact hfilter.length_le

theorem serializeTo_rows (magicNum : UInt16) (sequenceId : UInt64) {w : Worker t}
    (hlen : w.rowValues.length < 2 ^ 15) :
    ∃ data, (directResponse magicNum sequenceId .rows w).serializeTo = some (data, []) := by
  have hemits : (directResponse magicNum sequenceId .rows w).Emits w.rowValues :=
    (emits_iff magicNum sequenceId .rows (hlen.trans (by decide))).mpr ⟨by decide, fun _ => hlen⟩
  obtain ⟨rest, happ, hser⟩ := hemits
  have hnil : rest = [] := self_eq_append_right.mp happ
  exact ⟨_, hnil ▸ hser⟩

theorem serializeTo_notFound (magicNum : UInt16) (sequenceId : UInt64) :
    ∃ data, (directResponse magicNum sequenceId .notFound (Worker.fresh : Worker t)).serializeTo =
      some (data, []) :=
  ⟨_, rfl⟩

section

variable {db : Db} {rows : List (Row t)} {c : Cond t} {primaryKeyConds conds : List (Cond t)}

theorem heaped_start : Heaped q QueryState.start := ⟨rfl, fun _ h => by cases h⟩

theorem subperm_rangeRows (forwardDirection : Bool) (key : Bytes) :
    (rangeRows rows forwardDirection key).Subperm rows := by
  rw [rangeRows]
  split
  · exact filter_sublist.subperm
  · exact (reverse_perm _).subperm.trans filter_sublist.subperm

theorem subperm_equalRows (preKey : Bytes) : (equalRows rows preKey).Subperm rows :=
  ((takeWhile_sublist _).trans filter_sublist).subperm

/-- The rows of the equal loop of a `<=` query. -/
def equalKept (rows : List (Row t)) (c : Cond t) (conds : List (Cond t)) :
    List OrderByUnitElement :=
  if c.condOpr = some .le then
    (accepted (equalVerdict (preKeyOf c)) conds (equalRows rows (preKeyOf c))).map elementOf
  else []

theorem length_equalKept_le : (equalKept rows c conds).length ≤
    if c.condOpr = some .le then
      (rows.filter fun row => keyMatched (preKeyOf c) row.rocksKey && passesDirect conds row).length
    else 0 := by
  rw [equalKept]
  split
  · rw [length_map]
    refine length_accepted_le (subperm_equalRows _) ?_
    intro row hrow hpass
    rw [equalVerdict] at hrow
    split at hrow
    · rename_i hkey
      rw [hkey, hpass]
      rfl
    · cases hrow
  · exact le_rfl

/-- The deque is short at the end of the query. -/
theorem length_drained_lt (hfew : FewRows rows q c primaryKeyConds conds) {visited : List (Row t)}
    (hvisited : visited.Subperm rows) :
    (drainOrderBy q (keepAll noReturn q (keepAll noReturn q QueryState.start
      (equalKept rows c conds)).1 ((accepted (rangeVerdict primaryKeyConds) conds visited).map
        elementOf)).1).rowValues.length < 2 ^ 15 := by
  refine lt_of_le_of_lt (length_drainOrderBy _) ?_
  rcases hfew with hfew | ⟨horder, hheap⟩ | ⟨horder, hle, hlimit, hstep⟩
  · have hequal := keepAll_count noReturn (q := q) QueryState.start (equalKept rows c conds)
    have hrange := keepAll_count noReturn (q := q) (keepAll noReturn q QueryState.start
      (equalKept rows c conds)).1 ((accepted (rangeVerdict primaryKeyConds) conds visited).map
        elementOf)
    have hlen : (accepted (rangeVerdict primaryKeyConds) conds visited).length ≤
        (rows.filter fun row => rangeVerdict primaryKeyConds row = .accept &&
          passesDirect conds row).length := by
      refine length_accepted_le hvisited ?_
      intro row hrow hpass
      rw [hrow, hpass]
      rfl
    have hlen' : (equalKept rows c conds).length ≤ _ := length_equalKept_le
    have hstart : (QueryState.start : QueryState t).rowValues.length +
        heapLength (QueryState.start : QueryState t) = 0 := rfl
    rw [length_map] at hrange
    rw [rowBound] at hfew
    omega
  · have hheaped := (heaped_start.keepAll noReturn horder (equalKept rows c conds)).keepAll noReturn
      horder ((accepted (rangeVerdict primaryKeyConds) conds visited).map elementOf)
    rw [hheaped.rows, heapLength]
    cases hunit : (keepAll noReturn q (keepAll noReturn q QueryState.start
        (equalKept rows c conds)).1 ((accepted (rangeVerdict primaryKeyConds) conds visited).map
          elementOf)).1.orderByUnit with
    | none => simp
    | some u =>
      have hlen := (hheaped.heap u hunit).2
      simp only [length_nil, map_some, getD_some]
      omega
  · have hnil : equalKept rows c conds = [] := if_neg hle
    have hpos : 0 ≤ q.limitCond.limitStart.toInt ∧ 0 < q.limitCond.limitStep.toInt := by
      simpa [LimitCond.limited] using hlimit
    obtain ⟨hrows, hunit⟩ := keepAll_start_limited noReturn horder hlimit
      ((accepted (rangeVerdict primaryKeyConds) conds visited).map elementOf)
    rw [hnil, keepAll, hrows, heapLength, hunit]
    simp only [length_reverse, length_map, length_take, map_none,
      getD_none]
    omega

/-- `process_direct_query` of a fresh worker, without failures. -/
theorem processDirectQuery_fresh (h : Stores db rows)
    (hanalyse : analysePrimaryKeyConds q.fieldConds = some (c :: primaryKeyConds, conds))
    (hvalue : c.condValue ≠ []) :
    ∃ outcome w, processDirectQuery db noReturn ⟨none, none⟩ q Worker.fresh = some (outcome, w) ∧
      (outcome = .notFound ∧ w = Worker.fresh ∨ ∃ visited : List (Row t),
        visited.Subperm rows ∧ outcome = .rows ∧
        w = (drainOrderBy q (keepAll noReturn q (keepAll noReturn q QueryState.start
          (equalKept rows c conds)).1
          ((accepted (rangeVerdict (c :: primaryKeyConds)) conds visited).map
            elementOf)).1).worker) := by
  have hrange : ∀ forwardDirection key,
      (rangeRows rows forwardDirection key = [] → equalKept rows c conds = []) →
      ∃ outcome w, rangeSection db noReturn q (c :: primaryKeyConds) conds forwardDirection
          ⟨none, none⟩ key (keepAll noReturn q QueryState.start (equalKept rows c conds)).1 =
          some (outcome, w) ∧
        (outcome = .notFound ∧ w = Worker.fresh ∨ ∃ visited : List (Row t),
          visited.Subperm rows ∧ outcome = .rows ∧
          w = (drainOrderBy q (keepAll noReturn q (keepAll noReturn q QueryState.start
            (equalKept rows c conds)).1
            ((accepted (rangeVerdict (c :: primaryKeyConds)) conds visited).map
              elementOf)).1).worker) := by
    intro forwardDirection key hnil
    rw [rangeSection_stores h]
    split
    · rename_i hempty
      exact ⟨_, _, rfl, .inl ⟨rfl, by rw [hnil hempty]; rfl⟩⟩
    · exact ⟨_, _, rfl, .inr ⟨_, subperm_rangeRows forwardDirection key, rfl, rfl⟩⟩
  rw [processDirectQuery, hanalyse]
  dsimp only
  rw [if_neg hvalue]
  by_cases hle : c.condOpr = some .le
  · have hkept : equalKept rows c conds = (accepted (equalVerdict (preKeyOf c)) conds
        (equalRows rows (preKeyOf c))).map elementOf := if_pos hle
    have hequal : ∃ key, equalLoop db noReturn q conds (preKeyOf c) ⟨none, none⟩
        QueryState.start = some ⟨_, key, false⟩ ∧ _ :=
      equalLoop_stores h (preKeyOf c) QueryState.start
    obtain ⟨key, hequal, hkey⟩ := hequal
    rw [← hkept] at hequal
    rw [if_pos hle]
    change ∃ outcome w, (equalLoop db noReturn q conds (preKeyOf c) ⟨none, none⟩
      QueryState.start).bind _ = some (outcome, w) ∧ _
    rw [hequal, bind_some, if_neg Bool.false_ne_true]
    refine hrange _ key fun hempty => ?_
    rw [hkept]
    rcases hkey.mem with ⟨hnil, -⟩ | ⟨row, hrow, rfl⟩
    · rw [hnil]
      rfl
    · have hmem : row ∈ rangeRows rows (c.condOpr.any Comparator.forward) row.rocksKey := by
        rw [hle, rangeRows]
        exact mem_reverse.mpr (mem_filter.mpr
          ⟨mem_of_mem_equalRows hrow, decide_eq_true le_rfl⟩)
      rw [hempty] at hmem
      cases hmem
  · have hkept : equalKept rows c conds = [] := if_neg hle
    rw [if_neg hle]
    have hsection := hrange (c.condOpr.any Comparator.forward) (preKeyOf c) fun _ => hkept
    rw [hkept] at hsection ⊢
    exact hsection

end

/-- A harmless query leaves a fresh worker fresh. -/
theorem Harmless.serve_fresh {x : Served} (hx : Harmless t x) :
    ∃ data, serve noReturn (Worker.fresh : Worker t) x = some (data, Worker.fresh) := by
  obtain ⟨rows, q, c, primaryKeyConds, conds, hstores, hquery, hanalyse, hvalue, hfew⟩ := hx.rows
  obtain ⟨outcome, w, hprocess, hcases⟩ := processDirectQuery_fresh noReturn hstores hanalyse hvalue
  rw [serve, hquery, hx.faults]
  simp only [bind_eq_bind, bind_some, hprocess]
  rcases hcases with ⟨rfl, rfl⟩ | ⟨visited, hvisited, rfl, rfl⟩
  · obtain ⟨data, hdata⟩ := serializeTo_notFound (t := t) x.magicNum x.sequenceId
    rw [hdata]
    exact ⟨data, rfl⟩
  · obtain ⟨data, hdata⟩ := serializeTo_rows x.magicNum x.sequenceId
      (w := (drainOrderBy q _).worker) (length_drained_lt noReturn hfew hvisited)
    rw [hdata]
    refine ⟨data, ?_⟩
    have hunit := orderByUnit_drainOrderBy (q := q) (keepAll noReturn q (keepAll noReturn q
      QueryState.start (equalKept rows c conds)).1
      ((accepted (rangeVerdict (c :: primaryKeyConds)) conds visited).map elementOf)).1
    simp only [bind_some, QueryState.worker, hunit]
    rfl

theorem runOps_fresh {xs : List Served} (hxs : ∀ y ∈ xs, Harmless t y) :
    runOps (serveStep noReturn) (Worker.fresh : Worker t) xs = some Worker.fresh := by
  induction xs with
  | nil => rfl
  | cons x xs ih =>
    obtain ⟨data, hdata⟩ := (hxs x mem_cons_self).serve_fresh noReturn
    rw [runOps_cons, serveStep, hdata, map_some, bind_some]
    exact ih fun y hy => hxs y (mem_cons_of_mem x hy)

/-- Behind queries that are harmless a worker is as it was, and answers alike. -/
theorem responses_agree (t : Table) (noReturn : Bool) (xs ys : List Served) (x : Served)
    (hxs : ∀ y ∈ xs, Harmless t y) (hys : ∀ y ∈ ys, Harmless t y) :
    runOps (serveStep noReturn) (Worker.fresh : Worker t) xs = some Worker.fresh ∧
      responseAfter t noReturn xs x = responseAfter t noReturn ys x := by
  have hrun := runOps_fresh noReturn hxs
  refine ⟨hrun, ?_⟩
  rw [responseAfter, responseAfter, hrun, runOps_fresh noReturn hys]

/-- The message of the query for the rows under the key `"a"`. -/
def servedEqual (faults : Faults) : Served where
  db := twoKeyDb
  faults := faults
  magicNum := 12345
  sequenceId := 1
  rangeQuery := ⟨[⟨0, 0, [97]⟩], [], ⟨-1, -1⟩⟩

theorem harmless_servedEqual : Harmless twoKeyTable (servedEqual ⟨none, none⟩) :=
  ⟨rfl, [twoKeyRow 1, twoKeyRow 2], equalQuery, ⟨0, some .eq, [97]⟩, [], [], stores_twoKeyDb, rfl,
    by rfl, by simp, .inl (by decide +kernel)⟩

theorem responses_agree_servedEqual :
    responseAfter twoKeyTable false [] (servedEqual ⟨none, none⟩) =
      responseAfter twoKeyTable false [servedEqual ⟨none, none⟩] (servedEqual ⟨none, none⟩) := by
  refine (responses_agree twoKeyTable false [] [servedEqual ⟨none, none⟩] _
    (forall_mem_nil _) ?_).2
  rw [forall_mem_singleton]
  exact harmless_servedEqual

/-- The storage fails behind the first row, which is sent with the next response. -/
theorem responses_differ_servedEqual :
    responseAfter twoKeyTable false [] (servedEqual ⟨none, none⟩) ≠
      responseAfter twoKeyTable false [servedEqual ⟨none, some 1⟩] (servedEqual ⟨none, none⟩) := by
  decide +kernel

end ISearch.DirectQuery
