import ISearch.TreeData.Deltas
import ISearch.TreeData.Select
import Mathlib.Data.List.Find

/-!
# The counters of an update and of a replacement

An update in synchronous mode counts off the dirty rows it rewrites, and those it rewrites in place
stay dirty: `pending` rows. The counter is off by their number.
-/

namespace ISearch.TreeData

open TTree BufferProcess State List Option

variable {K R : Type} [LinearOrder K] {T : Table K R} {env : Mallocator} {st₀ st st' : State K R}
  {task : Task T} {async : Bool} {row : Row R} {v v' : UpdateVars R}

theorem bit_eq_zero {b : Bool} : bit b = 0 ↔ b = false := by
  cases b <;> decide

section Step

variable {hRecord : Handle} {k : K} {total n : Nat}

/-- What the counter of dirty rows and the dirty rows differ by. -/
def lag (st : State K R) : Int := dirtyCount st.rows - st.dirtyRowsInc

/-- A dirty row that a synchronous update rewrites in place. -/
def pending (task : Task T) (async : Bool) (row : Row R) : Bool :=
  !async && task.compareRow row.value && row.dirty &&
    decide (T.index (task.updateRow row.value) = T.index row.value)

theorem UpdateStep.lag (hl : Looping T hRecord k total (n + 1) v st)
    (hrow : (st.mem v.content).rows[v.pos]? = some row) (hcmp : task.compareRow row.value = true)
    (hstep : UpdateStep env task { v with curRow := some row.value } row st v' st') :
    st'.rows.length = st.rows.length ∧ lag st' = lag st + bit (pending task st.async row) := by
  have hindex : T.index row.value = st.keyOf v.content :=
    hl.inv.index _ hl.content row (mem_of_getElem? hrow)
  cases hstep with
  | moved st₁ st₂ hne hins hdel =>
    obtain ⟨hmem, hsame⟩ := hins.mem_of_ne hl.inv hl.content (Ne.symm hne)
    have hinv₁ := hins.inv hl.inv
    have hchange₁ := hins.rowsChange hl.inv
    have hchange₂ := hdel.rowsChange hinv₁ hmem (by rw [hsame]; exact hrow)
    have hpending : pending task st.async row = false := by
      simp only [pending, hindex, decide_eq_false hne, Bool.and_false]
    have hmembers : st₂.async = st.async ∧ st₂.dirtyRowsInc = st.dirtyRowsInc := by
      rw [hdel.members.async, hins.members.async, hdel.members.dirtyRowsInc,
        hins.members.dirtyRowsInc]
      exact ⟨rfl, rfl⟩
    refine ⟨?_, ?_⟩
    · have h1 := hchange₁.length
      have h2 := hchange₂.length
      change st₂.rows.length = st.rows.length
      simp only [length_nil, length_singleton] at h1 h2
      omega
    · have h1 := hchange₁.dirtyCount
      have h2 := hchange₂.dirtyCount
      rw [dirtyCount_singleton, dirtyCount_nil] at h1 h2
      rw [hpending]
      change (dirtyCount st₂.rows : Int) - (st₂.dirtyRowsInc - bit row.dirty + bit st₂.async) =
        dirtyCount st.rows - st.dirtyRowsInc + 0
      rw [hmembers.1, hmembers.2]
      simp only at h1 h2
      omega
  | replaced h' st₁ heq hrep =>
    have hchange := hrep.rowsChange hl.inv hl.content hrow
    have hpending : pending task st.async row = (!st.async && row.dirty) := by
      simp only [pending, hcmp, hindex, decide_eq_true heq, Bool.and_true]
    have hasync : st₁.async = st.async := hrep.members.async
    refine ⟨?_, ?_⟩
    · have h1 := hchange.length
      change st₁.rows.length = st.rows.length
      simp only [length_singleton] at h1
      omega
    · have h1 := hchange.dirtyCount
      rw [dirtyCount_singleton, dirtyCount_singleton, bit_replace] at h1
      rw [hpending]
      change (dirtyCount st₁.rows : Int) - (st₁.dirtyRowsInc - bit row.dirty + bit st₁.async) =
        dirtyCount st.rows - st.dirtyRowsInc + bit (!st.async && row.dirty)
      rw [hasync, hrep.members.dirtyRowsInc]
      omega

theorem potential_lag : Potential env task (fun r => r.dirty = async) async lag
    (fun r => bit (pending task async r)) (fun _ => 0) where
  skip h := by
    rw [pending, h, Bool.and_false, Bool.false_and, Bool.false_and]
    rfl
  extra h := by
    rw [pending, h]
    cases async <;> simp [bit]
  step hl hrow hcmp hstep hmode := by
    rw [(hstep.lag hl hrow hcmp).2, hmode, add_zero]
  ended hend := by
    rw [lag, lag, hend.rows.1, hend.rows.2.2]

theorem potential_length : Potential env task (fun r => r.dirty = async) async
    (fun st => st.rows.length) (fun _ => 0) (fun _ => 0) where
  skip _ := rfl
  extra _ := rfl
  step hl hrow hcmp hstep _ := by
    rw [(hstep.lag hl hrow hcmp).1]
  ended hend := by
    rw [hend.rows.1]

end Step

/-! ## A whole update -/

omit [LinearOrder K] in
theorem rowSum_zero (st : State K R) (hs : List Handle) :
    rowSum st (fun _ => (0 : Nat)) hs = 0 ∧ rowSum st (fun _ => (0 : Int)) hs = 0 := by
  simp [rowSum]

theorem rowSum_pending_eq_zero {hs : List Handle} :
    rowSum st (fun r => bit (pending task async r)) hs = 0 ↔
      ∀ h ∈ hs, ∀ r ∈ (st.mem h).rows, pending task async r = false := by
  have hrows : ∀ rows : List (Row R), 0 ≤ (rows.map fun r => bit (pending task async r)).sum ∧
      ((rows.map fun r => bit (pending task async r)).sum = 0 ↔
        ∀ r ∈ rows, pending task async r = false) := by
    intro rows
    induction rows with
    | nil => simp
    | cons r rows ih =>
      have hbit := bit_nonneg (pending task async r)
      rw [map_cons, sum_cons, forall_mem_cons, ← ih.2, ← bit_eq_zero]
      omega
  have hnonneg : ∀ hs : List Handle, 0 ≤ rowSum st (fun r => bit (pending task async r)) hs := by
    intro hs
    refine sum_nonneg fun x hx => ?_
    obtain ⟨h, -, rfl⟩ := mem_map.mp hx
    exact (hrows _).1
  induction hs with
  | nil => simp [rowSum]
  | cons h hs ih =>
    have hcons : rowSum st (fun r => bit (pending task async r)) (h :: hs) =
        ((st.mem h).rows.map fun r => bit (pending task async r)).sum +
          rowSum st (fun r => bit (pending task async r)) hs := by
      rw [rowSum, map_cons, sum_cons, rowSum]
    have hfirst := (hrows (st.mem h).rows).1
    have hrest := hnonneg hs
    rw [hcons, forall_mem_cons]
    refine ⟨fun hzero => ⟨(hrows _).2.mp (by omega), ih.mp (by omega)⟩, fun hall => ?_⟩
    rw [(hrows _).2.mpr hall.1, ih.mpr hall.2, add_zero]

theorem between_start (H : T.Orders) (hinv : st.Inv T) (hfull : st.Full) (good : Row R → Prop)
    (task : Task T) (isAsc async : Bool) :
    Between T { st with async, dirtyRowsInc := 0 } good async (matchIndexCondition st task isAsc)
      { st with async, dirtyRowsInc := 0 } :=
  ⟨hinv.congr rfl rfl rfl rfl, hfull, nodup_matchIndexCondition H hinv task isAsc,
    .refl fun g hg => hinv.lt_calls g (mem_handles_of_mem_matchIndexCondition H hinv hg), rfl⟩

theorem updateTreeData_lag (H : T.Orders) (hok : env.Unlimited) (hinv : st.Inv T) (hfull : st.Full)
    {isAsc : Bool} {iRet : Int} (hcnts : st.data.nodeCnts ≠ 0)
    (hrun : updateTreeData env task isAsc async st = some (iRet, st')) :
    iRet = 0 ∧ st'.rows.length = st.rows.length ∧
      lag st' = dirtyCount st.rows + rowSum st (fun r => bit (pending task async r))
        (matchIndexCondition st task isAsc) := by
  rw [updateTreeData, if_neg hcnts] at hrun
  have hb := between_start H hinv hfull (fun r => r.dirty = async) task isAsc async
  have hgood : ∀ l h hs', matchIndexCondition st task isAsc = l ++ h :: hs' →
      MovesGood { st with async, dirtyRowsInc := 0 } task (fun r => r.dirty = async) async h hs' :=
    fun _ _ _ _ _ _ _ _ _ _ => rfl
  obtain ⟨hret, -, hlag⟩ := potential_lag.sum_update H hok hb hgood hrun
  obtain ⟨-, -, hlen⟩ := potential_length.sum_update H hok hb hgood hrun
  rw [(rowSum_zero _ _).2, add_zero] at hlag
  rw [(rowSum_zero _ _).1, add_zero] at hlen
  have hzero : lag ({ st with async, dirtyRowsInc := 0 } : State K R) = dirtyCount st.rows :=
    sub_zero _
  exact ⟨hret, hlen, hlag.trans (by rw [hzero]; rfl)⟩

theorem exact_updateData_iff (H : T.Orders) (hok : env.Unlimited) (hinv : st.Inv T)
    (hfull : st.Full) {isAsc purged : Bool} {inc : Inc}
    (hrun : updateData env task isAsc async purged st = some (0, st', inc)) :
    inc.Exact st.rows st'.rows ↔
      if st.data.nodeCnts = 0 then st.dirtyRowsInc = 0
      else ∀ h ∈ matchIndexCondition st task isAsc, ∀ r ∈ (st.mem h).rows,
        pending task async r = false := by
  let st₀ : State K R := { st with affectedRows := 0 }
  have hinv₀ : st₀.Inv T := hinv.congr rfl rfl rfl rfl
  cases hupdate : updateTreeData env task isAsc async st₀ with
  | none =>
    simp only [updateData, retry, withUnit] at hrun
    rw [hupdate] at hrun
    cases hrun
  | some res =>
    obtain ⟨iRet, st₁⟩ := res
    have hok₁ : iRet = 0 → st' = st₁ ∧ inc = ⟨0, st₁.dirtyRowsInc⟩ := by
      rintro rfl
      have hretry : retry purged (withUnit (updateTreeData env task isAsc async)) st₀ =
          some (0, (), st₁) :=
        retry_of_ok (by rw [withUnit, hupdate]; rfl)
      simp only [updateData] at hrun
      rw [hretry] at hrun
      cases hrun
      exact ⟨rfl, rfl⟩
    by_cases hcnts : st.data.nodeCnts = 0
    · rw [updateTreeData, if_pos hcnts] at hupdate
      cases hupdate
      obtain ⟨rfl, rfl⟩ := hok₁ rfl
      rw [if_pos hcnts, Inc.exact_mk]
      change (0 : Int) = (st.rows.length : Int) - st.rows.length ∧
        st.dirtyRowsInc = (dirtyCount st.rows : Int) - dirtyCount st.rows ↔ _
      rw [sub_self, sub_self]
      exact ⟨And.right, fun h => ⟨rfl, h⟩⟩
    · obtain ⟨rfl, hrows, hlag⟩ := updateTreeData_lag H hok hinv₀ hfull hcnts hupdate
      obtain ⟨rfl, rfl⟩ := hok₁ rfl
      have hlag' : (dirtyCount st'.rows : Int) - st'.dirtyRowsInc = dirtyCount st.rows +
          rowSum st (fun r => bit (pending task async r)) (matchIndexCondition st task isAsc) := hlag
      have hrows' : st'.rows.length = st.rows.length := hrows
      rw [if_neg hcnts, Inc.exact_mk, ← rowSum_pending_eq_zero]
      omega

/-! ## Replacement -/

section Replace

variable {uniq : R → R → Bool} {indexUniq : Bool} {newRow : R}

/-- The row a replacement meets: the first one, in index order, that is the same in the unique
fields. -/
def conflictRow (T : Table K R) (uniq : R → R → Bool) (indexUniq : Bool) (newRow : R)
    (st : State K R) : Option (Row R) :=
  if st.data.nodeCnts = 0 then none
  else st.rows.find? fun r =>
    (!indexUniq || decide (T.index r.value = T.index newRow)) && uniq newRow r.value

omit [LinearOrder K] in
theorem findUniq_spec (uniq : R → R → Bool) (newRow : R) (record : Record K R) :
    findUniq uniq newRow record = none ∧
        record.rows.find? (fun r => uniq newRow r.value) = none ∨
      ∃ pos row, findUniq uniq newRow record = some pos ∧ record.rows[pos]? = some row ∧
        record.rows.find? (fun r => uniq newRow r.value) = some row := by
  rw [List.find?_eq_bind_findIdx?_getElem?, findUniq]
  cases hfind : record.rows.findIdx? fun r => uniq newRow r.value with
  | none => exact .inl ⟨rfl, rfl⟩
  | some pos =>
    obtain ⟨hpos, -⟩ := List.findIdx?_eq_some_iff_getElem.mp hfind
    exact .inr ⟨pos, _, rfl, List.getElem?_eq_getElem hpos, List.getElem?_eq_getElem hpos⟩

omit [LinearOrder K] in
/-- The records are searched in the order of the list. -/
theorem findSome?_findUniq (uniq : R → R → Bool) (newRow : R) (st : State K R) (l : List Handle) :
    let search := l.findSome? fun h =>
      (findUniq uniq newRow (st.mem h)).map fun pos => (h, pos)
    let met := l.findSome? fun h => (st.mem h).rows.find? fun r => uniq newRow r.value
    search = none ∧ met = none ∨ ∃ h pos row, search = some (h, pos) ∧ h ∈ l ∧
      (st.mem h).rows[pos]? = some row ∧ met = some row := by
  induction l with
  | nil => exact .inl ⟨rfl, rfl⟩
  | cons h hs ih =>
    dsimp only
    rw [List.findSome?_cons, List.findSome?_cons]
    rcases findUniq_spec uniq newRow (st.mem h) with ⟨h1, h2⟩ | ⟨pos, row, h1, hrow, h2⟩
    · rw [h1, h2]
      rcases ih with hnone | ⟨g, pos, row, hsearch, hg, hrow, hmet⟩
      · exact .inl hnone
      · exact .inr ⟨g, pos, row, hsearch, mem_cons_of_mem _ hg, hrow, hmet⟩
    · rw [h1, h2]
      exact .inr ⟨h, pos, row, rfl, mem_cons_self, hrow, rfl⟩

theorem findSome?_eq_of_unique {A B : Type} {f : A → Option B} {l : List A} {a : A} (ha : a ∈ l)
    (hother : ∀ x ∈ l, x ≠ a → f x = none) : l.findSome? f = f a := by
  induction l with
  | nil => cases ha
  | cons x xs ih =>
    rw [List.findSome?_cons]
    by_cases hx : x = a
    · subst hx
      cases hf : f x with
      | some b => rfl
      | none =>
        refine List.findSome?_eq_none_iff.mpr fun y hy => ?_
        by_cases hyx : y = x
        · exact hyx ▸ hf
        · exact hother y (mem_cons_of_mem _ hy) hyx
    · rw [hother x mem_cons_self hx]
      exact ih ((mem_cons.mp ha).resolve_left (Ne.symm hx)) fun y hy =>
        hother y (mem_cons_of_mem _ hy)

theorem compareTreeData_spec (H : T.Orders) (hinv : st.Inv T) (uniq : R → R → Bool)
    (indexUniq : Bool) (newRow : R) :
    compareTreeData T uniq indexUniq newRow st = none ∧
        conflictRow T uniq indexUniq newRow st = none ∨
      ∃ h pos row, compareTreeData T uniq indexUniq newRow st = some (h, pos) ∧
        h ∈ st.handles ∧ (st.mem h).rows[pos]? = some row ∧
        conflictRow T uniq indexUniq newRow st = some row := by
  rw [compareTreeData, conflictRow]
  by_cases hcnts : st.data.nodeCnts = 0
  · rw [if_pos hcnts, if_pos hcnts]
    exact .inl ⟨rfl, rfl⟩
  rw [if_neg hcnts, if_neg hcnts, State.rows, List.find?_flatMap]
  cases indexUniq with
  | true =>
    -- only the record of the index value has rows that can be met
    have hother : ∀ h ∈ st.handles, st.keyOf h ≠ T.index newRow →
        (st.mem h).rows.find? (fun r => (!true || decide (T.index r.value = T.index newRow)) &&
          uniq newRow r.value) = none := by
      intro h hh hne
      rw [List.find?_eq_none]
      intro r hr
      simp [hinv.index h hh r hr, hne]
    simp only [if_true]
    cases hfind : st.find T (T.index newRow) with
    | none =>
      refine .inl ⟨rfl, List.findSome?_eq_none_iff.mpr fun h hh => hother h hh ?_⟩
      exact (hinv.find_eq_none H).mp hfind h hh
    | some h =>
      obtain ⟨hh, hkey⟩ := (hinv.find_eq_some H).mp hfind
      have hrecord : (st.mem h).rows.find? (fun r => (!true || decide (T.index r.value =
          T.index newRow)) && uniq newRow r.value) =
          (st.mem h).rows.find? fun r => uniq newRow r.value := by
        refine List.find?_congr fun r hr => ?_
        simp [hinv.index h hh r hr, hkey]
      rw [findSome?_eq_of_unique hh fun g hg hne => hother g hg fun heq => hne
        (SortedBy.eq_of_key_eq hinv.sorted hg hh (heq.trans hkey.symm)), hrecord]
      rcases findUniq_spec uniq newRow (st.mem h) with ⟨h1, h2⟩ | ⟨pos, row, h1, hrow, h2⟩
      · exact .inl ⟨by simp only [bind_eq_bind, bind_some, h1, bind_none], h2⟩
      · simp only [bind_eq_bind, bind_some, h1, h2]
        exact .inr ⟨h, pos, row, rfl, hh, hrow, rfl⟩
  | false =>
    have hall : (st.root.traverseForward (visit st 0) ⟨[], 0⟩).handles = st.handles := by
      rw [TtreeNode.traverseForward_eq, foldl_visit, taken_zero, nil_append, State.handles]
    simp only [Bool.false_eq_true, if_false, hall, Bool.not_false, Bool.true_or, Bool.true_and]
    exact findSome?_findUniq uniq newRow st st.handles

/-- What `replace_tree_data` does where a row is met. -/
inductive ReplaceChange (env : Mallocator) (T : Table K R) (uniq : R → R → Bool) (indexUniq : Bool)
    (newRow : R) (row : Row R) (st : State K R) : Option Bool → State K R → Prop
  | moved (v : UpdateVars R) (st₁ st₂ st₃ : State K R)
      (hmet : compareTreeData T uniq indexUniq newRow st = some (v.content, v.pos))
      (hh : v.content ∈ st.handles) (hrow : (st.mem v.content).rows[v.pos]? = some row)
      (hne : T.index newRow ≠ st.keyOf v.content)
      (hcall : insertRow T env newRow st.async st = some (0, st₁))
      (hins : Inserted env T newRow st.async st st₁)
      (hdel : RowDeleted T v.content v.pos row st₁ st₂) (hend : UpdateEnd v st₂ st₃) :
      ReplaceChange env T uniq indexUniq newRow row st (some row.dirty)
        { st₃ with affectedRows := 2 }
  | replaced (v : UpdateVars R) (h' : Handle) (st₁ : State K R) (hh : v.content ∈ st.handles)
      (hrow : (st.mem v.content).rows[v.pos]? = some row)
      (heq : T.index newRow = st.keyOf v.content)
      (hrep : RowReplaced env T v.content h' v.pos row (row.replace newRow st.async) st st₁) :
      ReplaceChange env T uniq indexUniq newRow row st none { st₁ with affectedRows := 2 }

theorem replaceTreeData_spec (H : T.Orders) (hok : env.Unlimited) (hinv₀ : st.Inv T)
    (hzero : ({ st with affectedRows := 0 } : State K R) = st) (uniq : R → R → Bool)
    (indexUniq : Bool) (newRow : R) :
    conflictRow T uniq indexUniq newRow st = none ∧
        replaceTreeData env T uniq indexUniq newRow st = some (0, none, st) ∨
      ∃ row flags st', conflictRow T uniq indexUniq newRow st = some row ∧
        replaceTreeData env T uniq indexUniq newRow st = some (0, flags, st') ∧
        ReplaceChange env T uniq indexUniq newRow row st flags st' := by
  simp only [replaceTreeData]
  rw [hzero]
  rcases compareTreeData_spec H hinv₀ uniq indexUniq newRow with
    ⟨hnone, hconf⟩ | ⟨h, pos, row, hsome, hh, hrow, hconf⟩
  · rw [hnone]
    exact .inl ⟨hconf, rfl⟩
  · refine .inr ?_
    rw [hsome]
    have hindex : T.index row.value = st.keyOf h :=
      hinv₀.index h hh row (mem_of_getElem? hrow)
    dsimp only
    by_cases hkey : T.index newRow = st.keyOf h
    · have hzero : T.keyCompare (T.index newRow) (st.mem h).key = 0 :=
        (H.keyCompare_eq_zero _ _).mpr hkey
      have hfind : st.find T (T.index newRow) = some h :=
        (hinv₀.find_eq_some H).mpr ⟨hh, hkey.symm⟩
      obtain ⟨h', st₁, heq, hrep⟩ := replaceCurRow_spec hok hinv₀ hh hrow newRow st.async
      rw [if_neg (not_not_intro hzero), hfind]
      dsimp only
      rw [if_neg (not_not_intro rfl), heq]
      exact ⟨row, none, _, hconf, rfl, .replaced ⟨pos, h, 0, 0, none⟩ h' st₁ hh hrow hkey hrep⟩
    · have hzero : T.keyCompare (T.index newRow) (st.mem h).key ≠ 0 :=
        fun heq => hkey ((H.keyCompare_eq_zero _ _).mp heq)
      obtain ⟨st₁, heq, hins⟩ := insertRow_spec H hok hinv₀ newRow st.async
      obtain ⟨hmem, hsame⟩ := hins.mem_of_ne hinv₀ hh (Ne.symm hkey)
      have hinv₁ : st₁.Inv T := hins.inv hinv₀
      have hrow₁ : (st₁.mem h).rows[pos]? = some row := hsame ▸ hrow
      obtain ⟨st₂, heq₂, hdel⟩ := deleteCurRow_spec hinv₁ hmem hrow₁
      have hlive₁ : st₁.live h = true := (hinv₁.live_iff _).mpr hmem
      have hinv₂ : st₂.Inv T := hdel.inv hinv₁ hmem
      have hkey₂ : T.index row.value = st₂.keyOf h := by
        rw [hdel.keyOf hinv₁ hmem, State.keyOf, hsame]
        exact hindex
      have hlen : (st₂.mem h).rows.length + 1 = (st₁.mem h).rows.length := by
        have hpos := (List.getElem?_eq_some_iff.mp hrow₁).1
        rw [hdel.rows, length_eraseIdx_of_lt hpos]
        omega
      rw [if_pos hzero]
      simp only [heq, bind_eq_bind, bind_some, hlive₁, hrow₁, heq₂,
        Bool.true_eq_false, if_false, show ¬(0 : Int) = ecNoMem from by decide, ne_eq,
        not_true_eq_false]
      by_cases hone : (st₁.mem h).rows.length = 1
      · have hempty : (st₂.mem h).rows = [] := length_eq_zero_iff.mp (by omega)
        obtain ⟨st₃, heq₃, hdrops, hroot, hcnt, hnodes, hraw, hsized, hmembers⟩ :=
          dropRecord_spec H hinv₂ (hdel.handles ▸ hmem)
        simp only [if_pos hone, hkey₂, heq₃, bind_some, not_true_eq_false, if_false]
        exact ⟨row, _, _, hconf, rfl, .moved ⟨pos, h, 0, 0, none⟩ st₁ st₂ st₃ hsome hh hrow hkey heq
          hins hdel (.dropped st₃ hempty hdrops hroot hnodes hcnt hraw hsized hmembers)⟩
      · have hne : (st₂.mem h).rows ≠ [] := by
          rw [← length_pos_iff]
          omega
        simp only [if_neg hone]
        exact ⟨row, _, _, hconf, rfl, .moved ⟨pos, h, 0, 0, none⟩ st₁ st₂ st₂ hsome hh hrow hkey heq
          hins hdel (.kept hne)⟩

theorem bit_inj {a b : Bool} : bit a = bit b ↔ a = b := by
  cases a <;> cases b <;> decide

theorem ReplaceChange.counts {flags : Option Bool} (hinv : st.Inv T)
    (h : ReplaceChange env T uniq indexUniq newRow row st flags st') :
    st'.affectedRows = 2 ∧ st'.rows.length = st.rows.length ∧
      if T.index newRow = T.index row.value then flags = none ∧ (dirtyCount st'.rows : Int) =
        dirtyCount st.rows - bit row.dirty + bit (row.replace newRow st.async).dirty
      else flags = some row.dirty ∧ (dirtyCount st'.rows : Int) =
        dirtyCount st.rows - bit row.dirty + bit st.async := by
  cases h with
  | moved v st₁ st₂ st₃ hmet hh hrow hne hcall hins hdel hend =>
    have hindex : T.index row.value = st.keyOf v.content :=
      hinv.index _ hh row (mem_of_getElem? hrow)
    obtain ⟨hmem, hsame⟩ := hins.mem_of_ne hinv hh (Ne.symm hne)
    have hchange₁ := hins.rowsChange hinv
    have hchange₂ := hdel.rowsChange (hins.inv hinv) hmem (by rw [hsame]; exact hrow)
    have hrows : ({ st₃ with affectedRows := 2 } : State K R).rows = st₂.rows := hend.rows.1
    have hlen₁ := hchange₁.length
    have hlen₂ := hchange₂.length
    have hdirty₁ := hchange₁.dirtyCount
    have hdirty₂ := hchange₂.dirtyCount
    rw [dirtyCount_singleton, dirtyCount_nil] at hdirty₁ hdirty₂
    simp only [length_nil, length_singleton] at hlen₁ hlen₂
    rw [if_neg (hindex ▸ hne), hrows]
    refine ⟨rfl, by omega, rfl, ?_⟩
    simp only at hdirty₁
    omega
  | replaced v h' st₁ hh hrow heq hrep =>
    have hindex : T.index row.value = st.keyOf v.content :=
      hinv.index _ hh row (mem_of_getElem? hrow)
    have hchange := hrep.rowsChange hinv hh hrow
    have hrows : ({ st₁ with affectedRows := 2 } : State K R).rows = st₁.rows := rfl
    have hlen := hchange.length
    have hdirty := hchange.dirtyCount
    rw [dirtyCount_singleton, dirtyCount_singleton] at hdirty
    simp only [length_singleton] at hlen
    rw [if_pos (heq.trans hindex.symm), hrows]
    exact ⟨rfl, by omega, rfl, hdirty⟩

theorem exact_replaceRows_iff (H : T.Orders) (hok : env.Unlimited) (hinv : st.Inv T)
    {garbage purged : Bool} {inc : Inc}
    (hrun : replaceRows T env uniq indexUniq newRow async garbage purged st = some (0, st', inc)) :
    inc.Exact st.rows st'.rows ↔
      match conflictRow T uniq indexUniq newRow st with
      | none => garbage = async
      | some row =>
        if T.index newRow = T.index row.value then
          bit async - bit garbage = bit (st.async || row.dirty) - bit row.dirty
        else st.async = async := by
  let st₀ : State K R := { st with affectedRows := 0 }
  have hinv₀ : st₀.Inv T := hinv.congr rfl rfl rfl rfl
  rcases replaceTreeData_spec H hok hinv₀ rfl uniq indexUniq newRow with
    ⟨hconf, hspec⟩ | ⟨row, flags, st₁, hconf, hspec, hchange⟩
  · have hconf' : conflictRow T uniq indexUniq newRow st = none := hconf
    have hretry : retry purged (replaceTreeData env T uniq indexUniq newRow) st =
        some (0, none, st₀) := retry_of_ok hspec
    obtain ⟨st₁, heq, hins⟩ := insertRow_spec H hok hinv₀ newRow async
    have hretry₁ : retry purged (withUnit (insertRow T env newRow async)) st₀ =
        some (0, (), st₁) := retry_of_ok (by rw [withUnit, heq]; rfl)
    simp only [replaceRows, hretry, bind_eq_bind, bind_some, ne_eq,
      not_true_eq_false, if_false] at hrun
    rw [if_pos rfl, hretry₁] at hrun
    simp only [bind_some, not_true_eq_false, if_false] at hrun
    cases hrun
    have hlen := (hins.rowsChange hinv₀).length
    have hdirty := (hins.rowsChange hinv₀).dirtyCount
    rw [dirtyCount_singleton, dirtyCount_nil] at hdirty
    have hrows₀ : st₀.rows = st.rows := rfl
    rw [hrows₀] at hlen hdirty
    rw [hconf', Inc.exact_mk, getD_none, ← bit_inj]
    simp only [length_nil, length_singleton] at hlen hdirty
    omega
  · have hconf' : conflictRow T uniq indexUniq newRow st = some row := hconf
    have hretry : retry purged (replaceTreeData env T uniq indexUniq newRow) st =
        some (0, flags, st₁) := retry_of_ok hspec
    obtain ⟨haffected, hlen, hcounts⟩ := hchange.counts hinv₀
    have hne : ¬st₁.affectedRows = 0 := by
      rw [haffected]
      decide
    simp only [replaceRows, hretry, bind_eq_bind, bind_some, ne_eq,
      not_true_eq_false, if_false, if_neg hne] at hrun
    cases hrun
    have hrows₀ : st₀.rows = st.rows := rfl
    rw [hrows₀] at hlen hcounts
    rw [hconf', Inc.exact_mk]
    dsimp only
    split_ifs at hcounts ⊢ with hindex
    · obtain ⟨rfl, hdirty⟩ := hcounts
      rw [Row.replace_dirty] at hdirty
      change _ = _ - _ + bit (st.async || row.dirty) at hdirty
      rw [getD_none]
      omega
    · obtain ⟨rfl, hdirty⟩ := hcounts
      change _ = _ - _ + bit st.async at hdirty
      rw [getD_some, ← bit_inj]
      omega

end Replace

end ISearch.TreeData
