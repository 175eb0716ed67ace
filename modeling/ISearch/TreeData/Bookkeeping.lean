import ISearch.TreeData.Exact
import Mathlib.Data.List.Dedup

/-!
# The root of a tree node (`RootData`)

Every primitive of the engine brings the counters of the root up to date, so they are right in every
run of requests. `m_treeSize` is right as long as the T-tree reports the nodes it frees
(`DropReported`): `isFreeNode` is raised in one case only, and not when a leaf is freed.
-/

namespace ISearch.TreeData

open TTree BufferProcess State List

variable {K R : Type} [LinearOrder K] {T : Table K R} {env : Mallocator} {st st' : State K R}

/-- The encoded size of rows. -/
def rawSize (T : Table K R) (rows : List (Row R)) : Nat :=
  (rows.map fun r => T.rowSize r.value).sum

/-- The counters of the root, as `uint32_t`. -/
structure Booked (T : Table K R) (st : State K R) : Prop where
  rowCnt : st.data.rowCnt = .ofNat st.rows.length
  nodeCnts : st.data.nodeCnts = .ofNat st.handles.length
  totalRawSize : st.data.totalRawSize = .ofNat (rawSize T st.rows)
  hRoot : st.data.hRoot = st.root

/-! ## Primitives -/

theorem ofNat_eq_of_add_eq {c : UInt32} {n n' a b : Nat} (hc : c = .ofNat n)
    (hn : n' + a = n + b) : c - .ofNat a + .ofNat b = .ofNat n' := by
  have h := congrArg UInt32.ofNat hn
  rw [UInt32.ofNat_add, UInt32.ofNat_add, ← hc] at h
  grind

section Primitives

variable {old new : List (Row R)} {newRow : R} {dirty : Bool} {h h' : Handle} {pos : Nat}
  {row row' : Row R}

omit [LinearOrder K] in
theorem RowsChange.length_add (hc : RowsChange st st' old new) :
    st'.rows.length + old.length = st.rows.length + new.length := by
  obtain ⟨a, b, hst, hst'⟩ := hc
  rw [hst, hst']
  simp only [length_append]
  omega

omit [LinearOrder K] in
theorem RowsChange.rawSize_add (hc : RowsChange st st' old new) :
    rawSize T st'.rows + rawSize T old = rawSize T st.rows + rawSize T new := by
  obtain ⟨a, b, hst, hst'⟩ := hc
  rw [hst, hst']
  simp only [rawSize, map_append, sum_append]
  omega

theorem Booked.inserted (hb : Booked T st) (hinv : st.Inv T)
    (hi : Inserted env T newRow dirty st st') : Booked T st' := by
  have hchange := hi.rowsChange hinv
  have hrows := hchange.length_add
  have hraw := hchange.rawSize_add (T := T)
  simp only [length_nil, length_singleton, rawSize, map_nil, map_cons,
    sum_nil, sum_cons] at hrows hraw
  refine ⟨?_, ?_, ?_, hi.hRoot⟩
  · rw [hi.rowCnt, ← ofNat_eq_of_add_eq hb.rowCnt hrows]
    simp
  · cases hi.change with
    | added record hnew hadds hkey hrows hfits hcnts =>
      have hlen := hadds.spliced.length_eq
      rw [hcnts, hb.nodeCnts, hlen, UInt32.ofNat_add]
      rfl
    | extended x x' record hx hindex hw hkey hrows hfits hroom hfixed hcnts =>
      rw [hcnts, hb.nodeCnts, hw.handles, length_map]
  · rw [hi.totalRawSize, rawSize, ← ofNat_eq_of_add_eq hb.totalRawSize hraw]
    simp

theorem Inserted.full (hi : Inserted env T newRow dirty st st') (hinv : st.Inv T) (hfull : st.Full) :
    st'.Full := by
  -- no record has the handle of the next call
  have hexcept : FullExcept st'.calls st' :=
    FullExcept.inserted (fun g hg _ => hfull g hg) hinv hi
  exact fun g hg => hexcept g hg ((hi.inv hinv).lt_calls g hg).ne

theorem Booked.deleted (hb : Booked T st) (hinv : st.Inv T) (hh : h ∈ st.handles)
    (hrow : (st.mem h).rows[pos]? = some row) (hd : RowDeleted T h pos row st st') :
    Booked T st' := by
  have hchange := hd.rowsChange hinv hh hrow
  have hrows := hchange.length_add
  have hraw := hchange.rawSize_add (T := T)
  simp only [length_nil, length_singleton, rawSize, map_nil, map_cons,
    sum_nil, sum_cons] at hrows hraw
  refine ⟨?_, ?_, ?_, ?_⟩
  · rw [hd.data, ← ofNat_eq_of_add_eq hb.rowCnt hrows]
    simp
  · rw [hd.data, hd.handles]
    exact hb.nodeCnts
  · rw [hd.data, rawSize, ← ofNat_eq_of_add_eq hb.totalRawSize hraw]
    simp
  · rw [hd.data, hd.rewrites.root, replaceItem_self]
    exact hb.hRoot

theorem Booked.replaced (hb : Booked T st) (hinv : st.Inv T) (hh : h ∈ st.handles)
    (hrow : (st.mem h).rows[pos]? = some row) (hr : RowReplaced env T h h' pos row row' st st') :
    Booked T st' := by
  have hchange := hr.rowsChange hinv hh hrow
  have hrows := hchange.length_add
  have hraw := hchange.rawSize_add (T := T)
  obtain ⟨chunkSize, hw⟩ := hr.chunk
  simp only [length_singleton, rawSize, map_nil, map_cons, sum_nil,
    sum_cons, Nat.add_zero] at hrows hraw
  refine ⟨?_, ?_, ?_, ?_⟩
  · rw [hr.rowCnt, hb.rowCnt]
    congr 1
    omega
  · rw [hr.nodeCnts, hb.nodeCnts, hw.handles, length_map]
  · rw [hr.totalRawSize, rawSize, ← ofNat_eq_of_add_eq hb.totalRawSize hraw]
    grind
  · rw [hr.hRoot, hw.root, hb.hRoot]

theorem Booked.ended {v : UpdateVars R} (hb : Booked T st) (hend : UpdateEnd v st st') :
    Booked T st' := by
  have hrows : st'.rows = st.rows := hend.rows.1
  cases hend with
  | kept => exact hb
  | dropped st' hempty hdrops hRoot hcnts hrowCnt hraw hsized hmembers =>
    have hlen := hdrops.spliced.length_eq
    refine ⟨?_, ?_, ?_, hRoot⟩
    · rw [hrowCnt, hrows, hb.rowCnt]
    · rw [hcnts, ← ofNat_eq_of_add_eq (a := 1) (b := 0) hb.nodeCnts (by omega)]
      simp
    · rw [hraw, hrows, hb.totalRawSize]

end Primitives

/-! ## Requests -/

/-- The counters are right, and the size is where `S` holds. -/
structure Accounted (T : Table K R) (S : Prop) (st : State K R) : Prop where
  booked : Booked T st
  sized : S → st.Sized

namespace Accounted

variable {S : Prop} {newRow : R} {dirty : Bool} {h h' : Handle} {pos : Nat} {row row' : Row R}

theorem inserted (ha : Accounted T S st) (hinv : st.Inv T)
    (hi : Inserted env T newRow dirty st st') : Accounted T S st' :=
  ⟨ha.booked.inserted hinv hi, fun hS => hi.sized (ha.sized hS)⟩

theorem deleted (ha : Accounted T S st) (hinv : st.Inv T) (hh : h ∈ st.handles)
    (hrow : (st.mem h).rows[pos]? = some row) (hd : RowDeleted T h pos row st st') :
    Accounted T S st' := by
  refine ⟨ha.booked.deleted hinv hh hrow hd, fun hS => ?_⟩
  refine hd.rewrites.sized hinv hh ?_ (ha.sized hS)
  rw [hd.data]
  change st.data.treeSize = st.data.treeSize - .ofNat (st.mem h).chunkSize +
    .ofNat (st.mem h).chunkSize
  grind

theorem replaced (ha : Accounted T S st) (hinv : st.Inv T) (hh : h ∈ st.handles)
    (hrow : (st.mem h).rows[pos]? = some row) (hr : RowReplaced env T h h' pos row row' st st') :
    Accounted T S st' :=
  ⟨ha.booked.replaced hinv hh hrow hr, fun hS => hr.sized (ha.sized hS)⟩

theorem ended {v : UpdateVars R} (ha : Accounted T S st) (hend : UpdateEnd v st st')
    (hS : S → (st.mem v.content).rows = [] → DropReported st v.content) : Accounted T S st' := by
  refine ⟨ha.booked.ended hend, fun hs => ?_⟩
  cases hend with
  | kept => exact ha.sized hs
  | dropped st' hempty hdrops hRoot hcnts hrowCnt hraw hsized hmembers =>
    exact hsized (hS hs hempty) (ha.sized hs)

omit [LinearOrder K] in
/-- What a request counts for itself is not part of the root. -/
theorem congr (ha : Accounted T S st) (hroot : st'.root = st.root) (hmem : st'.mem = st.mem)
    (hdata : st'.data = st.data) : Accounted T S st' := by
  obtain ⟨root, mem, live, calls, data, affectedRows, rowsInc, dirtyRowsInc, async⟩ := st'
  subst hroot hmem hdata
  exact ⟨⟨ha.booked.rowCnt, ha.booked.nodeCnts, ha.booked.totalRawSize, ha.booked.hRoot⟩,
    ha.sized⟩

theorem loopRule {task : Task T} {hRecord : Handle} {k : K} {total : Nat} :
    LoopRule env task hRecord k total fun _ st => Accounted T S st where
  skip _ _ _ hq := hq
  step hl hat hrow hcmp hstep hq := by
    cases hstep with
    | moved st₁ st₂ hne hins hdel =>
      obtain ⟨hmem, hsame⟩ := hins.mem_of_ne hl.inv hl.content (Ne.symm hne)
      have hinv₁ := hins.inv hl.inv
      exact ((hq.inserted hl.inv hins).deleted hinv₁ hmem (by rw [hsame]; exact hrow) hdel).congr
        rfl rfl rfl
    | replaced h' st₁ heq hrep =>
      exact (hq.replaced hl.inv hl.content hrow hrep).congr rfl rfl rfl

theorem deleteRule {content : Handle} : DeleteRule T content (Accounted T S) :=
  fun hinv hh hrow hdel hq => (hq.deleted hinv hh hrow hdel).congr rfl rfl rfl

end Accounted

/-- A condition on every record a request visits, in the state in which it is visited. -/
def Throughout (subRowProc : Handle → State K R → Option (Int × State K R))
    (ok : Handle → State K R → Prop) : List Handle → State K R → Prop
  | [], _ => True
  | h :: hs, st => ok h st ∧ ∀ iRet st', subRowProc h st = some (iRet, st') →
    Throughout subRowProc ok hs st'

/-- A record whose rows are all moved by an update leaves the T-tree with a report. -/
def UpdateReported (env : Mallocator) (task : Task T) (h : Handle) (st : State K R) : Prop :=
  ∀ v st₁, updateRows env task h (st.mem h).rows.length ⟨0, h, 0, 0, none⟩ st =
    some (.ok v, st₁) → (st₁.mem v.content).rows = [] → DropReported st₁ v.content

/-- A record whose rows are all deleted leaves the T-tree with a report. -/
def DeleteReported (task : Task T) (h : Handle) (st : State K R) : Prop :=
  ∀ affected cur st₁, deleteRows task h (st.mem h).rows.length 0 0 none st =
    some (affected, cur, st₁) → (st₁.mem h).rows = [] → DropReported st₁ h

/-- The calls of `TreeData` that write a node. -/
inductive Op (T : Table K R) where
  | insertRow (row : R) (dirty : Bool)
  | update (task : Task T) (isAsc async : Bool)
  | replace (uniq : R → R → Bool) (indexUniq : Bool) (newRow : R)
  | delete (task : Task T) (isAsc : Bool)

namespace Op

def call (env : Mallocator) (st : State K R) : Op T → Option (Int × State K R)
  | insertRow row dirty => TreeData.insertRow T env row dirty st
  | update task isAsc async => updateTreeData env task isAsc async st
  | replace uniq indexUniq newRow =>
    (replaceTreeData env T uniq indexUniq newRow st).map fun (iRet, _, st) => (iRet, st)
  | delete task isAsc => deleteTreeData task isAsc st

/-- The records a call empties leave the T-tree with a report. -/
def Reported (env : Mallocator) (st : State K R) : Op T → Prop
  | insertRow .. => True
  | update task isAsc async => Throughout (updateSubRawData env task) (UpdateReported env task)
      (matchIndexCondition st task isAsc) { st with async, dirtyRowsInc := 0 }
  | replace uniq indexUniq newRow => ∀ h pos st₁,
      compareTreeData T uniq indexUniq newRow { st with affectedRows := 0 } = some (h, pos) →
      T.index newRow ≠ st.keyOf h → (st.mem h).rows.length = 1 →
      TreeData.insertRow T env newRow st.async { st with affectedRows := 0 } = some (0, st₁) →
      DropReported st₁ h
  | delete task isAsc => Throughout (deleteSubRawData task) (DeleteReported task)
      (matchIndexCondition { st with rowsInc := 0, dirtyRowsInc := 0 } task isAsc)
      { st with rowsInc := 0, dirtyRowsInc := 0 }

variable {S : Prop} {iRet : Int}

theorem insertRow_accounted (H : T.Orders) (hok : env.Unlimited) (hinv : st.Inv T)
    (hfull : st.Full) (ha : Accounted T S st) {row : R} {dirty : Bool}
    (hrun : TreeData.insertRow T env row dirty st = some (iRet, st')) :
    st'.Inv T ∧ st'.Full ∧ Accounted T S st' := by
  obtain ⟨st₁, heq, hins⟩ := insertRow_spec H hok hinv row dirty
  rw [heq] at hrun
  cases hrun
  exact ⟨hins.inv hinv, hins.full hinv hfull, ha.inserted hinv hins⟩

theorem update_accounted (H : T.Orders) (hok : env.Unlimited) (hinv : st.Inv T)
    (hfull : st.Full) (ha : Accounted T S st) {task : Task T} {isAsc async : Bool}
    (hS : S → (update task isAsc async).Reported env st)
    (hrun : updateTreeData env task isAsc async st = some (iRet, st')) :
    st'.Inv T ∧ st'.Full ∧ Accounted T S st' := by
  rw [updateTreeData] at hrun
  split_ifs at hrun with hcnts
  · cases hrun
    exact ⟨hinv, hfull, ha⟩
  let st₀ : State K R := { st with async, dirtyRowsInc := 0 }
  have hstart := between_start H hinv hfull (fun _ => True) task isAsc async
  obtain ⟨-, hb, ha', -⟩ := forEach_rule
    (P := fun hs st' => Between T st₀ (fun _ => True) async hs st' ∧ Accounted T S st' ∧
      (S → Throughout (updateSubRawData env task) (UpdateReported env task) hs st'))
    (fun h hs st₁ iRet st₂ hp hproc => by
      obtain ⟨rfl, hb, v, st₃, hloop, hl, hq, hend⟩ := updateSubRawData_between H hok hp.1
        (fun _ _ _ _ _ _ => trivial) Accounted.loopRule (fun _ => hp.2.1) hproc
      exact ⟨rfl, hb, hq.ended hend fun hs => (hp.2.2 hs).1 v st₃ hloop,
        fun hs => (hp.2.2 hs).2 _ _ hproc⟩)
    ⟨hstart, ha.congr rfl rfl rfl, hS⟩ hrun
  exact ⟨hb.inv, hb.full, ha'⟩

theorem delete_accounted (H : T.Orders) (hinv : st.Inv T) (hfull : st.Full)
    (ha : Accounted T S st) {task : Task T} {isAsc : Bool}
    (hS : S → (delete task isAsc).Reported env st)
    (hrun : deleteTreeData task isAsc st = some (iRet, st')) :
    st'.Inv T ∧ st'.Full ∧ Accounted T S st' := by
  rw [deleteTreeData] at hrun
  split_ifs at hrun with hcnts
  · cases hrun
    exact ⟨hinv, hfull, ha⟩
  let st₀ : State K R := { st with rowsInc := 0, dirtyRowsInc := 0 }
  have hinv₀ : st₀.Inv T := hinv.congr rfl rfl rfl rfl
  have hfull₀ : st₀.Full := hfull
  have ha₀ : Accounted T S st₀ := ha.congr rfl rfl rfl
  dsimp only at hrun
  split_ifs at hrun with hall
  · cases hrun
    exact ⟨hinv₀, hfull₀, ha₀⟩
  obtain ⟨-, hinv', hfull', ha', -⟩ := forEach_rule
    (P := fun hs st' => st'.Inv T ∧ st'.Full ∧ Accounted T S st' ∧
      (S → Throughout (deleteSubRawData task) (DeleteReported task) hs st'))
    (fun h hs st₁ iRet st₂ hp hproc => by
      obtain ⟨rfl, hinv₂, hfull₂, affected, cur, st₃, hloop, -, -, hq, hend⟩ :=
        deleteSubRawData_rule H hp.1 hp.2.1 Accounted.deleteRule hp.2.2.1 hproc
      exact ⟨rfl, hinv₂, hfull₂, hq.ended hend fun hs => (hp.2.2.2 hs).1 affected cur st₃ hloop,
        fun hs => (hp.2.2.2 hs).2 _ _ hproc⟩)
    ⟨hinv₀, hfull₀, ha₀, hS⟩ hrun
  exact ⟨hinv', hfull', ha'⟩

theorem dropReported_of_deleted {h : Handle} {pos : Nat} {row : Row R} (hinv : st.Inv T)
    (hh : h ∈ st.handles) (hd : RowDeleted T h pos row st st') (hrep : DropReported st h) :
    DropReported st' h := by
  have hkey : st'.keyOf = st.keyOf := by
    funext g
    by_cases hg : g = h
    · rw [hg, hd.keyOf hinv hh]
    · rw [State.keyOf, hd.rewrites.mem_of_ne hg, State.keyOf]
  have hroot : st'.root = st.root := by rw [hd.rewrites.root, replaceItem_self]
  rw [DropReported, hroot, hkey]
  exact hrep

theorem replace_accounted (H : T.Orders) (hok : env.Unlimited) (hinv : st.Inv T)
    (hfull : st.Full) (ha : Accounted T S st) {uniq : R → R → Bool} {indexUniq : Bool}
    {newRow : R} (hS : S → (replace (T := T) uniq indexUniq newRow).Reported env st)
    {flags : Option Bool}
    (hrun : replaceTreeData env T uniq indexUniq newRow st = some (iRet, flags, st')) :
    st'.Inv T ∧ st'.Full ∧ Accounted T S st' := by
  let st₀ : State K R := { st with affectedRows := 0 }
  have hinv₀ : st₀.Inv T := hinv.congr rfl rfl rfl rfl
  have hfull₀ : st₀.Full := hfull
  have ha₀ : Accounted T S st₀ := ha.congr rfl rfl rfl
  have hsame : replaceTreeData env T uniq indexUniq newRow st =
      replaceTreeData env T uniq indexUniq newRow st₀ := rfl
  rw [hsame] at hrun
  rcases replaceTreeData_spec H hok hinv₀ rfl uniq indexUniq newRow with
    ⟨-, heq⟩ | ⟨row, flags₁, st₁, -, heq, hchange⟩
  · rw [heq] at hrun
    obtain ⟨-, hrest⟩ := Prod.mk.inj (Option.some.inj hrun)
    rw [← (Prod.mk.inj hrest).2]
    exact ⟨hinv₀, hfull₀, ha₀⟩
  · rw [heq] at hrun
    cases hrun
    cases hchange with
    | moved v st₁ st₂ st₃ hmet hh hrow hne hcall hins hdel hend =>
      obtain ⟨hmem, hrecord⟩ := hins.mem_of_ne hinv₀ hh (Ne.symm hne)
      have hinv₁ := hins.inv hinv₀
      have hinv₂ := hdel.inv hinv₁ hmem
      have hfull₁ := hins.full hinv₀ hfull₀
      have hexcept : FullExcept v.content st₂ :=
        FullExcept.rewrites (fun g hg _ => hfull₁ g hg) hdel.rewrites hinv₁ hmem
      have ha₂ : Accounted T S st₂ :=
        (ha₀.inserted hinv₀ hins).deleted hinv₁ hmem (by rw [hrecord]; exact hrow) hdel
      have hfull₃ : st₃.Full := hend.full hexcept
      have hinv₃ : st₃.Inv T := by
        cases hend with
        | kept => exact hinv₂
        | dropped _ _ hdrops => exact hdrops.inv hinv₂
      have ha₃ : Accounted T S st₃ := by
        refine ha₂.ended hend fun hs hempty => ?_
        refine dropReported_of_deleted hinv₁ hmem hdel (hS hs _ _ st₁ hmet hne ?_ hcall)
        have hlt : v.pos < (st₁.mem v.content).rows.length := by
          rw [hrecord]
          exact (List.getElem?_eq_some_iff.mp hrow).1
        have hlen := congrArg List.length (hempty ▸ hdel.rows)
        rw [length_eraseIdx_of_lt hlt, length_nil, hrecord] at hlen
        rw [hrecord] at hlt
        change (st₀.mem v.content).rows.length = 1
        omega
      exact ⟨hinv₃.congr rfl rfl rfl rfl, hfull₃, ha₃.congr rfl rfl rfl⟩
    | replaced v h' st₁ hh hrow hkey hrep =>
      obtain ⟨chunkSize, hw⟩ := hrep.chunk
      have hne : (Record.setRows T { st₀.mem v.content with chunkSize }
          ((st₀.mem v.content).rows.set v.pos (row.replace newRow st₀.async))).rows ≠ [] := by
        have hlt := (List.getElem?_eq_some_iff.mp hrow).1
        rw [← length_pos_iff]
        change 0 < ((st₀.mem v.content).rows.set v.pos (row.replace newRow st₀.async)).length
        rw [length_set]
        omega
      have hfull₁ : st₁.Full := hw.full hinv₀ hh hfull₀ hne
      exact ⟨(hrep.inv hinv₀ hh hkey).congr rfl rfl rfl rfl, hfull₁,
        (ha₀.replaced hinv₀ hh hrow hrep).congr rfl rfl rfl⟩

/-- A call keeps the invariant of the node and its root. -/
theorem call_accounted (H : T.Orders) (hok : env.Unlimited) (hinv : st.Inv T) (hfull : st.Full)
    (ha : Accounted T S st) {op : Op T} (hS : S → op.Reported env st)
    (hrun : op.call env st = some (iRet, st')) : st'.Inv T ∧ st'.Full ∧ Accounted T S st' := by
  cases op with
  | insertRow row dirty => exact insertRow_accounted H hok hinv hfull ha hrun
  | update task isAsc async => exact update_accounted H hok hinv hfull ha hS hrun
  | replace uniq indexUniq newRow =>
    obtain ⟨⟨iRet₁, flags, st₁⟩, heq, hst⟩ := Option.map_eq_some_iff.mp hrun
    cases hst
    exact replace_accounted H hok hinv hfull ha hS heq
  | delete task isAsc => exact delete_accounted H hinv hfull ha hS hrun

end Op

/-! ## Runs -/

/-- A run of calls; `none` where a call reads through a dead handle. -/
def run (env : Mallocator) : List (Op T) → State K R → Option (State K R)
  | [], st => some st
  | op :: ops, st => do
    let (_, st) ← op.call env st
    run env ops st

/-- Every call of the run meets the condition, in the state it is made in. -/
def AllReported (env : Mallocator) : List (Op T) → State K R → Prop
  | [], _ => True
  | op :: ops, st => op.Reported env st ∧ ∀ iRet st', op.call env st = some (iRet, st') →
    AllReported env ops st'

theorem run_accounted (H : T.Orders) (hok : env.Unlimited) {S : Prop} {ops : List (Op T)}
    (hinv : st.Inv T) (hfull : st.Full) (ha : Accounted T S st) (hS : S → AllReported env ops st)
    (hrun : run env ops st = some st') : st'.Inv T ∧ st'.Full ∧ Accounted T S st' := by
  induction ops generalizing st with
  | nil =>
    cases hrun
    exact ⟨hinv, hfull, ha⟩
  | cons op ops ih =>
    obtain ⟨⟨iRet, st₁⟩, hcall, hrest⟩ := Option.bind_eq_some_iff.mp hrun
    obtain ⟨hinv₁, hfull₁, ha₁⟩ := Op.call_accounted H hok hinv hfull ha (fun hs => (hS hs).1) hcall
    exact ih hinv₁ hfull₁ ha₁ (fun hs => (hS hs).2 iRet st₁ hcall) hrest

/-- The index values of the rows. -/
def indexValues (T : Table K R) (st : State K R) : List K :=
  (st.rows.map fun r => T.index r.value).dedup

/-- There is one record for each index value. -/
theorem length_indexValues (hinv : st.Inv T) (hfull : st.Full) :
    (indexValues T st).length = st.handles.length := by
  have hperm : (indexValues T st).Perm (st.handles.map st.keyOf) := by
    refine (perm_ext_iff_of_nodup (nodup_dedup _) ?_).mpr fun k => ?_
    · exact pairwise_map.mpr (hinv.sorted.imp fun hlt => hlt.ne)
    · rw [mem_dedup, mem_map, mem_map]
      constructor
      · rintro ⟨r, hr, rfl⟩
        obtain ⟨h, hh, hr⟩ := mem_flatMap.mp hr
        exact ⟨h, hh, (hinv.index h hh r hr).symm⟩
      · rintro ⟨h, hh, rfl⟩
        obtain ⟨r, hr⟩ := exists_mem_of_ne_nil _ (hfull h hh)
        exact ⟨r, mem_flatMap.mpr ⟨h, hh, hr⟩, hinv.index h hh r hr⟩
  rw [hperm.length_eq, length_map]

omit [LinearOrder K] in
theorem accounted_init (T : Table K R) (S : Prop) (mem : Handle → Record K R)
    (rowsInc dirtyRowsInc : Int) (async : Bool) :
    Accounted T S (State.init mem rowsInc dirtyRowsInc async) :=
  ⟨⟨rfl, rfl, rfl, rfl⟩, fun _ => rfl⟩

/-- The root after a run of calls on a fresh node. -/
theorem run_booked (H : T.Orders) (hok : env.Unlimited) (mem : Handle → Record K R)
    (rowsInc dirtyRowsInc : Int) (async : Bool) (ops : List (Op T))
    (hrun : run env ops (State.init mem rowsInc dirtyRowsInc async) = some st) :
    st.data.rowCnt = .ofNat st.rows.length ∧
    st.data.nodeCnts = .ofNat (indexValues T st).length ∧
    st.data.totalRawSize = .ofNat (rawSize T st.rows) ∧
    st.data.hRoot = st.root ∧
    (AllReported env ops (State.init mem rowsInc dirtyRowsInc async) →
      st.data.treeSize = .ofNat ((st.handles.map fun h => (st.mem h).chunkSize).sum +
        sizeofTtreeNode * st.root.nodes)) := by
  obtain ⟨hinv, hfull, ha⟩ := run_accounted H hok (State.inv_init T mem rowsInc dirtyRowsInc async)
    (State.full_init mem rowsInc dirtyRowsInc async)
    (accounted_init T _ mem rowsInc dirtyRowsInc async) id hrun
  refine ⟨ha.booked.rowCnt, ?_, ha.booked.totalRawSize, ha.booked.hRoot, fun hS => ?_⟩
  · rw [length_indexValues hinv hfull]
    exact ha.booked.nodeCnts
  · rw [map_eq_flatMap]
    exact ha.sized hS

/-- A request for the rows with a second number other than zero. -/
def nonzeroTask : Task natTable := ⟨[.other fun row => row.2 ≠ 0], false, 0, 0, id⟩

/-- Of two records one is emptied; the page of the T-tree keeps the other. -/
theorem run_booked_delete : ∃ st, run plainMallocator [.insertRow (3, 0) true,
      .insertRow (4, 7) true, .delete nonzeroTask true] emptyNode = some st ∧
    st.data.rowCnt = .ofNat st.rows.length ∧
    st.data.nodeCnts = .ofNat (indexValues natTable st).length ∧
    st.data.totalRawSize = .ofNat (rawSize natTable st.rows) ∧
    st.data.hRoot = st.root ∧
    st.data.treeSize = .ofNat ((st.handles.map fun h => (st.mem h).chunkSize).sum +
      sizeofTtreeNode * st.root.nodes) := by
  have hrun : run plainMallocator [.insertRow (3, 0) true, .insertRow (4, 7) true,
    .delete nonzeroTask true] emptyNode = some _ := rfl
  obtain ⟨hrowCnt, hnodeCnts, hraw, hroot, hsize⟩ :=
    run_booked natTable_orders plainMallocator_unlimited _ 0 0 false _ hrun
  refine ⟨_, hrun, hrowCnt, hnodeCnts, hraw, hroot, hsize ⟨trivial, fun _ _ h => ?_⟩⟩
  cases h
  refine ⟨trivial, fun _ _ h => ?_⟩
  cases h
  refine ⟨⟨fun _ _ _ h hrows => ?_, fun _ _ h => ?_⟩, fun _ _ _ => trivial⟩
  · cases h
    cases hrows
  · cases h
    refine ⟨fun _ _ _ h _ => ?_, fun _ _ _ => trivial⟩
    cases h
    rfl
/-- The only row is inserted and deleted again: the T-tree leaf is freed, and stays counted. -/
theorem run_keeps_leaf : ∃ st, run plainMallocator [.insertRow (3, 7) true, .delete nonzeroTask true]
      emptyNode = some st ∧
    st.data.treeSize ≠ .ofNat ((st.handles.map fun h => (st.mem h).chunkSize).sum +
      sizeofTtreeNode * st.root.nodes) := by
  refine ⟨_, rfl, ?_⟩
  decide

end ISearch.TreeData
