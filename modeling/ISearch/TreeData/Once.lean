import ISearch.TreeData.Bookkeeping
import Mathlib.Algebra.Order.Group.Multiset

/-!
# An update is applied once to each matching row

The handles of the records are collected before the first row is updated, so an update can go wrong
in three ways: it does not visit the record of a matching row, it meets a row again in a record that
it visits later, or it reads through the handle of a record that has moved since. `AppliesOnce`
rules these out; then the rows are those the update asks for.
-/

namespace ISearch.TreeData

open TTree BufferProcess State List

variable {K R : Type} [LinearOrder K] {T : Table K R} {env : Mallocator} {st₀ st st' : State K R}
  {task : Task T} {isAsc async : Bool} {h g : Handle} {hs : List Handle}

/-- The order in which records are visited. -/
def Later (isAsc : Bool) (k k' : K) : Prop := if isAsc then k < k' else k' < k

instance (isAsc : Bool) (k k' : K) : Decidable (Later isAsc k k') :=
  inferInstanceAs (Decidable (if isAsc then k < k' else k' < k))

/-- The bytes a row takes up in the record of the index value `k` when the update moves it there. -/
def arrival (task : Task T) (k : K) (r : Row R) : Nat :=
  if task.compareRow r.value = true ∧ T.index (task.updateRow r.value) = k then
    T.rowSize (task.updateRow r.value) else 0

/-- A row that the update enlarges in place: its record may move. -/
def Grows (task : Task T) (r : Row R) : Prop :=
  task.compareRow r.value = true ∧ T.index (task.updateRow r.value) = T.index r.value ∧
    T.rowSize r.value < T.rowSize (task.updateRow r.value)

structure AppliesOnce (env : Mallocator) (task : Task T) (isAsc : Bool) (st : State K R) :
    Prop where
  /-- Every matching row is in a record the request visits. -/
  visited : ∀ r ∈ st.rows, task.compareRow r.value = true → task.Reaches st (T.index r.value)
  /-- A row that is moved to a record visited later does not match there. -/
  once : ∀ r ∈ st.rows, task.compareRow r.value = true → ∀ r' ∈ st.rows,
    T.index r'.value = T.index (task.updateRow r.value) →
    Later isAsc (T.index r.value) (T.index r'.value) → task.Reaches st (T.index r'.value) →
    task.compareRow (task.updateRow r.value) = false
  /-- Chunks do not move when they grow; or a record visited later has room for the rows that are
  moved to it before, and no row of a record matches behind one that is enlarged in place. -/
  still : env.Fixed ∨
    (∀ g ∈ st.handles, task.Reaches st (st.keyOf g) → (st.mem g).dataSize T +
      ((st.rows.filter fun r => Later isAsc (T.index r.value) (st.keyOf g)).map
        (arrival task (st.keyOf g))).sum ≤ (st.mem g).chunkSize) ∧
    st.rows.Pairwise fun r r' => Grows task r → T.index r'.value = T.index r.value →
      task.compareRow r'.value = false

/-! ## Handles that stay live -/

/-- The records `hs` still to be visited, in the loop over the rows of `hRecord`. -/
structure Ahead (env : Mallocator) (task : Task T) (st₀ : State K R) (hRecord : Handle)
    (hs : List Handle) (v : UpdateVars R) (st : State K R) : Prop where
  alive : ∀ g ∈ hs, g ∈ st.handles ∧ st.keyOf g = st₀.keyOf g
  room : env.Fixed ∨ ∀ l g l', hs = l ++ g :: l' → (st.mem g).dataSize T +
    (((st.mem v.content).rows.drop v.pos).map (arrival task (st₀.keyOf g))).sum +
    rowSum st₀ (arrival task (st₀.keyOf g)) l ≤ (st.mem g).chunkSize
  here : v.content = hRecord ∨
    ∀ r ∈ (st.mem v.content).rows.drop v.pos, task.compareRow r.value = false
  grows : env.Fixed ∨ ((st.mem v.content).rows.drop v.pos).Pairwise fun r r' => Grows task r →
    task.compareRow r'.value = false

section Step

variable {v v' : UpdateVars R} {row : Row R} {hRecord : Handle} {k : K} {total n : Nat}

/-- The row is inserted into the record of `g`, which has room for it, or elsewhere. -/
theorem Inserted.stay {newRow : R} {dirty : Bool} (hi : Inserted env T newRow dirty st st')
    (hinv : st.Inv T) (hg : g ∈ st.handles)
    (hstay : st.keyOf g = T.index newRow →
      env.Fixed ∨ (st.mem g).dataSize T + T.rowSize newRow ≤ (st.mem g).chunkSize) :
    g ∈ st'.handles ∧ st'.keyOf g = st.keyOf g ∧
      ((st.mem g).dataSize T + (if T.index newRow = st.keyOf g then T.rowSize newRow else 0) ≤
          (st.mem g).chunkSize →
        (st'.mem g).dataSize T =
          (st.mem g).dataSize T + (if T.index newRow = st.keyOf g then T.rowSize newRow else 0) ∧
        (st'.mem g).chunkSize = (st.mem g).chunkSize) := by
  by_cases hkey : st.keyOf g = T.index newRow
  · cases hi.change with
    | added record hnew => exact absurd hkey (hnew g hg)
    | extended x x' record hx hindex hw hkey' hrows hfits hroom hfixed hcnts =>
      have hgx : g = x := SortedBy.eq_of_key_eq hinv.sorted hg hx (hkey.trans hindex.symm)
      subst hgx
      have hsame : x' = g := by
        rcases hstay hkey with hf | hr
        · exact hfixed hf
        · exact (hroom hr).1
      subst hsame
      rw [State.keyOf, hw.mem_self]
      refine ⟨hw.mem_handles hx, hkey'.trans hkey.symm, fun hr => ?_⟩
      rw [if_pos hkey.symm] at hr ⊢
      refine ⟨?_, (hroom hr).2⟩
      simp only [Record.dataSize, hrows, map_append, map_cons, map_nil,
        sum_append, sum_cons, sum_nil]
      omega
  · obtain ⟨hmem, hsame⟩ := hi.mem_of_ne hinv hg hkey
    rw [State.keyOf, hsame, if_neg (Ne.symm hkey)]
    exact ⟨hmem, rfl, fun _ => ⟨rfl, rfl⟩⟩

/-- The row that was read is no longer ahead. -/
theorem Ahead.tail {w : UpdateVars R} (ha : Ahead env task st₀ hRecord hs v st)
    (hrow : (st.mem v.content).rows[v.pos]? = some row)
    (hdrop : (st'.mem w.content).rows.drop w.pos = (st.mem v.content).rows.drop (v.pos + 1))
    (halive : ∀ g ∈ hs, g ∈ st'.handles ∧ st'.keyOf g = st.keyOf g)
    (hroom : env.Fixed ∨ ∀ g ∈ hs, (st'.mem g).dataSize T ≤
        (st.mem g).dataSize T + arrival task (st₀.keyOf g) row ∧
      (st'.mem g).chunkSize = (st.mem g).chunkSize)
    (hhere : w.content = hRecord ∨
      ∀ r ∈ (st.mem v.content).rows.drop (v.pos + 1), task.compareRow r.value = false) :
    Ahead env task st₀ hRecord hs w st' where
  alive g hg := ⟨(halive g hg).1, (halive g hg).2.trans (ha.alive g hg).2⟩
  room := by
    rcases ha.room with hfixed | hall
    · exact .inl hfixed
    rcases hroom with hfixed | hroom
    · exact .inl hfixed
    refine .inr fun l g l' heq => ?_
    have hg : g ∈ hs := by
      rw [heq]
      exact mem_append_right _ mem_cons_self
    have hle := hall l g l' heq
    obtain ⟨hsize, hchunk⟩ := hroom g hg
    rw [drop_eq_cons hrow, map_cons, sum_cons] at hle
    rw [hdrop, hchunk]
    omega
  here := by
    rw [hdrop]
    exact hhere
  grows := by
    rw [hdrop]
    refine ha.grows.imp_right fun hpairwise => ?_
    rw [drop_eq_cons hrow] at hpairwise
    exact hpairwise.tail

theorem loopRule_ahead (hh : hRecord ∉ hs) :
    LoopRule env task hRecord k total (Ahead env task st₀ hRecord hs) where
  skip hl hrow hcmp ha := by
    refine ha.tail hrow rfl (fun g hg => ⟨(ha.alive g hg).1, rfl⟩)
      (.inr fun g _ => ⟨Nat.le_add_right _ _, rfl⟩) (ha.here.imp_right fun hnone r hr => ?_)
    refine hnone r ?_
    rw [drop_eq_cons hrow]
    exact mem_cons_of_mem _ hr
  step := by
    intro n v st row v' st' hl hat hrow hcmp hstep ha
    have hdrop := hstep.drop hl hrow
    have hne : ∀ g ∈ hs, g ≠ v.content := by
      rintro g hg rfl
      exact hh (hat ▸ hg)
    cases hstep with
    | moved st₁ st₂ hnew hins hdel =>
      have hinv₁ := hins.inv hl.inv
      obtain ⟨hmem, -⟩ := hins.mem_of_ne hl.inv hl.content (Ne.symm hnew)
      -- the record of the new index value has room
      have hstay : ∀ g ∈ hs, st.keyOf g = T.index (task.updateRow row.value) → env.Fixed ∨
          (st.mem g).dataSize T + T.rowSize (task.updateRow row.value) ≤ (st.mem g).chunkSize := by
        intro g hg hkey
        refine ha.room.imp_right fun hall => ?_
        obtain ⟨l, l', heq⟩ := append_of_mem hg
        have hle := hall l g l' heq
        have harr : arrival task (st₀.keyOf g) row = T.rowSize (task.updateRow row.value) :=
          if_pos ⟨hcmp, by rw [← (ha.alive g hg).2, hkey]⟩
        rw [drop_eq_cons hrow, map_cons, sum_cons, harr] at hle
        omega
      have hafter : ∀ g ∈ hs, g ∈ st₁.handles ∧ g ∈ st₂.handles ∧ st₂.mem g = st₁.mem g := by
        intro g hg
        have hg₁ := (hins.stay hl.inv (ha.alive g hg).1 (hstay g hg)).1
        refine ⟨hg₁, hdel.handles ▸ hg₁, hdel.rewrites.mem_of_ne (hne g hg)⟩
      refine ha.tail hrow hdrop (fun g hg => ?_) ?_ (.inl hat)
      · refine ⟨(hafter g hg).2.1, ?_⟩
        rw [State.keyOf]
        change (st₂.mem g).key = _
        rw [(hafter g hg).2.2]
        exact (hins.stay hl.inv (ha.alive g hg).1 (hstay g hg)).2.1
      · refine ha.room.imp_right fun hall g hg => ?_
        obtain ⟨l, l', heq⟩ := append_of_mem hg
        have hle := hall l g l' heq
        have harr : arrival task (st₀.keyOf g) row =
            if T.index (task.updateRow row.value) = st.keyOf g then
              T.rowSize (task.updateRow row.value) else 0 := by
          rw [arrival, (ha.alive g hg).2]
          simp only [hcmp, true_and]
        rw [drop_eq_cons hrow, map_cons, sum_cons, harr] at hle
        obtain ⟨-, -, hsize⟩ := hins.stay hl.inv (ha.alive g hg).1 (hstay g hg)
        obtain ⟨hdata, hchunk⟩ := hsize (by omega)
        change (st₂.mem g).dataSize T ≤ _ ∧ (st₂.mem g).chunkSize = _
        rw [(hafter g hg).2.2, hdata, hchunk, harr]
        exact ⟨le_rfl, rfl⟩
    | replaced h' st₁ heq hrep =>
      obtain ⟨chunkSize, hw⟩ := hrep.chunk
      have hother : ∀ g ∈ hs, g ∈ st₁.handles ∧ st₁.mem g = st.mem g := by
        intro g hg
        have hlt := hl.inv.lt_calls g (ha.alive g hg).1
        obtain ⟨hlive, hmem⟩ := hw.other hlt (hne g hg)
        refine ⟨((hrep.inv hl.inv hl.content heq).live_iff g).mp ?_, hmem⟩
        rw [hlive, hl.inv.live_iff]
        exact (ha.alive g hg).1
      refine ha.tail hrow hdrop (fun g hg => ?_) (.inr fun g hg => ?_) ?_
      · refine ⟨(hother g hg).1, ?_⟩
        change (st₁.mem g).key = _
        rw [(hother g hg).2]
        rfl
      · change (st₁.mem g).dataSize T ≤ _ ∧ (st₁.mem g).chunkSize = _
        rw [(hother g hg).2]
        exact ⟨Nat.le_add_right _ _, rfl⟩
      · -- an enlarged row is the last one that matches
        rcases ha.grows with hfixed | hpairwise
        · exact .inl ((hrep.stays (.inr hfixed)).trans hat)
        by_cases hle : T.rowSize (task.updateRow row.value) ≤ T.rowSize row.value
        · exact .inl ((hrep.stays (.inl hle)).trans hat)
        refine .inr fun r hr => ?_
        rw [drop_eq_cons hrow] at hpairwise
        have hindex : T.index row.value = st.keyOf v.content :=
          hl.inv.index _ hl.content row (mem_of_getElem? hrow)
        exact rel_of_pairwise_cons hpairwise hr
          ⟨hcmp, heq.trans hindex.symm, Nat.lt_of_not_le hle⟩

theorem Ahead.live (ha : Ahead env task st₀ hRecord hs v st)
    (hl : Looping T hRecord k total (n + 1) v st)
      (hrow : (st.mem v.content).rows[v.pos]? = some row)
    (hcmp : task.compareRow row.value = true) : st.live hRecord = true := by
  rcases ha.here with heq | hnone
  · rw [← heq, hl.inv.live_iff]
    exact hl.content
  · have := hnone row (by rw [drop_eq_cons hrow]; exact mem_cons_self)
    rw [hcmp] at this
    cases this

end Step

/-- The records `hs` still to be visited, between two records: the rows moved to them do not
match. -/
structure Ready (env : Mallocator) (task : Task T) (st₀ : State K R) (async : Bool)
    (hs : List Handle) (st : State K R) : Prop where
  between : Between T st₀ (fun r => task.compareRow r.value = false) async hs st
  alive : ∀ g ∈ hs, g ∈ st.handles
  room : env.Fixed ∨ ∀ l g l', hs = l ++ g :: l' → (st.mem g).dataSize T +
    rowSum st₀ (arrival task (st₀.keyOf g)) l ≤ (st.mem g).chunkSize

/-- No row of the record matches behind one that is enlarged in place. -/
def GrowsLast (env : Mallocator) (task : Task T) (st₀ : State K R) (h : Handle) : Prop :=
  env.Fixed ∨ (st₀.mem h).rows.Pairwise fun r r' => Grows task r → task.compareRow r'.value = false

theorem arrival_eq_zero {k : K} {r : Row R} (h : task.compareRow r.value = false) :
    arrival task k r = 0 := by
  refine if_neg fun hc => ?_
  rw [h] at hc
  cases hc.1

theorem Ready.ahead (hr : Ready env task st₀ async (h :: hs) st)
    (hgrows : GrowsLast env task st₀ h) :
    Ahead env task st₀ h hs ⟨0, h, 0, 0, none⟩ st := by
  have hlive : ∀ g ∈ h :: hs, st.live g = true := fun g hg =>
    (hr.between.inv.live_iff g).mpr (hr.alive g hg)
  obtain ⟨extra, hextra, hall⟩ :=
    hr.between.kept.rows h mem_cons_self (hlive h mem_cons_self)
  have hzero : ∀ k : K, (extra.map (arrival task k)).sum = 0 := fun k =>
    sum_eq_zero fun x hx => by
      obtain ⟨r, hr, rfl⟩ := mem_map.mp hx
      exact arrival_eq_zero (hall r hr)
  refine ⟨fun g hg => ?_, hr.room.imp_right fun hroom l g l' heq => ?_, .inl rfl,
    hgrows.imp_right fun hpairwise => ?_⟩
  · have hmem := mem_cons_of_mem h hg
    exact ⟨hr.alive g hmem, hr.between.kept.key g hmem (hlive g hmem)⟩
  · have hle := hroom (h :: l) g l' (by rw [heq, cons_append])
    rw [rowSum, map_cons, sum_cons] at hle
    rw [drop_zero, hextra, map_append, sum_append, hzero, Nat.add_zero]
    exact (Nat.add_assoc _ _ _).trans_le hle
  · rw [drop_zero, hextra, pairwise_append]
    refine ⟨hpairwise, ?_, fun _ _ r hr _ => hall r hr⟩
    rw [pairwise_iff_forall_sublist]
    intro r r' hsub _
    exact hall r' (hsub.subset (mem_cons_of_mem _ mem_cons_self))

/-- One record of an update. -/
theorem Ready.step (H : T.Orders) (hok : env.Unlimited)
    (hr : Ready env task st₀ async (h :: hs) st) (hgrows : GrowsLast env task st₀ h)
    (hgood : MovesGood st₀ task (fun r => task.compareRow r.value = false) async h hs) :
    ∃ st', updateSubRawData env task h st = some (0, st') ∧ Ready env task st₀ async hs st' := by
  have hmem : h ∈ st.handles := hr.alive h mem_cons_self
  have hnot : h ∉ hs := (nodup_cons.mp hr.between.nodup).1
  have hahead := hr.ahead hgrows
  obtain ⟨iRet, st', hrun⟩ := updateSubRawData_isSome H hok hr.between.inv hmem
    (hr.between.full h hmem) (loopRule_ahead hnot)
    (fun hl hrow hcmp ha => ha.live hl hrow hcmp) hahead
  obtain ⟨rfl, hb, v, st₁, -, hl, ha, hend⟩ := updateSubRawData_between H hok hr.between hgood
    (loopRule_ahead hnot) (fun _ => hahead) hrun
  have hread : (st₁.mem v.content).rows.drop v.pos = [] := drop_eq_nil_of_le hl.left.ge
  have hsame : ∀ g ∈ hs, g ∈ st'.handles ∧ st'.mem g = st₁.mem g := by
    intro g hg
    cases hend with
    | kept => exact ⟨(ha.alive g hg).1, rfl⟩
    | dropped _ hempty hdrops =>
      have hcontent : v.content = h := by
        have hleft := hl.left
        rw [hempty, length_nil] at hleft
        exact hl.first (by omega)
      have hne : g ≠ v.content := by
        rintro rfl
        exact hnot (hcontent ▸ hg)
      exact ⟨(hdrops.spliced.mem_iff.mp (ha.alive g hg).1).resolve_left hne, by rw [hdrops.mem]⟩
  refine ⟨st', hrun, hb, fun g hg => (hsame g hg).1,
    ha.room.imp_right fun hroom l g l' heq => ?_⟩
  have hg : g ∈ hs := by
    rw [heq]
    exact mem_append_right _ mem_cons_self
  have hle := hroom l g l' heq
  rw [hread, map_nil, sum_nil, Nat.add_zero] at hle
  rw [(hsame g hg).2]
  exact hle

/-- The update of all records returns. -/
theorem Ready.forEach (H : T.Orders) (hok : env.Unlimited)
    (hr : Ready env task st₀ async hs st) (hgrows : ∀ h ∈ hs, GrowsLast env task st₀ h)
    (hgood : ∀ l h hs', hs = l ++ h :: hs' →
      MovesGood st₀ task (fun r => task.compareRow r.value = false) async h hs') :
    ∃ st', TreeData.forEach (updateSubRawData env task) hs st = some (0, st') := by
  induction hs generalizing st with
  | nil => exact ⟨st, rfl⟩
  | cons h hs ih =>
    obtain ⟨st₁, heq, hr₁⟩ := hr.step H hok (hgrows h mem_cons_self) (hgood [] h hs rfl)
    obtain ⟨st', hrest⟩ := ih hr₁ (fun g hg => hgrows g (mem_cons_of_mem _ hg))
      fun l g hs' hsplit => hgood (h :: l) g hs' (by rw [hsplit, cons_append])
    refine ⟨st', ?_⟩
    simp only [TreeData.forEach, heq, Option.bind_eq_bind, Option.bind_some, ne_eq,
      not_true_eq_false, if_false, hrest]

/-- What the update asks of a row. -/
def Task.updated (task : Task T) (row : R) : R :=
  if task.compareRow row = true then task.updateRow row else row

omit [LinearOrder K] in
theorem RowsChange.values {old new : List (Row R)} (h : RowsChange st st' old new) :
    (st'.rows.map Row.value : Multiset R) + (old.map Row.value : List R) =
      (st.rows.map Row.value : Multiset R) + (new.map Row.value : List R) := by
  obtain ⟨a, b, hst, hst'⟩ := h
  simp only [hst, hst', map_append, ← Multiset.coe_add]
  ac_rfl

theorem potential_values : Potential env task (fun r => task.compareRow r.value = false) async
    (fun st => (st.rows.map Row.value : Multiset R)) (fun r => {task.updated r.value})
    (fun r => {r.value}) where
  skip h := by rw [Task.updated, if_neg (by rw [h]; decide)]
  extra h := by rw [Task.updated, if_neg (by rw [h]; decide)]
  step := by
    intro hRecord k total n v st row v' st' hl hrow hcmp hstep _
    rw [Task.updated, if_pos hcmp]
    cases hstep with
    | moved st₁ st₂ hne hins hdel =>
      obtain ⟨hmem, hsame⟩ := hins.mem_of_ne hl.inv hl.content (Ne.symm hne)
      have hchange₁ := (hins.rowsChange hl.inv).values
      have hchange₂ := (hdel.rowsChange (hins.inv hl.inv) hmem (by rw [hsame]; exact hrow)).values
      change (st₂.rows.map Row.value : Multiset R) + {row.value} = _
      simp only [map_cons, map_nil, Multiset.coe_nil, add_zero] at hchange₁ hchange₂
      exact hchange₂.trans hchange₁
    | replaced h' st₁ heq hrep => exact (hrep.rowsChange hl.inv hl.content hrow).values
  ended hend := by rw [hend.rows.1]

theorem potential_affected : Potential env task (fun r => task.compareRow r.value = false) async
    State.affectedRows (fun r => if task.compareRow r.value = true then 1 else 0) (fun _ => 0) where
  skip h := if_neg (by rw [h]; decide)
  extra h := if_neg (by rw [h]; decide)
  step := by
    intro hRecord k total n v st row v' st' hl hrow hcmp hstep _
    rw [if_pos hcmp, add_zero]
    cases hstep with
    | moved st₁ st₂ hne hins hdel =>
      change st₂.affectedRows + 1 = _
      rw [hdel.members.affectedRows, hins.members.affectedRows]
    | replaced h' st₁ heq hrep =>
      change st₁.affectedRows + 1 = _
      rw [hrep.members.affectedRows]
  ended hend := by
    cases hend with
    | kept => rfl
    | dropped _ _ _ _ _ _ _ _ hmembers => exact hmembers.affectedRows

/-! ## A whole update -/

section Visits

omit [LinearOrder K] in
theorem rowSum_eq_sum_map {M : Type} [AddCancelCommMonoid M] (st : State K R) (c : Row R → M)
    (hs : List Handle) :
    rowSum st c hs = ((hs.flatMap fun h => (st.mem h).rows).map c).sum := by
  induction hs with
  | nil => rfl
  | cons h hs ih =>
    rw [flatMap_cons, map_append, sum_append, ← ih, rowSum, map_cons,
      sum_cons, rowSum]

omit [LinearOrder K] in
theorem rowSum_append {M : Type} [AddCancelCommMonoid M] (st : State K R) (c : Row R → M)
    (l l' : List Handle) : rowSum st c (l ++ l') = rowSum st c l + rowSum st c l' := by
  rw [rowSum, map_append, sum_append, rowSum, rowSum]

omit [LinearOrder K] in
theorem rowSum_perm {M : Type} [AddCancelCommMonoid M] (st : State K R) (c : Row R → M)
    {l l' : List Handle} (h : l.Perm l') : rowSum st c l = rowSum st c l' :=
  (h.map _).sum_eq

variable (H : T.Orders) (hinv : st.Inv T)

include H hinv

theorem pairwise_later_matchIndexCondition (task : Task T) (isAsc : Bool) :
    (matchIndexCondition st task isAsc).Pairwise fun g g' =>
      Later isAsc (st.keyOf g) (st.keyOf g') := by
  obtain ⟨l, hl, heq⟩ := matchIndexCondition_sublist H hinv task isAsc
  have hsorted : l.Pairwise fun g g' => st.keyOf g < st.keyOf g' := hinv.sorted.sublist hl
  rw [heq]
  cases isAsc with
  | true => exact hsorted
  | false => exact pairwise_reverse.mpr hsorted

/-- The records before `g` are visited before it, so their rows are among the earlier ones. -/
theorem rowSum_before_le {l l' : List Handle} (c : Row R → Nat)
    (hsplit : matchIndexCondition st task isAsc = l ++ g :: l') :
    rowSum st c l ≤
      ((st.rows.filter fun r => Later isAsc (T.index r.value) (st.keyOf g)).map c).sum := by
  have hpairwise := pairwise_later_matchIndexCondition H hinv task isAsc
  have hnodup := nodup_matchIndexCondition H hinv task isAsc
  rw [hsplit] at hpairwise hnodup
  have hsub : l ⊆ st.handles.filter fun x => Later isAsc (st.keyOf x) (st.keyOf g) := by
    intro x hx
    have hmem : x ∈ matchIndexCondition st task isAsc := by
      rw [hsplit]
      exact mem_append_left _ hx
    refine mem_filter.mpr ⟨mem_handles_of_mem_matchIndexCondition H hinv hmem, ?_⟩
    exact decide_eq_true ((pairwise_append.mp hpairwise).2.2 x hx g mem_cons_self)
  obtain ⟨l₁, hperm, hl₁⟩ := subperm_of_subset hnodup.of_append_left hsub
  have hfilter := filter_flatMap_index (fun k => decide (Later isAsc k (st.keyOf g))) hinv.index
  calc rowSum st c l = rowSum st c l₁ := rowSum_perm st c hperm.symm
    _ ≤ rowSum st c (st.handles.filter fun x => Later isAsc (st.keyOf x) (st.keyOf g)) :=
        (hl₁.map _).sum_le_sum fun _ _ => Nat.zero_le _
    _ = _ := by rw [rowSum_eq_sum_map, ← hfilter, State.rows]

/-- The rows of the records that are not visited count for nothing. -/
theorem rowSum_visited {M : Type} [AddCancelCommMonoid M] {a b : Row R → M} (isAsc : Bool)
    (hvisited : ∀ r ∈ st.rows, task.compareRow r.value = true → task.Reaches st (T.index r.value))
    (hskip : ∀ {r}, task.compareRow r.value = false → a r = b r) :
    (st.rows.map b).sum + rowSum st a (matchIndexCondition st task isAsc) =
      (st.rows.map a).sum + rowSum st b (matchIndexCondition st task isAsc) := by
  have hnodup := nodup_matchIndexCondition H hinv task isAsc
  obtain ⟨l, hperm, hl⟩ := subperm_of_subset hnodup fun g hg =>
    mem_handles_of_mem_matchIndexCondition H hinv hg
  obtain ⟨rest, hrest⟩ := hl.exists_perm_append
  have hhandles := hrest.trans (hperm.append_right rest)
  -- a record of the rest is not visited
  have hunvisited : ∀ h ∈ rest, ((st.mem h).rows.map a).sum = ((st.mem h).rows.map b).sum := by
    intro h hh
    have hmem : h ∈ st.handles := hhandles.mem_iff.mpr (mem_append_right _ hh)
    have hnot : h ∉ matchIndexCondition st task isAsc := fun hin =>
      (nodup_append.mp (hhandles.nodup_iff.mp hinv.sorted.nodup)).2.2 h hin h hh rfl
    refine congrArg List.sum (map_congr_left fun r hr => hskip ?_)
    refine Bool.eq_false_iff.mpr fun hcmp => hnot ?_
    rw [mem_matchIndexCondition_iff H hinv hmem, ← hinv.index h hmem r hr]
    exact hvisited r (mem_flatMap.mpr ⟨h, hmem, hr⟩) hcmp
  have hsame : rowSum st a rest = rowSum st b rest :=
    congrArg List.sum (map_congr_left hunvisited)
  have hall : ∀ c : Row R → M, (st.rows.map c).sum =
      rowSum st c (matchIndexCondition st task isAsc) + rowSum st c rest := fun c => by
    rw [← rowSum_append, ← rowSum_perm st c hhandles, rowSum_eq_sum_map, State.rows]
  rw [hall a, hall b, hsame]
  ac_rfl

variable (hfull : st.Full) (hcond : AppliesOnce env task isAsc st)

include hfull hcond

theorem AppliesOnce.movesGood {l hs : List Handle}
    (hsplit : matchIndexCondition st task isAsc = l ++ h :: hs) :
    MovesGood st task (fun r => task.compareRow r.value = false) async h hs := by
  have hpairwise := pairwise_later_matchIndexCondition H hinv task isAsc
  have hmem : ∀ g ∈ h :: hs, g ∈ matchIndexCondition st task isAsc := fun g hg => by
    rw [hsplit]
    exact mem_append_right _ hg
  have hhandle : ∀ g ∈ h :: hs, g ∈ st.handles := fun g hg =>
    mem_handles_of_mem_matchIndexCondition H hinv (hmem g hg)
  rw [hsplit] at hpairwise
  intro row hrow hcmp g hg hkey
  rcases hrow with hrow | hrow
  · have hh := hhandle h mem_cons_self
    have hg' := hhandle g (mem_cons_of_mem _ hg)
    obtain ⟨r', hr'⟩ := exists_mem_of_ne_nil _ (hfull g hg')
    have hindex := hinv.index g hg' r' hr'
    refine hcond.once row (mem_flatMap.mpr ⟨h, hh, hrow⟩) hcmp r'
      (mem_flatMap.mpr ⟨g, hg', hr'⟩) (hindex.trans hkey) ?_ ?_
    · rw [hindex, hinv.index h hh row hrow]
      exact rel_of_pairwise_cons (pairwise_append.mp hpairwise).2.1 hg
    · rw [hindex, ← mem_matchIndexCondition_iff H hinv hg' isAsc]
      exact hmem g (mem_cons_of_mem _ hg)
  · rw [hcmp] at hrow
    cases hrow

omit H hfull in
theorem AppliesOnce.growsLast (hh : h ∈ st.handles) : GrowsLast env task st h := by
  refine hcond.still.imp_right fun hstill => ?_
  have hsub : (st.mem h).rows.Sublist st.rows := by
    rw [State.rows, flatMap_def]
    exact sublist_flatten_of_mem (mem_map_of_mem hh)
  refine (hstill.2.sublist hsub).imp_of_mem fun ha hb hrel hgrows => hrel hgrows ?_
  rw [hinv.index h hh _ ha, hinv.index h hh _ hb]

theorem AppliesOnce.ready :
    Ready env task { st with async, dirtyRowsInc := 0 } async (matchIndexCondition st task isAsc)
      { st with async, dirtyRowsInc := 0 } where
  between := between_start H hinv hfull _ task isAsc async
  alive g hg := mem_handles_of_mem_matchIndexCondition H hinv hg
  room := by
    refine hcond.still.imp_right fun hstill l g l' hsplit => ?_
    have hg : g ∈ matchIndexCondition st task isAsc := by
      rw [hsplit]
      exact mem_append_right _ mem_cons_self
    have hh := mem_handles_of_mem_matchIndexCondition H hinv hg
    have hle := hstill.1 g hh ((mem_matchIndexCondition_iff H hinv hh isAsc).mp hg)
    have hbefore := rowSum_before_le H hinv (arrival task (st.keyOf g)) hsplit
    change (st.mem g).dataSize T + rowSum st (arrival task (st.keyOf g)) l ≤ (st.mem g).chunkSize
    omega

end Visits

/-- What an update is to do: it applies once to each matching row, the others stay, the T-tree has
an entry for each index value that has rows, and the matching rows are counted. -/
structure UpdatedOnce (task : Task T) (st st' : State K R) : Prop where
  rows : (st'.rows.map Row.value).Perm (st.rows.map fun r => task.updated r.value)
  entries : ∀ k, (st'.find T k).isSome = true ↔ ∃ r ∈ st'.rows, T.index r.value = k
  affected : st'.affectedRows = st.rows.countP fun r => task.compareRow r.value

theorem isSome_find_iff (H : T.Orders) (hinv : st.Inv T) (hfull : st.Full) (k : K) :
    (st.find T k).isSome = true ↔ ∃ r ∈ st.rows, T.index r.value = k := by
  rw [Option.isSome_iff_exists]
  constructor
  · rintro ⟨h, hfind⟩
    obtain ⟨hh, hkey⟩ := (hinv.find_eq_some H).mp hfind
    obtain ⟨r, hr⟩ := exists_mem_of_ne_nil _ (hfull h hh)
    exact ⟨r, mem_flatMap.mpr ⟨h, hh, hr⟩, (hinv.index h hh r hr).trans hkey⟩
  · rintro ⟨r, hr, hindex⟩
    obtain ⟨h, hh, hr⟩ := mem_flatMap.mp hr
    exact ⟨h, (hinv.find_eq_some H).mpr ⟨hh, (hinv.index h hh r hr).symm.trans hindex⟩⟩

theorem sum_map_singleton {A B : Type} (f : A → B) (l : List A) :
    (l.map fun x => ({f x} : Multiset B)).sum = (l.map f : List B) := by
  induction l with
  | nil => rfl
  | cons x l ih => rw [map_cons, sum_cons, ih, map_cons, Multiset.singleton_add,
      Multiset.cons_coe]

theorem sum_map_bit {A : Type} (p : A → Bool) (l : List A) :
    (l.map fun x => if p x = true then 1 else 0).sum = l.countP p := by
  induction l with
  | nil => rfl
  | cons x l ih => rw [map_cons, sum_cons, ih, countP_cons, Nat.add_comm]

theorem updateTreeData_updatedOnce (H : T.Orders) (hok : env.Unlimited) (hinv : st.Inv T)
    (hfull : st.Full) (hcnts : st.data.nodeCnts = 0 → st.handles = []) (hzero : st.affectedRows = 0)
    (hcond : AppliesOnce env task isAsc st) :
    ∃ st', updateTreeData env task isAsc async st = some (0, st') ∧ UpdatedOnce task st st' := by
  by_cases hempty : st.data.nodeCnts = 0
  · have hrows : st.rows = [] := by rw [State.rows, hcnts hempty, flatMap_nil]
    refine ⟨st, by rw [updateTreeData, if_pos hempty], ?_, isSome_find_iff H hinv hfull, ?_⟩
    · rw [hrows]
      exact .rfl
    · rw [hrows, hzero]
      rfl
  let st₀ : State K R := { st with async, dirtyRowsInc := 0 }
  have hready : Ready env task st₀ async (matchIndexCondition st task isAsc) st₀ :=
    hcond.ready H hinv hfull
  have hgood : ∀ l h hs, matchIndexCondition st task isAsc = l ++ h :: hs →
      MovesGood st₀ task (fun r => task.compareRow r.value = false) async h hs :=
        fun l h hs hsplit =>
    hcond.movesGood H hinv hfull hsplit
  have hgrows : ∀ h ∈ matchIndexCondition st task isAsc, GrowsLast env task st₀ h := fun h hh =>
    have hlast : GrowsLast env task st h :=
      hcond.growsLast hinv (mem_handles_of_mem_matchIndexCondition H hinv hh)
    hlast
  obtain ⟨st', hrun⟩ := hready.forEach H hok hgrows hgood
  obtain ⟨-, hb, hvalues⟩ := potential_values.sum_update H hok hready.between hgood hrun
  obtain ⟨-, -, haffected⟩ := potential_affected.sum_update H hok hready.between hgood hrun
  refine ⟨st', by rw [updateTreeData, if_neg hempty]; exact hrun, ?_,
    isSome_find_iff H hb.inv hb.full, ?_⟩
  · have hsum := rowSum_visited (b := fun r => ({r.value} : Multiset R))
      (a := fun r => {task.updated r.value}) H hinv isAsc hcond.visited fun h => by
        rw [Task.updated, if_neg (by rw [h]; decide)]
    rw [sum_map_singleton, sum_map_singleton] at hsum
    rw [← Multiset.coe_eq_coe]
    exact add_right_cancel (hvalues.trans hsum)
  · have hsum := rowSum_visited (b := fun _ => 0)
      (a := fun r => if task.compareRow r.value = true then 1 else 0) H hinv isAsc hcond.visited
      fun h => if_neg (by rw [h]; decide)
    rw [(rowSum_zero _ _).1, sum_map_zero, zero_add, add_zero] at hsum
    rw [(rowSum_zero _ _).1, add_zero] at haffected
    rw [sum_map_bit] at hsum
    exact haffected.trans (by rw [hzero, zero_add]; exact hsum)

/-- An update of the node, under the condition. -/
theorem updateData_updatedOnce (H : T.Orders) (hok : env.Unlimited) (hinv : st.Inv T)
    (hfull : st.Full) (hcnts : st.data.nodeCnts = 0 → st.handles = [])
    (hcond : AppliesOnce env task isAsc st) (async purged : Bool) :
    ∃ st' inc, updateData env task isAsc async purged st = some (0, st', inc) ∧
      UpdatedOnce task st st' := by
  let st₀ : State K R := { st with affectedRows := 0 }
  have hcond₀ : AppliesOnce env task isAsc st₀ := ⟨hcond.visited, hcond.once, hcond.still⟩
  obtain ⟨st', hrun, honce⟩ : ∃ st', updateTreeData env task isAsc async st₀ = some (0, st') ∧
      UpdatedOnce task st₀ st' :=
    updateTreeData_updatedOnce H hok (hinv.congr rfl rfl rfl rfl) hfull hcnts rfl hcond₀
  have hretry : retry purged (withUnit (updateTreeData env task isAsc async)) st₀ =
      some (0, (), st') :=
    retry_of_ok (by rw [withUnit, hrun]; rfl)
  refine ⟨st', ⟨0, st'.dirtyRowsInc⟩, ?_, honce.rows, honce.entries, honce.affected⟩
  simp only [updateData]
  rw [hretry]
  rfl

/-- The index value of every row is raised by one. -/
def raiseTask : Task natTable :=
    ⟨[.other fun _ => true], false, 0, 0, fun row => (row.1 + 1, row.2)⟩

/-- Downwards, a row that is raised leaves the records still to be visited. -/
theorem appliesOnce_raiseTask {st : State Nat (Nat × Nat)} :
    AppliesOnce plainMallocator raiseTask false st where
  visited r _ _ := by
    simp [Task.Reaches, Task.indexConditions, raiseTask, Task.InFront, Task.allRows]
  once r _ _ r' _ hindex hlater := by
    simp only [raiseTask, natTable] at hindex
    simp only [Later, natTable, Bool.false_eq_true, if_false] at hlater
    omega
  still := .inl fun _ => rfl

/-- The calls that insert two rows with the index values 1 and 2. -/
def insertTwo : List (Op natTable) := [.insertRow (1, 5) false, .insertRow (2, 7) false]

theorem updateData_raise_desc : ∃ st st' inc, run plainMallocator insertTwo emptyNode = some st ∧
    updateData plainMallocator raiseTask false true false st = some (0, st', inc) ∧
    UpdatedOnce raiseTask st st' := by
  have hrun : run plainMallocator insertTwo emptyNode =
      some ((run plainMallocator insertTwo emptyNode).getD emptyNode) := rfl
  obtain ⟨hinv, hfull, -⟩ := run_accounted natTable_orders plainMallocator_unlimited
    (State.inv_init natTable _ 0 0 false) (State.full_init _ 0 0 false)
    (accounted_init natTable False _ 0 0 false) False.elim hrun
  obtain ⟨st', inc, hupdate, honce⟩ := updateData_updatedOnce natTable_orders
    plainMallocator_unlimited hinv hfull (fun h => absurd h (by decide)) appliesOnce_raiseTask
    true false
  exact ⟨_, st', inc, hrun, hupdate, honce⟩

/-- An allocator that moves every chunk that grows. -/
def movingMallocator : Mallocator := ⟨fun _ => false, fun _ => true, fun _ => 0⟩

/-- Upwards, the first row is raised into the second record, is met there and raised again; and if
that record has moved, it is read through a dead handle. -/
theorem updateData_raise_asc : ∃ st, run plainMallocator insertTwo emptyNode = some st ∧
    (∃ st' inc, updateData plainMallocator raiseTask true true false st = some (0, st', inc) ∧
      ¬UpdatedOnce raiseTask st st') ∧
    updateData movingMallocator raiseTask true true false st = none := by
  refine ⟨_, rfl, ⟨_, _, rfl, fun honce => ?_⟩, rfl⟩
  exact absurd honce.affected (by decide)

end ISearch.TreeData
