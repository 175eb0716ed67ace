import ISearch.TreeData.Update

/-!
# The records an update has not reached yet

The handles of the records are collected before the first row is updated. `Kept` says what has
become of a record behind the current one: while its handle is live it has its old rows in front,
and behind them the rows that were moved to it since.
-/

namespace ISearch.TreeData

open TTree BufferProcess State Function List

variable {K R : Type} [LinearOrder K] {T : Table K R} {env : Mallocator} {st₀ st st' : State K R}
  {task : Task T} {h g : Handle} {row : Row R} {newRow : R} {dirty : Bool} {pos : Nat}

theorem Inserted.other (hi : Inserted env T newRow dirty st st') (hinv : st.Inv T) (hg : g < st.calls)
    (hlive : st'.live g = true) :
    st.live g = true ∧ st'.keyOf g = st.keyOf g ∧
      ((st'.mem g).rows = (st.mem g).rows ∨
        (st'.mem g).rows = (st.mem g).rows ++ [⟨newRow, dirty⟩] ∧ st.keyOf g = T.index newRow) := by
  cases hi.change with
  | added record hnew hadds hkey hrows =>
    have hne : g ≠ st.calls := hg.ne
    rw [hadds.live, update_of_ne hne] at hlive
    rw [State.keyOf, hadds.mem, update_of_ne hne]
    exact ⟨hlive, rfl, .inl rfl⟩
  | extended x x' record hx hindex hw hkey hrows =>
    by_cases hgx : g = x'
    · -- the record keeps its handle
      subst hgx
      have hxg : g = x := by
        rcases hw.fresh with heq | heq
        · exact heq
        · exact absurd heq hg.ne
      subst hxg
      rw [State.keyOf, hw.mem_self]
      exact ⟨(hinv.live_iff g).mpr hx, hkey.trans hindex.symm, .inr ⟨hrows, hindex⟩⟩
    · rw [hw.live, update_of_ne hgx] at hlive
      have hgx' : g ≠ x := by
        rintro rfl
        rw [update_self] at hlive
        cases hlive
      rw [update_of_ne hgx'] at hlive
      rw [State.keyOf, hw.mem_of_ne hgx]
      exact ⟨hlive, rfl, .inl rfl⟩

omit [LinearOrder K] in
theorem Rewrites.other {h' : Handle} {record : Record K R} (hw : Rewrites st h h' record st')
    (hg : g < st.calls) (hne : g ≠ h) : st'.live g = st.live g ∧ st'.mem g = st.mem g := by
  have hgh' : g ≠ h' := by
    rintro rfl
    rcases hw.fresh with heq | heq
    · exact hne heq
    · exact absurd heq hg.ne
  rw [hw.live, update_of_ne hgh', update_of_ne hne]
  exact ⟨rfl, hw.mem_of_ne hgh'⟩

theorem Drops.other (hd : Drops st h st') (hne : g ≠ h) :
    st'.live g = st.live g ∧ st'.mem g = st.mem g := by
  rw [hd.live, update_of_ne hne, hd.mem]
  exact ⟨rfl, rfl⟩

theorem Inserted.calls_le (hi : Inserted env T newRow dirty st st') : st.calls ≤ st'.calls := by
  cases hi.change with
  | added record hnew hadds => exact hadds.calls.le
  | extended x x' record hx hindex hw => exact hw.calls

/-! ## The rule -/

/-- What has become of the records `hs` since the state `st₀`: the rows moved to them are `good`. -/
structure Kept (st₀ : State K R) (good : Row R → Prop) (hs : List Handle) (st : State K R) :
    Prop where
  calls : st₀.calls ≤ st.calls
  lt_calls : ∀ g ∈ hs, g < st₀.calls
  key : ∀ g ∈ hs, st.live g = true → st.keyOf g = st₀.keyOf g
  rows : ∀ g ∈ hs, st.live g = true →
    ∃ extra, (st.mem g).rows = (st₀.mem g).rows ++ extra ∧ ∀ r ∈ extra, good r

namespace Kept

variable {good : Row R → Prop} {hs : List Handle}

omit [LinearOrder K] in
theorem refl (hlt : ∀ g ∈ hs, g < st₀.calls) : Kept st₀ good hs st₀ :=
  ⟨le_rfl, hlt, fun _ _ _ => rfl, fun _ _ _ => ⟨[], by simp, nofun⟩⟩

omit [LinearOrder K] in
theorem tail (hk : Kept st₀ good (h :: hs) st) : Kept st₀ good hs st :=
  ⟨hk.calls, fun g hg => hk.lt_calls g (mem_cons_of_mem _ hg),
    fun g hg => hk.key g (mem_cons_of_mem _ hg),
    fun g hg => hk.rows g (mem_cons_of_mem _ hg)⟩

theorem inserted (hk : Kept st₀ good hs st) (hinv : st.Inv T)
    (hi : Inserted env T newRow dirty st st')
    (hgood : ∀ g ∈ hs, st₀.keyOf g = T.index newRow → good ⟨newRow, dirty⟩) :
    Kept st₀ good hs st' where
  calls := hk.calls.trans hi.calls_le
  lt_calls := hk.lt_calls
  key g hg hlive := by
    obtain ⟨hlive', hkey, -⟩ := hi.other hinv ((hk.lt_calls g hg).trans_le hk.calls) hlive
    rw [hkey, hk.key g hg hlive']
  rows g hg hlive := by
    obtain ⟨hlive', -, hrows⟩ := hi.other hinv ((hk.lt_calls g hg).trans_le hk.calls) hlive
    obtain ⟨extra, hextra, hall⟩ := hk.rows g hg hlive'
    rcases hrows with hrows | ⟨hrows, hindex⟩
    · exact ⟨extra, hrows.trans hextra, hall⟩
    · refine ⟨extra ++ [⟨newRow, dirty⟩], ?_, fun r hr => ?_⟩
      · rw [hrows, hextra, append_assoc]
      · rcases mem_append.mp hr with hr | hr
        · exact hall r hr
        · rw [mem_singleton.mp hr]
          exact hgood g hg ((hk.key g hg hlive').symm.trans hindex)

omit [LinearOrder K] in
theorem of_other (hk : Kept st₀ good hs st) (hcalls : st.calls ≤ st'.calls)
    (hother : ∀ g ∈ hs, st'.live g = st.live g ∧ st'.mem g = st.mem g) :
    Kept st₀ good hs st' where
  calls := hk.calls.trans hcalls
  lt_calls := hk.lt_calls
  key g hg hlive := by
    rw [(hother g hg).1] at hlive
    rw [State.keyOf, (hother g hg).2]
    exact hk.key g hg hlive
  rows g hg hlive := by
    rw [(hother g hg).1] at hlive
    rw [(hother g hg).2]
    exact hk.rows g hg hlive

omit [LinearOrder K] in
theorem rewrites {h' : Handle} {record : Record K R} (hk : Kept st₀ good hs st)
    (hw : Rewrites st h h' record st') (hh : h ∉ hs) : Kept st₀ good hs st' :=
  hk.of_other hw.calls fun g hg => hw.other ((hk.lt_calls g hg).trans_le hk.calls) fun heq =>
    hh (heq ▸ hg)

theorem dropped (hk : Kept st₀ good hs st) (hd : Drops st h st') (hh : h ∉ hs) :
    Kept st₀ good hs st' :=
  hk.of_other hd.calls.ge fun _ hg => hd.other fun heq => hh (heq ▸ hg)

omit [LinearOrder K] in
theorem countUpdate (hk : Kept st₀ good hs st) : Kept st₀ good hs (st.countUpdate dirty) :=
  hk.of_other le_rfl fun _ _ => ⟨rfl, rfl⟩

end Kept

/-- Every record but the current one has rows. -/
def FullExcept (content : Handle) (st : State K R) : Prop :=
  ∀ g ∈ st.handles, g ≠ content → (st.mem g).rows ≠ []

theorem FullExcept.rewrites {h' : Handle} {record : Record K R} (hf : FullExcept h st)
    (hw : Rewrites st h h' record st') (hinv : st.Inv T) (hh : h ∈ st.handles) :
    FullExcept h' st' := by
  intro g hg hne
  rcases (hw.mem_handles_iff hh).mp hg with heq | ⟨hmem, hgh⟩
  · exact absurd heq hne
  · rw [hw.mem_of_ne (hw.ne_of_mem hinv hmem hgh)]
    exact hf g hmem hgh

theorem FullExcept.inserted (hf : FullExcept h st) (hinv : st.Inv T)
    (hi : Inserted env T newRow dirty st st') : FullExcept h st' := by
  intro g hg hne
  cases hi.change with
  | added record hnew hadds hkey hrows =>
    rcases hadds.spliced.mem_iff.mp hg with rfl | hmem
    · rw [hadds.mem_self, hrows]
      exact cons_ne_nil _ _
    · rw [hadds.mem_of_mem hinv hmem]
      exact hf g hmem hne
  | extended x x' record hx hindex hw hkey hrows =>
    rcases (hw.mem_handles_iff hx).mp hg with rfl | ⟨hmem, hgx⟩
    · rw [hw.mem_self, hrows]
      simp
    · rw [hw.mem_of_ne (hw.ne_of_mem hinv hmem hgx)]
      exact hf g hmem hne

omit [LinearOrder K] in
/-- A property of the state before each record is kept along the records. -/
theorem forEach_rule {subRowProc : Handle → State K R → Option (Int × State K R)}
    {P : List Handle → State K R → Prop}
    (hstep : ∀ h hs st iRet st', P (h :: hs) st → subRowProc h st = some (iRet, st') →
      iRet = 0 ∧ P hs st') {hs : List Handle} {iRet : Int} (hp : P hs st)
    (hrun : forEach subRowProc hs st = some (iRet, st')) : iRet = 0 ∧ P [] st' := by
  induction hs generalizing st with
  | nil =>
    cases hrun
    exact ⟨rfl, hp⟩
  | cons h hs ih =>
    rw [forEach] at hrun
    cases hproc : subRowProc h st with
    | none =>
      rw [hproc] at hrun
      cases hrun
    | some res =>
      obtain ⟨iRet₁, st₁⟩ := res
      obtain ⟨rfl, hp₁⟩ := hstep h hs st iRet₁ st₁ hp hproc
      simp only [hproc, Option.bind_eq_bind, Option.bind_some, ne_eq, not_true_eq_false,
        if_false] at hrun
      exact ih hp₁ hrun

section Rule

variable {hRecord : Handle} {k : K} {total : Nat} {good : Row R → Prop} {hs : List Handle}
  {async : Bool}

/-- What every update keeps in its loop, where `hs` are the records still to come: the rows still to
be read are old ones or `good`. -/
structure InLoop (st₀ : State K R) (good : Row R → Prop) (hRecord : Handle) (hs : List Handle)
    (async : Bool) (v : UpdateVars R) (st : State K R) : Prop where
  kept : Kept st₀ good hs st
  fullExcept : FullExcept v.content st
  mode : st.async = async
  ahead : ∀ r ∈ (st.mem v.content).rows.drop v.pos, r ∈ (st₀.mem hRecord).rows ∨ good r

/-- The rows that are moved to a record still to come are `good`. -/
def MovesGood (st₀ : State K R) (task : Task T) (good : Row R → Prop) (async : Bool)
    (hRecord : Handle) (hs : List Handle) : Prop :=
  ∀ row : Row R, row ∈ (st₀.mem hRecord).rows ∨ good row → task.compareRow row.value = true →
    ∀ g ∈ hs, st₀.keyOf g = T.index (task.updateRow row.value) →
      good ⟨task.updateRow row.value, async⟩

theorem UpdateStep.mode_eq {v v' : UpdateVars R} (hstep : UpdateStep env task v row st v' st') :
    st'.async = st.async := by
  cases hstep with
  | moved st₁ st₂ hne hins hdel =>
    change st₂.async = st.async
    rw [hdel.members.async, hins.members.async]
  | replaced h' st₁ heq hrep => exact hrep.members.async

theorem loopRule_inLoop (hh : hRecord ∉ hs)
    (hgood : MovesGood st₀ task good async hRecord hs) :
    LoopRule env task hRecord k total (InLoop st₀ good hRecord hs async) where
  skip hl hrow _ hq := by
    refine ⟨hq.kept, hq.fullExcept, hq.mode, fun r hr => hq.ahead r ?_⟩
    rw [drop_eq_cons hrow]
    exact mem_cons_of_mem _ hr
  step := by
    intro n v st row v' st' hl hat hrow hcmp hstep hq
    have hcontent : v.content ∉ hs := by
      rw [hat]
      exact hh
    have hhead : row ∈ (st.mem v.content).rows.drop v.pos := by
      rw [drop_eq_cons hrow]
      exact mem_cons_self
    have hahead : ∀ r ∈ (st'.mem v'.content).rows.drop v'.pos,
        r ∈ (st₀.mem hRecord).rows ∨ good r := by
      rw [hstep.drop hl hrow]
      intro r hr
      refine hq.ahead r ?_
      rw [drop_eq_cons hrow]
      exact mem_cons_of_mem _ hr
    have hmode : st'.async = async := hstep.mode_eq.trans hq.mode
    cases hstep with
    | moved st₁ st₂ hne hins hdel =>
      have hinv₁ := hins.inv hl.inv
      obtain ⟨hmem, -⟩ := hins.mem_of_ne hl.inv hl.content (Ne.symm hne)
      have hgood' : ∀ g ∈ hs, st₀.keyOf g = T.index (task.updateRow row.value) →
          good ⟨task.updateRow row.value, st.async⟩ := by
        rw [hq.mode]
        exact hgood row (hq.ahead row hhead) hcmp
      refine ⟨?_, ?_, hmode, hahead⟩
      · exact ((hq.kept.inserted hl.inv hins hgood').rewrites hdel.rewrites hcontent).countUpdate
      · have hfull : FullExcept v.content st₂ :=
          (hq.fullExcept.inserted hl.inv hins).rewrites hdel.rewrites hinv₁ hmem
        exact hfull
    | replaced h' st₁ heq hrep =>
      obtain ⟨chunkSize, hw⟩ := hrep.chunk
      refine ⟨(hq.kept.rewrites hw hcontent).countUpdate, ?_, hmode, hahead⟩
      have hfull : FullExcept h' st₁ := hq.fullExcept.rewrites hw hl.inv hl.content
      exact hfull

theorem UpdateEnd.full {v : UpdateVars R} (hend : UpdateEnd v st st')
    (hf : FullExcept v.content st) : st'.Full := by
  cases hend with
  | kept hrows =>
    intro g hg
    by_cases hgc : g = v.content
    · exact hgc ▸ hrows
    · exact hf g hg hgc
  | dropped st' hrows hdrops =>
    intro g hg
    rw [hdrops.mem]
    refine hf g (hdrops.spliced.mem_iff.mpr (.inr hg)) ?_
    rintro rfl
    exact hdrops.spliced.key_ne hg rfl

theorem LoopRule.and {P Q : UpdateVars R → State K R → Prop}
    (hP : LoopRule env task hRecord k total P) (hQ : LoopRule env task hRecord k total Q) :
    LoopRule env task hRecord k total fun v st => P v st ∧ Q v st where
  skip hl hrow hcmp hq := ⟨hP.skip hl hrow hcmp hq.1, hQ.skip hl hrow hcmp hq.2⟩
  step hl hat hrow hcmp hstep hq :=
    ⟨hP.step hl hat hrow hcmp hstep hq.1, hQ.step hl hat hrow hcmp hstep hq.2⟩

/-- The state between two records. -/
structure Between (T : Table K R) (st₀ : State K R) (good : Row R → Prop) (async : Bool)
    (hs : List Handle) (st : State K R) : Prop where
  inv : st.Inv T
  full : st.Full
  nodup : hs.Nodup
  kept : Kept st₀ good hs st
  mode : st.async = async

theorem Between.end {v : UpdateVars R} (hl : Looping T hRecord k total 0 v st)
    (hin : InLoop st₀ good hRecord hs async v st) (hnodup : hs.Nodup) (hh : hRecord ∉ hs)
    (hend : UpdateEnd v st st') : Between T st₀ good async hs st' := by
  have hfull := hend.full hin.fullExcept
  cases hend with
  | kept hrows => exact ⟨hl.inv, hfull, hnodup, hin.kept, hin.mode⟩
  | dropped st'' hrows hdrops hRoot hcnts hrowCnt hraw hsized hmembers =>
    have hcontent : v.content = hRecord := by
      have hleft := hl.left
      rw [hrows, length_nil] at hleft
      exact hl.first (by omega)
    exact ⟨hdrops.inv hl.inv, hfull, hnodup, hin.kept.dropped hdrops (hcontent ▸ hh),
      hmembers.async.trans hin.mode⟩

theorem Between.start (hb : Between T st₀ good async (hRecord :: hs) st)
    (hlive : st.live hRecord = true) :
    InLoop st₀ good hRecord hs async ⟨0, hRecord, 0, 0, none⟩ st := by
  refine ⟨hb.kept.tail, fun g hg _ => hb.full g hg, hb.mode, fun r hr => ?_⟩
  obtain ⟨extra, hextra, hall⟩ := hb.kept.rows hRecord mem_cons_self hlive
  rw [drop_zero, hextra] at hr
  exact (mem_append.mp hr).imp_right (hall r)

/-- One record of an update: the rows moved are `good`, and `Q` is carried through the loop. -/
theorem updateSubRawData_between (H : T.Orders) (hok : env.Unlimited)
    {Q : UpdateVars R → State K R → Prop} (hb : Between T st₀ good async (hRecord :: hs) st)
    (hgood : MovesGood st₀ task good async hRecord hs)
    (hQ : LoopRule env task hRecord (st₀.keyOf hRecord) (st.mem hRecord).rows.length Q)
    (hq : st.live hRecord = true → Q ⟨0, hRecord, 0, 0, none⟩ st) {iRet : Int}
    (hrun : updateSubRawData env task hRecord st = some (iRet, st')) :
    iRet = 0 ∧ Between T st₀ good async hs st' ∧ ∃ v st₁,
      updateRows env task hRecord (st.mem hRecord).rows.length ⟨0, hRecord, 0, 0, none⟩ st =
        some (.ok v, st₁) ∧
      Looping T hRecord (st₀.keyOf hRecord) (st.mem hRecord).rows.length 0 v st₁ ∧ Q v st₁ ∧
      UpdateEnd v st₁ st' := by
  cases hlive : st.live hRecord with
  | false =>
    simp only [updateSubRawData, hlive, if_true] at hrun
    cases hrun
  | true =>
    have hmem : hRecord ∈ st.handles := (hb.inv.live_iff _).mp hlive
    obtain ⟨hnot, hnodup⟩ := nodup_cons.mp hb.nodup
    have hkey : st.keyOf hRecord = st₀.keyOf hRecord :=
      hb.kept.key _ mem_cons_self hlive
    rw [← hkey] at hQ
    obtain ⟨rfl, v, st₁, hloop, hl, ⟨hin, hqv⟩, hend⟩ := updateSubRawData_rule H hok hb.inv hmem
      (hb.full _ hmem) ((loopRule_inLoop hnot hgood).and hQ) ⟨hb.start hlive, hq hlive⟩ hrun
    rw [hkey] at hl
    exact ⟨rfl, .end hl hin hnodup hnot hend, v, st₁, hloop, hl, hqv, hend⟩

end Rule

/-! ## What an update adds up to -/

section Potential

variable {M : Type} [AddCancelCommMonoid M] {good : Row R → Prop} {async : Bool}
  {φ : State K R → M} {a b : Row R → M}

/-- A quantity that an update changes, at a row it rewrites, from `b` to `a`. -/
structure Potential (env : Mallocator) (task : Task T) (good : Row R → Prop) (async : Bool)
    (φ : State K R → M) (a b : Row R → M) : Prop where
  skip : ∀ {r}, task.compareRow r.value = false → a r = b r
  extra : ∀ {r}, good r → a r = b r
  step : ∀ {hRecord k total n v st row v' st'}, Looping T hRecord k total (n + 1) v st →
    (st.mem v.content).rows[v.pos]? = some row → task.compareRow row.value = true →
    UpdateStep env task { v with curRow := some row.value } row st v' st' → st.async = async →
    φ st' + b row = φ st + a row
  ended : ∀ {v st st'}, UpdateEnd v st st' → φ st' = φ st

/-- The sum over the rows of some records. -/
def rowSum (st : State K R) (c : Row R → M) (hs : List Handle) : M :=
  (hs.map fun h => ((st.mem h).rows.map c).sum).sum

/-- The rows still to be read make up for the change. -/
structure Pending (async : Bool) (φ : State K R → M) (a b : Row R → M) (c : M) (v : UpdateVars R)
    (st : State K R) : Prop where
  mode : st.async = async
  sum : φ st + (((st.mem v.content).rows.drop v.pos).map a).sum =
    c + (((st.mem v.content).rows.drop v.pos).map b).sum

theorem Potential.add_right (hp : Potential env task good async φ a b) (x : M) :
    Potential env task good async (fun st => φ st + x) a b where
  skip := hp.skip
  extra := hp.extra
  step hl hrow hcmp hstep hmode := by
    rw [add_right_comm, hp.step hl hrow hcmp hstep hmode, add_right_comm]
  ended hend := by rw [hp.ended hend]

theorem Potential.sum_extra (hp : Potential env task good async φ a b) {extra : List (Row R)}
    (hall : ∀ r ∈ extra, good r) : (extra.map a).sum = (extra.map b).sum :=
  congrArg List.sum (map_congr_left fun r hr => hp.extra (hall r hr))

theorem Potential.loopRule (hp : Potential env task good async φ a b) {hRecord : Handle} {k : K}
    {total : Nat} {c : M} : LoopRule env task hRecord k total (Pending async φ a b c) where
  skip hl hrow hcmp hq := by
    have hsum := hq.sum
    rw [drop_eq_cons hrow, map_cons, map_cons, sum_cons, sum_cons, hp.skip hcmp,
      add_left_comm, add_left_comm c] at hsum
    exact ⟨hq.mode, add_left_cancel hsum⟩
  step := by
    intro n v st row v' st' hl hat hrow hcmp hstep hq
    have hsum := hq.sum
    have hφ := hp.step hl hrow hcmp hstep hq.mode
    rw [drop_eq_cons hrow, map_cons, map_cons, sum_cons, sum_cons,
      ← hstep.drop hl hrow, ← add_assoc, ← hφ, add_right_comm, add_left_comm c,
      add_comm (b row)] at hsum
    exact ⟨hstep.mode_eq.trans hq.mode, add_right_cancel hsum⟩

/-- The change over one record. -/
theorem Potential.sum_record (hp : Potential env task good async φ a b) (H : T.Orders)
    (hok : env.Unlimited) {hs : List Handle} {iRet : Int}
    (hb : Between T st₀ good async (h :: hs) st) (hgood : MovesGood st₀ task good async h hs)
    (hrun : updateSubRawData env task h st = some (iRet, st')) :
    iRet = 0 ∧ Between T st₀ good async hs st' ∧
      φ st' + ((st₀.mem h).rows.map b).sum = φ st + ((st₀.mem h).rows.map a).sum := by
  have hstart : st.live h = true → Pending async (fun st' => φ st' + ((st.mem h).rows.map b).sum) a b
      (φ st + ((st.mem h).rows.map a).sum) ⟨0, h, 0, 0, none⟩ st := fun _ =>
    ⟨hb.mode, add_right_comm _ _ _⟩
  have hlive : st.live h = true := by
    by_contra hdead
    simp only [updateSubRawData, Bool.eq_false_of_not_eq_true hdead, if_true] at hrun
    cases hrun
  obtain ⟨extra, hextra, hall⟩ := hb.kept.rows h mem_cons_self hlive
  obtain ⟨rfl, hb', v, st₁, -, hl, hq, hend⟩ := updateSubRawData_between H hok hb hgood
    (hp.add_right _).loopRule hstart hrun
  have hread : (st₁.mem v.content).rows.drop v.pos = [] := drop_eq_nil_of_le hl.left.ge
  have hsum := hq.sum
  rw [hread, map_nil, map_nil, sum_nil, add_zero, add_zero, hextra, map_append,
    sum_append, map_append, sum_append, hp.sum_extra hall, ← add_assoc,
    ← add_assoc] at hsum
  exact ⟨rfl, hb', by rw [hp.ended hend, add_right_cancel hsum]⟩

/-- The change over all records of an update. -/
theorem Potential.sum_update (hp : Potential env task good async φ a b) (H : T.Orders)
    (hok : env.Unlimited) {hs : List Handle} {iRet : Int} (hb : Between T st₀ good async hs st)
    (hgood : ∀ l h hs', hs = l ++ h :: hs' → MovesGood st₀ task good async h hs')
    (hrun : forEach (updateSubRawData env task) hs st = some (iRet, st')) :
    iRet = 0 ∧ Between T st₀ good async [] st' ∧
      φ st' + rowSum st₀ b hs = φ st + rowSum st₀ a hs := by
  induction hs generalizing st with
  | nil =>
    cases hrun
    exact ⟨rfl, hb, rfl⟩
  | cons h hs ih =>
    obtain ⟨⟨iRet₁, st₁⟩, hproc, hrest⟩ := Option.bind_eq_some_iff.mp hrun
    obtain ⟨rfl, hb₁, hsum₁⟩ := hp.sum_record H hok hb (hgood [] h hs rfl) hproc
    simp only [ne_eq, not_true_eq_false, if_false] at hrest
    obtain ⟨hret, hb', hsum⟩ := ih hb₁
      (fun l g hs' heq => hgood (h :: l) g hs' (by rw [heq, cons_append])) hrest
    refine ⟨hret, hb', ?_⟩
    rw [rowSum, map_cons, sum_cons, rowSum, map_cons, sum_cons]
    change φ st' + (_ + rowSum st₀ b hs) = φ st + (_ + rowSum st₀ a hs)
    rw [add_left_comm, add_comm _ (φ st' + _), hsum, add_right_comm, hsum₁, add_assoc]

end Potential

end ISearch.TreeData
