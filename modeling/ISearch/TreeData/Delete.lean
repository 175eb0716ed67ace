import ISearch.TreeData.Track

/-!
# The loops of a deletion (`TreeData::delete_sub_raw_data`)

A deletion never meets a dead handle: the records it visits are other ones than those it has
dropped. The rules carry a property of the caller along the rows of a record.
-/

namespace ISearch.TreeData

open TTree BufferProcess State

variable {K R : Type} [LinearOrder K] {T : Table K R} {st st' : State K R} {task : Task T}
  {content : Handle} {k : K} {total n pos iAffectRows : Nat} {curRow : Option R}

/-- What the loop over the `total` rows of a record keeps, with `n` rows left to read. -/
structure Deleting (T : Table K R) (content : Handle) (k : K) (total n pos iAffectRows : Nat)
    (curRow : Option R) (st : State K R) : Prop where
  inv : st.Inv T
  fullExcept : FullExcept content st
  mem : content ∈ st.handles
  key : st.keyOf content = k
  left : pos + n = (st.mem content).rows.length
  affected : iAffectRows + (st.mem content).rows.length = total
  cur : ∀ r, curRow = some r → T.index r = k
  read : curRow = none → n = total

/-- The counters of `delete_sub_raw_data` after a row was deleted. -/
def State.countDelete (st : State K R) (dirty : Bool) : State K R :=
  { st with
    rowsInc := st.rowsInc - 1
    dirtyRowsInc := st.dirtyRowsInc - (if dirty then 1 else 0) }

/-- A property of the loop is kept by the rows it deletes. -/
def DeleteRule (T : Table K R) (content : Handle) (Q : State K R → Prop) : Prop :=
  ∀ {st st' : State K R} {pos : Nat} {row : Row R}, st.Inv T → content ∈ st.handles →
    (st.mem content).rows[pos]? = some row → RowDeleted T content pos row st st' → Q st →
    Q (st'.countDelete row.dirty)

theorem deleteRows_rule (task : Task T) {Q : State K R → Prop} (hQ : DeleteRule T content Q)
    (hd : Deleting T content k total n pos iAffectRows curRow st) (hq : Q st) :
    ∃ affected cur st', deleteRows task content n pos iAffectRows curRow st =
        some (affected, cur, st') ∧
      Deleting T content k total 0 (st'.mem content).rows.length affected cur st' ∧ Q st' := by
  induction n generalizing pos iAffectRows curRow st with
  | zero =>
    obtain rfl : pos = (st.mem content).rows.length := by
      have := hd.left
      omega
    exact ⟨iAffectRows, curRow, st, rfl, hd, hq⟩
  | succ n ih =>
    have hleft := hd.left
    have hlt : pos < (st.mem content).rows.length := by omega
    obtain ⟨row, hrow⟩ : ∃ row, (st.mem content).rows[pos]? = some row :=
      ⟨_, List.getElem?_eq_getElem hlt⟩
    have hindex : T.index row.value = k := by
      rw [hd.inv.index _ hd.mem row (List.mem_of_getElem? hrow), hd.key]
    have hcur : ∀ r, some row.value = some r → T.index r = k := fun r hr =>
      Option.some.inj hr ▸ hindex
    simp only [deleteRows, hrow]
    by_cases hcmp : task.compareRow row.value = false
    · rw [if_pos hcmp]
      exact ih ⟨hd.inv, hd.fullExcept, hd.mem, hd.key, by omega, hd.affected, hcur, nofun⟩ hq
    · rw [if_neg hcmp]
      obtain ⟨st₁, heq, hdel⟩ := deleteCurRow_spec hd.inv hd.mem hrow
      have hlen : (st₁.mem content).rows.length + 1 = (st.mem content).rows.length := by
        rw [hdel.rows, List.length_eraseIdx_of_lt hlt]
        omega
      have haffected := hd.affected
      have hfull : FullExcept content st₁ := hd.fullExcept.rewrites hdel.rewrites hd.inv hd.mem
      have hnext : Deleting T content k total n pos (iAffectRows + 1) (some row.value)
          (st₁.countDelete row.dirty) :=
        { inv := (hdel.inv hd.inv hd.mem).congr rfl rfl rfl rfl
          fullExcept := hfull
          mem := hdel.handles ▸ hd.mem
          key := (hdel.keyOf hd.inv hd.mem).trans hd.key
          left := by
            change pos + n = (st₁.mem content).rows.length
            omega
          affected := by
            change iAffectRows + 1 + (st₁.mem content).rows.length = total
            omega
          cur := hcur
          read := nofun }
      rw [heq]
      exact ih hnext (hQ hd.inv hd.mem hrow hdel hq)

/-- `delete_sub_raw_data` of a record of a node whose records all have rows. -/
theorem deleteSubRawData_spec (H : T.Orders) (hinv : st.Inv T) (hfull : st.Full)
    (hh : content ∈ st.handles) {Q : State K R → Prop} (hQ : DeleteRule T content Q) (hq : Q st) :
    ∃ st', deleteSubRawData task content st = some (0, st') ∧ st'.Inv T ∧ st'.Full ∧
      ∃ affected cur st₁, deleteRows task content (st.mem content).rows.length 0 0 none st =
        some (affected, cur, st₁) ∧ st₁.Inv T ∧ content ∈ st₁.handles ∧ Q st₁ ∧
      UpdateEnd ⟨0, content, 0, 0, none⟩ st₁ st' := by
  have hlive : st.live content = true := (hinv.live_iff _).mpr hh
  have hstart : Deleting T content (st.keyOf content) (st.mem content).rows.length
      (st.mem content).rows.length 0 0 none st :=
    ⟨hinv, fun g hg _ => hfull g hg, hh, rfl, zero_add _, zero_add _, nofun, fun _ => rfl⟩
  obtain ⟨affected, cur, st₁, heq, hd, hq₁⟩ := deleteRows_rule task hQ hstart hq
  simp only [deleteSubRawData, hlive, Bool.true_eq_false, if_false, Option.bind_eq_bind, heq,
    Option.bind_some]
  have haffected := hd.affected
  cases cur with
  | none =>
    have hread := hd.read rfl
    exact absurd (List.length_eq_zero_iff.mp hread.symm) (hfull _ hh)
  | some row =>
    by_cases hempty : (st₁.mem content).rows = []
    · have hall : affected = (st.mem content).rows.length := by
        rw [hempty, List.length_nil] at haffected
        omega
      have hcur : T.index row = st₁.keyOf content := (hd.cur row rfl).trans hd.key.symm
      obtain ⟨st₂, heq₂, hdrops, hroot, hcnt, hnodes, hraw, hsized, hmembers⟩ :=
        dropRecord_spec H hd.inv hd.mem
      have hend : UpdateEnd ⟨0, content, 0, 0, none⟩ st₁ st₂ :=
        .dropped st₂ hempty hdrops hroot hnodes hcnt hraw hsized hmembers
      refine ⟨st₂, ?_, hdrops.inv hd.inv, hend.full hd.fullExcept, affected, _, st₁, rfl, hd.inv,
        hd.mem, hq₁, hend⟩
      simp only [if_pos hall, hcur, heq₂]
    · have hall : ¬affected = (st.mem content).rows.length := by
        have := mt List.length_eq_zero_iff.mp hempty
        omega
      have hend : UpdateEnd ⟨0, content, 0, 0, none⟩ st₁ st₁ := .kept hempty
      refine ⟨st₁, ?_, hd.inv, hend.full hd.fullExcept, affected, _, st₁, rfl, hd.inv, hd.mem, hq₁,
        hend⟩
      simp only [if_neg hall]
      rfl

theorem deleteSubRawData_rule (H : T.Orders) (hinv : st.Inv T) (hfull : st.Full)
    {Q : State K R → Prop} (hQ : DeleteRule T content Q) (hq : Q st) {iRet : Int}
    (hrun : deleteSubRawData task content st = some (iRet, st')) :
    iRet = 0 ∧ st'.Inv T ∧ st'.Full ∧ ∃ affected cur st₁,
      deleteRows task content (st.mem content).rows.length 0 0 none st =
        some (affected, cur, st₁) ∧ st₁.Inv T ∧ content ∈ st₁.handles ∧ Q st₁ ∧
      UpdateEnd ⟨0, content, 0, 0, none⟩ st₁ st' := by
  cases hlive : st.live content with
  | false =>
    simp only [deleteSubRawData, hlive, if_true] at hrun
    cases hrun
  | true =>
    obtain ⟨st₂, heq, hspec⟩ := @deleteSubRawData_spec _ _ _ _ st task content H hinv hfull
      ((hinv.live_iff _).mp hlive) Q hQ hq
    rw [heq] at hrun
    cases hrun
    exact ⟨rfl, hspec⟩

end ISearch.TreeData
