import ISearch.DirectQuery.Defs
import ISearch.RocksProcess.Conditions

/-!
# Responses to direct queries

`serialize_to` takes as many rows from the deque as `sRowNums` says, converted to `size_t`. The row
number is an `int16_t` and holds error codes as well.
-/

namespace ISearch.DirectQuery

open KeyFormat RocksProcess

structure DirectResponseContext where
  magicNum : UInt16
  sequenceId : UInt64
  rowNums : Int16
  rowValues : List DirectRow

/-- `(size_t)sRowNums`. -/
def DirectResponseContext.rowCount (cxt : DirectResponseContext) : Nat :=
  (cxt.rowNums.toInt % 2 ^ 64).toNat

def DirectResponseContext.header (cxt : DirectResponseContext) : Bytes :=
  leBytes 2 cxt.magicNum.toNat ++ leBytes 8 cxt.sequenceId.toNat ++
    leBytes 2 cxt.rowNums.toUInt16.toNat

/-- The loop of `serialize_to`: the rows it appends and those it leaves. The front of an empty deque
must not be read. -/
def popRows : Nat → List DirectRow → Option (List DirectRow × List DirectRow)
  | 0, rowValues => some ([], rowValues)
  | _ + 1, [] => none
  | n + 1, row :: rowValues => do
    let (rows, rest) ← popRows n rowValues
    return (row :: rows, rest)

/-- `serialize_to` of a range query: the data, and the rows that stay in the deque. -/
def DirectResponseContext.serializeTo (cxt : DirectResponseContext) :
    Option (Bytes × List DirectRow) := do
  let (rows, rest) ← popRows cxt.rowCount cxt.rowValues
  return (cxt.header ++ rows.flatMap DirectRow.bytes, rest)

theorem popRows_eq_some_iff {n : Nat} {rowValues rows rest : List DirectRow} :
    popRows n rowValues = some (rows, rest) ↔ rowValues = rows ++ rest ∧ rows.length = n := by
  induction n generalizing rowValues rows with
  | zero =>
    rw [popRows, Option.some_inj, Prod.mk.injEq, List.length_eq_zero_iff]
    constructor
    · rintro ⟨rfl, rfl⟩
      exact ⟨rfl, rfl⟩
    · rintro ⟨rfl, rfl⟩
      exact ⟨rfl, rfl⟩
  | succ n ih =>
    cases rowValues with
    | nil =>
      rw [popRows]
      refine iff_of_false (by simp) ?_
      rintro ⟨hnil, hlen⟩
      rw [(List.append_eq_nil_iff.mp hnil.symm).1] at hlen
      cases hlen
    | cons row rowValues =>
      rw [popRows]
      constructor
      · intro h
        obtain ⟨⟨rows', rest'⟩, hpop, h⟩ := Option.bind_eq_some_iff.mp h
        cases h
        obtain ⟨rfl, hlen⟩ := ih.mp hpop
        exact ⟨rfl, by rw [List.length_cons, hlen]⟩
      · rintro ⟨happ, hlen⟩
        cases rows with
        | nil => cases hlen
        | cons row' rows =>
          rw [List.cons_append, List.cons.injEq] at happ
          obtain ⟨rfl, rfl⟩ := happ
          rw [ih.mpr ⟨rfl, Nat.succ.inj hlen⟩]
          rfl

/-- The context of a response to a query. -/
def directResponse {t : Table} (magicNum : UInt16) (sequenceId : UInt64) (outcome : Outcome)
    (w : Worker t) : DirectResponseContext :=
  ⟨magicNum, sequenceId, outcome.rowNums w.rowValues, w.rowValues⟩

/-- The rows a query answers with. -/
def Outcome.results (rowValues : List DirectRow) : Outcome → List DirectRow
  | .rows => rowValues
  | .refused | .failed | .notFound => []

/-- `serialize_to` ends, and emits the header and exactly these rows of the deque. -/
def DirectResponseContext.Emits (cxt : DirectResponseContext) (rows : List DirectRow) : Prop :=
  ∃ rest, cxt.rowValues = rows ++ rest ∧
    cxt.serializeTo = some (cxt.header ++ rows.flatMap DirectRow.bytes, rest)

theorem DirectResponseContext.emits_of_rowCount {cxt : DirectResponseContext}
    {rows rest : List DirectRow} (happ : cxt.rowValues = rows ++ rest)
    (hcount : rows.length = cxt.rowCount) : cxt.Emits rows := by
  refine ⟨rest, happ, ?_⟩
  rw [serializeTo, popRows_eq_some_iff.mpr ⟨happ, hcount⟩]
  rfl

theorem DirectResponseContext.Emits.rowCount {cxt : DirectResponseContext}
    {rows : List DirectRow} (h : cxt.Emits rows) : rows.length = cxt.rowCount := by
  obtain ⟨rest, happ, hser⟩ := h
  obtain ⟨⟨rows', rest'⟩, hpop, hser⟩ := Option.bind_eq_some_iff.mp hser
  rw [Option.pure_def, Option.some_inj, Prod.mk.injEq] at hser
  obtain ⟨-, rfl⟩ := hser
  obtain ⟨happ', hcount⟩ := popRows_eq_some_iff.mp hpop
  have hlen := congrArg List.length (happ.symm.trans happ')
  rw [List.length_append, List.length_append] at hlen
  omega

/-- The number of rows as the loop sees it. -/
theorem rowCount_ofNat (n : Nat) : ((Int16.ofNat n).toInt % 2 ^ 64).toNat =
    if n % 2 ^ 16 < 2 ^ 15 then n % 2 ^ 16 else 2 ^ 64 - 2 ^ 16 + n % 2 ^ 16 := by
  have hsize : Int16.size = 2 ^ 16 := rfl
  rw [Int16.toInt_ofNat', hsize, Int.bmod_def]
  split <;> split <;> omega

/-- A deque does not hold `2 ^ 63` rows. -/
theorem rowCount_ofNat_eq_iff {n : Nat} (hn : n < 2 ^ 63) :
    ((Int16.ofNat n).toInt % 2 ^ 64).toNat = n ↔ n < 2 ^ 15 := by
  rw [rowCount_ofNat]
  split <;> omega

/-- When a response holds the rows of its query. -/
theorem emits_iff {t : Table} (magicNum : UInt16) (sequenceId : UInt64) (outcome : Outcome)
    {w : Worker t} (hsize : w.rowValues.length < 2 ^ 63) :
    (directResponse magicNum sequenceId outcome w).Emits (outcome.results w.rowValues) ↔
      outcome ≠ .refused ∧ (outcome = .rows → w.rowValues.length < 2 ^ 15) := by
  have hiff : ∀ rest, w.rowValues = outcome.results w.rowValues ++ rest →
      ((directResponse magicNum sequenceId outcome w).Emits (outcome.results w.rowValues) ↔
        (outcome.results w.rowValues).length =
          ((outcome.rowNums w.rowValues).toInt % 2 ^ 64).toNat) := fun _ happ =>
    ⟨fun h => h.rowCount, fun h => DirectResponseContext.emits_of_rowCount happ h⟩
  cases outcome with
  | refused =>
    have hcount : 0 ≠ ((Int16.ofInt (-ecErrorBase)).toInt % 2 ^ 64).toNat := by decide
    rw [hiff w.rowValues rfl]
    exact iff_of_false hcount (by simp)
  | failed | notFound =>
    rw [hiff w.rowValues rfl]
    exact iff_of_true rfl (by simp)
  | rows =>
    rw [hiff [] (List.append_nil _).symm, Outcome.rowNums, Outcome.results, eq_comm,
      rowCount_ofNat_eq_iff hsize]
    simp

/-- Requests are read back as they were written, and responses hold the rows of their queries,
exactly within these bounds. -/
theorem directContexts_iff (t : Table) :
    (∀ cxt : DirectRequestContext,
      cxt.RoundTrip ↔ cxt.packetValue.Counted ∧ cxt.packetValue.size < 2 ^ 31) ∧
    ∀ (db : Db) (noReturn : Bool) (faults : Faults) (q : Query t) (w w' : Worker t)
      (outcome : Outcome) (magicNum : UInt16) (sequenceId : UInt64),
      processDirectQuery db noReturn faults q w = some (outcome, w') →
      w'.rowValues.length < 2 ^ 63 →
      ((directResponse magicNum sequenceId outcome w').Emits (outcome.results w'.rowValues) ↔
        outcome ≠ .refused ∧ (outcome = .rows → w'.rowValues.length < 2 ^ 15)) :=
  ⟨DirectRequestContext.roundTrip_iff, fun _ _ _ _ _ _ outcome magicNum sequenceId _ hsize =>
    emits_iff magicNum sequenceId outcome hsize⟩

/-- The query for the rows under the key `"a"`. -/
def equalQuery : Query twoKeyTable where
  fieldConds := [⟨0, some .eq, [97]⟩]
  orderbyFields := []
  limitCond := ⟨-1, -1⟩

theorem emits_equalQuery : ∃ w' : Worker twoKeyTable,
    processDirectQuery twoKeyDb false ⟨none, none⟩ equalQuery Worker.fresh = some (.rows, w') ∧
      (directResponse 12345 1 .rows w').Emits w'.rowValues := by
  refine ⟨⟨[[[97], [50]], [[97], [49]]], none⟩, by decide +kernel, ?_⟩
  exact ((directContexts_iff twoKeyTable).2 twoKeyDb false ⟨none, none⟩ equalQuery Worker.fresh
    _ _ _ _ (by decide +kernel) (by decide)).mpr ⟨by decide, fun _ => by decide⟩

/-- 256 conditions are counted as none, and the answer to a query without one on the primary key
never ends well. -/
theorem not_roundTrip_not_emits :
    ¬ DirectRequestContext.RoundTrip ⟨12345, 1,
      .rangeQuery ⟨List.replicate 256 ⟨0, 0, [97]⟩, [], ⟨-1, -1⟩⟩⟩ ∧
    processDirectQuery twoKeyDb false ⟨none, none⟩ { equalQuery with fieldConds := [] }
      Worker.fresh = some (.refused, Worker.fresh) ∧
    ¬ (directResponse (t := twoKeyTable) 12345 1 .refused Worker.fresh).Emits [] := by
  refine ⟨fun h => ?_, by decide +kernel, fun h => ?_⟩
  · have hcounted := ((DirectRequestContext.roundTrip_iff _).mp h).1.1
    rw [List.length_replicate] at hcounted
    exact lt_irrefl _ hcounted
  · exact absurd h.rowCount (by decide)

end ISearch.DirectQuery
