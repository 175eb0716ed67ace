import ISearch.DirectQuery.Response

/-!
# What a direct query sees of the stored rows

On the entries of rows the loops of a query keep the matching rows of what they visit, in the order
of the visit: all of them, those within the limit, or the first ones in the order that is asked for.
-/

namespace ISearch.DirectQuery

open KeyFormat RocksProcess List

variable {t : Table} {db : Db} {rows : List (Row t)} {noReturn : Bool} {q : Query t}

/-- A stored row as `save_direct_row` has it. -/
def elementOf (row : Row t) : OrderByUnitElement where
  rocksKeys := row.keys
  rocksValues := if t.valueFields = [] then [] else t.valueFields.dropLast.map row.str ++ [[]]

/-- The row of a response. The last value field is left empty. -/
def directRow (row : Row t) : DirectRow := buildDirectRow t (elementOf row)

/-- The conditions that are not on the primary key, as `save_direct_row` evaluates them. -/
def passesDirect (conds : List (Cond t)) (row : Row t) : Bool := (elementOf row).matched conds

@[simp] theorem elementOf_value (row : Row t) (i : t.FieldId) :
    (elementOf row).value i = row.splitStr i := by
  rw [OrderByUnitElement.value, elementOf, ← map_splitStr, getElem?_idxOf]
  rfl

theorem directElement_entry {row : Row t} (hfits : row.Fits) :
    directElement t row.rocksKey row.rocksValue = some (elementOf row) := by
  simp only [directElement, row.decode_rocksKey, row.decodeBitmapKeys_rocksValue,
    row.splitValues_shrunk hfits, Option.bind_eq_bind, Option.bind_some]
  rfl

theorem primaryKeyOf_rocksKey (row : Row t) :
    primaryKeyOf t row.rocksKey = some (row.lower.str 0) := by
  obtain ⟨rest, hrest⟩ := row.rocksKey_eq
  have hdec := (t.type 0).decodeField_enc (row.lower 0) [] rest
  rw [nil_append, ← hrest] at hdec
  rw [primaryKeyOf, length_nil] at *
  rw [hdec]
  rfl

/-! ## Keeping rows -/

/-- The rows are kept one after the other, until the limit is reached. -/
def keepAll (noReturn : Bool) (q : Query t) (s : QueryState t) :
    List OrderByUnitElement → QueryState t × Bool
  | [] => (s, false)
  | e :: es =>
    if (keepRow noReturn q e s).2 then ((keepRow noReturn q e s).1, true)
    else keepAll noReturn q (keepRow noReturn q e s).1 es

/-- The rows that a loop accepts. -/
def accepted (verdict : Row t → Verdict) (conds : List (Cond t)) (rows : List (Row t)) :
    List (Row t) :=
  (rows.takeWhile fun row => verdict row ≠ .stop).filter fun row =>
    verdict row = .accept && passesDirect conds row

variable {conds : List (Cond t)} {verdict : Bytes → Option Verdict} {rowVerdict : Row t → Verdict}

/-- The key that a loop stands at when it has gone through all rows. -/
def lastKey (rows : List (Row t)) (fullKey : Bytes) : Bytes :=
  (rows.getLast?.map Row.rocksKey).getD fullKey

theorem lastKey_cons (row : Row t) (rows : List (Row t)) (fullKey : Bytes) :
    lastKey (row :: rows) fullKey = lastKey rows row.rocksKey := by
  rw [lastKey, lastKey, List.getLast?_cons]
  cases rows.getLast? <;> rfl

/-- What is known of the key behind a loop over rows: it is the last one if the loop came to the end
of them. -/
structure KeyBehind (rowVerdict : Row t → Verdict) (full : Bool) (rows : List (Row t))
    (fullKey key : Bytes) : Prop where
  mem : rows = [] ∧ key = fullKey ∨ ∃ row ∈ rows, key = row.rocksKey
  last : (∀ row ∈ rows, rowVerdict row ≠ .stop) → full = false → key = lastKey rows fullKey

theorem KeyBehind.cons {full : Bool} {row : Row t} {fullKey key : Bytes}
    (h : KeyBehind rowVerdict full rows row.rocksKey key) :
    KeyBehind rowVerdict full (row :: rows) fullKey key where
  mem := by
    rcases h.mem with ⟨-, rfl⟩ | ⟨r, hr, heq⟩
    · exact .inr ⟨row, mem_cons_self, rfl⟩
    · exact .inr ⟨r, mem_cons_of_mem row hr, heq⟩
  last hstop hfull := by
    rw [lastKey_cons]
    exact h.last (fun r hr => hstop r (mem_cons_of_mem row hr)) hfull

/-- A loop over the entries of rows. -/
theorem scanLoop_entries (hfits : ∀ row ∈ rows, row.Fits)
    (hverdict : ∀ row ∈ rows, verdict row.rocksKey = some (rowVerdict row)) (fullKey : Bytes)
    (s : QueryState t) :
    ∃ key, scanLoop noReturn q conds verdict false fullKey s (rows.map Row.entry) =
        some ⟨(keepAll noReturn q s ((accepted rowVerdict conds rows).map elementOf)).1, key,
          false⟩ ∧
      KeyBehind rowVerdict
        (keepAll noReturn q s ((accepted rowVerdict conds rows).map elementOf)).2 rows fullKey
        key := by
  induction rows generalizing fullKey s with
  | nil => exact ⟨fullKey, rfl, .inl ⟨rfl, rfl⟩, fun _ _ => rfl⟩
  | cons row rows ih =>
    have hrest := ih (fun r hr => hfits r (mem_cons_of_mem row hr))
      (fun r hr => hverdict r (mem_cons_of_mem row hr)) row.rocksKey
    have hrow := hverdict row mem_cons_self
    rw [map_cons, Row.entry, scanLoop, hrow]
    simp only [Option.bind_eq_bind, Option.bind_some]
    cases hv : rowVerdict row with
    | stop =>
      have hnil : accepted rowVerdict conds (row :: rows) = [] := by
        rw [accepted, takeWhile_cons_of_neg (by simp [hv]), filter_nil]
      refine ⟨row.rocksKey, by rw [hnil]; rfl, .inr ⟨row, mem_cons_self, rfl⟩, ?_⟩
      exact fun hstop => absurd hv (hstop row mem_cons_self)
    | skip =>
      have hskip : accepted rowVerdict conds (row :: rows) = accepted rowVerdict conds rows := by
        rw [accepted, takeWhile_cons_of_pos (by simp [hv]),
          filter_cons_of_neg (by simp [hv])]
        rfl
      obtain ⟨key, hkey, hbehind⟩ := hrest s
      rw [hskip]
      exact ⟨key, hkey, hbehind.cons⟩
    | accept =>
      have htake : ((row :: rows).takeWhile fun row => rowVerdict row ≠ .stop) =
          row :: rows.takeWhile fun row => rowVerdict row ≠ .stop :=
        takeWhile_cons_of_pos (by simp [hv])
      simp only [saveDirectRow, directElement_entry (hfits row mem_cons_self),
        Option.bind_eq_bind, Option.bind_some]
      cases hpass : passesDirect conds row with
      | false =>
        have hskip : accepted rowVerdict conds (row :: rows) = accepted rowVerdict conds rows := by
          rw [accepted, htake, filter_cons_of_neg (by simp [hpass])]
          rfl
        have hmatch : (elementOf row).matched conds = false := hpass
        obtain ⟨key, hkey, hbehind⟩ := hrest s
        rw [hskip, hmatch]
        exact ⟨key, hkey, hbehind.cons⟩
      | true =>
        have hkeep : accepted rowVerdict conds (row :: rows) =
            row :: accepted rowVerdict conds rows := by
          rw [accepted, htake, filter_cons_of_pos (by simp [hv, hpass])]
          rfl
        have hmatch : (elementOf row).matched conds = true := hpass
        rw [hkeep, map_cons, keepAll, hmatch]
        by_cases hfull : (keepRow noReturn q (elementOf row) s).2 = true
        · rw [if_pos hfull]
          refine ⟨row.rocksKey, by simp [hfull], .inr ⟨row, mem_cons_self, rfl⟩, ?_⟩
          exact fun _ hfalse => absurd hfalse (by simp)
        · rw [if_neg hfull]
          obtain ⟨key, hkey, hbehind⟩ := hrest (keepRow noReturn q (elementOf row) s).1
          refine ⟨key, ?_, hbehind.cons⟩
          rw [← hkey]
          simp [hfull]

/-! ## Without `ORDER BY` -/

section

variable {s : QueryState t} (horder : q.orderbyFields = []) (hunit : s.orderByUnit = none)

include horder hunit

theorem keepRow_unordered (e : OrderByUnitElement) :
    keepRow noReturn q e s =
      if q.limitCond.limited && decide ((s.totalRows : Int) < q.limitCond.limitStart.toInt) then
        (⟨s.rowValues, none, s.totalRows + 1⟩, false)
      else
        (⟨buildDirectRow t e :: s.rowValues, none, s.totalRows + 1⟩, q.limitCond.limited &&
          decide ((s.rowValues.length : Int) = q.limitCond.limitStep.toInt - 1)) := by
  rw [keepRow, if_neg (by simp [horder, hunit]), hunit]

theorem orderByUnit_keepAll (es : List OrderByUnitElement) :
    (keepAll noReturn q s es).1.orderByUnit = none := by
  induction es generalizing s with
  | nil => exact hunit
  | cons e es ih =>
    have hnone : (keepRow noReturn q e s).1.orderByUnit = none := by
      rw [keepRow_unordered horder hunit]
      split <;> rfl
    rw [keepAll]
    split
    · exact hnone
    · exact ih hnone

theorem keepAll_unlimited (hlimit : q.limitCond.limited = false) (es : List OrderByUnitElement) :
    keepAll noReturn q s es =
      (⟨(es.map (buildDirectRow t)).reverse ++ s.rowValues, none, s.totalRows + es.length⟩,
        false) := by
  induction es generalizing s with
  | nil => rw [keepAll, ← hunit]; rfl
  | cons e es ih =>
    have hkeep : keepRow noReturn q e s = _ := keepRow_unordered horder hunit e
    rw [hlimit, Bool.false_and, if_neg Bool.false_ne_true, Bool.false_and] at hkeep
    rw [keepAll, hkeep, if_neg Bool.false_ne_true, ih rfl]
    simp [Nat.add_assoc, Nat.add_comm 1]

/-- Within a limit, `skip` rows are passed over and `room` rows are kept. -/
theorem keepAll_limited (hlimit : q.limitCond.limited = true) {skip room : Nat}
    (hskip : q.limitCond.limitStart.toInt - s.totalRows ≤ skip)
    (hskip' : skip = 0 ∨ (skip : Int) = q.limitCond.limitStart.toInt - s.totalRows)
    (hroom : (s.rowValues.length : Int) + (room + 1) = q.limitCond.limitStep.toInt)
    (es : List OrderByUnitElement) :
    (keepAll noReturn q s es).1.rowValues =
        (((es.drop skip).take (room + 1)).map (buildDirectRow t)).reverse ++ s.rowValues ∧
      (keepAll noReturn q s es).1.orderByUnit = none := by
  induction es generalizing s skip room with
  | nil =>
    rw [keepAll]
    exact ⟨by simp, hunit⟩
  | cons e es ih =>
    have hkeep : keepRow noReturn q e s = _ := keepRow_unordered horder hunit e
    rw [hlimit, Bool.true_and, Bool.true_and] at hkeep
    by_cases hbefore : (s.totalRows : Int) < q.limitCond.limitStart.toInt
    · rw [if_pos (by simpa using hbefore)] at hkeep
      obtain ⟨skip, rfl⟩ : ∃ k, skip = k + 1 := ⟨skip - 1, by omega⟩
      rw [keepAll, hkeep, if_neg Bool.false_ne_true, drop_succ_cons]
      refine ih rfl ?_ ?_ hroom
      · push_cast at hskip ⊢
        omega
      · have hskip' := hskip'.resolve_left (Nat.succ_ne_zero skip)
        right
        push_cast at hskip' ⊢
        omega
    · rw [if_neg (by simpa using hbefore)] at hkeep
      obtain rfl : skip = 0 := by omega
      rw [keepAll, hkeep, drop_zero, take_succ_cons]
      cases room with
      | zero =>
        rw [if_pos (by simp; omega)]
        simp
      | succ room =>
        rw [if_neg (by simp; omega)]
        have hskip₀ : q.limitCond.limitStart.toInt - (s.totalRows + 1 : Nat) ≤ (0 : Nat) := by
          push_cast
          omega
        have hroom₁ : ((buildDirectRow t e :: s.rowValues).length : Int) + (room + 1) =
            q.limitCond.limitStep.toInt := by
          rw [length_cons]
          push_cast at hroom ⊢
          omega
        obtain ⟨hrows, hnone⟩ := ih (s := ⟨buildDirectRow t e :: s.rowValues, none,
          s.totalRows + 1⟩) rfl hskip₀ (.inl rfl) hroom₁
        refine ⟨?_, hnone⟩
        rw [hrows]
        simp

end

theorem drainOrderBy_none {s : QueryState t} (hunit : s.orderByUnit = none) :
    drainOrderBy q s = s := by
  rw [drainOrderBy, hunit]

/-- The state of a query of a fresh worker. -/
def QueryState.start : QueryState t := ⟨[], none, 0⟩

/-- The limit cuts `LIMIT start, step` out of the rows. -/
theorem keepAll_start_limited (noReturn : Bool) (horder : q.orderbyFields = [])
    (hlimit : q.limitCond.limited = true) (es : List OrderByUnitElement) :
    (keepAll noReturn q QueryState.start es).1.rowValues =
        (((es.drop q.limitCond.limitStart.toInt.toNat).take q.limitCond.limitStep.toInt.toNat).map
          (buildDirectRow t)).reverse ∧
      (keepAll noReturn q QueryState.start es).1.orderByUnit = none := by
  have hpos : 0 ≤ q.limitCond.limitStart.toInt ∧ 0 < q.limitCond.limitStep.toInt := by
    simpa [LimitCond.limited] using hlimit
  have hskip : q.limitCond.limitStart.toInt - (0 : Nat) ≤ q.limitCond.limitStart.toInt.toNat := by
    omega
  have hskip' : (q.limitCond.limitStart.toInt.toNat : Int) =
      q.limitCond.limitStart.toInt - (0 : Nat) := by omega
  obtain ⟨room, hroom⟩ : ∃ room, q.limitCond.limitStep.toInt.toNat = room + 1 :=
    ⟨q.limitCond.limitStep.toInt.toNat - 1, by omega⟩
  have hroom' : (([] : List DirectRow).length : Int) + (room + 1) = q.limitCond.limitStep.toInt := by
    rw [length_nil]
    omega
  have hkeep : (keepAll noReturn q QueryState.start es).1.rowValues = _ ∧ _ :=
    keepAll_limited horder rfl hlimit hskip (.inr hskip') hroom' es
  rw [hroom]
  exact ⟨hkeep.1.trans (append_nil _), hkeep.2⟩

/-- The rows of an iteration with `prefix_same_as_start`. -/
def equalRows (rows : List (Row t)) (preKey : Bytes) : List (Row t) :=
  (rows.filter fun row => preKey ≤ row.rocksKey).takeWhile fun row =>
    keyPrefix t row.rocksKey = keyPrefix t preKey

/-- The rows of the range loop. -/
def rangeRows (rows : List (Row t)) (forwardDirection : Bool) (key : Bytes) : List (Row t) :=
  if forwardDirection then rows.filter fun row => key ≤ row.rocksKey
  else (rows.filter fun row => row.rocksKey ≤ key).reverse

def equalVerdict (preKey : Bytes) (row : Row t) : Verdict :=
  if keyMatched preKey row.rocksKey then .accept else .stop

def rangeVerdict (primaryKeyConds : List (Cond t)) (row : Row t) : Verdict :=
  rangeKeyMatched (row.lower.str 0) primaryKeyConds

theorem mem_of_mem_rangeRows {row : Row t} {forwardDirection : Bool} {key : Bytes}
    (h : row ∈ rangeRows rows forwardDirection key) : row ∈ rows := by
  rw [rangeRows] at h
  split at h
  · exact (mem_filter.mp h).1
  · exact (mem_filter.mp (mem_reverse.mp h)).1

theorem mem_of_mem_equalRows {row : Row t} {preKey : Bytes} (h : row ∈ equalRows rows preKey) :
    row ∈ rows :=
  (mem_filter.mp ((takeWhile_sublist _).mem h)).1

theorem samePrefix_stores (h : Stores db rows) (preKey : Bytes) :
    samePrefix t db preKey = (equalRows rows preKey).map Row.entry := by
  rw [samePrefix, h.seek, takeWhile_map, equalRows]
  rfl

theorem rangeIteration_stores (h : Stores db rows) (forwardDirection : Bool) (key : Bytes) :
    rangeIteration db forwardDirection key ⟨none, none⟩ =
      ⟨(rangeRows rows forwardDirection key).map Row.entry, false⟩ := by
  rw [rangeIteration, Iteration.of, rangeRows]
  cases forwardDirection with
  | true => rw [if_pos rfl, if_pos rfl, h.seek]
  | false =>
    rw [if_neg Bool.false_ne_true, if_neg Bool.false_ne_true, SortedMap.seekForPrev, h.entries,
      filter_map, map_reverse]
    rfl

variable {primaryKeyConds : List (Cond t)}

theorem rangeSection_stores (h : Stores db rows) (forwardDirection : Bool) (key : Bytes)
    (s : QueryState t) :
    rangeSection db noReturn q primaryKeyConds conds forwardDirection ⟨none, none⟩ key s =
      some (if rangeRows rows forwardDirection key = [] then (.notFound, s.worker)
        else (.rows, (drainOrderBy q (keepAll noReturn q s
          ((accepted (rangeVerdict primaryKeyConds) conds
            (rangeRows rows forwardDirection key)).map elementOf)).1).worker)) := by
  rw [rangeSection, rangeIteration_stores h]
  dsimp only
  by_cases hnil : rangeRows rows forwardDirection key = []
  · rw [if_pos hnil, if_pos (by rw [hnil]; rfl), if_neg Bool.false_ne_true]
  · have hverdict : ∀ row ∈ rangeRows rows forwardDirection key,
        ((primaryKeyOf t row.rocksKey).map fun pk => rangeKeyMatched pk primaryKeyConds) =
          some (rangeVerdict primaryKeyConds row) := by
      intro row _
      rw [primaryKeyOf_rocksKey]
      rfl
    have hscan : ∃ fullKey, scanLoop noReturn q conds
        (fun key => (primaryKeyOf t key).map fun pk => rangeKeyMatched pk primaryKeyConds) false key
        s ((rangeRows rows forwardDirection key).map Row.entry) = some ⟨_, fullKey, false⟩ ∧ _ :=
      scanLoop_entries (fun row hrow => h.fits row (mem_of_mem_rangeRows hrow)) hverdict key s
    obtain ⟨fullKey, hscan, -⟩ := hscan
    rw [if_neg hnil, if_neg (by simpa using hnil), hscan]
    rfl

theorem equalLoop_stores (h : Stores db rows) (preKey : Bytes) (s : QueryState t) :
    ∃ key, equalLoop db noReturn q conds preKey ⟨none, none⟩ s =
        some ⟨(keepAll noReturn q s ((accepted (equalVerdict preKey) conds
          (equalRows rows preKey)).map elementOf)).1, key, false⟩ ∧
      KeyBehind (equalVerdict preKey) (keepAll noReturn q s
        ((accepted (equalVerdict preKey) conds (equalRows rows preKey)).map elementOf)).2
        (equalRows rows preKey) preKey key := by
  rw [equalLoop, samePrefix_stores h]
  exact scanLoop_entries (fun row hrow => h.fits row (mem_of_mem_equalRows hrow))
    (fun _ _ => rfl) preKey s

end ISearch.DirectQuery
