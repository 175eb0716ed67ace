import Mathlib.Data.List.Nodup
import ISearch.DirectQuery.Worker
import ISearch.RocksProcess.Operations

/-!
# The rows of a range query

Without `ORDER BY` a range query should return the rows for which all conditions hold, each once,
and with a limit a part of the sequence in which it visits them. Which rows it returns is computed
here for a String or Binary primary key, and compared with these.
-/

namespace ISearch.DirectQuery

open KeyFormat RocksProcess List

variable {t : Table} {db : Db} {rows : List (Row t)}

/-- The condition holds for a row; the string of the condition is read in the type of the field. -/
def Cond.holds (c : Cond t) (row : Row t) : Bool :=
  c.condOpr.any fun comparator =>
    Condition.holds ⟨c.fieldId, comparator, str2Value c.condValue (t.type c.fieldId)⟩ row

/-- All conditions hold. -/
def meetsDirect (conds : List (Cond t)) (row : Row t) : Bool := conds.all fun c => c.holds row

/-- The bound of a condition on the primary key. -/
def boundOf (c : Cond t) : (t.type 0).Value := str2Value c.condValue (t.type 0)

/-- How the primary key of a row compares with the bound. -/
def boundCmp (c : Cond t) (row : Row t) : Ordering :=
  (t.type 0).cmp (row.lower 0) (lowerValue (t.type 0) (boundOf c))

theorem Cond.holds_eq {c : Cond t} (hc : c.fieldId = 0) (row : Row t) :
    c.holds row = c.condOpr.any fun comparator => comparator.test (boundCmp c row) := by
  obtain ⟨i, condOpr, condValue⟩ := c
  obtain rfl : i = 0 := hc
  rfl

variable {fieldConds : List (Cond t)} {c : Cond t} {primaryKeyConds conds : List (Cond t)}

/-- What `analyse_primary_key_conds` accepts. -/
theorem analyse_eq_some
    (h : analysePrimaryKeyConds fieldConds = some (c :: primaryKeyConds, conds)) :
    fieldConds.filter (fun c => c.fieldId = 0) = c :: primaryKeyConds ∧
      fieldConds.filter (fun c => c.fieldId ≠ 0) = conds ∧
      ∀ c' ∈ c :: primaryKeyConds, c'.fieldId = 0 ∧ c'.condOpr ≠ some .ne ∧ c'.condOpr ≠ none := by
  rw [analysePrimaryKeyConds] at h
  split at h
  · cases h
  · rename_i hopr
    split at h
    · cases h
    · rw [Option.some_inj, Prod.mk.injEq] at h
      obtain ⟨hpk, hconds⟩ := h
      refine ⟨hpk, hconds, fun c' hc' => ?_⟩
      rw [← hpk] at hc'
      rw [Bool.not_eq_true, any_eq_false] at hopr
      have hc'opr := hopr c' hc'
      rw [mem_filter, decide_eq_true_iff] at hc'
      simp only [Bool.or_eq_true, decide_eq_true_eq, not_or] at hc'opr
      exact ⟨hc'.2, hc'opr.1, hc'opr.2⟩

theorem holds_of_meetsDirect
    (h : analysePrimaryKeyConds fieldConds = some (c :: primaryKeyConds, conds)) {row : Row t}
    (hmeets : meetsDirect fieldConds row = true) : ∀ c' ∈ c :: primaryKeyConds,
      c'.holds row = true := by
  intro c' hc'
  rw [← (analyse_eq_some h).1] at hc'
  rw [meetsDirect, all_eq_true] at hmeets
  exact hmeets c' (mem_filter.mp hc').1

variable (ht : t.StringKey)

include ht

theorem toStr_str2Value (s : Bytes) : (t.type 0).toStr (str2Value s (t.type 0)) = s := by
  rcases ht with h | h <;> rw [h] <;> rfl

theorem preKeyOf_eq (c : Cond t) : preKeyOf c = encodePreKey (boundOf c) := by
  rw [preKeyOf, encodePreKey, prefixKey, boundOf, toStr_str2Value ht]

theorem keyMatched_preKeyOf (c : Cond t) (row : Row t) :
    keyMatched (preKeyOf c) row.rocksKey = true ↔ boundCmp c row = .eq := by
  rw [preKeyOf_eq ht, ht.keyMatched_iff, boundCmp, (t.type 0).cmp_eq_eq]
  rfl

/-- The keys of rows compare with the key of a bound as the primary keys do. -/
theorem compare_preKeyOf (c : Cond t) (row : Row t) :
    ∃ rest : Bytes, compare row.rocksKey (preKeyOf c) =
      (boundCmp c row).then (compare rest []) := by
  obtain ⟨rest, hrest⟩ := row.rocksKey_eq
  refine ⟨rest, ?_⟩
  have hcode := (t.type 0).orderCode (row.lower 0) (lowerValue (t.type 0) (boundOf c)) rest []
  rw [append_nil] at hcode
  rw [preKeyOf_eq ht, ht.encodePreKey_eq, hrest]
  exact hcode

theorem preKeyOf_le_iff (c : Cond t) (row : Row t) :
    preKeyOf c ≤ row.rocksKey ↔ boundCmp c row ≠ .lt := by
  obtain ⟨rest, hcmp⟩ := compare_preKeyOf ht c row
  rw [← not_lt, ← compare_bytes_eq_lt, hcmp]
  cases boundCmp c row <;> cases rest <;> simp

theorem rocksKey_lt_preKeyOf_iff (c : Cond t) (row : Row t) :
    row.rocksKey < preKeyOf c ↔ boundCmp c row = .lt := by
  rw [← not_le, preKeyOf_le_iff ht, not_not]

/-- A prefix iteration from the key of a bound visits the rows equal to it. -/
theorem keyPrefix_eq_iff (c : Cond t) (row : Row t) :
    keyPrefix t row.rocksKey = keyPrefix t (preKeyOf c) ↔
      keyMatched (preKeyOf c) row.rocksKey = true := by
  have hpre : ∀ (x : (t.type 0).Value) (rest : Bytes),
      keyPrefix t ((t.type 0).enc x ++ rest) = some ((t.type 0).enc x) := by
    intro x rest
    have hfield : ∀ s : Bytes, encodeField s (t.type 0) = encodeBytes s := by
      intro s
      rcases ht with h | h <;> rw [h] <;> rfl
    have henc : (t.type 0).enc x = encodeBytes ((t.type 0).toStr x) := hfield _
    have hend := segmentsEnd_encodeBytes [] ((t.type 0).toStr x) rest
    rw [nil_append, ← henc, length_nil, Nat.zero_add, Nat.zero_add] at hend
    have hlen : ∀ key : Bytes, keyPrefix t key = (segmentsEnd key segmentSize).map key.take := by
      intro key
      rw [keyPrefix]
      rcases ht with h | h <;> rw [h] <;> cases segmentsEnd key segmentSize <;> rfl
    rw [hlen, hend]
    exact congrArg some (take_left ..)
  obtain ⟨rest, hrest⟩ := row.rocksKey_eq
  have hbound : preKeyOf c = (t.type 0).enc (lowerValue (t.type 0) (boundOf c)) ++ [] := by
    rw [preKeyOf_eq ht, ht.encodePreKey_eq, append_nil]
  rw [keyMatched_preKeyOf ht, boundCmp, (t.type 0).cmp_eq_eq, hrest, hbound, hpre, hpre,
    Option.some_inj]
  constructor
  · intro heq
    have hcmp := (t.type 0).orderCode.compare_eq (row.lower 0) (lowerValue (t.type 0) (boundOf c))
    rw [heq, Std.ReflOrd.compare_self] at hcmp
    exact (t.type 0).cmp_eq_eq.mp hcmp.symm
  · intro heq
    rw [heq]

theorem equalRows_eq (h : Stores db rows) (c : Cond t) :
    equalRows rows (preKeyOf c) = rows.filter fun row => keyMatched (preKeyOf c) row.rocksKey := by
  have hne : preKeyOf c ≠ [] := by
    rw [preKeyOf_eq ht]
    exact encodePreKey_ne_nil _
  rw [equalRows, ← h.scan hne]
  congr 1
  funext row
  rw [Bool.eq_iff_iff, decide_eq_true_iff]
  exact keyPrefix_eq_iff ht c row

omit ht

/-! ## The rows that are returned -/

/-- The rows a query returns, from a fresh worker and with a storage that does not fail; `none` if
it is refused. -/
def answer (noReturn : Bool) (db : Db) (q : Query t) : Option (List DirectRow) :=
  match processDirectQuery db noReturn ⟨none, none⟩ q Worker.fresh with
  | some (.rows, w) => some w.rowValues
  | some (.notFound, _) => some []
  | _ => none

/-- The key that the range loop starts at: the equal loop of a `<=` query has moved it. -/
def startKey (rows : List (Row t)) (c : Cond t) : Bytes :=
  if c.condOpr = some .le then
    lastKey (rows.filter fun row => keyMatched (preKeyOf c) row.rocksKey) (preKeyOf c)
  else preKeyOf c

/-- The rows of the range loop, in the order of the visit. -/
def scanRows (rows : List (Row t)) (c : Cond t) : List (Row t) :=
  rangeRows rows (c.condOpr.any Comparator.forward) (startKey rows c)

/-- The rows that the equal loop of a `<=` query returns. -/
def equalPassing (rows : List (Row t)) (c : Cond t) (conds : List (Cond t)) : List (Row t) :=
  if c.condOpr = some .le then
    rows.filter fun row => keyMatched (preKeyOf c) row.rocksKey && passesDirect conds row
  else []

/-- The rows that a query without a limit returns, in the order of the visit. -/
def visitedRows (rows : List (Row t)) (c : Cond t) (primaryKeyConds conds : List (Cond t)) :
    List (Row t) :=
  equalPassing rows c conds ++
    accepted (rangeVerdict (c :: primaryKeyConds)) conds (scanRows rows c)

include ht

theorem accepted_equalRows (h : Stores db rows) (c : Cond t) (conds : List (Cond t)) :
    accepted (equalVerdict (preKeyOf c)) conds (equalRows rows (preKeyOf c)) =
      rows.filter fun row => keyMatched (preKeyOf c) row.rocksKey && passesDirect conds row := by
  have hverdict : ∀ row ∈ equalRows rows (preKeyOf c), equalVerdict (preKeyOf c) row = .accept := by
    intro row hrow
    rw [equalRows_eq ht h] at hrow
    exact if_pos (mem_filter.mp hrow).2
  have htake : (equalRows rows (preKeyOf c)).takeWhile
      (fun row => equalVerdict (preKeyOf c) row ≠ .stop) = equalRows rows (preKeyOf c) := by
    rw [takeWhile_eq_self_iff]
    intro row hrow
    rw [hverdict row hrow]
    rfl
  rw [accepted, htake, filter_congr fun row hrow => by rw [hverdict row hrow], equalRows_eq ht h,
    filter_filter]
  apply filter_congr
  intro row _
  simp [Bool.and_comm]

omit ht in
theorem scanRows_ne_nil (hle : c.condOpr = some .le) {row : Row t} (hrow : row ∈ rows)
    (hkey : keyMatched (preKeyOf c) row.rocksKey = true) : scanRows rows c ≠ [] := by
  have hne : (rows.filter fun row => keyMatched (preKeyOf c) row.rocksKey) ≠ [] :=
    ne_nil_of_mem (mem_filter.mpr ⟨hrow, hkey⟩)
  have hlast := getLast_mem hne
  have hstart : startKey rows c = ((rows.filter fun row =>
      keyMatched (preKeyOf c) row.rocksKey).getLast hne).rocksKey := by
    rw [startKey, if_pos hle, lastKey, List.getLast?_eq_getLast_of_ne_nil hne]
    rfl
  refine ne_nil_of_mem (a := (rows.filter fun row =>
    keyMatched (preKeyOf c) row.rocksKey).getLast hne) ?_
  rw [scanRows, hle, rangeRows, hstart]
  exact mem_reverse.mpr (mem_filter.mpr
    ⟨(mem_filter.mp hlast).1, decide_eq_true le_rfl⟩)

section

variable (noReturn : Bool) (h : Stores db rows)
  (hanalyse : analysePrimaryKeyConds fieldConds = some (c :: primaryKeyConds, conds))
  (hvalue : c.condValue ≠ [])

include h hanalyse hvalue

/-- The rows of a query, if the limit is not reached in its equal loop. -/
theorem answer_eq {q : Query t} (hconds : q.fieldConds = fieldConds)
    (horder : q.orderbyFields = [])
    (hfull : (keepAll noReturn q QueryState.start
      ((equalPassing rows c conds).map elementOf)).2 = false) :
    answer noReturn db q = some (keepAll noReturn q (keepAll noReturn q QueryState.start
      ((equalPassing rows c conds).map elementOf)).1
      ((accepted (rangeVerdict (c :: primaryKeyConds)) conds (scanRows rows c)).map
        elementOf)).1.rowValues := by
  have hsection : rangeSection db noReturn q (c :: primaryKeyConds) conds
      (c.condOpr.any Comparator.forward) ⟨none, none⟩ (startKey rows c) (keepAll noReturn q
        QueryState.start ((equalPassing rows c conds).map elementOf)).1 = some _ :=
    rangeSection_stores h _ _ _
  have hunit₁ : (keepAll noReturn q QueryState.start
      ((equalPassing rows c conds).map elementOf)).1.orderByUnit = none :=
    orderByUnit_keepAll horder rfl _
  have hunit : (keepAll noReturn q (keepAll noReturn q QueryState.start
      ((equalPassing rows c conds).map elementOf)).1
      ((accepted (rangeVerdict (c :: primaryKeyConds)) conds (scanRows rows c)).map
        elementOf)).1.orderByUnit = none := orderByUnit_keepAll horder hunit₁ _
  have hprocess : processDirectQuery db noReturn ⟨none, none⟩ q Worker.fresh =
      rangeSection db noReturn q (c :: primaryKeyConds) conds
        (c.condOpr.any Comparator.forward) ⟨none, none⟩ (startKey rows c) (keepAll noReturn q
          QueryState.start ((equalPassing rows c conds).map elementOf)).1 := by
    rw [processDirectQuery, hconds, hanalyse]
    dsimp only
    rw [if_neg hvalue]
    by_cases hle : c.condOpr = some .le
    · have hpassing : equalPassing rows c conds = accepted (equalVerdict (preKeyOf c)) conds
          (equalRows rows (preKeyOf c)) := by
        rw [equalPassing, if_pos hle, accepted_equalRows ht h]
      have hequal : ∃ key, equalLoop db noReturn q conds (preKeyOf c) ⟨none, none⟩
          QueryState.start = some ⟨_, key, false⟩ ∧ _ :=
        equalLoop_stores h (preKeyOf c) QueryState.start
      obtain ⟨key, hequal, hkey⟩ := hequal
      rw [← hpassing] at hequal hkey
      have hstart : key = startKey rows c := by
        rw [startKey, if_pos hle, ← equalRows_eq ht h]
        refine hkey.last (fun row hrow => ?_) hfull
        rw [equalRows_eq ht h] at hrow
        rw [equalVerdict, if_pos (mem_filter.mp hrow).2]
        simp
      rw [if_pos hle]
      change (equalLoop db noReturn q conds (preKeyOf c) ⟨none, none⟩ QueryState.start).bind _ = _
      rw [hequal, Option.bind_some, if_neg Bool.false_ne_true, hstart]
    · rw [if_neg hle, startKey, if_neg hle, equalPassing, if_neg hle]
      rfl
  rw [answer, hprocess, hsection, ← scanRows]
  by_cases hnil : scanRows rows c = []
  · have hpassing : equalPassing rows c conds = [] := by
      rw [equalPassing]
      split
      · rename_i hle
        rw [filter_eq_nil_iff]
        intro row hrow hboth
        rw [Bool.and_eq_true] at hboth
        exact scanRows_ne_nil hle hrow hboth.1 hnil
      · rfl
    rw [if_pos hnil, hnil, hpassing]
    rfl
  · rw [if_neg hnil]
    dsimp only
    rw [drainOrderBy_none hunit]
    rfl

theorem answer_unlimited {l : LimitCond} (hl : l.limited = false) :
    answer noReturn db ⟨fieldConds, [], l⟩ =
      some ((visitedRows rows c primaryKeyConds conds).map directRow).reverse := by
  have hkeep : ∀ (s : QueryState t) (es : List OrderByUnitElement), s.orderByUnit = none →
      keepAll noReturn ⟨fieldConds, [], l⟩ s es = (⟨(es.map (buildDirectRow t)).reverse ++
        s.rowValues, none, s.totalRows + es.length⟩, false) :=
    fun _ es hunit => keepAll_unlimited (q := ⟨fieldConds, [], l⟩) rfl hunit hl es
  have hequal := hkeep QueryState.start ((equalPassing rows c conds).map elementOf) rfl
  rw [answer_eq (q := ⟨fieldConds, [], l⟩) ht noReturn h hanalyse hvalue rfl rfl
    (by rw [hequal]), hequal, hkeep ⟨_, none, _⟩ _ rfl, visitedRows, map_append,
      reverse_append, map_map,
    map_map]
  exact congrArg (fun l => some (_ ++ l)) (append_nil _)

theorem answer_limited (hpassing : equalPassing rows c conds = []) {l : LimitCond}
    (hl : l.limited = true) :
    answer noReturn db ⟨fieldConds, [], l⟩ =
      some ((((visitedRows rows c primaryKeyConds conds).map directRow).drop
        l.limitStart.toInt.toNat).take l.limitStep.toInt.toNat).reverse := by
  rw [answer_eq (q := ⟨fieldConds, [], l⟩) ht noReturn h hanalyse hvalue rfl rfl
    (by rw [hpassing]; rfl), hpassing]
  have hkeep := keepAll_start_limited (q := ⟨fieldConds, [], l⟩) noReturn rfl hl
    ((accepted (rangeVerdict (c :: primaryKeyConds)) conds (scanRows rows c)).map elementOf)
  rw [visitedRows, hpassing, nil_append]
  refine congrArg some (hkeep.1.trans ?_)
  rw [← map_drop, ← map_take, ← map_drop, ← map_take, map_map]
  rfl

end

omit ht

/-! ## Exactness -/

/-- The query returns the rows for which all conditions hold, each once; with a limit, the part of
the visited sequence that the limit names. Rows are put to the front of the response. -/
def RangeQueryOk (noReturn : Bool) (db : Db) (rows : List (Row t)) (fieldConds : List (Cond t)) :
    Prop :=
  ∃ out : List DirectRow,
    out.Perm ((rows.filter (meetsDirect fieldConds)).map directRow) ∧
    (∀ l : LimitCond, l.limited = false →
      answer noReturn db ⟨fieldConds, [], l⟩ = some out.reverse) ∧
    ∀ l : LimitCond, l.limited = true → answer noReturn db ⟨fieldConds, [], l⟩ =
      some ((out.drop l.limitStart.toInt.toNat).take l.limitStep.toInt.toNat).reverse

/-- The scan sees what it should: no row equal to the bound of a `<=` query is returned by the equal
loop; up to the first row that `range_key_matched` stops at, the accepted rows are the matching
ones, and from there on none matches. -/
structure RangeExact (rows : List (Row t)) (fieldConds : List (Cond t)) (c : Cond t)
    (primaryKeyConds conds : List (Cond t)) : Prop where
  value : c.condValue ≠ []
  equal : c.condOpr = some .le → ∀ row ∈ rows, keyMatched (preKeyOf c) row.rocksKey = true →
    passesDirect conds row = false
  before : ∀ row ∈ (scanRows rows c).takeWhile fun row =>
      rangeVerdict (c :: primaryKeyConds) row ≠ .stop,
    (decide (rangeVerdict (c :: primaryKeyConds) row = .accept) && passesDirect conds row) =
      meetsDirect fieldConds row
  behind : ∀ row ∈ (scanRows rows c).dropWhile fun row =>
      rangeVerdict (c :: primaryKeyConds) row ≠ .stop, meetsDirect fieldConds row = false

theorem equalPassing_eq_nil (h : c.condOpr = some .le → ∀ row ∈ rows,
      keyMatched (preKeyOf c) row.rocksKey = true → passesDirect conds row = false) :
    equalPassing rows c conds = [] := by
  rw [equalPassing]
  split
  · rename_i hle
    rw [filter_eq_nil_iff]
    intro row hrow hboth
    rw [Bool.and_eq_true] at hboth
    rw [h hle row hrow hboth.1] at hboth
    exact Bool.false_ne_true hboth.2
  · rfl

theorem mem_takeWhile_filter_iff {β : Type} {L l : List β} {v p p' : β → Bool} (hnodup : L.Nodup)
    (hsub : ∀ x ∈ L, x ∈ l) (hmem : ∀ x ∈ l, p' x = true → x ∈ L) :
    (∀ x, x ∈ (L.takeWhile v).filter p ↔ x ∈ l.filter p') ↔
      (∀ x ∈ L.takeWhile v, p x = p' x) ∧ ∀ x ∈ L.dropWhile v, p' x = false := by
  have happ := takeWhile_append_dropWhile (p := v) (l := L)
  have htake : ∀ x ∈ L.takeWhile v, x ∈ l := fun x hx =>
    hsub x ((takeWhile_sublist v).mem hx)
  have hdrop : ∀ x ∈ L.dropWhile v, x ∈ l := fun x hx =>
    hsub x ((dropWhile_sublist v).mem hx)
  simp only [mem_filter]
  constructor
  · intro h
    constructor
    · intro x hx
      rw [Bool.eq_iff_iff]
      exact ⟨fun hp => ((h x).mp ⟨hx, hp⟩).2, fun hp' => ((h x).mpr ⟨htake x hx, hp'⟩).2⟩
    · intro x hx
      rw [Bool.eq_false_iff]
      intro hp'
      rw [← happ, nodup_append] at hnodup
      exact hnodup.2.2 x ((h x).mpr ⟨hdrop x hx, hp'⟩).1 x hx rfl
  · rintro ⟨hbefore, hbehind⟩ x
    constructor
    · rintro ⟨hx, hp⟩
      exact ⟨htake x hx, hbefore x hx ▸ hp⟩
    · rintro ⟨hx, hp'⟩
      have hL := hmem x hx hp'
      rw [← happ, mem_append] at hL
      rcases hL with hL | hL
      · exact ⟨hL, (hbefore x hL).trans hp'⟩
      · rw [hbehind x hL] at hp'
        cases hp'

/-- Rows are told apart by what is returned of them. -/
theorem directRow_inj (h : Stores db rows) {row row' : Row t} (hrow : row ∈ rows)
    (hrow' : row' ∈ rows) (heq : directRow row = directRow row') : row = row' := by
  refine h.eq_of_rocksKey hrow hrow' ?_
  have hsplit : ∀ i, row.splitStr i = row'.splitStr i := by
    intro i
    rw [directRow, directRow, buildDirectRow, buildDirectRow, map_inj_left] at heq
    have hi := heq i (mem_finRange i)
    rwa [elementOf_value, elementOf_value] at hi
  rw [Row.rocksKey, Row.rocksKey]
  apply flatMap_congr
  intro i hi
  have hstr := hsplit i
  rw [Row.splitStr, Row.splitStr, if_neg (getLast?_ne_of_mem_uniqFields hi),
    if_neg (getLast?_ne_of_mem_uniqFields hi)] at hstr
  rw [Row.lower, Row.lower, toStr_injective (t.type i) hstr]

theorem nodup_rows (h : Stores db rows) : rows.Nodup :=
  h.sorted.imp fun hlt heq => absurd (heq ▸ hlt) (lt_irrefl _)

theorem nodup_rangeRows (h : Stores db rows) (forwardDirection : Bool) (key : Bytes) :
    (rangeRows rows forwardDirection key).Nodup := by
  rw [rangeRows]
  split
  · exact (nodup_rows h).filter _
  · exact (reverse_perm _).nodup_iff.mpr ((nodup_rows h).filter _)

include ht

omit ht in
/-- A row equal to a bound comes before the rows above the bound. -/
theorem rocksKey_lt_of_boundCmp {row row' : Row t} (heq : boundCmp c row = .eq)
    (hgt : boundCmp c row' = .gt) : row.rocksKey < row'.rocksKey := by
  obtain ⟨rest, hrest⟩ := row.rocksKey_eq
  obtain ⟨rest', hrest'⟩ := row'.rocksKey_eq
  have hlower : row.lower 0 = lowerValue (t.type 0) (boundOf c) := (t.type 0).cmp_eq_eq.mp heq
  have hcmp : compare row'.rocksKey row.rocksKey = .gt := by
    rw [hrest, hrest', (t.type 0).orderCode (row'.lower 0) (row.lower 0) rest' rest, hlower]
    rw [boundCmp] at hgt
    rw [hgt]
    rfl
  rcases lt_trichotomy row.rocksKey row'.rocksKey with hlt | hkeys | hlt
  · exact hlt
  · rw [hkeys, Std.ReflOrd.compare_self] at hcmp
    cases hcmp
  · rw [(compare_bytes_eq_lt _ _).mpr hlt] at hcmp
    cases hcmp

omit ht in
theorem rocksKey_le_getLast {l : List (Row t)}
    (hl : l.Pairwise fun r r' => r.rocksKey < r'.rocksKey)
    (hne : l ≠ []) {row : Row t} (hrow : row ∈ l) : row.rocksKey ≤ (l.getLast hne).rocksKey := by
  rw [← dropLast_append_getLast hne] at hl hrow
  rcases mem_append.mp hrow with hrow | hrow
  · exact ((pairwise_append.mp hl).2.2 row hrow _ mem_cons_self).le
  · rw [mem_singleton.mp hrow]

/-- The range loop of a `<=` query starts at or behind all rows up to the bound. -/
theorem rocksKey_le_startKey (h : Stores db rows) (hle : c.condOpr = some .le) {row : Row t}
    (hrow : row ∈ rows) (hcmp : boundCmp c row ≠ .gt) : row.rocksKey ≤ startKey rows c := by
  rw [startKey, if_pos hle, lastKey]
  by_cases hnil : (rows.filter fun row => keyMatched (preKeyOf c) row.rocksKey) = []
  · have hne : boundCmp c row ≠ .eq := fun heq =>
      (filter_eq_nil_iff.mp hnil) row hrow ((keyMatched_preKeyOf ht c row).mpr heq)
    have hlt : boundCmp c row = .lt := by
      cases hb : boundCmp c row <;> simp_all
    rw [hnil]
    exact ((rocksKey_lt_preKeyOf_iff ht c row).mpr hlt).le
  · rw [List.getLast?_eq_getLast_of_ne_nil hnil]
    have hlast := mem_filter.mp (getLast_mem hnil)
    cases hb : boundCmp c row with
    | gt => exact absurd hb hcmp
    | eq =>
      exact rocksKey_le_getLast (h.sorted.filter _) hnil
        (mem_filter.mpr ⟨hrow, (keyMatched_preKeyOf ht c row).mpr hb⟩)
    | lt =>
      have hbound := (preKeyOf_le_iff ht c ((rows.filter fun row =>
        keyMatched (preKeyOf c) row.rocksKey).getLast hnil)).mpr (by
          rw [(keyMatched_preKeyOf ht c _).mp hlast.2]
          simp)
      exact ((rocksKey_lt_preKeyOf_iff ht c row).mpr hb).le.trans hbound

/-- The rows for which the first condition holds are visited, unless the scan stops before. -/
theorem mem_scanRows (h : Stores db rows) (hc : c.fieldId = 0) (hne : c.condOpr ≠ some .ne)
    {row : Row t} (hrow : row ∈ rows) (hholds : c.holds row = true) : row ∈ scanRows rows c := by
  rw [Cond.holds_eq hc] at hholds
  cases hopr : c.condOpr with
  | none => rw [hopr] at hholds; cases hholds
  | some comparator =>
    rw [hopr] at hholds hne
    have htest : comparator.test (boundCmp c row) = true := hholds
    have hforward : boundCmp c row ≠ .lt → Comparator.forward comparator = true → comparator ≠ .le →
        row ∈ scanRows rows c := by
      intro hcmp hfwd hle
      rw [scanRows, startKey, hopr, if_neg (by simpa using hle), rangeRows, Option.any_some,
        if_pos hfwd]
      exact mem_filter.mpr ⟨hrow, decide_eq_true ((preKeyOf_le_iff ht c row).mpr hcmp)⟩
    cases comparator with
    | ne => exact absurd rfl hne
    | eq =>
      refine hforward (fun hlt => ?_) rfl (by simp)
      rw [hlt] at htest
      cases htest
    | gt =>
      refine hforward (fun hlt => ?_) rfl (by simp)
      rw [hlt] at htest
      cases htest
    | ge =>
      refine hforward (fun hlt => ?_) rfl (by simp)
      rw [hlt] at htest
      cases htest
    | lt =>
      rw [Comparator.test, beq_iff_eq] at htest
      rw [scanRows, startKey, hopr, if_neg (by simp), rangeRows, Option.any_some,
        Comparator.forward, if_neg Bool.false_ne_true]
      exact mem_reverse.mpr (mem_filter.mpr
        ⟨hrow, decide_eq_true ((rocksKey_lt_preKeyOf_iff ht c row).mpr htest).le⟩)
    | le =>
      have hle : row.rocksKey ≤ startKey rows c := rocksKey_le_startKey ht h hopr hrow (by
        intro hgt
        rw [hgt] at htest
        cases htest)
      rw [scanRows, hopr, rangeRows, Option.any_some, Comparator.forward,
        if_neg Bool.false_ne_true]
      exact mem_reverse.mpr (mem_filter.mpr ⟨hrow, decide_eq_true hle⟩)

section

variable (noReturn : Bool) (h : Stores db rows)
  (hanalyse : analysePrimaryKeyConds fieldConds = some (c :: primaryKeyConds, conds))

include h hanalyse

/-- The accepted rows are the matching ones. -/
theorem mem_accepted_iff : (∀ row, row ∈ accepted (rangeVerdict (c :: primaryKeyConds)) conds
      (scanRows rows c) ↔ row ∈ rows.filter (meetsDirect fieldConds)) ↔
    (∀ row ∈ (scanRows rows c).takeWhile fun row =>
        rangeVerdict (c :: primaryKeyConds) row ≠ .stop,
      (decide (rangeVerdict (c :: primaryKeyConds) row = .accept) && passesDirect conds row) =
        meetsDirect fieldConds row) ∧
    ∀ row ∈ (scanRows rows c).dropWhile fun row =>
      rangeVerdict (c :: primaryKeyConds) row ≠ .stop, meetsDirect fieldConds row = false := by
  refine mem_takeWhile_filter_iff (nodup_rangeRows h _ _) (fun row => mem_of_mem_rangeRows) ?_
  intro row hrow hmeets
  obtain ⟨hc, hne, -⟩ := (analyse_eq_some hanalyse).2.2 c mem_cons_self
  exact mem_scanRows ht h hc hne hrow
    (holds_of_meetsDirect hanalyse hmeets c mem_cons_self)

omit ht hanalyse in
theorem nodup_accepted : (accepted (rangeVerdict (c :: primaryKeyConds)) conds
    (scanRows rows c)).Nodup :=
  ((nodup_rangeRows h _ _).sublist (takeWhile_sublist _)).filter _

/-- An exact scan visits the matching rows. -/
theorem RangeExact.perm (hexact : RangeExact rows fieldConds c primaryKeyConds conds) :
    (visitedRows rows c primaryKeyConds conds).Perm (rows.filter (meetsDirect fieldConds)) := by
  have hmem := (mem_accepted_iff ht h hanalyse).mpr ⟨hexact.before, hexact.behind⟩
  rw [visitedRows, equalPassing_eq_nil hexact.equal, nil_append]
  exact (perm_ext_iff_of_nodup (nodup_accepted h) ((nodup_rows h).filter _)).mpr hmem

theorem RangeExact.ok (hexact : RangeExact rows fieldConds c primaryKeyConds conds) :
    RangeQueryOk noReturn db rows fieldConds := by
  have hpassing := equalPassing_eq_nil hexact.equal
  refine ⟨(visitedRows rows c primaryKeyConds conds).map directRow, ?_, fun l hl => ?_,
    fun l hl => ?_⟩
  · exact (hexact.perm ht h hanalyse).map directRow
  · exact answer_unlimited ht noReturn h hanalyse hexact.value hl
  · exact answer_limited ht noReturn h hanalyse hexact.value hpassing hl

end

omit ht

/-! ## String keys -/

theorem directMatched_lower {ty : FieldType} (hty : ty = .string) (x : ty.Value) (v : Bytes)
    (comparator : Comparator) :
    directMatched (ty.toStr (lowerValue ty x)) v ty (some comparator) =
      comparator.test (ty.cmp (lowerValue ty x) (lowerValue ty (str2Value v ty))) := by
  subst hty
  refine (isMatchedStr_eq _ _ comparator false).trans ?_
  have hlower : toLower (FieldType.string.toStr (lowerValue .string x)) = toLower x :=
    toLower_toLower x
  rw [if_neg Bool.false_ne_true, hlower]
  rfl

/-- On String keys `range_key_matched` evaluates the conditions. -/
theorem rangeVerdict_of_holds (hs : t.type 0 = .string) {keyConds : List (Cond t)} {row : Row t}
    (hconds : ∀ c' ∈ keyConds, c'.fieldId = 0 ∧ c'.holds row = true) :
    rangeVerdict keyConds row = .accept := by
  rw [rangeVerdict]
  induction keyConds with
  | nil => rfl
  | cons c' keyConds ih =>
    obtain ⟨hc', hholds⟩ := hconds c' mem_cons_self
    have hmatched : directMatched (row.lower.str 0) c'.condValue (t.type 0) c'.condOpr = true := by
      rw [Cond.holds_eq hc'] at hholds
      cases hopr : c'.condOpr with
      | none => rw [hopr] at hholds; cases hholds
      | some comparator =>
        rw [hopr] at hholds
        exact (directMatched_lower hs (row 0) c'.condValue comparator).trans hholds
    rw [rangeKeyMatched, if_pos hmatched]
    exact ih fun c'' hc'' => hconds c'' (mem_cons_of_mem c' hc'')

/-- What comes before no stop is reached. -/
theorem mem_takeWhile_of_forall {β : Type} {R : β → β → Prop} {p : β → Bool} {l : List β}
    (hl : l.Pairwise R) {x : β} (hx : x ∈ l) (hp : ∀ y ∈ l, R y x ∨ y = x → p y = true) :
    x ∈ l.takeWhile p := by
  induction l with
  | nil => cases hx
  | cons y l ih =>
    rw [pairwise_cons] at hl
    have hy : p y = true := by
      refine hp y mem_cons_self ?_
      rcases mem_cons.mp hx with rfl | hx
      · exact .inr rfl
      · exact .inl (hl.1 x hx)
    rw [takeWhile_cons_of_pos hy]
    rcases mem_cons.mp hx with rfl | hx
    · exact mem_cons_self
    · exact mem_cons_of_mem y
        (ih hl.2 hx fun z hz => hp z (mem_cons_of_mem y hz))

/-- A matching row that is equal to the bound of a `<=` query is returned by the range loop, too. -/
theorem mem_accepted_of_equal (hs : t.type 0 = .string) (h : Stores db rows)
    (hanalyse : analysePrimaryKeyConds fieldConds = some (c :: primaryKeyConds, conds))
    (hle : c.condOpr = some .le) {row : Row t} (hrow : row ∈ rows)
    (hkey : keyMatched (preKeyOf c) row.rocksKey = true) (hpass : passesDirect conds row = true)
    (hmeets : meetsDirect fieldConds row = true) :
    row ∈ accepted (rangeVerdict (c :: primaryKeyConds)) conds (scanRows rows c) := by
  have ht : t.StringKey := .inl hs
  have heq := (keyMatched_preKeyOf ht c row).mp hkey
  have haccept : rangeVerdict (c :: primaryKeyConds) row = .accept :=
    rangeVerdict_of_holds hs fun c' hc' => ⟨((analyse_eq_some hanalyse).2.2 c' hc').1,
      holds_of_meetsDirect hanalyse hmeets c' hc'⟩
  have hscan : scanRows rows c =
    (rows.filter fun row => row.rocksKey ≤ startKey rows c).reverse := by
    rw [scanRows, hle]
    rfl
  rw [accepted, mem_filter, haccept, hpass]
  refine ⟨?_, rfl⟩
  have hsorted : (scanRows rows c).Pairwise fun r r' => r'.rocksKey < r.rocksKey := by
    rw [hscan, pairwise_reverse]
    exact h.sorted.filter _
  refine mem_takeWhile_of_forall hsorted (mem_scanRows ht h
    ((analyse_eq_some hanalyse).2.2 c mem_cons_self).1 (by simp [hle]) hrow
    (holds_of_meetsDirect hanalyse hmeets c mem_cons_self)) ?_
  intro row' hrow' hbefore
  -- a row between two rows equal to the bound is equal to it
  have heq' : boundCmp c row' = .eq := by
    rcases hbefore with hlt | rfl
    · rw [hscan, mem_reverse, mem_filter, decide_eq_true_iff] at hrow'
      cases hb : boundCmp c row' with
      | eq => rfl
      | lt =>
        have hlt' := (rocksKey_lt_preKeyOf_iff ht c row').mpr hb
        have hge := (preKeyOf_le_iff ht c row).mpr (by rw [heq]; simp)
        exact absurd (hlt'.trans_le hge) hlt.le.not_gt
      | gt =>
        have hne : (rows.filter fun row => keyMatched (preKeyOf c) row.rocksKey) ≠ [] :=
          ne_nil_of_mem (mem_filter.mpr ⟨hrow, hkey⟩)
        have hlast := (mem_filter.mp (getLast_mem hne)).2
        have hlt' := rocksKey_lt_of_boundCmp ((keyMatched_preKeyOf ht c _).mp hlast) hb
        have hle' := hrow'.2
        rw [startKey, if_pos hle, lastKey, List.getLast?_eq_getLast_of_ne_nil hne] at hle'
        exact absurd hlt' (not_lt_of_ge hle')
    · exact heq
  have hsame :
    rangeVerdict (c :: primaryKeyConds) row' = rangeVerdict (c :: primaryKeyConds) row := by
    have hlower : row'.lower 0 = row.lower 0 :=
      ((t.type 0).cmp_eq_eq.mp heq').trans ((t.type 0).cmp_eq_eq.mp heq).symm
    rw [rangeVerdict, rangeVerdict, Row.str, Row.str, hlower]
  rw [hsame, haccept]
  rfl

/-- With a String key an exact query has a scan that sees what it should. -/
theorem RangeQueryOk.exact {noReturn : Bool} (hs : t.type 0 = .string) (h : Stores db rows)
    (hanalyse : analysePrimaryKeyConds fieldConds = some (c :: primaryKeyConds, conds))
    (hok : RangeQueryOk noReturn db rows fieldConds) :
    RangeExact rows fieldConds c primaryKeyConds conds := by
  have ht : t.StringKey := .inl hs
  obtain ⟨out, hperm, hunlimited, -⟩ := hok
  have hans := hunlimited ⟨-1, -1⟩ rfl
  have hvalue : c.condValue ≠ [] := by
    intro hnil
    rw [answer, processDirectQuery, hanalyse] at hans
    dsimp only at hans
    rw [if_pos hnil] at hans
    cases hans
  rw [answer_unlimited ht noReturn h hanalyse hvalue rfl, Option.some_inj, reverse_inj] at hans
  rw [← hans] at hperm
  have hsub : ∀ row ∈ visitedRows rows c primaryKeyConds conds, row ∈ rows := by
    intro row hrow
    rcases mem_append.mp hrow with hrow | hrow
    · rw [equalPassing] at hrow
      split at hrow
      · exact (mem_filter.mp hrow).1
      · cases hrow
    · exact mem_of_mem_rangeRows ((takeWhile_sublist _).mem (mem_filter.mp hrow).1)
  have hmem : ∀ row, row ∈ visitedRows rows c primaryKeyConds conds ↔
      row ∈ rows.filter (meetsDirect fieldConds) := by
    intro row
    have hmap := hperm.mem_iff (a := directRow row)
    constructor
    · intro hrow
      obtain ⟨row', hrow', heq⟩ := mem_map.mp (hmap.mp (mem_map_of_mem hrow))
      rwa [directRow_inj h (mem_filter.mp hrow').1 (hsub row hrow) heq] at hrow'
    · intro hrow
      obtain ⟨row', hrow', heq⟩ := mem_map.mp (hmap.mpr (mem_map_of_mem hrow))
      rwa [directRow_inj h (hsub row' hrow') (mem_filter.mp hrow).1 heq] at hrow'
  have hnodup : (visitedRows rows c primaryKeyConds conds).Nodup := by
    refine List.Nodup.of_map directRow (hperm.nodup_iff.mpr ?_)
    refine List.Nodup.map_on ?_ ((nodup_rows h).filter _)
    intro row hrow row' hrow' heq
    exact directRow_inj h (mem_filter.mp hrow).1 (mem_filter.mp hrow').1 heq
  have hequal : c.condOpr = some .le → ∀ row ∈ rows,
      keyMatched (preKeyOf c) row.rocksKey = true → passesDirect conds row = false := by
    intro hle row hrow hkey
    rw [Bool.eq_false_iff]
    intro hpass
    have hpassing : row ∈ equalPassing rows c conds := by
      rw [equalPassing, if_pos hle, mem_filter, hkey, hpass]
      exact ⟨hrow, rfl⟩
    have hmeets := (mem_filter.mp ((hmem row).mp (mem_append_left _ hpassing))).2
    have hrange := mem_accepted_of_equal hs h hanalyse hle hrow hkey hpass hmeets
    exact (nodup_append.mp hnodup).2.2 row hpassing row hrange rfl
  rw [visitedRows, equalPassing_eq_nil hequal, nil_append] at hmem
  obtain ⟨hbefore, hbehind⟩ := (mem_accepted_iff ht h hanalyse).mp hmem
  exact ⟨hvalue, hequal, hbefore, hbehind⟩

/-! ## Integer keys -/

/-- The value that is encoded as zeros. -/
def leastValue : (ty : FieldType) → ty.Value
  | .signed => Int64.minValue
  | .unsigned => (0 : UInt64)
  | .string | .binary => ([] : Bytes)

def leastRow (t : Table) : Row t := fun i =>
  if i = 0 then leastValue (t.type i) else zeroValue (t.type i)

/-- The strings of integers begin behind the least one. -/
theorem enc_leastValue_lt {ty : FieldType} (hty : ¬ (ty = .string ∨ ty = .binary)) (rest : Bytes) :
    ty.enc (lowerValue ty (leastValue ty)) ++ rest <
      encodeBytes (lowerKey ty (ty.toStr (leastValue ty))) := by
  have hlt : ∀ {code : Bytes} {digit : UInt8} {tail : Bytes}, code = replicate 8 0 →
      0 < digit → code ++ rest < digit :: tail := by
    intro code digit tail hcode hdigit
    rw [hcode]
    exact cons_lt_cons_iff.mpr (.inl hdigit)
  cases ty with
  | signed =>
    have hkey : encodeBytes (lowerKey .signed (FieldType.signed.toStr (leastValue .signed))) =
        45 :: (encodeBytes (lowerKey .signed (FieldType.signed.toStr (leastValue .signed)))).tail :=
      by decide +kernel
    rw [hkey]
    exact hlt (by decide +kernel) (by decide)
  | unsigned =>
    have hkey : encodeBytes (lowerKey .unsigned (FieldType.unsigned.toStr (leastValue .unsigned))) =
        48 :: (encodeBytes (lowerKey .unsigned
          (FieldType.unsigned.toStr (leastValue .unsigned)))).tail := by decide +kernel
    rw [hkey]
    exact hlt (by decide +kernel) (by decide)
  | string => exact absurd (.inl rfl) hty
  | binary => exact absurd (.inr rfl) hty

theorem toStr_leastValue_ne {ty : FieldType} (hty : ¬ (ty = .string ∨ ty = .binary)) :
    ty.toStr (leastValue ty) ≠ [] := by
  cases ty with
  | signed => decide +kernel
  | unsigned => decide +kernel
  | string => exact absurd (.inl rfl) hty
  | binary => exact absurd (.inr rfl) hty

/-- The condition that the primary key is the least value. -/
def leastCond (t : Table) : Cond t := ⟨0, some .eq, (t.type 0).toStr (leastValue (t.type 0))⟩

theorem stores_leastRow (ht : ¬ t.StringKey) :
    Stores (SortedMap.empty.put (leastRow t).rocksKey (leastRow t).rocksValue) [leastRow t] := by
  refine Stores.empty.put ?_ ?_
  · intro i hi
    have hne : i ≠ 0 := by
      rintro rfl
      have hmem : (0 : t.FieldId) ∈ t.uniqFields := by
        rw [t.uniqFields_eq]
        exact mem_cons_self
      simp [Table.valueFields, hmem] at hi
    rw [leastRow, if_neg hne]
    exact fits_zeroValue (t.field i)
  · exact toStr_leastValue_ne ht

/-- An integer key is not found by its decimal string. -/
theorem not_rangeQueryOk_leastRow (ht : ¬ t.StringKey) (noReturn : Bool) :
    ¬ RangeQueryOk noReturn (SortedMap.empty.put (leastRow t).rocksKey (leastRow t).rocksValue)
      [leastRow t] [leastCond t] := by
  rintro ⟨out, hperm, hunlimited, -⟩
  have hmeets : meetsDirect [leastCond t] (leastRow t) = true := by
    have hholds : (leastCond t).holds (leastRow t) = true := by
      rw [Cond.holds_eq rfl]
      have hcmp : boundCmp (leastCond t) (leastRow t) = .eq := by
        have hbound : boundOf (leastCond t) = leastValue (t.type 0) :=
          str2Value_toStr (t.type 0) (leastValue (t.type 0))
        rw [boundCmp, hbound, (t.type 0).cmp_eq_eq]
        rfl
      rw [hcmp]
      rfl
    rw [meetsDirect, all_cons, hholds]
    rfl
  have hbelow : (leastRow t).rocksKey < preKeyOf (leastCond t) := by
    obtain ⟨rest, hrest⟩ := (leastRow t).rocksKey_eq
    rw [hrest]
    exact enc_leastValue_lt ht rest
  have hanalyse : analysePrimaryKeyConds [leastCond t] = some ([leastCond t], []) := by
    simp [analysePrimaryKeyConds, leastCond]
  have hnil : rangeRows [leastRow t] ((leastCond t).condOpr.any Comparator.forward)
      (preKeyOf (leastCond t)) = [] := by
    have hforward : (leastCond t).condOpr.any Comparator.forward = true := rfl
    rw [rangeRows, if_pos hforward, filter_cons_of_neg (by simpa using hbelow),
      filter_nil]
  have hans := hunlimited ⟨-1, -1⟩ rfl
  have hvalue : (leastCond t).condValue ≠ [] := toStr_leastValue_ne ht
  have hsection : rangeSection _ noReturn ⟨[leastCond t], [], ⟨-1, -1⟩⟩ [leastCond t] []
      ((leastCond t).condOpr.any Comparator.forward) ⟨none, none⟩ (preKeyOf (leastCond t))
      QueryState.start = some _ := rangeSection_stores (stores_leastRow ht) _ _ _
  rw [if_pos hnil] at hsection
  rw [answer, processDirectQuery, hanalyse] at hans
  dsimp only at hans
  rw [if_neg hvalue, if_neg (by simp [leastCond])] at hans
  change (match rangeSection _ noReturn _ [leastCond t] [] ((leastCond t).condOpr.any
    Comparator.forward) ⟨none, none⟩ (preKeyOf (leastCond t)) QueryState.start with
    | some (.rows, w) => some w.rowValues
    | some (.notFound, _) => some []
    | _ => none) = _ at hans
  rw [hsection, Option.some_inj] at hans
  have hlen := hperm.length_eq
  rw [filter_cons_of_pos hmeets, ← length_reverse, ← hans] at hlen
  cases hlen

/-- When range queries are exact. -/
theorem rangeQueryOk_iff (t : Table) (noReturn : Bool) :
    (t.StringKey → ∀ (db : Db) (rows : List (Row t)), Stores db rows →
      ∀ (fieldConds : List (Cond t)) (c : Cond t) (primaryKeyConds conds : List (Cond t)),
      analysePrimaryKeyConds fieldConds = some (c :: primaryKeyConds, conds) →
      (RangeExact rows fieldConds c primaryKeyConds conds →
        RangeQueryOk noReturn db rows fieldConds) ∧
      (t.type 0 = .string → RangeQueryOk noReturn db rows fieldConds →
        RangeExact rows fieldConds c primaryKeyConds conds)) ∧
    (¬ t.StringKey → ∃ (db : Db) (rows : List (Row t)) (fieldConds : List (Cond t)) (c : Cond t),
      Stores db rows ∧ analysePrimaryKeyConds fieldConds = some ([c], []) ∧
        ¬ RangeQueryOk noReturn db rows fieldConds) := by
  refine ⟨fun ht db rows h fieldConds c primaryKeyConds conds hanalyse => ?_, fun ht => ?_⟩
  · exact ⟨fun hexact => hexact.ok ht noReturn h hanalyse,
      fun hs hok => hok.exact hs h hanalyse⟩
  · refine ⟨_, _, [leastCond t], leastCond t, stores_leastRow ht, ?_,
      not_rangeQueryOk_leastRow ht noReturn⟩
    simp [analysePrimaryKeyConds, leastCond]

/-- A scan that accepts every row. -/
theorem RangeExact.of_accepts (hvalue : c.condValue ≠ []) (hle : c.condOpr ≠ some .le)
    (hrows : ∀ row ∈ rows, rangeVerdict (c :: primaryKeyConds) row = .accept ∧
      passesDirect conds row = meetsDirect fieldConds row) :
    RangeExact rows fieldConds c primaryKeyConds conds where
  value := hvalue
  equal h := absurd h hle
  before row hrow := by
    obtain ⟨haccept, hpass⟩ :=
      hrows row (mem_of_mem_rangeRows ((takeWhile_sublist _).mem hrow))
    rw [haccept, hpass]
    rfl
  behind row hrow := by
    rw [dropWhile_eq_nil_iff.mpr] at hrow
    · cases hrow
    · intro row' hrow'
      rw [(hrows row' (mem_of_mem_rangeRows hrow')).1]
      rfl

/-- The rows from the key `"a"` on whose second field is below `2`. -/
theorem rangeQueryOk_twoKeyDb : RangeQueryOk false twoKeyDb [twoKeyRow 1, twoKeyRow 2]
    [⟨0, some .ge, [97]⟩, ⟨1, some .lt, [50]⟩] := by
  have hrows : ∀ row ∈ [twoKeyRow 1, twoKeyRow 2],
      rangeVerdict [⟨0, some .ge, [97]⟩] row = .accept ∧
        passesDirect [⟨1, some .lt, [50]⟩] row =
          meetsDirect [⟨0, some .ge, [97]⟩, ⟨1, some .lt, [50]⟩] row := by
    simp only [forall_mem_cons]
    exact ⟨by decide +kernel, by decide +kernel, forall_mem_nil _⟩
  have hanalyse : analysePrimaryKeyConds (t := twoKeyTable)
      [⟨0, some .ge, [97]⟩, ⟨1, some .lt, [50]⟩] =
        some ([⟨0, some .ge, [97]⟩], [⟨1, some .lt, [50]⟩]) := by rfl
  exact ((rangeQueryOk_iff twoKeyTable false).1 (.inl rfl) _ _ stores_twoKeyDb _ _ _ _
    hanalyse).1 (.of_accepts (by simp) (by simp) hrows)

/-- Every row equal to the bound of a `<=` query is returned twice. -/
theorem not_rangeQueryOk_twoKeyDb :
    Stores twoKeyDb [twoKeyRow 1, twoKeyRow 2] ∧
      ¬ RangeQueryOk false twoKeyDb [twoKeyRow 1, twoKeyRow 2] [⟨0, some .le, [97]⟩] := by
  refine ⟨stores_twoKeyDb, ?_⟩
  rintro ⟨out, hperm, hunlimited, -⟩
  have hans := hunlimited ⟨-1, -1⟩ rfl
  have hlen := hperm.length_eq
  have hfour : (answer false twoKeyDb
      (⟨[⟨0, some .le, [97]⟩], [], ⟨-1, -1⟩⟩ : Query twoKeyTable)).map List.length = some 4 := by
    decide +kernel
  rw [hans, Option.map_some, length_reverse, hlen] at hfour
  exact absurd hfour (by decide +kernel)

end ISearch.DirectQuery
