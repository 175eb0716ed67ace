import ISearch.RocksProcess.Conditions

/-!
# Reading all primary keys (`db_process_rocks.cc`)

`ProcessReplicate` appends one row for each primary key, from the first key or behind the key of the
request. Its loop ends early at `limit_count` rows by `totalRows`, which `saveRow` does not count;
the result keeps the number of the rows that were appended.
-/

namespace ISearch.RocksProcess

open KeyFormat List

variable {t : Table} {db : Db} {rows : List (Row t)}

structure ReplicateRequest (t : Table) where
  limitStart : UInt32
  limitCount : UInt32
  key : (t.type 0).Value
  conds : List (Condition t)

structure Answer (t : Table) where
  rows : List (Row t)
  totalRows : Nat

/-- `set_rows` of a result without a limit, which refuses to change the count of appended rows. -/
def setRows (rows : List (Row t)) (nr : Nat) : Answer t :=
  if rows.length = 0 ∧ nr = 0 then ⟨rows, nr⟩ else ⟨rows, rows.length⟩

@[simp] theorem setRows_eq (rows : List (Row t)) (nr : Nat) :
    setRows rows nr = ⟨rows, rows.length⟩ := by
  rw [setRows]
  split_ifs with h
  · rw [h.1, h.2]
  · rfl

inductive ReplicateError where
  | getReplicateKey
  | encodeReplicateKey
  deriving DecidableEq, Repr

/-- `get_format_key`: the encoded primary key at the head of a key. -/
def getFormatKey (src : Bytes) : FieldType → Option Bytes
  | .signed | .unsigned => some (src.take 8)
  | .binary | .string => (segmentsEnd src segmentSize).map src.take

/-- The loop of `ProcessReplicate` from the entry that the iterator stands on: the rows appended,
and `totalRows`. -/
def replicateLoop (conds : List (Condition t)) (count : UInt32) :
    List (Bytes × Bytes) → Bytes → Nat → Option (List (Row t) × Nat)
  | [], _, totalRows => some ([], totalRows)
  | (compoundKey, compoundValue) :: rest, prevPrimaryKey, totalRows => do
    let (saved, prevPrimaryKey) ←
      if keyMatched prevPrimaryKey compoundKey then pure (Saved.unmatched, prevPrimaryKey)
      else do
        let saved ← saveRow conds false compoundKey compoundValue
        pure (saved, ← getFormatKey compoundKey (t.type 0))
    let totalRows := match saved with
      | .counted => totalRows + 1
      | _ => totalRows
    let (rows, totalRows) ← if count.toNat ≤ totalRows then pure ([], totalRows)
      else replicateLoop conds count rest prevPrimaryKey totalRows
    match saved with
    | .row row => return (row :: rows, totalRows)
    | _ => return (rows, totalRows)

def processReplicate (db : Db) (req : ReplicateRequest t) :
    Option (Except ReplicateError (Answer t)) :=
  let answer := fun entries prevPrimaryKey =>
    (replicateLoop req.conds req.limitCount entries prevPrimaryKey 0).map fun result =>
      .ok (setRows result.1 result.2)
  if req.limitStart = 0 then answer db.entries []
  else
    let startKey := (t.type 0).toStr req.key
    if startKey = [] then some (.error .getReplicateKey)
    else
      let compoundKey := encodeBytes startKey
      if compoundKey = [] then some (.error .encodeReplicateKey)
      else answer (db.seek compoundKey) compoundKey

/-- The answers of a series of calls, each behind the last primary key received, up to an empty
answer. -/
def answers (db : Db) : Nat → ReplicateRequest t → Option (List (Answer t))
  | 0, _ => none
  | fuel + 1, req =>
    match processReplicate db req with
    | some (.ok answer) =>
      match answer.rows.getLast? with
      | none => some [answer]
      | some row => (answers db fuel { req with limitStart := 1, key := row 0 }).map (answer :: ·)
    | _ => none

/-- The series ends. It reports each primary key of the rows once, at most `count` rows at a time,
and the totals are the numbers of the rows. -/
def Enumerates (db : Db) (rows : List (Row t)) (count : UInt32) (key : (t.type 0).Value) : Prop :=
  ∃ fuel series, answers db fuel ⟨0, count, key, []⟩ = some series ∧
    (∀ answer ∈ series, answer.rows.length ≤ count.toNat ∧
      answer.totalRows = answer.rows.length) ∧
    ∀ k : (t.type 0).Value, (∃ row ∈ rows, row.Under k) →
      ((series.flatMap Answer.rows).filter fun row => row.Under k).length = 1

theorem getFormatKey_rocksKey (row : Row t) :
    getFormatKey row.rocksKey (t.type 0) = some ((t.type 0).enc (row.lower 0)) := by
  obtain ⟨rest, hrest⟩ := row.rocksKey_eq
  rw [hrest]
  generalize row.lower 0 = x
  have hstring (s : Bytes) :
      (segmentsEnd (encodeBytes s ++ rest) segmentSize).map (encodeBytes s ++ rest).take =
        some (encodeBytes s) := by
    have h := segmentsEnd_encodeBytes [] s rest
    rw [nil_append, length_nil, Nat.zero_add, Nat.zero_add] at h
    rw [h, Option.map_some, take_left]
  revert x
  generalize t.type 0 = ty
  intro x
  cases ty with
  | signed =>
    rw [getFormatKey, FieldType.enc, encodeField, take_left' (length_encodeBytesS64 _)]
  | unsigned =>
    rw [getFormatKey, FieldType.enc, encodeField, take_left' (length_encodeBytesU64 _)]
  | string => exact hstring _
  | binary => exact hstring _

theorem enc_ne_nil {ty : FieldType} (x : ty.Value) : ty.enc x ≠ [] := by
  intro h
  have hlen := congrArg List.length h
  cases ty with
  | signed => rw [FieldType.enc, encodeField, length_encodeBytesS64] at hlen; cases hlen
  | unsigned => rw [FieldType.enc, encodeField, length_encodeBytesU64] at hlen; cases hlen
  | string => exact encodeBytes_ne_nil _ h
  | binary => exact encodeBytes_ne_nil _ h

theorem Row.under_iff (row : Row t) (k : (t.type 0).Value) :
    row.Under k ↔ (t.type 0).enc (lowerValue (t.type 0) k) <+: row.rocksKey := by
  obtain ⟨rest, hrest⟩ := row.rocksKey_eq
  rw [hrest, Row.Under]
  constructor
  · intro h
    rw [← h]
    exact prefix_append _ _
  · exact fun h => ((t.type 0).cmp_eq_eq.mp ((t.type 0).orderCode.cmp_of_isPrefix_append h)).symm

/-- The first row of each primary key, behind the primary key `prevPrimaryKey`. -/
def firsts (prevPrimaryKey : Bytes) : List (Row t) → List (Row t)
  | [] => []
  | row :: rows =>
    if keyMatched prevPrimaryKey row.rocksKey then firsts prevPrimaryKey rows
    else row :: firsts ((t.type 0).enc (row.lower 0)) rows

theorem replicateLoop_entries {count : UInt32} (hcount : 0 < count.toNat)
    (hfits : ∀ row ∈ rows, row.Fits) (prevPrimaryKey : Bytes) :
    replicateLoop [] count (rows.map Row.entry) prevPrimaryKey 0 =
      some (firsts prevPrimaryKey rows, 0) := by
  induction rows generalizing prevPrimaryKey with
  | nil => rfl
  | cons row rows ih =>
    have hrest := ih fun row' hrow' => hfits row' (mem_cons_of_mem row hrow')
    have hle : ¬ count.toNat ≤ 0 := by omega
    rw [map_cons, Row.entry, replicateLoop, firsts]
    by_cases h : keyMatched prevPrimaryKey row.rocksKey = true
    · simp [h, hle, hrest]
    · simp [h, hle, hrest, saveRow_entry (hfits row mem_cons_self),
        show row.selected [] = true from rfl, getFormatKey_rocksKey]

/-- The first call reports all primary keys. -/
theorem Stores.processReplicate_begin (h : Stores db rows) {count : UInt32}
    (hcount : 0 < count.toNat) (key : (t.type 0).Value) :
    processReplicate db ⟨0, count, key, []⟩ =
      some (.ok ⟨firsts [] rows, (firsts [] rows).length⟩) := by
  simp [processReplicate, h.entries, replicateLoop_entries hcount h.fits]

/-- A later call reports them from the text of the key on. -/
theorem Stores.processReplicate_behind (h : Stores db rows) {count : UInt32}
    (hcount : 0 < count.toNat) {row : Row t} (hrow : row ∈ rows) {start : UInt32}
    (hstart : start ≠ 0) : let compoundKey := encodeBytes (row.str 0)
    let behind := firsts compoundKey (rows.filter fun row => compoundKey ≤ row.rocksKey)
    processReplicate db ⟨start, count, row 0, []⟩ = some (.ok ⟨behind, behind.length⟩) := by
  have hfits : ∀ row' ∈ rows.filter fun row' => encodeBytes (row.str 0) ≤ row'.rocksKey,
      row'.Fits := fun row' hrow' => h.fits row' (mem_filter.mp hrow').1
  have hkey : (t.type 0).toStr (row 0) ≠ [] := h.key_ne row hrow
  have hloop := replicateLoop_entries hcount hfits (encodeBytes (row.str 0))
  rw [Row.str] at hloop
  rw [processReplicate]
  simp only [hstart, hkey, encodeBytes_ne_nil, if_false, h.seek, hloop, Option.map_some, setRows_eq]
  rfl

/-! ## The rows of the first call -/

theorem keyMatched_enc_iff (p row : Row t) :
    keyMatched ((t.type 0).enc (p.lower 0)) row.rocksKey = true ↔ row.lower 0 = p.lower 0 := by
  have hunder := row.under_iff (p 0)
  rw [keyMatched_eq (enc_ne_nil _), isPrefixOf_iff_prefix]
  exact hunder.symm

theorem keyMatched_nil (row : Row t) : keyMatched [] row.rocksKey = false := by
  obtain ⟨rest, hrest⟩ := row.rocksKey_eq
  simp [keyMatched, hrest, enc_ne_nil]

/-- The rows under one primary key follow each other. -/
theorem Row.not_under_of_lt {p row row' : Row t} (hp : p.rocksKey < row.rocksKey)
    (hrow : row.rocksKey < row'.rocksKey) {k : (t.type 0).Value} (hk : p.Under k)
    (hne : ¬ row.Under k) : ¬ row'.Under k := by
  intro hk'
  rw [Row.under_iff] at hk hne hk'
  refine hne (isPrefix_of_not_lt_of_lt hk' (fun hlt => ?_) hrow)
  exact not_lt_of_isPrefix hk (hp.trans hlt)

theorem length_filter_firsts {p : Row t}
    (hsorted : (p :: rows).Pairwise fun row row' => row.rocksKey < row'.rocksKey)
    (k : (t.type 0).Value) :
    ((firsts ((t.type 0).enc (p.lower 0)) rows).filter fun row => row.Under k).length =
      if p.Under k then 0 else if ∃ row ∈ rows, row.Under k then 1 else 0 := by
  induction rows generalizing p with
  | nil => simp [firsts]
  | cons row rows ih =>
    obtain ⟨hp, htail⟩ := pairwise_cons.mp hsorted
    have hrest := ih htail
    rw [firsts]
    by_cases h : keyMatched ((t.type 0).enc (p.lower 0)) row.rocksKey = true
    · have hlower := (keyMatched_enc_iff p row).mp h
      have hiff : row.Under k ↔ p.Under k := by
        change row.lower 0 = _ ↔ p.lower 0 = _
        rw [hlower]
      rw [if_pos h, ← hlower, hrest]
      by_cases hk : p.Under k
      · rw [if_pos hk, if_pos (hiff.mpr hk)]
      · simp [hk, hiff]
    · have hne : row.Under k → ¬ p.Under k := fun hk hk' =>
        h ((keyMatched_enc_iff p row).mpr (hk.trans hk'.symm))
      rw [if_neg h]
      by_cases hrow : row.Under k
      · rw [filter_cons_of_pos (by simpa using hrow), length_cons, hrest,
          if_pos hrow, if_neg (hne hrow), if_pos ⟨row, mem_cons_self, hrow⟩]
      · rw [filter_cons_of_neg (by simpa using hrow), hrest, if_neg hrow]
        by_cases hk : p.Under k
        · rw [if_pos hk, if_neg]
          rintro ⟨row', hmem, hrow'⟩
          exact Row.not_under_of_lt (hp row mem_cons_self)
            ((pairwise_cons.mp htail).1 row' hmem) hk hrow hrow'
        · simp [hk, hrow]

/-- The first call reports each primary key once, whatever the number of rows asked for. -/
theorem firsts_once (h : Stores db rows) {k : (t.type 0).Value} (hk : ∃ row ∈ rows, row.Under k) :
    ((firsts [] rows).filter fun row => row.Under k).length = 1 := by
  have hsorted := h.sorted
  cases rows with
  | nil => simp at hk
  | cons row rows =>
    rw [firsts, keyMatched_nil, if_neg Bool.false_ne_true]
    by_cases hrow : row.Under k
    · rw [filter_cons_of_pos (by simpa using hrow), length_cons,
        length_filter_firsts hsorted, if_pos hrow]
    · rw [filter_cons_of_neg (by simpa using hrow), length_filter_firsts hsorted,
        if_neg hrow, if_pos]
      simpa [hrow] using hk

theorem firsts_sublist (prevPrimaryKey : Bytes) (rows : List (Row t)) :
    (firsts prevPrimaryKey rows).Sublist rows := by
  induction rows generalizing prevPrimaryKey with
  | nil => exact List.Sublist.refl []
  | cons row rows ih =>
    rw [firsts]
    split_ifs
    · exact (ih _).cons row
    · exact (ih _).cons_cons row

theorem firsts_eq_nil_iff {prevPrimaryKey : Bytes} :
    firsts prevPrimaryKey rows = [] ↔ ∀ row ∈ rows, keyMatched prevPrimaryKey row.rocksKey := by
  induction rows with
  | nil => simp [firsts]
  | cons row rows ih =>
    rw [firsts, forall_mem_cons, ← ih]
    by_cases h : keyMatched prevPrimaryKey row.rocksKey = true <;> simp [h]

theorem firsts_behind_eq_nil_iff {key : Bytes} :
    firsts key (rows.filter fun row => key ≤ row.rocksKey) = [] ↔
      ∀ row ∈ rows, key ≤ row.rocksKey → keyMatched key row.rocksKey := by
  simp [firsts_eq_nil_iff]

theorem firsts_nil_ne_nil (hne : rows ≠ []) : firsts [] rows ≠ [] := by
  obtain ⟨row, rows, rfl⟩ := exists_cons_of_ne_nil hne
  rw [firsts, keyMatched_nil, if_neg Bool.false_ne_true]
  exact cons_ne_nil _ _

/-- No stored key is at or behind the text of the last primary key received, except for those that
begin with it. -/
def EndsBehind (rows : List (Row t)) : Prop :=
  ∀ last ∈ (firsts [] rows).getLast?, ∀ row ∈ rows, encodeBytes (last.str 0) ≤ row.rocksKey →
    keyMatched (encodeBytes (last.str 0)) row.rocksKey

/-- The first answer of a series, and the one behind it. -/
theorem Stores.answers_begin (h : Stores db rows) (hne : rows ≠ []) {count : UInt32}
    (hcount : 0 < count.toNat) (key : (t.type 0).Value) : ∃ last ∈ rows,
    (firsts [] rows).getLast? = some last ∧ ∀ fuel, answers db (fuel + 1) ⟨0, count, key, []⟩ =
      (answers db fuel ⟨1, count, last 0, []⟩).map
        (⟨firsts [] rows, (firsts [] rows).length⟩ :: ·) := by
  obtain ⟨last, hlast⟩ := Option.ne_none_iff_exists'.mp
    (mt List.getLast?_eq_none_iff.mp (firsts_nil_ne_nil hne))
  refine ⟨last, (firsts_sublist _ _).mem (mem_of_getLast? hlast), hlast, fun fuel => ?_⟩
  rw [answers, h.processReplicate_begin hcount key]
  simp only [hlast]

/-- A series that reports each primary key once has reported them all with its first answer. -/
theorem Stores.ends_of_enumerates (h : Stores db rows) (hne : rows ≠ []) {count : UInt32}
    (hcount : 0 < count.toNat) {key : (t.type 0).Value} (henum : Enumerates db rows count key) :
    (firsts [] rows).length ≤ count.toNat ∧ EndsBehind rows := by
  obtain ⟨fuel, series, hseries, hanswers, honce⟩ := henum
  obtain ⟨last, hmem, hlast, hbegin⟩ := h.answers_begin hne hcount key
  cases fuel with
  | zero => cases hseries
  | succ fuel =>
    rw [hbegin, Option.map_eq_some_iff] at hseries
    obtain ⟨rest, hrest, rfl⟩ := hseries
    refine ⟨(hanswers _ mem_cons_self).1, fun last' hlast' => ?_⟩
    obtain rfl : last' = last := Option.some_inj.mp (hlast'.symm.trans hlast)
    rw [← firsts_behind_eq_nil_iff]
    cases fuel with
    | zero => cases hrest
    | succ fuel =>
      rw [answers, h.processReplicate_behind hcount hmem (by decide)] at hrest
      by_contra hnot
      -- a row of the second answer is under a primary key of the first
      obtain ⟨again, hagain⟩ := exists_mem_of_ne_nil _ hnot
      have hin : again ∈ rows :=
        (mem_filter.mp ((firsts_sublist _ _).mem hagain)).1
      have htwice : again ∈ rest.flatMap Answer.rows := by
        revert hrest
        dsimp only
        split
        · next hnone => exact absurd hagain (by simp [List.getLast?_eq_none_iff.mp hnone])
        · intro hrest
          obtain ⟨_, -, rfl⟩ := Option.map_eq_some_iff.mp hrest
          exact mem_flatMap.mpr ⟨_, mem_cons_self, hagain⟩
      have htotal := honce (again 0) ⟨again, hin, rfl⟩
      rw [flatMap_cons, filter_append, length_append,
        firsts_once h ⟨again, hin, rfl⟩] at htotal
      have hpos : 0 < ((rest.flatMap Answer.rows).filter fun row => row.Under (again 0)).length :=
        length_pos_of_mem (mem_filter.mpr ⟨htwice, decide_eq_true rfl⟩)
      omega

theorem Stores.enumerates_of_ends (h : Stores db rows) (hne : rows ≠ []) {count : UInt32}
    (hcount : 0 < count.toNat) (key : (t.type 0).Value)
    (hsize : (firsts [] rows).length ≤ count.toNat) (hends : EndsBehind rows) :
    Enumerates db rows count key := by
  obtain ⟨last, hmem, hlast, hbegin⟩ := h.answers_begin hne hcount key
  have hnil := firsts_behind_eq_nil_iff.mpr (hends last hlast)
  refine ⟨2, [⟨firsts [] rows, (firsts [] rows).length⟩, ⟨[], 0⟩], ?_, ?_, fun k hk => ?_⟩
  · rw [hbegin, answers, h.processReplicate_behind hcount hmem (by decide), hnil]
    rfl
  · simpa using hsize
  · simpa using firsts_once h hk

theorem Stores.enumerates_nil (h : Stores db ([] : List (Row t))) {count : UInt32}
    (hcount : 0 < count.toNat) (key : (t.type 0).Value) :
    Enumerates db ([] : List (Row t)) count key := by
  refine ⟨1, [⟨[], 0⟩], ?_, by simp, by simp⟩
  rw [answers, h.processReplicate_begin hcount key]
  rfl

/-- A row under the primary key of one letter. -/
def letterRow (c : UInt8) : Row twoKeyTable
  | ⟨0, _⟩ => ([c] : Bytes)
  | ⟨1, _⟩ => (1 : UInt64)

def letterDb : Db where
  entries := [(letterRow 97).entry, (letterRow 98).entry]
  sorted := by decide +kernel

theorem stores_letterDb : Stores letterDb [letterRow 97, letterRow 98] := by
  refine ⟨rfl, fun row _ => fits_twoKeyTable row, ?_⟩
  simp only [forall_mem_cons]
  exact ⟨by decide +kernel, by decide +kernel, forall_mem_nil _⟩

end ISearch.RocksProcess
