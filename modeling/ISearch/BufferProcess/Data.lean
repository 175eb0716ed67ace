import Mathlib.Data.List.Basic

/-!
# The rows of a cache node (`raw_data.cc`, `raw_data_process.cc`)

The rows of a node carry the flag `OPER_DIRTY` until they are flushed. The functions of
`RawDataProcess` write rows one at a time and give up at the first write that fails; the writes
before it stay. `failAt` is the number of row writes that succeed before one fails, or `none`.
-/

namespace ISearch.BufferProcess

structure Row (R : Type) where
  value : R
  dirty : Bool
  deriving DecidableEq, Repr

/-- Return values of the functions of `RawDataProcess`. -/
inductive DataRet where
  | ok
  | duplicate
  | failed
  deriving DecidableEq, Repr

variable {R : Type}

/-- Some row is not flushed. -/
def hasDirty (rows : List (Row R)) : Bool := rows.any (·.dirty)

/-- `RawData::replace_cur_row`: a synchronous write keeps the flag of the row. -/
def Row.replace (r : Row R) (value : R) (isDirty : Bool) : Row R :=
  { value, dirty := isDirty || r.dirty }

/-- `append_data`; `duplicate` is its check for duplicate keys. -/
def appendData (rows : List (Row R)) (newRow : R) (byFirst isDirty duplicate : Bool)
    (failAt : Option Nat) : DataRet × List (Row R) :=
  if rows ≠ [] ∧ duplicate = true then (.duplicate, rows)
  else if failAt = some 0 then (.failed, rows)
  else
    let row : Row R := { value := newRow, dirty := isDirty }
    (.ok, if byFirst then row :: rows else rows ++ [row])

/-- `update_data`: the return value, the rows, and the number of rows that were affected. -/
def updateData (compareRow : R → Bool) (updateRow : R → R) (async : Bool) :
    Option Nat → List (Row R) → DataRet × List (Row R) × Nat
  | _, [] => (.ok, [], 0)
  | failAt, r :: rows =>
    if compareRow r.value = false then
      let (ret, rows, n) := updateData compareRow updateRow async failAt rows
      (ret, r :: rows, n)
    else if failAt = some 0 then (.failed, r :: rows, 0)
    else
      let (ret, rows, n) := updateData compareRow updateRow async (failAt.map (· - 1)) rows
      (ret, r.replace (updateRow r.value) async :: rows, n + 1)

/-- The loop of `replace_rows`: the first conflicting row is replaced, the others are deleted. -/
def replaceLoop (conflicts : R → Bool) (newRow : R) (async : Bool) :
    Bool → Option Nat → List (Row R) → DataRet × List (Row R) × Bool
  | replaced, _, [] => (.ok, [], replaced)
  | replaced, failAt, r :: rows =>
    if conflicts r.value = false then
      let (ret, rows, b) := replaceLoop conflicts newRow async replaced failAt rows
      (ret, r :: rows, b)
    else if failAt = some 0 then (.failed, r :: rows, replaced)
    else
      let (ret, rows, b) := replaceLoop conflicts newRow async true (failAt.map (· - 1)) rows
      (ret, if replaced then rows else r.replace newRow async :: rows, b)

/-- `replace_rows`: without a conflict the row is inserted. -/
def replaceRows (conflicts : R → Bool) (newRow : R) (async : Bool) (failAt : Option Nat)
    (rows : List (Row R)) : DataRet × List (Row R) :=
  match replaceLoop conflicts newRow async false failAt rows with
  | (.ok, rows, false) =>
    if failAt = some 0 then (.failed, rows)
    else (.ok, rows ++ [{ value := newRow, dirty := async }])
  | (ret, rows, _) => (ret, rows)

def deleteData (compareRow : R → Bool) : Option Nat → List (Row R) → DataRet × List (Row R)
  | _, [] => (.ok, [])
  | failAt, r :: rows =>
    if compareRow r.value = false then
      let (ret, rows) := deleteData compareRow failAt rows
      (ret, r :: rows)
    else if failAt = some 0 then (.failed, r :: rows)
    else deleteData compareRow (failAt.map (· - 1)) rows

/-- The loop of `flush_data`: the return value, the rows, and `uiFlushRowsCnt`. -/
def flushLoop : Option Nat → List (Row R) → DataRet × List (Row R) × Nat
  | _, [] => (.ok, [], 0)
  | failAt, r :: rows =>
    if r.dirty = false then
      let (ret, rows, n) := flushLoop failAt rows
      (ret, r :: rows, n)
    else if failAt = some 0 then (.failed, r :: rows, 0)
    else
      let (ret, rows, n) := flushLoop (failAt.map (· - 1)) rows
      (ret, { r with dirty := false } :: rows, n + 1)

/-- `flush_data` of a node: nothing is done when the node is not marked dirty. -/
def flushData (isDirty : Bool) (failAt : Option Nat) (rows : List (Row R)) :
    DataRet × List (Row R) × Nat :=
  if isDirty then flushLoop failAt rows else (.ok, rows, 0)

/-! ## Dirty rows -/

@[simp] theorem hasDirty_nil : hasDirty ([] : List (Row R)) = false := rfl

@[simp] theorem hasDirty_cons (r : Row R) (rows : List (Row R)) :
    hasDirty (r :: rows) = (r.dirty || hasDirty rows) := rfl

@[simp] theorem hasDirty_append (rows rows' : List (Row R)) :
    hasDirty (rows ++ rows') = (hasDirty rows || hasDirty rows') := by
  simp [hasDirty]

@[simp] theorem Row.replace_dirty (r : Row R) (value : R) (isDirty : Bool) :
    (r.replace value isDirty).dirty = (isDirty || r.dirty) := rfl

/-- Rows that a synchronous write dirties were dirty before. -/
theorem hasDirty_appendData {rows : List (Row R)} {newRow : R}
    {byFirst isDirty duplicate : Bool} {failAt : Option Nat}
    (h : hasDirty (appendData rows newRow byFirst isDirty duplicate failAt).2 = true) :
    isDirty = true ∨ hasDirty rows = true := by
  unfold appendData at h
  split_ifs at h
  · exact .inr h
  · exact .inr h
  · simpa using h
  · simpa [or_comm] using h

theorem hasDirty_updateData {compareRow : R → Bool} {updateRow : R → R} {async : Bool}
    {failAt : Option Nat} {rows : List (Row R)}
    (h : hasDirty (updateData compareRow updateRow async failAt rows).2.1 = true) :
    async = true ∨ hasDirty rows = true := by
  induction rows generalizing failAt with
  | nil => exact .inr h
  | cons r rows ih =>
    rw [updateData] at h
    split_ifs at h
    · rw [hasDirty_cons, Bool.or_eq_true] at h ⊢
      rcases h with h | h
      · exact .inr (.inl h)
      · rcases ih h with h | h
        · exact .inl h
        · exact .inr (.inr h)
    · exact .inr h
    · rw [hasDirty_cons, Row.replace_dirty, Bool.or_eq_true, Bool.or_eq_true] at h
      rw [hasDirty_cons, Bool.or_eq_true]
      rcases h with (h | h) | h
      · exact .inl h
      · exact .inr (.inl h)
      · rcases ih h with h | h
        · exact .inl h
        · exact .inr (.inr h)

/-- An update that affects no row leaves the rows alone. -/
theorem updateData_of_affected_eq_zero {compareRow : R → Bool} {updateRow : R → R} {async : Bool}
    {failAt : Option Nat} {rows : List (Row R)}
    (h : (updateData compareRow updateRow async failAt rows).2.2 = 0) :
    (updateData compareRow updateRow async failAt rows).2.1 = rows := by
  induction rows generalizing failAt with
  | nil => rfl
  | cons r rows ih =>
    rw [updateData] at h ⊢
    split_ifs at h ⊢
    · exact congrArg (r :: ·) (ih h)
    · rfl

theorem exists_compareRow_of_affected {compareRow : R → Bool} {updateRow : R → R} {async : Bool}
    {failAt : Option Nat} {rows : List (Row R)}
    (h : (updateData compareRow updateRow async failAt rows).2.2 ≠ 0) :
    ∃ r ∈ rows, compareRow r.value = true := by
  induction rows generalizing failAt with
  | nil => exact absurd rfl h
  | cons r rows ih =>
    by_cases hr : compareRow r.value = true
    · exact ⟨r, List.mem_cons_self, hr⟩
    · rw [updateData, if_pos (Bool.eq_false_iff.mpr hr)] at h
      obtain ⟨r', hr', hc⟩ := ih h
      exact ⟨r', List.mem_cons_of_mem r hr', hc⟩

theorem hasDirty_replaceLoop {conflicts : R → Bool} {newRow : R} {async replaced : Bool}
    {failAt : Option Nat} {rows : List (Row R)}
    (h : hasDirty (replaceLoop conflicts newRow async replaced failAt rows).2.1 = true) :
    async = true ∨ hasDirty rows = true := by
  induction rows generalizing failAt replaced with
  | nil => exact .inr h
  | cons r rows ih =>
    rw [replaceLoop] at h
    rw [hasDirty_cons, Bool.or_eq_true]
    split_ifs at h
    · rw [hasDirty_cons, Bool.or_eq_true] at h
      rcases h with h | h
      · exact .inr (.inl h)
      · exact (ih h).imp_right .inr
    · rw [hasDirty_cons, Bool.or_eq_true] at h
      exact .inr h
    · exact (ih h).imp_right .inr
    · rw [hasDirty_cons, Row.replace_dirty, Bool.or_eq_true, Bool.or_eq_true] at h
      rcases h with (h | h) | h
      · exact .inl h
      · exact .inr (.inl h)
      · exact (ih h).imp_right .inr

theorem hasDirty_replaceRows {conflicts : R → Bool} {newRow : R} {async : Bool}
    {failAt : Option Nat} {rows : List (Row R)}
    (h : hasDirty (replaceRows conflicts newRow async failAt rows).2 = true) :
    async = true ∨ hasDirty rows = true := by
  unfold replaceRows at h
  split at h
  next rows' heq =>
    have hloop : hasDirty rows' = true → async = true ∨ hasDirty rows = true := fun h' =>
      hasDirty_replaceLoop (by rw [heq]; exact h')
    split_ifs at h
    · exact hloop h
    · rw [hasDirty_append, hasDirty_cons, hasDirty_nil, Bool.or_false, Bool.or_eq_true] at h
      exact h.elim hloop .inl
  next ret rows' b _ heq => exact hasDirty_replaceLoop (by rw [heq]; exact h)

theorem hasDirty_deleteData {compareRow : R → Bool} {failAt : Option Nat} {rows : List (Row R)}
    (h : hasDirty (deleteData compareRow failAt rows).2 = true) : hasDirty rows = true := by
  induction rows generalizing failAt with
  | nil => exact h
  | cons r rows ih =>
    rw [deleteData] at h
    rw [hasDirty_cons, Bool.or_eq_true]
    split_ifs at h
    · rw [hasDirty_cons, Bool.or_eq_true] at h
      exact h.imp_right ih
    · rwa [hasDirty_cons, Bool.or_eq_true] at h
    · exact .inr (ih h)

/-- A flush that succeeds leaves no dirty row. -/
theorem hasDirty_flushLoop {failAt : Option Nat} {rows : List (Row R)}
    (h : (flushLoop failAt rows).1 = .ok) : hasDirty (flushLoop failAt rows).2.1 = false := by
  induction rows generalizing failAt with
  | nil => rfl
  | cons r rows ih =>
    rw [flushLoop] at h ⊢
    split_ifs at h ⊢ with hclean hfail
    · simp only [hasDirty_cons, hclean, Bool.false_or]
      exact ih h
    · simp only [hasDirty_cons, Bool.false_or]
      exact ih h

/-- A flush that succeeds leaves no dirty row, also where it has nothing to do. -/
theorem hasDirty_flushData {isDirty : Bool} {failAt : Option Nat} {rows rows' : List (Row R)}
    {n : Nat} (hrows : hasDirty rows = true → isDirty = true)
    (heq : flushData isDirty failAt rows = (.ok, rows', n)) : hasDirty rows' = false := by
  by_cases hd : isDirty = true
  · rw [flushData, if_pos hd] at heq
    have hclean := hasDirty_flushLoop (congrArg Prod.fst heq)
    rwa [heq] at hclean
  · rw [flushData, if_neg hd] at heq
    cases heq
    exact Bool.eq_false_iff.mpr fun hr => hd (hrows hr)

/-- A flush fails in a dirty node only. -/
theorem isDirty_of_flushData {isDirty : Bool} {failAt : Option Nat} {ret : DataRet}
    {rows rows' : List (Row R)} {n : Nat} (heq : flushData isDirty failAt rows = (ret, rows', n))
    (hret : ret ≠ .ok) : isDirty = true := by
  by_contra hd
  rw [flushData, if_neg hd] at heq
  cases heq
  exact hret rfl

end ISearch.BufferProcess
