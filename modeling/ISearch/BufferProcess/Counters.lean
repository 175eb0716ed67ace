import ISearch.BufferProcess.Data
import Mathlib.Tactic.Linarith

/-!
# The counters of a data request (`raw_data_process.cc`)

`RawDataProcess` counts by hand what a request does to the number of rows and of dirty rows of a
node, in `m_llRowsInc` and `m_llDirtyRowsInc`; the global counters of the cache are fed from them.
-/

namespace ISearch.BufferProcess

open List

variable {R : Type}

/-- `m_llRowsInc` and `m_llDirtyRowsInc`. -/
@[ext]
structure Inc where
  rows : Int
  dirtyRows : Int
  deriving DecidableEq, Repr

instance : Zero Inc := ⟨⟨0, 0⟩⟩

def dirtyCount (rows : List (Row R)) : Nat := rows.countP (·.dirty)

/-- The counters say what the request did. -/
structure Inc.Exact (inc : Inc) (before after : List (Row R)) : Prop where
  rows : inc.rows = (after.length : Int) - before.length
  dirtyRows : inc.dirtyRows = (dirtyCount after : Int) - dirtyCount before

theorem Inc.exact_mk {a b : Int} {before after : List (Row R)} :
    (Inc.mk a b).Exact before after ↔ a = (after.length : Int) - before.length ∧
      b = (dirtyCount after : Int) - dirtyCount before :=
  ⟨fun h => ⟨h.rows, h.dirtyRows⟩, fun h => ⟨h.1, h.2⟩⟩

/-- A flag as the counters count it. -/
def bit (b : Bool) : Int := if b then 1 else 0

/-- `append_data`. -/
def appendInc (rows : List (Row R)) (isDirty duplicate : Bool) (failAt : Option Nat) : Inc :=
  if rows ≠ [] ∧ duplicate = true then 0
  else if failAt = some 0 then 0
  else ⟨1, bit isDirty⟩

/-- The counting in the loops of `update_data` and of `replace_rows`: a row that was dirty is
counted off and, in asynchronous mode, counted again. Rows that `replace_rows` deletes are counted
alike. -/
def updateInc (compareRow : R → Bool) (async : Bool) : Option Nat → List (Row R) → Inc
  | _, [] => 0
  | failAt, r :: rows =>
    if compareRow r.value = false then updateInc compareRow async failAt rows
    else if failAt = some 0 then 0
    else
      let inc := updateInc compareRow async (failAt.map (· - 1)) rows
      ⟨inc.rows, inc.dirtyRows - bit r.dirty + bit async⟩

/-- `replace_rows`. -/
def replaceInc (conflicts : R → Bool) (async : Bool) (failAt : Option Nat) (rows : List (Row R)) :
    Inc :=
  let inc := updateInc conflicts async failAt rows
  if rows.any (fun r => conflicts r.value) then inc
  else if failAt = some 0 then inc
  else ⟨inc.rows + 1, inc.dirtyRows + bit async⟩

/-- `delete_data`. -/
def deleteInc (compareRow : R → Bool) : Option Nat → List (Row R) → Inc
  | _, [] => 0
  | failAt, r :: rows =>
    if compareRow r.value = false then deleteInc compareRow failAt rows
    else if failAt = some 0 then 0
    else
      let inc := deleteInc compareRow (failAt.map (· - 1)) rows
      ⟨inc.rows - 1, inc.dirtyRows - bit r.dirty⟩

/-! ## What the counters miss -/

@[simp] theorem dirtyCount_nil : dirtyCount ([] : List (Row R)) = 0 := rfl

theorem dirtyCount_cons (r : Row R) (rows : List (Row R)) :
    (dirtyCount (r :: rows) : Int) = dirtyCount rows + bit r.dirty := by
  rw [dirtyCount, countP_cons, dirtyCount, bit]
  split <;> simp

theorem dirtyCount_append (rows rows' : List (Row R)) :
    (dirtyCount (rows ++ rows') : Int) = dirtyCount rows + dirtyCount rows' := by
  rw [dirtyCount, countP_append, dirtyCount, dirtyCount]
  push_cast
  rfl

theorem bit_nonneg (b : Bool) : 0 ≤ bit b := by
  cases b <;> decide

theorem exact_appendInc {rows rows' : List (Row R)} {newRow : R}
    {byFirst isDirty duplicate : Bool} {failAt : Option Nat}
    (h : appendData rows newRow byFirst isDirty duplicate failAt = (.ok, rows')) :
    (appendInc rows isDirty duplicate failAt).Exact rows rows' := by
  rw [appendData] at h
  rw [appendInc]
  split_ifs at h ⊢ with hdup hfail hfirst
  all_goals cases h
  · exact ⟨by simp, by rw [dirtyCount_cons]; simp⟩
  · exact ⟨by simp, by rw [dirtyCount_append, dirtyCount_cons]; simp⟩

/-- The dirty rows that a synchronous update leaves dirty, and counts off. -/
def keptDirty (compareRow : R → Bool) (async : Bool) (rows : List (Row R)) : Nat :=
  if async then 0 else rows.countP fun r => compareRow r.value && r.dirty

theorem keptDirty_cons (compareRow : R → Bool) (async : Bool) (r : Row R) (rows : List (Row R)) :
    (keptDirty compareRow async (r :: rows) : Int) =
      keptDirty compareRow async rows + bit (!async && compareRow r.value && r.dirty) := by
  cases async with
  | true => simp [keptDirty, bit]
  | false =>
    simp only [keptDirty, Bool.false_eq_true, if_false, countP_cons, Bool.not_false,
      Bool.true_and, bit]
    split <;> simp

theorem keptDirty_eq_zero {compareRow : R → Bool} {async : Bool} {rows : List (Row R)} :
    keptDirty compareRow async rows = 0 ↔
      async = true ∨ ∀ r ∈ rows, compareRow r.value = true → r.dirty = false := by
  cases async with
  | true => simp [keptDirty]
  | false => simp [keptDirty, countP_eq_zero]

theorem bit_replace (r : Row R) (value : R) (async : Bool) :
    bit (r.replace value async).dirty = bit async + bit (!async && r.dirty) := by
  cases async <;> cases h : r.dirty <;> simp [Row.replace, h, bit]

theorem updateInc_spec {compareRow : R → Bool} {updateRow : R → R} {async : Bool}
    {failAt : Option Nat} {rows rows' : List (Row R)} {n : Nat}
    (h : updateData compareRow updateRow async failAt rows = (.ok, rows', n)) :
    (updateInc compareRow async failAt rows).rows = 0 ∧ rows'.length = rows.length ∧
      (updateInc compareRow async failAt rows).dirtyRows + keptDirty compareRow async rows =
        dirtyCount rows' - dirtyCount rows := by
  induction rows generalizing failAt rows' n with
  | nil =>
    rw [updateData] at h
    cases h
    cases async <;> exact ⟨rfl, rfl, rfl⟩
  | cons r rows ih =>
    rw [updateData] at h
    rw [updateInc, keptDirty_cons, dirtyCount_cons r]
    split_ifs at h ⊢ with hcmp hfail
    · rcases hu : updateData compareRow updateRow async failAt rows with ⟨ret, rows₁, n₁⟩
      rw [hu] at h
      cases h
      obtain ⟨h1, h2, h3⟩ := ih hu
      refine ⟨h1, congrArg (· + 1) h2, ?_⟩
      simp only [hcmp, Bool.and_false, Bool.false_and, bit, Bool.false_eq_true, if_false]
      rw [dirtyCount_cons]
      simp only [bit]
      linarith
    · cases h
    · rcases hu : updateData compareRow updateRow async (failAt.map (· - 1)) rows with
        ⟨ret, rows₁, n₁⟩
      rw [hu] at h
      cases h
      obtain ⟨h1, h2, h3⟩ := ih hu
      refine ⟨h1, congrArg (· + 1) h2, ?_⟩
      rw [dirtyCount_cons, bit_replace, Bool.eq_true_of_not_eq_false hcmp, Bool.and_true]
      linarith

theorem exact_updateInc_iff {compareRow : R → Bool} {updateRow : R → R} {async : Bool}
    {failAt : Option Nat} {rows rows' : List (Row R)} {n : Nat}
    (h : updateData compareRow updateRow async failAt rows = (.ok, rows', n)) :
    (updateInc compareRow async failAt rows).Exact rows rows' ↔
      async = true ∨ ∀ r ∈ rows, compareRow r.value = true → r.dirty = false := by
  obtain ⟨h1, h2, h3⟩ := updateInc_spec h
  rw [← keptDirty_eq_zero]
  constructor
  · intro hexact
    have := hexact.dirtyRows
    omega
  · intro hzero
    refine ⟨by rw [h1, h2]; omega, by omega⟩

theorem exact_deleteInc {compareRow : R → Bool} {failAt : Option Nat} {rows rows' : List (Row R)}
    (h : deleteData compareRow failAt rows = (.ok, rows')) :
    (deleteInc compareRow failAt rows).Exact rows rows' := by
  induction rows generalizing failAt rows' with
  | nil =>
    rw [deleteData] at h
    cases h
    exact ⟨rfl, rfl⟩
  | cons r rows ih =>
    rw [deleteData] at h
    rw [deleteInc]
    split_ifs at h ⊢ with hcmp hfail
    · rcases hd : deleteData compareRow failAt rows with ⟨ret, rows₁⟩
      rw [hd] at h
      cases h
      have hexact := ih hd
      refine ⟨?_, ?_⟩
      · rw [hexact.rows, length_cons, length_cons]
        omega
      · rw [hexact.dirtyRows, dirtyCount_cons, dirtyCount_cons]
        omega
    · cases h
    · have hexact := ih h
      refine ⟨?_, ?_⟩
      · change (deleteInc compareRow (failAt.map (· - 1)) rows).rows - 1 = _
        rw [hexact.rows, length_cons]
        omega
      · change (deleteInc compareRow (failAt.map (· - 1)) rows).dirtyRows - bit r.dirty = _
        rw [hexact.dirtyRows, dirtyCount_cons]
        omega

theorem replaceLoop_length {conflicts : R → Bool} {newRow : R} {async replaced : Bool}
    {failAt : Option Nat} {rows rows' : List (Row R)} {b : Bool}
    (h : replaceLoop conflicts newRow async replaced failAt rows = (.ok, rows', b)) :
    b = (replaced || rows.any fun r => conflicts r.value) ∧
      rows'.length + rows.countP (fun r => conflicts r.value) =
        rows.length + (if b && !replaced then 1 else 0) := by
  induction rows generalizing replaced failAt rows' b with
  | nil =>
    rw [replaceLoop] at h
    cases h
    cases replaced <;> exact ⟨rfl, rfl⟩
  | cons r rows ih =>
    rw [replaceLoop] at h
    by_cases hcon : conflicts r.value = false
    · rw [if_pos hcon] at h
      rcases hl : replaceLoop conflicts newRow async replaced failAt rows with ⟨ret, rows₁, b₁⟩
      rw [hl] at h
      cases h
      obtain ⟨h1, h2⟩ := ih hl
      refine ⟨by simpa [hcon] using h1, ?_⟩
      rw [countP_cons_of_neg (by simp [hcon]), length_cons, length_cons]
      omega
    · have hfail : ¬failAt = some 0 := by
        intro hfail
        rw [if_neg hcon, if_pos hfail] at h
        cases h
      rw [if_neg hcon, if_neg hfail] at h
      rcases hl : replaceLoop conflicts newRow async true (failAt.map (· - 1)) rows with
        ⟨ret, rows₁, b₁⟩
      rw [hl] at h
      cases h
      obtain ⟨h1, h2⟩ := ih hl
      have hcon' : conflicts r.value = true := Bool.eq_true_of_not_eq_false hcon
      rw [Bool.true_or] at h1
      subst h1
      refine ⟨by simp [hcon'], ?_⟩
      rw [countP_cons_of_pos (by simpa using hcon'), length_cons]
      cases replaced with
      | false =>
        simp only [Bool.not_true, Bool.and_false, Bool.false_eq_true, if_false, length_cons,
          Bool.not_false, Bool.and_true, if_true] at h2 ⊢
        omega
      | true =>
        simp only [Bool.not_true, Bool.and_false, Bool.false_eq_true, if_false, if_true] at h2 ⊢
        omega

theorem replaceLoop_of_none {conflicts : R → Bool} {rows : List (Row R)} (newRow : R)
    (async replaced : Bool) (failAt : Option Nat)
    (h : rows.countP (fun r => conflicts r.value) = 0) :
    replaceLoop conflicts newRow async replaced failAt rows = (.ok, rows, replaced) ∧
      updateData conflicts (fun _ => newRow) async failAt rows = (.ok, rows, 0) := by
  induction rows with
  | nil => exact ⟨rfl, rfl⟩
  | cons r rows ih =>
    have hcon : conflicts r.value = false := by
      by_contra hcon
      rw [countP_cons_of_pos (by simpa using hcon)] at h
      omega
    rw [countP_cons_of_neg (by simp [hcon])] at h
    obtain ⟨h1, h2⟩ := ih h
    rw [replaceLoop, updateData, if_pos hcon, if_pos hcon, h1, h2]
    exact ⟨rfl, rfl⟩

/-- With at most one conflict the loop of `replace_rows` is an update of that row. -/
theorem replaceLoop_eq_updateData {conflicts : R → Bool} {rows : List (Row R)} (newRow : R)
    (async : Bool) (failAt : Option Nat)
    (h : rows.countP (fun r => conflicts r.value) ≤ 1) :
    (replaceLoop conflicts newRow async false failAt rows).1 =
        (updateData conflicts (fun _ => newRow) async failAt rows).1 ∧
      (replaceLoop conflicts newRow async false failAt rows).2.1 =
        (updateData conflicts (fun _ => newRow) async failAt rows).2.1 := by
  induction rows with
  | nil => exact ⟨rfl, rfl⟩
  | cons r rows ih =>
    rw [replaceLoop, updateData]
    by_cases hcon : conflicts r.value = false
    · rw [countP_cons_of_neg (by simp [hcon])] at h
      rw [if_pos hcon, if_pos hcon]
      obtain ⟨h1, h2⟩ := ih h
      exact ⟨h1, congrArg (r :: ·) h2⟩
    · rw [if_neg hcon, if_neg hcon]
      have hcon' : conflicts r.value = true := Bool.eq_true_of_not_eq_false hcon
      rw [countP_cons_of_pos (by simpa using hcon')] at h
      have hnone : rows.countP (fun r => conflicts r.value) = 0 := by omega
      obtain ⟨h1, h2⟩ := replaceLoop_of_none newRow async true (failAt.map (· - 1)) hnone
      rw [h1, h2]
      by_cases hfail : failAt = some 0
      · rw [if_pos hfail, if_pos hfail]
        exact ⟨rfl, rfl⟩
      · rw [if_neg hfail, if_neg hfail]
        exact ⟨rfl, rfl⟩

theorem updateInc_rows (compareRow : R → Bool) (async : Bool) (failAt : Option Nat)
    (rows : List (Row R)) : (updateInc compareRow async failAt rows).rows = 0 := by
  induction rows generalizing failAt with
  | nil => rfl
  | cons r rows ih =>
    rw [updateInc]
    split_ifs
    · exact ih failAt
    · rfl
    · exact ih _

theorem exact_replaceInc_iff {conflicts : R → Bool} {newRow : R} {async : Bool}
    {failAt : Option Nat} {rows rows' : List (Row R)}
    (h : replaceRows conflicts newRow async failAt rows = (.ok, rows')) :
    (replaceInc conflicts async failAt rows).Exact rows rows' ↔
      rows.countP (fun r => conflicts r.value) ≤ 1 ∧
        (async = true ∨ ∀ r ∈ rows, conflicts r.value = true → r.dirty = false) := by
  rcases hl : replaceLoop conflicts newRow async false failAt rows with ⟨ret, rows₁, b⟩
  rw [replaceRows, hl] at h
  cases ret with
  | duplicate => cases h
  | failed => cases h
  | ok =>
    obtain ⟨hb, hlen⟩ := replaceLoop_length hl
    rw [Bool.false_or] at hb
    rw [replaceInc, ← hb]
    cases b with
    | false =>
      have hnone : rows.countP (fun r => conflicts r.value) = 0 := by
        rw [countP_eq_zero]
        exact fun r hr hc => absurd hb.symm (by
          rw [Bool.not_eq_false, any_eq_true]
          exact ⟨r, hr, hc⟩)
      obtain ⟨h1, h2⟩ := replaceLoop_of_none newRow async false failAt hnone
      rw [h1] at hl
      cases hl
      obtain ⟨hrows, -, hdirty⟩ := updateInc_spec h2
      have hkept : keptDirty conflicts async rows = 0 :=
        keptDirty_eq_zero.mpr (.inr fun r hr hc => by
          rw [countP_eq_zero] at hnone
          exact absurd hc (hnone r hr))
      by_cases hfail : failAt = some 0
      · simp only [if_pos hfail] at h
        cases h
      · simp only [if_neg hfail] at h ⊢
        cases h
        refine iff_of_true ⟨?_, ?_⟩ ⟨by omega, keptDirty_eq_zero.mp hkept⟩
        · simp [hrows]
        · rw [dirtyCount_append, dirtyCount_cons]
          simp only [Bool.false_eq_true, if_false, dirtyCount_nil]
          omega
    | true =>
      cases h
      simp only [if_true]
      by_cases hcount : rows.countP (fun r => conflicts r.value) ≤ 1
      · obtain ⟨h1, h2⟩ := replaceLoop_eq_updateData newRow async failAt hcount
        rw [hl] at h1 h2
        have hu : updateData conflicts (fun _ => newRow) async failAt rows = (.ok, rows',
            (updateData conflicts (fun _ => newRow) async failAt rows).2.2) := by
          exact Prod.ext h1.symm (Prod.ext h2.symm rfl)
        rw [exact_updateInc_iff hu]
        exact ⟨fun hex => ⟨hcount, hex⟩, And.right⟩
      · refine iff_of_false (fun hexact => ?_) fun hex => hcount hex.1
        have hrows := hexact.rows
        rw [updateInc_rows] at hrows
        simp only [Bool.not_false, Bool.and_true, if_true] at hlen
        omega

end ISearch.BufferProcess
