import ISearch.FieldValue.Defs
import ISearch.RocksProcess.Conditions

/-!
# Conditions in the cache and in the storage

The cache compares every integer as a signed one and Strings without their case up to the first zero
byte, and refuses the comparisons that its switch does not list; it does not look at the primary
key. The storage helper compares the integers in the type of the field and a String twice, without
and with its case. `judge` says for one condition which of the two accept the row.
-/

namespace ISearch.FieldValue

open KeyFormat RocksProcess

variable {t : Table}

/-- The condition as the storage helper reads it. -/
def FieldCond.toCondition (c : FieldCond t) : Condition t :=
  ⟨c.id, c.oper, readAs (t.type c.id) c.type c.valid c.val⟩

/-- `condition_filter` accepts every field of the row. -/
def conditionFilters (fieldValue : List (FieldCond t)) (row : Row t) : Bool :=
  (List.finRange (t.numFields + 1)).all fun i =>
    conditionFilter (row.str i) i (fieldValue.map FieldCond.toCondition)

theorem conditionFilters_eq (fieldValue : List (FieldCond t)) (row : Row t) :
    conditionFilters fieldValue row = fieldValue.all fun c =>
      c.toCondition.holds row && c.toCondition.exact row := by
  rw [conditionFilters, all_conditionFilter, List.all_map]
  congr 1
  funext c
  have hmem : c.toCondition.fieldId ∈ List.finRange (t.numFields + 1) := List.mem_finRange _
  simp [Condition.fieldMatched_str]

/-! ## The table of the differences -/

inductive Verdict where
  | accepted
  | refused
  | onlyCache
  | onlyStore
  deriving DecidableEq, Repr

def Verdict.cache : Verdict → Bool
  | .accepted | .onlyCache => true
  | .refused | .onlyStore => false

def Verdict.store : Verdict → Bool
  | .accepted | .onlyStore => true
  | .refused | .onlyCache => false

/-- The same answer of both. -/
def Verdict.both (b : Bool) : Verdict := if b then .accepted else .refused

/-- The cache refuses the row in any case. -/
def Verdict.storeIf (b : Bool) : Verdict := if b then .onlyStore else .refused

def Comparator.isOrder : Comparator → Bool
  | .eq | .ne => false
  | .lt | .le | .gt | .ge => true

/-- The bytes up to the first zero. -/
def cString (s : Bytes) : Bytes := s.takeWhile (· ≠ 0)

/-- Equal length, and equal in lower case up to the first zero byte. -/
def cEqual (a b : Bytes) : Bool :=
  a.length == b.length && toLower (cString a) == toLower (cString b)

/-- Which of the two accept a field that is not the primary key. The value of the condition is read
in the type of the field. -/
def judgeValue : (ft vt : FieldType) → Comparator → ft.Value → ft.Value → Verdict
  | .signed, .signed, oper, x, v => .both (oper.test (FieldType.signed.cmp x v))
  | .unsigned, .signed, oper, x, v =>
    let holds := oper.test (FieldType.unsigned.cmp x v)
    -- the cache puts the upper half of the range below the lower half
    if Comparator.isOrder oper ∧ (UInt64.toNat x < 2 ^ 63 ↔ ¬ UInt64.toNat v < 2 ^ 63) then
      if holds then .onlyStore else .onlyCache
    else .both holds
  | .signed, _, oper, x, v => .storeIf (oper.test (FieldType.signed.cmp x v))
  | .unsigned, _, oper, x, v => .storeIf (oper.test (FieldType.unsigned.cmp x v))
  | .string, _, .eq, x, v =>
    if (show Bytes from x) = (show Bytes from v) then .accepted
    else if cEqual x v then .onlyCache else .refused
  | .string, _, .ne, x, v =>
    if toLower x = toLower v then .refused else if cEqual x v then .onlyStore else .accepted
  | .string, _, oper, x, v =>
    .storeIf (oper.test (compare (toLower x) (toLower v)) &&
      oper.test (FieldType.string.cmp x v))
  | .binary, _, oper, x, v =>
    if Comparator.isOrder oper then .storeIf (oper.test (FieldType.binary.cmp x v))
    else .both (oper.test (FieldType.binary.cmp x v))

/-- Which of the two accept a row. -/
def FieldCond.judge (c : FieldCond t) (row : Row t) : Verdict :=
  if c.id = 0 then
    if c.toCondition.holds row && c.toCondition.exact row then .accepted else .onlyCache
  else judgeValue (t.type c.id) c.type c.oper (row c.id) c.toCondition.value

theorem toNat_lowerChar_inj {x y : UInt8} :
    ((lowerChar x).toNat : Int) - (lowerChar y).toNat = 0 ↔ lowerChar x = lowerChar y := by
  rw [← UInt8.toNat_inj]
  omega

theorem lowerChar_zero_iff {x : UInt8} : lowerChar x = lowerChar 0 ↔ x = 0 := by
  rw [← UInt8.toNat_inj, ← UInt8.toNat_inj, toNat_lowerChar]
  have h0 : (lowerChar 0).toNat = 0 := rfl
  have h0' : UInt8.toNat 0 = 0 := rfl
  rw [h0, h0']
  split <;> omega

theorem mystrcmp_eq_zero {a b : Bytes} (hlen : a.length = b.length) :
    mystrcmp a b a.length = 0 ↔ toLower (cString a) = toLower (cString b) := by
  induction a generalizing b with
  | nil =>
    obtain rfl : b = [] := List.eq_nil_of_length_eq_zero hlen.symm
    exact iff_of_true rfl rfl
  | cons x a ih =>
    cases b with
    | nil => cases hlen
    | cons y b =>
      rw [List.length_cons, mystrcmp]
      by_cases hxy : lowerChar x = lowerChar y
      · rw [if_neg (not_not.mpr (toNat_lowerChar_inj.mpr hxy))]
        by_cases hx : x = 0
        · -- behind the zero byte nothing is compared
          subst hx
          obtain rfl : y = 0 := lowerChar_zero_iff.mp hxy.symm
          rw [if_pos rfl]
          exact iff_of_true rfl rfl
        · have hy : y ≠ 0 := fun h => hx (lowerChar_zero_iff.mp (h ▸ hxy))
          rw [if_neg hx, ih (Nat.succ.inj hlen)]
          simp [cString, toLower, hx, hy, hxy]
      · rw [if_pos (mt toNat_lowerChar_inj.mp hxy)]
        refine iff_of_false (mt toNat_lowerChar_inj.mp hxy) ?_
        by_cases hx : x = 0
        · have hy : y ≠ 0 := fun h => hxy (by rw [hx, h])
          simp [cString, toLower, hx, hy]
        · by_cases hy : y = 0
          · simp [cString, toLower, hx, hy]
          · simp [cString, toLower, hx, hy, hxy]

theorem stringEqual_eq (a b : Bytes) : stringEqual a b = cEqual a b := by
  rw [Bool.eq_iff_iff, stringEqual, cEqual, Bool.and_eq_true, Bool.and_eq_true]
  simp only [beq_iff_eq]
  exact and_congr_right fun h => mystrcmp_eq_zero h

theorem cEqual_of_toLower_eq {a b : Bytes} (h : toLower a = toLower b) : cEqual a b = true := by
  have hcut : ∀ s : Bytes, toLower (cString s) = cString (toLower s) := by
    intro s
    have hzero : (fun c : UInt8 => decide (c ≠ 0)) ∘ lowerChar = fun c => decide (c ≠ 0) := by
      funext c
      exact decide_eq_decide.mpr (not_congr lowerChar_zero_iff)
    rw [cString, cString, toLower, toLower, List.takeWhile_map, hzero]
  have hlen := congrArg List.length h
  simp only [toLower, List.length_map] at hlen
  simp [cEqual, hlen, hcut, h]

/-- Read as signed, two numbers in different halves of the range change their order. -/
theorem compare_toInt64 (x y : UInt64) :
    compare x.toInt64 y.toInt64 =
      if x.toNat < 2 ^ 63 ↔ ¬ y.toNat < 2 ^ 63 then (compare x y).swap else compare x y := by
  have hx := x.toNat_lt
  have hy := y.toNat_lt
  have hint : ∀ z : UInt64, z.toInt64.toInt = Int.bmod z.toNat (2 ^ 64) := fun z =>
    z.toInt64.toBitVec.toInt_eq_toNat_bmod
  have hxi := hint x
  have hyi := hint y
  rw [Int.bmod_def] at hxi hyi
  split
  · rename_i h
    rw [← Std.OrientedOrd.eq_swap]
    refine compareOfLessAndEq_congr ?_ ?_
    · rw [Int64.lt_iff_toInt_lt, UInt64.lt_iff_toNat_lt]
      omega
    · rw [← Int64.toInt_inj, ← UInt64.toNat_inj]
      omega
  · rename_i h
    refine compareOfLessAndEq_congr ?_ ?_
    · rw [Int64.lt_iff_toInt_lt, UInt64.lt_iff_toNat_lt]
      omega
    · rw [← Int64.toInt_inj, ← UInt64.toNat_inj]
      omega

/-! ## The table is right -/

@[simp] theorem Verdict.cache_both (b : Bool) : (Verdict.both b).cache = b := by cases b <;> rfl

@[simp] theorem Verdict.store_both (b : Bool) : (Verdict.both b).store = b := by cases b <;> rfl

@[simp] theorem Verdict.cache_storeIf (b : Bool) : (Verdict.storeIf b).cache = false := by
  cases b <;> rfl

@[simp] theorem Verdict.store_storeIf (b : Bool) : (Verdict.storeIf b).store = b := by
  cases b <;> rfl

theorem test_eq_compare {α : Type} [Ord α] [Std.LawfulEqOrd α] [DecidableEq α] (x v : α) :
    Comparator.eq.test (compare x v) = decide (x = v) := by
  rw [Bool.eq_iff_iff, Comparator.test, beq_iff_eq, Std.LawfulEqOrd.compare_eq_iff_eq,
    decide_eq_true_iff]

theorem test_ne_compare {α : Type} [Ord α] [Std.LawfulEqOrd α] [DecidableEq α] (x v : α) :
    Comparator.ne.test (compare x v) = !decide (x = v) := by
  rw [← test_eq_compare]
  rfl

theorem judgeValue_string_eq (vt : FieldType) (x v : Bytes) :
    judgeValue .string vt .eq x v =
      if x = v then .accepted else if cEqual x v then .onlyCache else .refused := rfl

theorem judgeValue_string_ne (vt : FieldType) (x v : Bytes) :
    judgeValue .string vt .ne x v = if toLower x = toLower v then .refused
      else if cEqual x v then .onlyStore else .accepted := rfl

/-- A String in the storage is compared without and with its case. -/
theorem judgeValue_store_string (vt : FieldType) (oper : Comparator) (x v : Bytes) :
    (judgeValue .string vt oper x v).store =
      (oper.test (compare (toLower x) (toLower v)) && oper.test (compare x v)) := by
  cases oper with
  | eq =>
    rw [test_eq_compare, test_eq_compare, judgeValue_string_eq]
    by_cases h : x = v
    · simp [h, Verdict.store]
    · simp only [h, if_false, decide_false, Bool.and_false]
      split <;> rfl
  | ne =>
    rw [test_ne_compare, test_ne_compare, judgeValue_string_ne]
    by_cases h : toLower x = toLower v
    · simp [h, Verdict.store]
    · have hne : x ≠ v := fun heq => h (congrArg toLower heq)
      simp only [h, hne, if_false, decide_false, Bool.not_false, Bool.and_self]
      split <;> rfl
  | lt | le | gt | ge => exact Verdict.store_storeIf _

theorem judgeValue_store (ft vt : FieldType) (oper : Comparator) (x v : ft.Value) :
    (judgeValue ft vt oper x v).store =
      (oper.test (ft.cmp (lowerValue ft x) (lowerValue ft v)) && oper.test (ft.cmp x v)) := by
  cases ft with
  | signed =>
    rw [lowerValue, lowerValue, Bool.and_self]
    cases vt <;> simp [judgeValue]
  | unsigned =>
    rw [lowerValue, lowerValue, Bool.and_self]
    cases vt with
    | signed =>
      simp only [judgeValue]
      split
      · cases oper.test (FieldType.unsigned.cmp x v) <;> rfl
      · exact Verdict.store_both _
    | unsigned | string | binary => exact Verdict.store_storeIf _
  | string => exact judgeValue_store_string vt oper x v
  | binary =>
    rw [lowerValue, lowerValue, Bool.and_self, judgeValue]
    split
    · exact Verdict.store_storeIf _
    · exact Verdict.store_both _

theorem judgeValue_cache_string (oper : Comparator) (x v : Bytes) :
    (judgeValue .string .string oper x v).cache = compareValue .string x oper .string v := by
  cases oper with
  | eq =>
    have hcmp : compareValue .string x .eq .string v = stringEqual x v := rfl
    rw [hcmp, stringEqual_eq, judgeValue_string_eq]
    by_cases h : x = v
    · subst h
      rw [if_pos rfl, cEqual_of_toLower_eq rfl]
      rfl
    · rw [if_neg h]
      cases cEqual x v <;> rfl
  | ne =>
    have hcmp : compareValue .string x .ne .string v = !stringEqual x v := rfl
    rw [hcmp, stringEqual_eq, judgeValue_string_ne]
    by_cases h : toLower x = toLower v
    · rw [if_pos h, cEqual_of_toLower_eq h]
      rfl
    · rw [if_neg h]
      cases cEqual x v <;> rfl
  | lt | le | gt | ge => exact Verdict.cache_storeIf _

theorem judgeValue_cache_binary (vt : FieldType) (oper : Comparator) (x v : Bytes) :
    (judgeValue .binary vt oper x v).cache = match oper with
      | .eq => binaryEqual x v
      | .ne => !binaryEqual x v
      | _ => false := by
  have heq : binaryEqual x v = decide (x = v) := by
    rw [Bool.eq_iff_iff, binaryEqual, Bool.and_eq_true, beq_iff_eq, beq_iff_eq, decide_eq_true_iff]
    exact and_iff_right_of_imp (congrArg List.length)
  cases oper with
  | eq => exact (Verdict.cache_both _).trans ((test_eq_compare x v).trans heq.symm)
  | ne =>
    rw [heq, ← test_ne_compare]
    exact Verdict.cache_both _
  | lt | le | gt | ge => exact Verdict.cache_storeIf _

/-- Between the halves of the range, an order is reversed in the cache. -/
theorem test_swap {oper : Comparator} {o : Ordering} (h : o ≠ .eq) :
    oper.test o.swap = if Comparator.isOrder oper then !oper.test o else oper.test o := by
  cases o with
  | eq => exact absurd rfl h
  | lt => cases oper <;> rfl
  | gt => cases oper <;> rfl

theorem judgeValue_cache_unsigned (oper : Comparator) (x v : UInt64) :
    (judgeValue .unsigned .signed oper x v).cache = isMatched x.toInt64 oper v.toInt64 := by
  have hjudge : judgeValue .unsigned .signed oper x v =
      if Comparator.isOrder oper ∧ (x.toNat < 2 ^ 63 ↔ ¬ v.toNat < 2 ^ 63) then
        if oper.test (compare x v) then .onlyStore else .onlyCache
      else .both (oper.test (compare x v)) := rfl
  rw [isMatched, compare_toInt64, hjudge]
  by_cases h : x.toNat < 2 ^ 63 ↔ ¬ v.toNat < 2 ^ 63
  · have hne : compare x v ≠ .eq := by
      rw [ne_eq, Std.LawfulEqOrd.compare_eq_iff_eq]
      rintro rfl
      omega
    rw [if_pos h, test_swap hne]
    by_cases hoper : Comparator.isOrder oper = true
    · rw [if_pos ⟨hoper, h⟩, if_pos hoper]
      cases oper.test (compare x v) <;> rfl
    · rw [if_neg fun h' => hoper h'.1, if_neg hoper]
      exact Verdict.cache_both _
  · rw [if_neg h, if_neg fun h' => h h'.2]
    exact Verdict.cache_both _

theorem judgeValue_cache (ft vt : FieldType) (oper : Comparator) (x : ft.Value) (v : vt.Value)
    (h : validxtype .set ft vt = true) :
    (judgeValue ft vt oper x (readAs ft vt h v)).cache = compareValue ft x oper vt v := by
  cases ft with
  | signed =>
    cases vt with
    | signed => exact Verdict.cache_both _
    | unsigned => exact Verdict.cache_storeIf _
    | string | binary => cases h
  | unsigned =>
    cases vt with
    | signed =>
      have hv : (show Int64 from v).toUInt64.toInt64 = v := Int64.toInt64_toUInt64 _
      refine (judgeValue_cache_unsigned oper x (show Int64 from v).toUInt64).trans ?_
      rw [hv]
      rfl
    | unsigned => exact Verdict.cache_storeIf _
    | string | binary => cases h
  | string =>
    cases vt with
    | string => exact judgeValue_cache_string oper x v
    | signed | unsigned | binary => cases h
  | binary =>
    cases vt with
    | signed | unsigned => cases h
    | string =>
      refine (judgeValue_cache_binary .string oper x v).trans ?_
      cases oper <;> rfl
    | binary =>
      refine (judgeValue_cache_binary .binary oper x v).trans ?_
      cases oper <;> rfl

theorem FieldCond.judge_cache (c : FieldCond t) (row : Row t) :
    (c.judge row).cache =
      (c.id = 0 || compareValue (t.type c.id) (row c.id) c.oper c.type c.val : Bool) := by
  rw [FieldCond.judge]
  by_cases h : c.id = 0
  · rw [if_pos h, decide_eq_true h, Bool.true_or]
    split <;> rfl
  · rw [if_neg h, decide_eq_false h, Bool.false_or]
    exact judgeValue_cache _ _ c.oper (row c.id) c.val c.valid

theorem FieldCond.judge_store (c : FieldCond t) (row : Row t) :
    (c.judge row).store = (c.toCondition.holds row && c.toCondition.exact row) := by
  rw [FieldCond.judge]
  by_cases h : c.id = 0
  · rw [if_pos h]
    cases c.toCondition.holds row && c.toCondition.exact row <;> rfl
  · rw [if_neg h]
    exact judgeValue_store _ _ c.oper (row c.id) c.toCondition.value

/-- The two verdicts on a list of conditions are the same. -/
def Consistent (verdicts : List Verdict) : Prop :=
  (∀ v ∈ verdicts, v ≠ .onlyCache ∧ v ≠ .onlyStore) ∨ .refused ∈ verdicts ∨
    (.onlyCache ∈ verdicts ∧ .onlyStore ∈ verdicts)

theorem all_cache_eq_all_store (verdicts : List Verdict) :
    verdicts.all Verdict.cache = verdicts.all Verdict.store ↔ Consistent verdicts := by
  have hcache : verdicts.all Verdict.cache = true ↔ .refused ∉ verdicts ∧
    .onlyStore ∉ verdicts := by
    rw [List.all_eq_true]
    constructor
    · intro h
      exact ⟨fun hv => absurd (h _ hv) (by decide), fun hv => absurd (h _ hv) (by decide)⟩
    · rintro ⟨hr, hs⟩ v hv
      cases v with
      | accepted | onlyCache => rfl
      | refused => exact absurd hv hr
      | onlyStore => exact absurd hv hs
  have hstore : verdicts.all Verdict.store = true ↔ .refused ∉ verdicts ∧
    .onlyCache ∉ verdicts := by
    rw [List.all_eq_true]
    constructor
    · intro h
      exact ⟨fun hv => absurd (h _ hv) (by decide), fun hv => absurd (h _ hv) (by decide)⟩
    · rintro ⟨hr, hs⟩ v hv
      cases v with
      | accepted | onlyStore => rfl
      | refused => exact absurd hv hr
      | onlyCache => exact absurd hv hs
  have hnone : (∀ v ∈ verdicts, v ≠ .onlyCache ∧ v ≠ .onlyStore) ↔
      .onlyCache ∉ verdicts ∧ .onlyStore ∉ verdicts := by
    constructor
    · intro h
      exact ⟨fun hv => (h _ hv).1 rfl, fun hv => (h _ hv).2 rfl⟩
    · rintro ⟨hc, hs⟩ v hv
      exact ⟨fun h => hc (h ▸ hv), fun h => hs (h ▸ hv)⟩
  rw [Bool.eq_iff_iff, hcache, hstore, Consistent, hnone]
  tauto

attribute [local instance (2000)] Table.neZero_two in
/-- A table with a String besides its key. -/
def wordTable : Table where
  numFields := 1
  column _ := ⟨⟨.string, 32⟩, ([] : Bytes)⟩
  uniqFields := [0]
  head_uniqFields := Table.head?_first_two
  nodup_uniqFields := Table.nodup_first_two

def wordRow : Row wordTable := fun _ => ([97] : Bytes)

def wordCond : FieldCond wordTable := ⟨1, .eq, .string, ([65] : Bytes), rfl⟩

end ISearch.FieldValue
