import ISearch.RocksProcess.ReadWrite

/-!
# Numbers as keys of the keyword table

The search modules index a number under the number of the application, `#00#` and the bytes of
`EncodeBytes(int64_t)`, which compare as the numbers do. The key column of the shipped table is a
String, so the storage helper puts the bytes from `A` to `Z` in lower case before it encodes them.
-/

namespace ISearch.RocksProcess

open KeyFormat

/-- `FIELD1` to `FIELD12` of `table.conf`. -/
def keywordColumns : List Column :=
  [⟨⟨.string, 100⟩, ([] : Bytes)⟩, ⟨⟨.string, 20⟩, ([] : Bytes)⟩, ⟨⟨.signed, 4⟩, (1 : Int64)⟩,
    ⟨⟨.signed, 4⟩, (1 : Int64)⟩, ⟨⟨.signed, 4⟩, (0 : Int64)⟩, ⟨⟨.signed, 4⟩, (1 : Int64)⟩,
    ⟨⟨.signed, 4⟩, (0 : Int64)⟩, ⟨⟨.signed, 4⟩, (0 : Int64)⟩, ⟨⟨.string, 1000⟩, ([] : Bytes)⟩,
    ⟨⟨.signed, 4⟩, (0 : Int64)⟩, ⟨⟨.signed, 4⟩, (0 : Int64)⟩, ⟨⟨.string, 65535⟩, ([] : Bytes)⟩]

/-- `keyword_index_data`. The key fields are `key`, `doc_id`, `doc_version`, `trans_version` and
`field`. -/
def keywordTable : Table where
  numFields := 11
  column i := keywordColumns.get i
  uniqFields := [0, 1, 2, 3, 5]
  head_uniqFields := rfl
  nodup_uniqFields := by decide

theorem keywordTable_stringKey : keywordTable.StringKey := .inl rfl

/-- `GenerateDtcKey(appid, "00", key)`. -/
def generateDtcKey (appid : UInt32) (key : Bytes) : Bytes :=
  decimal appid.toNat ++ [35, 48, 48, 35] ++ key

def numericKey (appid : UInt32) (a : Int64) : Bytes := generateDtcKey appid (encodeBytesS64 a)

/-- What the keys of two numbers must keep: a select for one finds no row of the other, the rows
are stored in the order of the numbers, and the rows from a key on are those of the numbers that
are not less. -/
structure KeepsNumbers (appid : UInt32) (a b : Int64) : Prop where
  identity : ∀ (db : Db) (rows : List (Row keywordTable)), Stores db rows →
    ∀ row ∈ rows, row 0 = numericKey appid a → ∀ conds res n,
      processSelect (t := keywordTable) db (numericKey appid b) conds false = some (.ok (res, n)) →
        row ∈ res → a = b
  order : ∀ row row' : Row keywordTable, row 0 = numericKey appid a →
    row' 0 = numericKey appid b →
      (a < b → row.rocksKey < row'.rocksKey) ∧ (b < a → row'.rocksKey < row.rocksKey)
  range : ∀ row : Row keywordTable, row 0 = numericKey appid a →
    (encodePreKey (t := keywordTable) (numericKey appid b) ≤ row.rocksKey ↔ b ≤ a)

/-- The byte `x` is less than `y`, and so are the strings that they begin in lower case, the
comparison of what follows being given. -/
def StaysBelow (x y : UInt8) (rest : Ordering) : Prop :=
  isUpper x = true → y ≤ 90 ∨ x + 32 < y ∨ (y = x + 32 ∧ rest = .lt)

/-- Lower case keeps the order of two strings. It is decided by the first two bytes that differ: a
capital letter must not meet a byte from `[` to its small letter, unless this is the small letter
and what follows is in the same order. -/
def KeepsOrder : Bytes → Bytes → Prop
  | x :: s, y :: t =>
    if x = y then KeepsOrder s t
    else if x < y then StaysBelow x y (compare (toLower s) (toLower t))
    else StaysBelow y x (compare (toLower t) (toLower s))
  | _, _ => True

theorem compare_nat_then_eq_lt {m n : Nat} {o : Ordering} :
    (compare m n).then o = .lt ↔ m < n ∨ (m = n ∧ o = .lt) := by
  rw [Ordering.then_eq_lt, Nat.compare_eq_lt, Nat.compare_eq_eq]

theorem compare_lowerChar_lt {x y : UInt8} (h : x < y) (rest : Ordering) :
    (compare (lowerChar x) (lowerChar y)).then rest = .lt ↔ StaysBelow x y rest := by
  have h65 : UInt8.toNat 65 = 65 := rfl
  have h90 : UInt8.toNat 90 = 90 := rfl
  have h32 : UInt8.toNat 32 = 32 := rfl
  have hadd : x.toNat ≤ 90 → (x + 32).toNat = x.toNat + 32 := by
    intro hx
    rw [UInt8.toNat_add, h32, Nat.mod_eq_of_lt (by omega)]
  rw [UInt8.lt_iff_toNat_lt] at h
  rw [compare_uint8, compare_nat_then_eq_lt, toNat_lowerChar, toNat_lowerChar]
  simp only [StaysBelow, isUpper, Bool.and_eq_true, decide_eq_true_eq, UInt8.le_iff_toNat_le,
    UInt8.lt_iff_toNat_lt, ← UInt8.toNat_inj, h65, h90]
  by_cases hx : 65 ≤ x.toNat ∧ x.toNat ≤ 90
  · rw [if_pos hx, hadd hx.2]
    by_cases hy : 65 ≤ y.toNat ∧ y.toNat ≤ 90
    · rw [if_pos hy]
      exact iff_of_true (.inl (by omega)) fun _ => .inl hy.2
    · rw [if_neg hy, imp_iff_right hx, or_iff_right (show ¬ y.toNat ≤ 90 by omega), eq_comm]
  · rw [if_neg hx]
    refine iff_of_true (.inl ?_) fun h => absurd h hx
    split <;> omega

theorem compare_toLower_cons (x y : UInt8) (s t : Bytes) :
    compare (toLower (x :: s)) (toLower (y :: t)) =
      (compare (lowerChar x) (lowerChar y)).then (compare (toLower s) (toLower t)) := by
  simp [toLower]

theorem keepsOrder_iff {s t : Bytes} (hlen : s.length = t.length) :
    KeepsOrder s t ↔ compare (toLower s) (toLower t) = compare s t := by
  induction s generalizing t with
  | nil =>
    obtain rfl : t = [] := List.eq_nil_of_length_eq_zero hlen.symm
    exact iff_of_true trivial rfl
  | cons x s ih =>
    cases t with
    | nil => cases hlen
    | cons y t =>
      rcases lt_trichotomy x y with hlt | rfl | hgt
      · have hcmp : compare (x :: s) (y :: t) = .lt := by
          rw [List.compare_cons_cons, compare_lt_iff_lt.mpr hlt, Ordering.lt_then]
        rw [KeepsOrder, if_neg (ne_of_lt hlt), if_pos hlt, hcmp, compare_toLower_cons,
          compare_lowerChar_lt hlt]
      · rw [KeepsOrder, if_pos rfl, ih (Nat.succ.inj hlen), compare_toLower_cons,
          List.compare_cons_cons]
        simp
      · have hcmp : compare (x :: s) (y :: t) = .gt := by
          rw [List.compare_cons_cons, compare_gt_iff_gt.mpr hgt, Ordering.gt_then]
        rw [KeepsOrder, if_neg (ne_of_gt hgt), if_neg (lt_asymm hgt), hcmp,
          ← compare_lowerChar_lt hgt, ← compare_toLower_cons, Std.OrientedCmp.gt_iff_lt]

/-! ## Keys in lower case -/

theorem toLower_decimal (n : Nat) : toLower (decimal n) = decimal n := by
  apply toLower_of_not_any
  rw [List.any_eq_false]
  intro c hc
  have hdigit := isDigit_of_mem_decimal c hc
  have h48 : UInt8.toNat 48 = 48 := rfl
  have h57 : UInt8.toNat 57 = 57 := rfl
  have h65 : UInt8.toNat 65 = 65 := rfl
  simp only [isDigit, isUpper, Bool.and_eq_true, decide_eq_true_eq, UInt8.le_iff_toNat_le, h48, h57,
    h65] at hdigit ⊢
  omega

/-- Keys of one application compare as the bytes of the numbers in lower case. -/
theorem compare_toLower_numericKey (appid : UInt32) (a b : Int64) :
    compare (toLower (numericKey appid a)) (toLower (numericKey appid b)) =
      compare (toLower (encodeBytesS64 a)) (toLower (encodeBytesS64 b)) := by
  have hkey : ∀ a, toLower (numericKey appid a) =
      (decimal appid.toNat ++ [35, 48, 48, 35]) ++ toLower (encodeBytesS64 a) := by
    intro a
    have happ : ∀ s t : Bytes, toLower (s ++ t) = toLower s ++ toLower t := fun s t =>
      List.map_append
    rw [numericKey, generateDtcKey, happ, happ, toLower_decimal]
    rfl
  rw [hkey, hkey, compare_append_left]

/-- Stored keys are compared by the primary key in lower case first. -/
theorem compare_rocksKey {a b : Bytes} {row row' : Row keywordTable} (h : row 0 = a)
    (h' : row' 0 = b) : ∃ rest rest' : Bytes, compare row.rocksKey row'.rocksKey =
      (compare (toLower a) (toLower b)).then (compare rest rest') := by
  obtain ⟨rest, hrest⟩ := row.rocksKey_eq
  obtain ⟨rest', hrest'⟩ := row'.rocksKey_eq
  refine ⟨rest, rest', ?_⟩
  have henc : ∀ {row : Row keywordTable} {a : Bytes}, row 0 = a →
      (keywordTable.type 0).enc (row.lower 0) = encodeBytes (toLower a) := by
    rintro row _ rfl
    rfl
  rw [hrest, hrest', henc h, henc h']
  exact orderCode_bytes _ _ rest rest'

/-- The rest of the stored key does not depend on the primary key. -/
theorem Row.rocksKey_set_zero {t : Table} (row : Row t) : ∃ rest, ∀ key,
    (row.set 0 key).rocksKey = (t.type 0).enc (lowerValue (t.type 0) key) ++ rest := by
  refine ⟨t.uniqFields.tail.flatMap fun i => (t.type i).enc (row.lower i), fun key => ?_⟩
  conv_lhs => rw [Row.rocksKey, t.uniqFields_eq, List.flatMap_cons]
  rw [Row.lower, Row.set_self, List.append_cancel_left_eq]
  apply List.flatMap_congr
  intro i hi
  have hnodup := t.nodup_uniqFields
  rw [t.uniqFields_eq, List.nodup_cons] at hnodup
  have hne : i ≠ 0 := fun h => hnodup.1 (h ▸ hi)
  rw [Row.lower, Row.lower, Row.set_of_ne _ hne]

/-- A row under a key, the other fields being those of the default row. -/
def keyRow (key : Bytes) : Row keywordTable := keywordTable.defaultRow.set 0 key

theorem keyRow_zero (key : Bytes) : keyRow key 0 = key := Row.set_self ..

theorem compare_rocksKey_keyRow (a b : Bytes) :
    compare (keyRow a).rocksKey (keyRow b).rocksKey = compare (toLower a) (toLower b) := by
  obtain ⟨rest, hrest⟩ := keywordTable.defaultRow.rocksKey_set_zero
  have hkey : ∀ key : Bytes, (keyRow key).rocksKey = encodeBytes (toLower key) ++ rest := hrest
  rw [hkey, hkey, orderCode_bytes, Std.ReflOrd.compare_self, Ordering.then_eq]

theorem compare_rocksKey_preKey {a : Bytes} {row : Row keywordTable} (h : row 0 = a) (b : Bytes) :
    ∃ rest : Bytes, compare row.rocksKey (encodePreKey (t := keywordTable) b) =
      (compare (toLower a) (toLower b)).then (compare rest []) := by
  subst h
  obtain ⟨rest, hrest⟩ := row.rocksKey_eq
  have hcode := orderCode_bytes (toLower (row 0)) (toLower b) rest []
  rw [List.append_nil] at hcode
  exact ⟨rest, hrest ▸ hcode⟩

/-- A row that a select returns has its key, in lower case. -/
theorem select_numericKey {db : Db} {rows res : List (Row keywordTable)} {row : Row keywordTable}
    {a b : Bytes} {conds : List (Condition keywordTable)} {n : Nat} (hstores : Stores db rows)
    (hrow : row 0 = a)
    (hsel : processSelect (t := keywordTable) db b conds false = some (.ok (res, n)))
    (hmem : row ∈ res) : toLower a = toLower b := by
  subst hrow
  by_cases hne : prefixKey (t := keywordTable) b = []
  · exact absurd (hsel.symm.trans (if_pos hne)) (by simp)
  · rw [hstores.processSelect_eq keywordTable_stringKey hne] at hsel
    obtain ⟨rfl, -⟩ := Prod.mk.inj (Except.ok.inj (Option.some.inj hsel))
    have hunder : row.Under b := by simpa using (List.mem_filter.mp (List.mem_filter.mp hmem).1).2
    exact hunder

theorem keepsNumbers_iff_compare (appid : UInt32) (a b : Int64) :
    KeepsNumbers appid a b ↔
      compare (toLower (numericKey appid a)) (toLower (numericKey appid b)) = compare a b := by
  constructor
  · intro h
    have horder := h.order (keyRow (numericKey appid a)) (keyRow (numericKey appid b))
      (keyRow_zero _) (keyRow_zero _)
    rw [← compare_rocksKey_keyRow]
    cases hcmp : compare a b with
    | lt => exact (compare_bytes_eq_lt _ _).mpr (horder.1 (Std.compare_eq_lt.mp hcmp))
    | eq =>
      obtain rfl : a = b := Std.LawfulEqOrd.compare_eq_iff_eq.mp hcmp
      exact Std.ReflOrd.compare_self
    | gt =>
      rw [Std.OrientedCmp.gt_iff_lt, compare_bytes_eq_lt]
      exact horder.2 (Std.compare_eq_gt.mp hcmp)
  · intro h
    constructor
    · intro db rows hstores row _ hrow conds res n hsel hmem
      have heq := select_numericKey hstores hrow hsel hmem
      rw [heq, Std.ReflOrd.compare_self] at h
      exact Std.LawfulEqOrd.compare_eq_iff_eq.mp h.symm
    · intro row row' hrow hrow'
      obtain ⟨rest, rest', hcmp⟩ := compare_rocksKey hrow hrow'
      rw [h] at hcmp
      constructor
      · intro hlt
        rw [Std.compare_eq_lt.mpr hlt, Ordering.lt_then, compare_bytes_eq_lt] at hcmp
        exact hcmp
      · intro hgt
        rw [Std.compare_eq_gt.mpr hgt, Ordering.gt_then, Std.OrientedCmp.gt_iff_lt,
          compare_bytes_eq_lt] at hcmp
        exact hcmp
    · intro row hrow
      obtain ⟨rest, hcmp⟩ := compare_rocksKey_preKey hrow (numericKey appid b)
      rw [h] at hcmp
      rw [← not_lt, ← compare_bytes_eq_lt, hcmp, Ordering.then_eq_lt, Std.compare_eq_lt]
      have hrest : compare rest [] ≠ .lt := by cases rest <;> simp
      simp [hrest, Int64.not_lt]

/-- The keys of two numbers are told apart and ordered as the numbers, exactly if lower case keeps
the order of their bytes. -/
theorem keepsNumbers_iff (appid : UInt32) (a b : Int64) :
    KeepsNumbers appid a b ↔ KeepsOrder (encodeBytesS64 a) (encodeBytesS64 b) := by
  have hlen : (encodeBytesS64 a).length = (encodeBytesS64 b).length := by
    rw [length_encodeBytesS64, length_encodeBytesS64]
  rw [keepsNumbers_iff_compare, compare_toLower_numericKey, keepsOrder_iff hlen,
    orderCode_s64.compare_eq]

/-- The numbers whose last bytes are `A` and `a` have one key, and the key of the number whose last
byte is `[` comes before theirs. -/
theorem not_keepsNumbers_letter :
    ¬ KeepsNumbers 10001 65 97 ∧ ¬ KeepsNumbers 10001 65 91 := by
  rw [keepsNumbers_iff_compare, keepsNumbers_iff_compare, compare_toLower_numericKey,
    compare_toLower_numericKey]
  decide +kernel

end ISearch.RocksProcess
