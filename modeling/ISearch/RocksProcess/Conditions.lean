import ISearch.RocksProcess.ReadWrite
import Mathlib.Data.List.TakeWhile

/-!
# The rows that a condition selects

Select, update and delete evaluate the conditions of a request in three loops. What each of them
takes for the matching rows is computed here, and compared with the rows under the primary key for
which every condition holds.
-/

namespace ISearch.RocksProcess

open KeyFormat List

variable {t : Table} {db : Db} {rows : List (Row t)} {key : (t.type 0).Value}

/-! ## Comparisons -/

theorem compare_drop_min (l r : Bytes) :
    compare (l.drop (min l.length r.length)) (r.drop (min l.length r.length)) =
      compare l.length r.length := by
  induction l generalizing r with
  | nil =>
    cases r with
    | nil => rfl
    | cons y r => simp [compare_lt_iff_lt.mpr]
  | cons x l ih =>
    cases r with
    | nil => simp [compare_gt_iff_gt.mpr]
    | cons y r =>
      have hcmp : compare (l.length + 1) (r.length + 1) = compare l.length r.length := by
        simp only [compare, compareOfLessAndEq, Nat.add_lt_add_iff_right, Nat.add_right_cancel_iff]
      rw [length_cons, length_cons, Nat.succ_min_succ, drop_succ_cons,
        drop_succ_cons, ih, hcmp]

theorem compare_eq_memcmp (l r : Bytes) :
    compare l r = (memcmp l r (min l.length r.length)).then (compare l.length r.length) := by
  rw [compare_eq_take_drop (min l.length r.length) l r, compare_drop_min]
  rfl

/-- The six comparisons, from the comparison of the common length and the lengths. -/
theorem test_then (c : Comparator) (ret : Ordering) (m n : Nat) :
    c.test (ret.then (compare m n)) = match c with
      | .eq => m == n && ret == .eq
      | .ne => if m ≠ n then true else ret != .eq
      | .lt => ret == .lt || (ret == .eq && m < n)
      | .le => ret == .lt || (ret == .eq && m ≤ n)
      | .gt => ret == .gt || (ret == .eq && m > n)
      | .ge => ret == .gt || (ret == .eq && m ≥ n) := by
  rcases lt_trichotomy m n with h | h | h
  · have hcmp : compare m n = .lt := compare_lt_iff_lt.mpr h
    have hne : m ≠ n := h.ne
    rw [hcmp]
    cases c <;> cases ret <;> simp [Comparator.test, hne, h, h.le, h.not_ge, h.not_gt]
  · subst h
    have hcmp : compare m m = .eq := compare_eq_iff_eq.mpr rfl
    rw [hcmp]
    cases c <;> cases ret <;> simp [Comparator.test]
  · have hcmp : compare m n = .gt := compare_gt_iff_gt.mpr h
    have hne : m ≠ n := h.ne'
    rw [hcmp]
    cases c <;> cases ret <;> simp [Comparator.test, hne, h, h.le, h.not_ge, h.not_gt]

theorem isMatchedStr_eq (l r : Bytes) (c : Comparator) (caseSensitive : Bool) :
    isMatchedStr l c r caseSensitive =
      c.test (if caseSensitive then compare l r else compare (toLower l) (toLower r)) := by
  have hlen : ∀ s, (toLower s).length = s.length := fun s => length_map _
  cases caseSensitive with
  | true => rw [if_pos rfl, compare_eq_memcmp, test_then]; rfl
  | false =>
    rw [if_neg Bool.false_ne_true, compare_eq_memcmp, test_then, hlen, hlen]
    rfl

/-- A field is matched if the comparison holds, both ignoring the case and with it. -/
theorem fieldMatched_toStr (ty : FieldType) (x v : ty.Value) (c : Comparator) :
    fieldMatched (ty.toStr x) c ty v =
      (c.test (ty.cmp (lowerValue ty x) (lowerValue ty v)) && c.test (ty.cmp x v)) := by
  cases ty with
  | signed =>
    have hstr : strtoll (FieldType.signed.toStr x) = x := strtoll_toStringS64 x
    rw [fieldMatched, hstr, lowerValue, lowerValue, Bool.and_self]
    rfl
  | unsigned =>
    have hstr : strtoull (FieldType.unsigned.toStr x) = x := strtoull_toStringU64 x
    rw [fieldMatched, hstr, lowerValue, lowerValue, Bool.and_self]
    rfl
  | string =>
    exact congrArg₂ (· && ·) (isMatchedStr_eq x v c false) (isMatchedStr_eq x v c true)
  | binary => exact (isMatchedStr_eq x v c true).trans (Bool.and_self _).symm

namespace Condition

/-- The condition holds for a row; Strings are compared ignoring the case. -/
def holds (c : Condition t) (row : Row t) : Bool :=
  c.comparator.test ((t.type c.fieldId).cmp (lowerValue _ (row c.fieldId)) (lowerValue _ c.value))

/-- The comparison with the case. -/
def exact (c : Condition t) (row : Row t) : Bool :=
  c.comparator.test ((t.type c.fieldId).cmp (row c.fieldId) c.value)

theorem fieldMatched_str (c : Condition t) (row : Row t) :
    fieldMatched (row.str c.fieldId) c.comparator (t.type c.fieldId) c.value =
      (c.holds row && c.exact row) :=
  fieldMatched_toStr ..

end Condition

namespace Row

/-- Every condition holds. -/
def meets (row : Row t) (conds : List (Condition t)) : Bool := conds.all fun c => c.holds row

/-- The conditions as `update_row` and `process_delete` evaluate them, without those on the primary
key. -/
def passes (row : Row t) (conds : List (Condition t)) : Bool :=
  conds.all fun c => c.fieldId = 0 || (c.holds row && c.exact row)

/-- The row that `update_row` sees if the key does not change. -/
def keyLower (row : Row t) : Row t := fun i => if i ∈ t.uniqFields then row.lower i else row i

/-- The row that `process_delete` sees: `split_values` does not parse the last field. -/
def blankLast (row : Row t) : Row t := fun i =>
  if t.valueFields.getLast? = some i then zeroValue (t.type i) else row i

theorem selected_eq (row : Row t) (conds : List (Condition t)) :
    row.selected conds = conds.all fun c => c.holds row && c.exact row := by
  simp only [selected, Condition.fieldMatched_str]

end Row

theorem mem_tail_fieldIndexMapping {i : t.FieldId} : i ∈ t.fieldIndexMapping.tail ↔ i ≠ 0 := by
  have heq : t.fieldIndexMapping = 0 :: t.fieldIndexMapping.tail := by
    rw [Table.fieldIndexMapping, t.uniqFields_eq]
    rfl
  have hnodup := t.nodup_fieldIndexMapping
  have hmem := t.mem_fieldIndexMapping i
  rw [heq] at hnodup hmem
  constructor
  · rintro hi rfl
    exact (nodup_cons.mp hnodup).1 hi
  · intro hi
    exact (mem_cons.mp hmem).resolve_left hi

/-- The loops that begin behind the primary key. -/
theorem all_tail_eq_passes (row : Row t) {strs : t.FieldId → Bytes} (conds : List (Condition t))
    (h : ∀ c ∈ conds, fieldMatched (strs c.fieldId) c.comparator (t.type c.fieldId) c.value =
      fieldMatched (row.str c.fieldId) c.comparator (t.type c.fieldId) c.value) :
    (t.fieldIndexMapping.tail.all fun i => conditionFilter (strs i) i conds) =
      row.passes conds := by
  rw [all_conditionFilter, Row.passes, Bool.eq_iff_iff, all_eq_true, all_eq_true]
  refine forall₂_congr fun c hc => ?_
  rw [h c hc, c.fieldMatched_str]
  simp only [mem_tail_fieldIndexMapping, not_not]

theorem tail_fieldIndexMapping (t : Table) :
    t.fieldIndexMapping.tail = t.uniqFields.tail ++ t.valueFields := by
  rw [Table.fieldIndexMapping, tail_append_of_ne_nil]
  rw [t.uniqFields_eq]
  exact cons_ne_nil _ _

/-! ## Update -/

/-- The condition of `update_row`, on the key fields as it sees them. -/
theorem filterFields_tail {row seen : Row t} (hfits : row.Fits)
    (hvalues : ∀ i ∈ t.valueFields, seen i = row i) (conds : List (Condition t)) :
    filterFields conds t.fieldIndexMapping.tail (t.uniqFields.tail.map seen.str) row.shrunk =
      some (if seen.passes conds then some (t.fieldIndexMapping.tail.map seen.str) else none) := by
  have hstrs : ∀ i ∈ t.valueFields, seen.str i = row.str i := fun i hi => by
    rw [Row.str, hvalues i hi, Row.str]
  have h := filterFields_eq conds t.uniqFields.tail hfits hstrs
  rw [← tail_fieldIndexMapping, all_tail_eq_passes seen conds fun _ _ => rfl] at h
  exact h

def supported (updateInfo : UpdateInfo t) : Bool :=
  updateInfo.all fun op => match op.2 with
    | .unsupported => false
    | _ => true

theorem isSome_applyOperations (updateInfo : UpdateInfo t) (strs : t.FieldId → Bytes) :
    (applyOperations updateInfo strs).isSome = supported updateInfo := by
  induction updateInfo generalizing strs with
  | nil => rfl
  | cons op ops ih =>
    obtain ⟨i, op⟩ := op
    cases op with
    | set value => exact ih _
    | add type value => exact ih _
    | unsupported => rfl

theorem keyLower_of_mem_valueFields (row : Row t) {i : t.FieldId} (hi : i ∈ t.valueFields) :
    row.keyLower i = row i := by
  have hnot : i ∉ t.uniqFields := by simpa [Table.valueFields] using hi
  rw [Row.keyLower, if_neg hnot]

theorem lower_keys_tail (row : Row t) :
    row.lower.keys.tail = t.uniqFields.tail.map row.keyLower.str := by
  rw [Row.keys, ← map_tail]
  apply map_congr_left
  intro i hi
  rw [Row.str, Row.str, Row.keyLower, if_pos (mem_of_mem_tail hi)]

theorem updateRow_value {row : Row t} {updateInfo : UpdateInfo t} (hfits : row.Fits)
    (hkey : updatesKey updateInfo = false) (hvalue : updatesValue updateInfo = true)
    (conds : List (Condition t)) :
    ∃ newValue, updateRow conds updateInfo row.rocksKey row.rocksValue =
      some (if row.keyLower.passes conds then
        (if supported updateInfo then .row row.rocksKey newValue else .failed)
          else .unmatched) := by
  have hfilter := filterFields_tail hfits (fun i => keyLower_of_mem_valueFields row) conds
  rw [← lower_keys_tail] at hfilter
  have hsplit := row.splitValues_shrunk hfits
  simp only [updateRow, row.decode_rocksKey, hkey, hvalue, row.skipKeyBitmap_rocksValue, hfilter,
    updateValues, hsplit, Option.bind_eq_bind, Option.bind_some, Option.map_some,
      Bool.false_eq_true, if_false,
    if_true]
  by_cases hpass : row.keyLower.passes conds = true
  · simp only [if_pos hpass]
    rw [← isSome_applyOperations updateInfo]
    split
    · rename_i happly
      rw [happly]
      exact ⟨[], rfl⟩
    · rename_i strs happly
      rw [happly]
      exact ⟨_, rfl⟩
  · simp only [if_neg hpass]
    exact ⟨[], rfl⟩

theorem updateValueLoop_entries {rows : List (Row t)} {updateInfo : UpdateInfo t}
    (hfits : ∀ row ∈ rows, row.Fits) (hkey : updatesKey updateInfo = false)
    (hvalue : updatesValue updateInfo = true) (conds : List (Condition t)) (preKey : Bytes) :
    ∃ newEntries, updateValueLoop conds updateInfo preKey (rows.map Row.entry) = some newEntries ∧
      newEntries.map (·.1) = ((rows.takeWhile fun row => keyMatched preKey row.rocksKey).filter
        fun row => supported updateInfo && row.keyLower.passes conds).map Row.rocksKey := by
  induction rows with
  | nil => exact ⟨[], rfl, rfl⟩
  | cons row rows ih =>
    obtain ⟨newEntries, hloop, hkeys⟩ := ih fun row' hrow' => hfits row' (mem_cons_of_mem row hrow')
    rw [map_cons, Row.entry, updateValueLoop]
    by_cases h : keyMatched preKey row.rocksKey = true
    · obtain ⟨newValue, hrow⟩ := updateRow_value (hfits row mem_cons_self) hkey hvalue conds
      rw [if_pos h, hrow, hloop, takeWhile_cons_of_pos (by exact h)]
      cases hpass : row.keyLower.passes conds with
      | false =>
        refine ⟨newEntries, rfl, ?_⟩
        rw [filter_cons_of_neg (by simp [hpass]), hkeys]
      | true =>
        cases hsup : supported updateInfo with
        | false =>
          refine ⟨newEntries, rfl, ?_⟩
          rw [filter_cons_of_neg (by simp), hkeys, hsup]
        | true =>
          refine ⟨(row.rocksKey, newValue) :: newEntries, rfl, ?_⟩
          rw [filter_cons_of_pos (by simp [hpass]), map_cons, hkeys, hsup]
          rfl
    · rw [if_neg h, takeWhile_cons_of_neg (by exact h)]
      exact ⟨[], rfl, rfl⟩

/-! ## Delete -/

theorem fieldMatched_nil (ty : FieldType) (c : Comparator) (v : ty.Value) :
    fieldMatched [] c ty v = fieldMatched (ty.toStr (zeroValue ty)) c ty v := by
  cases ty with
  | signed =>
    have hzero : strtoll [] = strtoll (FieldType.signed.toStr (zeroValue .signed)) := by
      decide +kernel
    rw [fieldMatched, fieldMatched, hzero]
  | unsigned =>
    have hzero : strtoull [] = strtoull (FieldType.unsigned.toStr (zeroValue .unsigned)) := by
      decide +kernel
    rw [fieldMatched, fieldMatched, hzero]
  | string => rfl
  | binary => rfl

/-- The strings that `process_delete` has for the fields. -/
def Row.splitStr (row : Row t) (i : t.FieldId) : Bytes :=
  if t.valueFields.getLast? = some i then [] else row.str i

theorem fieldMatched_splitStr (row : Row t) (c : Condition t) :
    fieldMatched (row.splitStr c.fieldId) c.comparator (t.type c.fieldId) c.value =
      fieldMatched (row.blankLast.str c.fieldId) c.comparator (t.type c.fieldId) c.value := by
  by_cases h : t.valueFields.getLast? = some c.fieldId
  · rw [Row.splitStr, if_pos h, fieldMatched_nil, Row.str, Row.blankLast, if_pos h]
  · rw [Row.splitStr, if_neg h, Row.str, Row.str, Row.blankLast, if_neg h]

theorem map_splitStr (row : Row t) :
    t.fieldIndexMapping.map row.splitStr = row.keys ++
      if t.valueFields = [] then [] else t.valueFields.dropLast.map row.str ++ [[]] := by
  have hnodup := t.nodup_fieldIndexMapping
  rw [Table.fieldIndexMapping, nodup_append] at hnodup
  obtain ⟨-, hvalues, hdisj⟩ := hnodup
  rw [Table.fieldIndexMapping, map_append]
  congr 1
  · apply map_congr_left
    intro i hi
    rw [Row.splitStr, if_neg]
    intro hlast
    exact hdisj i hi i (mem_of_getLast? hlast) rfl
  · split
    · rename_i hnil
      rw [hnil]
      rfl
    · rename_i hne
      have hsplit := dropLast_append_getLast hne
      rw [← hsplit, nodup_append] at hvalues
      conv_lhs => rw [← hsplit, map_append]
      congr 1
      · apply map_congr_left
        intro i hi
        rw [Row.splitStr, if_neg]
        intro hlast
        rw [List.getLast?_eq_getLast_of_ne_nil hne] at hlast
        exact hvalues.2.2 i hi _ mem_cons_self (Option.some.inj hlast).symm
      · rw [map_singleton, Row.splitStr, if_pos (List.getLast?_eq_getLast_of_ne_nil hne)]

theorem zip_tail_all {β γ : Type} (l : List β) (f : β → γ) (g : γ → β → Bool) :
    ((l.tail.zip (l.map f).tail).all fun p => g p.2 p.1) = l.tail.all fun b => g (f b) b := by
  rw [← map_tail]
  induction l.tail with
  | nil => rfl
  | cons b l ih => simp [ih]

theorem deleteLoop_entries {rows : List (Row t)} (hfits : ∀ row ∈ rows, row.Fits)
    (hunder : ∀ row ∈ rows, keyMatched (encodePreKey key) row.rocksKey = true → row.Under key)
    (conds : List (Condition t)) (condMatch : Bool) :
    deleteLoop conds key condMatch (rows.map Row.entry) =
      some (if condMatch then ((rows.takeWhile fun row =>
        keyMatched (encodePreKey key) row.rocksKey).takeWhile
          fun row => row.blankLast.passes conds).map Row.rocksKey else []) := by
  induction rows generalizing condMatch with
  | nil => cases condMatch <;> rfl
  | cons row rows ih =>
    have hrest := ih (fun row' hrow' => hfits row' (mem_cons_of_mem row hrow'))
      fun row' hrow' => hunder row' (mem_cons_of_mem row hrow')
    rw [map_cons, Row.entry, deleteLoop]
    by_cases h : keyMatched (encodePreKey key) row.rocksKey = true
    · have hhead : row.lower.keys.head? = some (prefixKey key) := by
        rw [Row.keys, t.uniqFields_eq, map_cons, List.head?_cons, Row.str, prefixKey,
          ← toStr_lowerValue]
        exact congrArg (fun x => some ((t.type 0).toStr x)) (hunder row mem_cons_self h)
      have hsplit := row.splitValues_shrunk (hfits row mem_cons_self)
      have hpass := (zip_tail_all t.fieldIndexMapping row.splitStr
        fun s i => conditionFilter s i conds).trans
        (all_tail_eq_passes row.blankLast conds fun c _ => fieldMatched_splitStr row c)
      rw [map_splitStr] at hpass
      simp only [if_pos h, row.decode_rocksKey, hhead, row.decodeBitmapKeys_rocksValue, hsplit,
        hpass, hrest, Option.bind_eq_bind, Option.bind_some, ne_eq, not_true, if_false]
      rw [takeWhile_cons_of_pos (by exact h)]
      cases condMatch with
      | false => rfl
      | true =>
        cases hp : row.blankLast.passes conds with
        | false =>
          rw [takeWhile_cons_of_neg (by simp [hp])]
          rfl
        | true =>
          rw [takeWhile_cons_of_pos (by exact hp)]
          rfl
    · rw [if_neg h, takeWhile_cons_of_neg (by exact h)]
      cases condMatch <;> rfl

/-! ## One row set -/

/-- The rows under a primary key. -/
def under (rows : List (Row t)) (key : (t.type 0).Value) : List (Row t) :=
  rows.filter fun row => row.Under key

/-- The rows under a primary key for which every condition holds. -/
def matching (rows : List (Row t)) (key : (t.type 0).Value) (conds : List (Condition t)) :
    List (Row t) :=
  (under rows key).filter fun row => row.meets conds

/-- The rows that `process_select` returns. -/
def selectedRows (db : Db) (key : (t.type 0).Value) (conds : List (Condition t)) : List (Row t) :=
  match processSelect db key conds false with
  | some (.ok (rows, _)) => rows
  | _ => []

/-- The number that a count-only `process_select` reports. -/
def countedRows (db : Db) (key : (t.type 0).Value) (conds : List (Condition t)) : Nat :=
  match processSelect db key conds true with
  | some (.ok (_, totalRows)) => totalRows
  | _ => 0

/-- The keys that `process_update` writes if no key field changes. -/
def updatedKeys (db : Db) (key : (t.type 0).Value) (conds : List (Condition t))
    (updateInfo : UpdateInfo t) : Option (List Bytes) :=
  (updateValueLoop conds updateInfo (encodePreKey key) (db.seek (encodePreKey key))).map
    (·.map (·.1))

/-- The keys that `process_delete` deletes. -/
def deletedKeys (db : Db) (key : (t.type 0).Value) (conds : List (Condition t)) :
    Option (List Bytes) :=
  deleteLoop conds key true (db.seek (encodePreKey key))

/-- The three requests and the count agree on the matching rows. -/
structure SameRows (db : Db) (rows : List (Row t)) (key : (t.type 0).Value)
    (conds : List (Condition t)) : Prop where
  select : selectedRows db key conds = matching rows key conds
  update : ∀ updateInfo, updatesKey updateInfo = false → updatesValue updateInfo = true →
    supported updateInfo = true →
    updatedKeys db key conds updateInfo = some ((matching rows key conds).map Row.rocksKey)
  delete : deletedKeys db key conds = some ((matching rows key conds).map Row.rocksKey)
  count : countedRows db key conds = (matching rows key conds).length

theorem Stores.eq_of_rocksKey (h : Stores db rows) {row row' : Row t} (hrow : row ∈ rows)
    (hrow' : row' ∈ rows) (heq : row.rocksKey = row'.rocksKey) : row = row' := by
  have hsorted := h.sorted
  clear h
  induction rows with
  | nil => cases hrow
  | cons r rows ih =>
    obtain ⟨hlt, hrest⟩ := pairwise_cons.mp hsorted
    rcases mem_cons.mp hrow with rfl | hmem
    · rcases mem_cons.mp hrow' with rfl | hmem'
      · rfl
      · exact absurd heq (hlt row' hmem').ne
    · rcases mem_cons.mp hrow' with rfl | hmem'
      · exact absurd heq (hlt row hmem).ne'
      · exact ih hmem hmem' hrest

theorem Stores.nodup (h : Stores db rows) : rows.Nodup :=
  h.sorted.imp fun hlt heq => hlt.ne (congrArg Row.rocksKey heq)

section Lists

variable {β γ : Type} {l : List β} {f : β → γ} {p q : β → Bool}

theorem map_filter_eq_iff (hf : ∀ a ∈ l, ∀ b ∈ l, f a = f b → a = b) :
    (l.filter p).map f = (l.filter q).map f ↔ ∀ a ∈ l, p a = q a := by
  constructor
  · intro h a ha
    have hmem : ∀ {p : β → Bool}, p a = true ↔ f a ∈ (l.filter p).map f := by
      intro p
      constructor
      · intro hp
        exact mem_map_of_mem (mem_filter.mpr ⟨ha, hp⟩)
      · intro hm
        obtain ⟨b, hb, heq⟩ := mem_map.mp hm
        obtain ⟨hb, hp⟩ := mem_filter.mp hb
        rwa [hf b hb a ha heq] at hp
    rw [Bool.eq_iff_iff, hmem, h, hmem]
  · intro h
    rw [filter_congr h]

/-- A scan that stops at the first element that it does not accept. -/
theorem map_takeWhile_eq_filter_iff (hl : l.Nodup) (hf : ∀ a ∈ l, ∀ b ∈ l, f a = f b → a = b) :
    (l.takeWhile p).map f = (l.filter q).map f ↔
      (∀ a ∈ l.takeWhile p, q a = true) ∧ ∀ a ∈ l.dropWhile p, q a = false := by
  have hsplit := takeWhile_append_dropWhile (p := p) (l := l)
  have htake : ∀ a ∈ l.takeWhile p, a ∈ l := fun a ha => takeWhile_subset p ha
  have hdrop : ∀ a ∈ l.dropWhile p, a ∈ l := fun a ha => dropWhile_subset p ha
  constructor
  · intro h
    constructor
    · intro a ha
      have hm : f a ∈ (l.filter q).map f := h ▸ mem_map_of_mem ha
      obtain ⟨b, hb, heq⟩ := mem_map.mp hm
      obtain ⟨hb, hq⟩ := mem_filter.mp hb
      rwa [hf b hb a (htake a ha) heq] at hq
    · intro a ha
      by_contra hq
      rw [Bool.not_eq_false] at hq
      have hm : f a ∈ (l.takeWhile p).map f :=
        h ▸ mem_map_of_mem (mem_filter.mpr ⟨hdrop a ha, hq⟩)
      obtain ⟨b, hb, heq⟩ := mem_map.mp hm
      rw [hf b (htake b hb) a (hdrop a ha) heq] at hb
      rw [← hsplit, nodup_append] at hl
      exact hl.2.2 a hb a ha rfl
  · rintro ⟨ht, hd⟩
    conv_rhs => rw [← hsplit, filter_append, filter_eq_self.mpr ht,
      filter_eq_nil_iff.mpr (by simpa using hd), append_nil]

end Lists

theorem mem_under {row : Row t} : row ∈ under rows key ↔ row ∈ rows ∧ row.Under key := by
  simp [under]

theorem Stores.under_inj (h : Stores db rows) :
    ∀ row ∈ under rows key, ∀ row' ∈ under rows key, row.rocksKey = row'.rocksKey → row = row' :=
  fun _ hrow _ hrow' => h.eq_of_rocksKey (mem_under.mp hrow).1 (mem_under.mp hrow').1

/-- No row is stored under the empty key. -/
theorem Stores.under_eq_nil (h : Stores db rows) (hkey : prefixKey key = []) :
    under rows key = [] := by
  rw [under, filter_eq_nil_iff]
  intro row hrow hunder
  apply h.key_ne row hrow
  have hstr : lowerKey (t.type 0) (row.str 0) = [] := by
    have heq : row.Under key := by simpa using hunder
    rw [Row.str, ← toStr_lowerValue, heq, toStr_lowerValue]
    exact hkey
  rw [← length_eq_zero_iff, ← length_lowerKey (t.type 0), hstr]
  rfl

theorem Stores.selectedRows_eq (ht : t.StringKey) (h : Stores db rows)
    (conds : List (Condition t)) :
    selectedRows db key conds = (under rows key).filter fun row => row.selected conds := by
  by_cases hkey : prefixKey key = []
  · rw [h.under_eq_nil hkey, selectedRows, processSelect, if_pos hkey]
    rfl
  · rw [selectedRows, h.processSelect_eq ht hkey]
    rfl

theorem Stores.countedRows_eq (ht : t.StringKey) (h : Stores db rows) (conds : List (Condition t)) :
    countedRows db key conds = (under rows key).length := by
  by_cases hkey : prefixKey key = []
  · rw [h.under_eq_nil hkey, countedRows, processSelect, if_pos hkey]
    rfl
  · rw [countedRows, h.processSelect_count ht hkey]
    rfl

theorem Stores.updatedKeys_eq (ht : t.StringKey) (h : Stores db rows) (conds : List (Condition t))
    {updateInfo : UpdateInfo t} (hkey : updatesKey updateInfo = false)
    (hvalue : updatesValue updateInfo = true) :
    updatedKeys db key conds updateInfo = some (((under rows key).filter fun row =>
      supported updateInfo && row.keyLower.passes conds).map Row.rocksKey) := by
  obtain ⟨newEntries, hloop, hkeys⟩ := updateValueLoop_entries
    (fun row hrow => h.fits row (mem_filter.mp hrow).1) hkey hvalue conds (encodePreKey key)
  rw [updatedKeys, h.seek, hloop, Option.map_some, hkeys, h.scan_under ht]
  rfl

theorem Stores.deletedKeys_eq (ht : t.StringKey) (h : Stores db rows) (conds : List (Condition t)) :
    deletedKeys db key conds = some (((under rows key).takeWhile fun row =>
      row.blankLast.passes conds).map Row.rocksKey) := by
  rw [deletedKeys, h.seek, deleteLoop_entries (fun row hrow => h.fits row (mem_filter.mp hrow).1)
    (fun row _ => (ht.keyMatched_iff row).mp), h.scan_under ht]
  rfl

/-- With an integer primary key the row with the key `0` is not found. -/
theorem not_sameRows_zero (ht : ¬ t.StringKey) :
    ¬ ∀ (db : Db) (rows : List (Row t)), Stores db rows → ∀ key, SameRows db rows key [] := by
  intro h
  have hstores : Stores (SortedMap.empty.put (zeroRequest t).row.rocksKey
      (zeroRequest t).row.rocksValue) [(zeroRequest t).row] := by
    refine Stores.empty.put ?_ (str_zeroRequest_ne ht)
    intro i _
    rw [row_zeroRequest]
    exact fits_zeroValue (t.field i)
  have hdelete := (h _ _ hstores (zeroRequest t).key).delete
  have hunder : (zeroRequest t).row.Under (zeroRequest t).key := by
    rw [Row.Under, InsertRequest.row_zero]
  have hmatch : matching [(zeroRequest t).row] (zeroRequest t).key [] = [(zeroRequest t).row] := by
    rw [matching, under, filter_cons_of_pos (by simpa using hunder)]
    rfl
  have hnone :
    ¬ keyMatched (encodePreKey (zeroRequest t).key) (zeroRequest t).row.rocksKey = true := by
    rw [Bool.not_eq_true]
    exact not_keyMatched_zero ht
  rw [deletedKeys, hstores.seek, hmatch, deleteLoop_entries
    (fun row hrow => hstores.fits row (mem_filter.mp hrow).1)] at hdelete
  · rw [hstores.scan (encodePreKey_ne_nil _), filter_cons_of_neg (by exact hnone)] at hdelete
    cases hdelete
  · intro row hrow hmatched
    obtain rfl := mem_singleton.mp (mem_filter.mp hrow).1
    exact absurd hmatched hnone

attribute [local instance (2000)] Table.neZero_two in
/-- A String primary key and an Unsigned key. -/
def twoKeyTable : Table where
  numFields := 1
  column i := if i = 0 then ⟨⟨.string, 32⟩, ([] : Bytes)⟩ else ⟨⟨.unsigned, 8⟩, (0 : UInt64)⟩
  uniqFields := [0, 1]
  head_uniqFields := rfl
  nodup_uniqFields := by simp

/-- The row `("a", n)`. -/
def twoKeyRow (n : UInt64) : Row twoKeyTable
  | ⟨0, _⟩ => ([97] : Bytes)
  | ⟨1, _⟩ => n

def twoKeyDb : Db where
  entries := [(twoKeyRow 1).entry, (twoKeyRow 2).entry]
  sorted := by decide +kernel

theorem fits_twoKeyTable (row : Row twoKeyTable) : row.Fits := by
  rw [Row.Fits, show twoKeyTable.valueFields = [] by decide]
  exact forall_mem_nil _

theorem stores_twoKeyDb : Stores twoKeyDb [twoKeyRow 1, twoKeyRow 2] := by
  refine ⟨rfl, fun row _ => fits_twoKeyTable row, ?_⟩
  simp only [forall_mem_cons]
  exact ⟨by decide +kernel, by decide +kernel, forall_mem_nil _⟩

end ISearch.RocksProcess
