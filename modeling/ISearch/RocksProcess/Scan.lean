import ISearch.RocksProcess.Requests

/-!
# What the requests see of the stored rows

A storage that holds the entries of rows is scanned as the list of these rows. With a String or
Binary primary key the scan of a request visits the rows under the key; the fields of a visited row
are read back as they were stored.
-/

namespace ISearch.RocksProcess

open KeyFormat List

variable {t : Table} {db : Db} {rows : List (Row t)} {key : (t.type 0).Value}

/-- The storage holds exactly these rows, in the order of their keys. -/
structure Stores (db : Db) (rows : List (Row t)) : Prop where
  entries : db.entries = rows.map Row.entry
  fits : ∀ row ∈ rows, row.Fits
  key_ne : ∀ row ∈ rows, row.str 0 ≠ []

theorem Stores.empty : Stores SortedMap.empty ([] : List (Row t)) := ⟨rfl, by simp, by simp⟩

theorem Stores.sorted (h : Stores db rows) :
    rows.Pairwise fun row row' => row.rocksKey < row'.rocksKey := by
  have hsorted := db.sorted
  rw [h.entries, pairwise_map] at hsorted
  exact hsorted

theorem Stores.seek (h : Stores db rows) (k : Bytes) :
    db.seek k = (rows.filter fun row => k ≤ row.rocksKey).map Row.entry := by
  rw [SortedMap.seek, h.entries, filter_map]
  rfl

/-! ## Keys -/

theorem keyMatched_eq {p : Bytes} (hp : p ≠ []) (k : Bytes) : keyMatched p k = p.isPrefixOf k := by
  have hlen : p.length ≠ 0 := by simpa using hp
  rw [keyMatched, Bool.eq_iff_iff, isPrefixOf_iff_prefix, prefix_iff_eq_take]
  split
  · rename_i h
    have hlt := h.resolve_left fun h => hlen h.1
    refine iff_of_false (by simp) fun heq => ?_
    have := congrArg List.length heq
    rw [length_take] at this
    omega
  · rw [beq_iff_eq, eq_comm]

theorem encodeBytes_ne_nil (s : Bytes) : encodeBytes s ≠ [] := by
  rw [encodeBytes_eq]
  simp [KeyFormat.segment]

theorem encodePreKey_ne_nil (key : (t.type 0).Value) : encodePreKey key ≠ [] :=
  encodeBytes_ne_nil _

/-- The primary key begins the key of the entry. -/
theorem Row.rocksKey_eq (row : Row t) : ∃ rest, row.rocksKey =
    (t.type 0).enc (row.lower 0) ++ rest := by
  refine ⟨t.uniqFields.tail.flatMap fun i => (t.type i).enc (row.lower i), ?_⟩
  conv_lhs => rw [Row.rocksKey, t.uniqFields_eq, flatMap_cons]

/-- The primary keys that are encoded as the strings that requests look for. -/
def Table.StringKey (t : Table) : Prop := t.type 0 = .string ∨ t.type 0 = .binary

theorem Table.StringKey.encodePreKey_eq (ht : t.StringKey) (key : (t.type 0).Value) :
    encodePreKey key = (t.type 0).enc (lowerValue (t.type 0) key) := by
  have henc : ∀ s : Bytes, encodeField s (t.type 0) = encodeBytes s := by
    intro s
    rcases ht with h | h <;> rw [h] <;> rfl
  rw [FieldType.enc, henc, toStr_lowerValue]
  rfl

theorem Table.StringKey.keyMatched_iff (ht : t.StringKey) (row : Row t) :
    keyMatched (encodePreKey key) row.rocksKey = true ↔ row.Under key := by
  rw [keyMatched_eq (encodePreKey_ne_nil key), isPrefixOf_iff_prefix, ht.encodePreKey_eq,
    Row.Under]
  obtain ⟨rest, hrest⟩ := row.rocksKey_eq
  rw [hrest]
  constructor
  · intro h
    exact ((t.type 0).cmp_eq_eq.mp ((t.type 0).orderCode.cmp_of_isPrefix_append h)).symm
  · intro h
    rw [← h]
    exact prefix_append _ _

instance (row : Row t) (key : (t.type 0).Value) : Decidable (row.Under key) :=
  decidable_of_iff ((t.type 0).toStr (lowerValue (t.type 0) (row 0)) =
    (t.type 0).toStr (lowerValue (t.type 0) key)) (toStr_injective (t.type 0)).eq_iff

/-- The rows that the loops visit. -/
theorem Stores.scan (h : Stores db rows) {p : Bytes} (hp : p ≠ []) :
    (rows.filter fun row => p ≤ row.rocksKey).takeWhile (fun row => keyMatched p row.rocksKey) =
      rows.filter fun row => keyMatched p row.rocksKey := by
  simp only [keyMatched_eq hp]
  exact takeWhile_filter_le h.sorted p

theorem Stores.scan_under (ht : t.StringKey) (h : Stores db rows) (key : (t.type 0).Value) :
    (rows.filter fun row => encodePreKey key ≤ row.rocksKey).takeWhile
        (fun row => keyMatched (encodePreKey key) row.rocksKey) =
      rows.filter fun row => row.Under key := by
  rw [h.scan (encodePreKey_ne_nil key)]
  apply filter_congr
  intro row _
  rw [Bool.eq_iff_iff, decide_eq_true_iff]
  exact ht.keyMatched_iff row

/-- A row that is read field by field, the strings of the key fields being given. -/
theorem filterFields_eq {row : Row t} (conds : List (Condition t)) {strs : t.FieldId → Bytes}
    (kids : List t.FieldId) {vids : List t.FieldId}
    (hfits : ∀ i ∈ vids, (t.field i).Fits (row i)) (hstrs : ∀ i ∈ vids, strs i = row.str i) :
    filterFields conds (kids ++ vids) (kids.map strs)
        (shrinkValue (vids.map t.field) (vids.map row.str)) =
      some (if (kids ++ vids).all fun i => conditionFilter (strs i) i conds then
        some ((kids ++ vids).map strs) else none) := by
  induction kids with
  | nil =>
    induction vids with
    | nil => rfl
    | cons i vids ih =>
      have hrest := ih (fun j hj => hfits j (mem_cons_of_mem i hj))
        fun j hj => hstrs j (mem_cons_of_mem i hj)
      have hread := (readBack (t.field i) (row i)).fits (hfits i mem_cons_self)
      have hstr := hstrs i mem_cons_self
      simp only [nil_append, map_nil, map_cons, shrinkValue, filterFields] at hrest ⊢
      rw [show row.str i = (t.field i).type.toStr (row i) from rfl] at hstr ⊢
      rw [hread, ← hstr, all_cons]
      by_cases h : conditionFilter (strs i) i conds = true
      · simp only [Option.bind_eq_bind, Option.bind_some, if_pos h, hrest]
        split <;> simp_all
      · simp [h]
  | cons i kids ih =>
    simp only [cons_append, map_cons, filterFields, all_cons]
    by_cases h : conditionFilter (strs i) i conds = true
    · simp only [if_pos h, ih]
      split <;> simp_all
    · simp [h]

theorem getElem?_idxOf {strs : t.FieldId → Bytes} (i : t.FieldId) :
    (t.fieldIndexMapping.map strs)[t.fieldIndexMapping.idxOf i]? = some (strs i) := by
  have hlt := idxOf_lt_length_of_mem (t.mem_fieldIndexMapping i)
  rw [List.getElem?_map, List.getElem?_eq_getElem hlt, getElem_idxOf hlt]
  rfl

theorem rowValue_map_str (row : Row t) : rowValue (t.fieldIndexMapping.map row.str) = row := by
  funext i
  rw [rowValue, getElem?_idxOf]
  exact str2Value_toStr (t.type i) (row i)

/-! ## Select -/

theorem all_conditionFilter (ids : List t.FieldId) (strs : t.FieldId → Bytes)
    (conds : List (Condition t)) :
    (ids.all fun i => conditionFilter (strs i) i conds) = conds.all fun c =>
      c.fieldId ∉ ids || fieldMatched (strs c.fieldId) c.comparator (t.type c.fieldId) c.value := by
  rw [Bool.eq_iff_iff]
  simp only [conditionFilter, all_eq_true, Bool.or_eq_true, decide_eq_true_eq]
  constructor
  · intro h c hc
    by_cases hmem : c.fieldId ∈ ids
    · exact .inr ((h c.fieldId hmem c hc).resolve_left (by simp))
    · exact .inl hmem
  · intro h i hi c hc
    by_cases hci : c.fieldId = i
    · rw [← hci] at hi ⊢
      exact .inr ((h c hc).resolve_left (by simpa using hi))
    · exact .inl hci

/-- The conditions as `saveRow` evaluates them. -/
def Row.selected (row : Row t) (conds : List (Condition t)) : Bool :=
  conds.all fun c => fieldMatched (row.str c.fieldId) c.comparator (t.type c.fieldId) c.value

theorem filterFields_entry {row : Row t} (hfits : row.Fits) (conds : List (Condition t)) :
    filterFields conds t.fieldIndexMapping row.keys row.shrunk =
      some (if row.selected conds then some (t.fieldIndexMapping.map row.str) else none) := by
  have h := filterFields_eq conds t.uniqFields hfits fun i _ => rfl
  have hall := all_conditionFilter t.fieldIndexMapping row.str conds
  simp only [t.mem_fieldIndexMapping, not_true, decide_false, Bool.false_or] at hall
  change filterFields conds t.fieldIndexMapping row.keys row.shrunk =
    some (if t.fieldIndexMapping.all (fun i => conditionFilter (row.str i) i conds) then _
      else _) at h
  rwa [hall] at h

theorem saveRow_entry {row : Row t} (hfits : row.Fits) (conds : List (Condition t)) :
    saveRow conds false row.rocksKey row.rocksValue =
      some (if row.selected conds then .row row else .unmatched) := by
  simp only [saveRow, row.decode_rocksKey, Option.bind_eq_bind, Option.bind_some,
    row.decodeBitmapKeys_rocksValue, filterFields_entry hfits, Bool.false_eq_true, if_false]
  by_cases h : row.selected conds = true
  · simp [h, rowValue_map_str]
  · simp [h]

theorem selectLoop_entries {rows : List (Row t)} (hfits : ∀ row ∈ rows, row.Fits)
    (conds : List (Condition t)) (preKey : Bytes) :
    selectLoop conds false preKey (rows.map Row.entry) =
      some ((rows.takeWhile fun row => keyMatched preKey row.rocksKey).filter
        fun row => row.selected conds, 0) := by
  induction rows with
  | nil => rfl
  | cons row rows ih =>
    have hrest := ih fun row' hrow' => hfits row' (mem_cons_of_mem row hrow')
    rw [map_cons, Row.entry, selectLoop]
    by_cases h : keyMatched preKey row.rocksKey = true
    · rw [if_pos h, saveRow_entry (hfits row mem_cons_self), hrest,
        takeWhile_cons_of_pos (by exact h)]
      by_cases hsel : row.selected conds = true
      · simp [hsel]
      · simp [hsel]
    · rw [if_neg h, takeWhile_cons_of_neg (by exact h)]
      rfl

theorem selectLoop_count {rows : List (Row t)} (conds : List (Condition t)) (preKey : Bytes) :
    selectLoop conds true preKey (rows.map Row.entry) =
      some ([], (rows.takeWhile fun row => keyMatched preKey row.rocksKey).length) := by
  induction rows with
  | nil => rfl
  | cons row rows ih =>
    rw [map_cons, Row.entry, selectLoop]
    by_cases h : keyMatched preKey row.rocksKey = true
    · have hsave : saveRow conds true row.rocksKey row.rocksValue = some .counted := by
        simp [saveRow, row.decode_rocksKey]
      rw [if_pos h, hsave, ih, takeWhile_cons_of_pos (by exact h)]
      rfl
    · rw [if_neg h, takeWhile_cons_of_neg (by exact h)]
      rfl

/-- With a String or Binary primary key, `process_select` returns the selected rows under it. -/
theorem Stores.processSelect_eq (ht : t.StringKey) (h : Stores db rows) (hkey : prefixKey key ≠ [])
    (conds : List (Condition t)) :
    processSelect db key conds false =
      some (.ok ((rows.filter fun row => row.Under key).filter fun row => row.selected conds, 0)) :=
        by
  rw [processSelect, if_neg hkey, h.seek, selectLoop_entries, h.scan_under ht]
  · rfl
  · intro row hrow
    exact h.fits row (mem_filter.mp hrow).1

theorem Stores.processSelect_count (ht : t.StringKey) (h : Stores db rows)
    (hkey : prefixKey key ≠ []) (conds : List (Condition t)) :
    processSelect db key conds true =
      some (.ok ([], (rows.filter fun row => row.Under key).length)) := by
  rw [processSelect, if_neg hkey, h.seek, selectLoop_count, h.scan_under ht]
  rfl

end ISearch.RocksProcess
