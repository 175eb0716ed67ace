import ISearch.RocksProcess.Scan
import Mathlib.Data.List.Perm.Basic

/-!
# Reading what was inserted

After a successful insert, a select for the same primary key returns the rows under this key with
the inserted one among them, provided the primary key is a String or a Binary and the values fit
their fields. An integer primary key is encoded as an integer in the key of an entry, but looked for
as the string of its digits.
-/

namespace ISearch.RocksProcess

open KeyFormat List

variable {t : Table} {db : Db} {rows : List (Row t)} {req : InsertRequest t}

/-! ## Insert -/

/-- The row with the default values. -/
def Table.defaultRow (t : Table) : Row t := fun i => (t.column i).defaultValue

/-- The row of an insert request. -/
def InsertRequest.row (req : InsertRequest t) : Row t :=
  req.operation.foldl (fun row op => if op.1 = 0 then row else row.set op.1 op.2)
    (t.defaultRow.set 0 req.key)

theorem foldl_filled (ops : List ((i : t.FieldId) × (t.type i).Value))
    {filled : t.FieldId → Option Bytes} {row : Row t} {strs : t.FieldId → Bytes}
    (h : ∀ i, (filled i).getD (strs i) = row.str i) (i : t.FieldId) :
    (ops.foldl (fun (filled : t.FieldId → Option Bytes) op => if op.1 = 0 then filled
        else Function.update filled op.1 (some ((t.type op.1).toStr op.2))) filled i).getD (strs i)
          =
      (ops.foldl (fun (row : Row t) op => if op.1 = 0 then row else row.set op.1 op.2) row).str
        i := by
  induction ops generalizing filled row with
  | nil => exact h i
  | cons op ops ih =>
    rw [foldl_cons, foldl_cons]
    apply ih
    intro j
    by_cases h0 : op.1 = 0
    · rw [if_pos h0, if_pos h0, h j]
    · rw [if_neg h0, if_neg h0]
      by_cases hj : j = op.1
      · subst hj
        simp [Row.str]
      · rw [Function.update_of_ne hj, h j, Row.str, Row.str, Row.set_of_ne _ hj]

theorem InsertRequest.str_eq (req : InsertRequest t) : req.str = req.row.str := by
  funext i
  apply foldl_filled
  intro j
  by_cases hj : j = 0
  · subst hj
    simp [Row.str]
  · rw [Function.update_of_ne hj, Row.str, Row.set_of_ne _ hj]
    rfl

theorem foldl_set_zero (ops : List ((i : t.FieldId) × (t.type i).Value)) (row : Row t) :
    ops.foldl (fun (row : Row t) op => if op.1 = 0 then row else row.set op.1 op.2) row 0 =
      row 0 := by
  induction ops generalizing row with
  | nil => rfl
  | cons op ops ih =>
    rw [foldl_cons, ih]
    by_cases h0 : op.1 = 0
    · rw [if_pos h0]
    · rw [if_neg h0, Row.set_of_ne _ (Ne.symm h0)]

theorem InsertRequest.row_zero (req : InsertRequest t) : req.row 0 = req.key := by
  rw [InsertRequest.row, foldl_set_zero, Row.set_self]

/-- What `process_insert` does. -/
theorem processInsert_eq (db : Db) (req : InsertRequest t) :
    processInsert db req = some (
      if req.row.str 0 = [] then .error .getPrimaryKey
      else if (db.get? req.row.rocksKey).isSome then .error .dupEntry
      else .ok (db.put req.row.rocksKey req.row.rocksValue)) := by
  have hentry : t.rocksEntry (t.uniqFields.map req.str) (t.valueFields.map req.str) =
      some req.row.entry := by
    rw [req.str_eq]
    exact req.row.rocksEntry_eq
  have hkey : req.row.str 0 = (t.type 0).toStr req.key := by rw [Row.str, req.row_zero]
  rw [processInsert, hkey, hentry]
  by_cases h : (t.type 0).toStr req.key = []
  · rw [if_pos h, if_pos h]
  · rw [if_neg h, if_neg h]
    by_cases hdup : (db.get? req.row.rocksKey).isSome
    · simp [Row.entry, hdup]
    · simp [Row.entry, hdup]

theorem processInsert_ok {db' : Db} (h : processInsert db req = some (.ok db')) :
    req.row.str 0 ≠ [] ∧ db.get? req.row.rocksKey = none ∧
      db' = db.put req.row.rocksKey req.row.rocksValue := by
  rw [processInsert_eq] at h
  by_cases h0 : req.row.str 0 = []
  · simp [h0] at h
  · rw [if_neg h0] at h
    by_cases hdup : (db.get? req.row.rocksKey).isSome
    · simp [hdup] at h
    · simp only [if_neg hdup, Option.some.injEq, Except.ok.injEq] at h
      exact ⟨h0, by simpa using hdup, h.symm⟩

/-- The rows after an insert. -/
def insertRow (row : Row t) (rows : List (Row t)) : List (Row t) :=
  rows.filter (fun row' => row'.rocksKey < row.rocksKey) ++
    row :: rows.filter fun row' => row.rocksKey < row'.rocksKey

theorem Stores.put {row : Row t} (h : Stores db rows) (hfits : row.Fits) (hkey : row.str 0 ≠ []) :
    Stores (db.put row.rocksKey row.rocksValue) (insertRow row rows) := by
  have hmem : ∀ row' ∈ insertRow row rows, row' = row ∨ row' ∈ rows := by
    intro row' hrow'
    rcases mem_append.mp hrow' with hrow' | hrow'
    · exact .inr (mem_filter.mp hrow').1
    · rcases mem_cons.mp hrow' with hrow' | hrow'
      · exact .inl hrow'
      · exact .inr (mem_filter.mp hrow').1
  constructor
  · simp only [SortedMap.put, h.entries, filter_map, insertRow, map_append, map_cons,
      Function.comp_def, Row.entry]
    congr <;> funext row' <;> exact decide_eq_decide.mpr Iff.rfl
  · intro row' hrow'
    rcases hmem row' hrow' with rfl | hrow'
    · exact hfits
    · exact h.fits row' hrow'
  · intro row' hrow'
    rcases hmem row' hrow' with rfl | hrow'
    · exact hkey
    · exact h.key_ne row' hrow'

theorem Stores.insertRow_perm {row : Row t} (h : Stores db rows)
    (hnew : db.get? row.rocksKey = none) : (insertRow row rows).Perm (row :: rows) := by
  have hne : ∀ row' ∈ rows, row'.rocksKey ≠ row.rocksKey := by
    intro row' hrow' heq
    apply SortedMap.get?_eq_none.mp hnew row'.rocksValue
    rw [h.entries, ← heq]
    exact mem_map_of_mem hrow'
  have hgt : rows.filter (fun row' => row.rocksKey < row'.rocksKey) =
      rows.filter fun row' => !decide (row'.rocksKey < row.rocksKey) := by
    apply filter_congr
    intro row' hrow'
    rw [← decide_not, decide_eq_decide, not_lt]
    exact ⟨le_of_lt, fun hle => lt_of_le_of_ne hle (hne row' hrow').symm⟩
  rw [insertRow, hgt]
  exact perm_middle.trans ((filter_append_perm _ rows).cons row)

/-! ## Values that do not fit -/

theorem toStr_str2Value_of_getValueById {f : Field} {valueHead value rest : Bytes}
    (h : getValueById f valueHead = some (value, rest)) :
    f.type.toStr (str2Value value f.type) = value := by
  obtain ⟨ty, size⟩ := f
  cases ty with
  | signed =>
    simp only [getValueById] at h
    split at h
    · obtain ⟨rfl, -⟩ := Prod.mk.inj (Option.some.inj h)
      exact congrArg toStringS64 (strtoll_toStringS64 _)
    · cases h
  | unsigned =>
    simp only [getValueById] at h
    split at h
    · obtain ⟨rfl, -⟩ := Prod.mk.inj (Option.some.inj h)
      exact congrArg toStringU64 (strtoull_toStringU64 _)
    · cases h
  | string => rfl
  | binary => rfl

theorem getValues_canonical {ids : List t.FieldId} {valueHead : Bytes} {values : List Bytes}
    (h : getValues (ids.map t.field) valueHead = some values) :
    List.Forall₂ (fun i value => (t.type i).toStr (str2Value value (t.type i)) = value)
      ids values := by
  induction ids generalizing valueHead values with
  | nil =>
    obtain rfl := Option.some.inj h
    exact .nil
  | cons i ids ih =>
    rw [map_cons, getValues] at h
    obtain ⟨⟨v, rest⟩, hv, h⟩ := Option.bind_eq_some_iff.mp h
    obtain ⟨vs, hvs, h⟩ := Option.bind_eq_some_iff.mp h
    obtain rfl := Option.some.inj h
    exact .cons (toStr_str2Value_of_getValueById hv) (ih hvs)

theorem filterFields_nil (kids vids : List t.FieldId) (strs : t.FieldId → Bytes)
    (valueHead : Bytes) :
    filterFields [] (kids ++ vids) (kids.map strs) valueHead =
      (getValues (vids.map t.field) valueHead).map fun values =>
        some (kids.map strs ++ values) := by
  induction kids with
  | nil =>
    induction vids generalizing valueHead with
    | nil => rfl
    | cons i vids ih =>
      have hcond : ∀ value, conditionFilter value i [] = true := fun _ => rfl
      simp only [nil_append, map_nil, map_cons, filterFields, getValues, hcond,
        if_true] at ih ⊢
      cases getValueById (t.field i) valueHead with
      | none => rfl
      | some r =>
        simp only [Option.bind_eq_bind, Option.bind_some, ih]
        cases getValues (vids.map t.field) r.2 <;> rfl
  | cons i kids ih =>
    have hcond : conditionFilter (strs i) i [] = true := rfl
    simp only [cons_append, map_cons, filterFields, hcond, if_true, ih]
    cases getValues (vids.map t.field) valueHead <;> rfl

/-- The row that `saveRow` reads from the entry of a row. -/
theorem saveRow_iff {row row' : Row t} :
    saveRow [] false row.rocksKey row.rocksValue = some (.row row') ↔
      row.keys = row'.keys ∧
        getValues (t.valueFields.map t.field) row.shrunk = some row'.values := by
  have hfilter := filterFields_nil t.uniqFields t.valueFields row.str row.shrunk
  change filterFields [] t.fieldIndexMapping row.keys row.shrunk = _ at hfilter
  simp only [saveRow, row.decode_rocksKey, Option.bind_eq_bind, Option.bind_some,
    row.decodeBitmapKeys_rocksValue, hfilter, Bool.false_eq_true, if_false]
  cases hvalues : getValues (t.valueFields.map t.field) row.shrunk with
  | none => simp
  | some values =>
    change some (Saved.row (rowValue (row.keys ++ values))) = _ ↔ _
    rw [Option.some.injEq, Saved.row.injEq, Option.some.injEq]
    constructor
    · intro hrow
      have hcanon := getValues_canonical hvalues
      constructor
      · apply map_congr_left
        intro i hi
        have hlt := idxOf_lt_length_of_mem hi
        have hfield := congrFun hrow i
        rw [rowValue, Table.fieldIndexMapping, idxOf_append_of_mem hi,
          List.getElem?_append_left (by simpa [Row.keys] using hlt), Row.keys, List.getElem?_map,
          List.getElem?_eq_getElem hlt, getElem_idxOf hlt] at hfield
        exact congrArg (t.type i).toStr ((str2Value_toStr _ _).symm.trans hfield)
      · have hlen := hcanon.length_eq
        apply ext_getElem (by rw [Row.values, length_map, hlen])
        intro n hn hn'
        have hi : n < t.valueFields.length := hlen ▸ hn
        have hidx : t.fieldIndexMapping.idxOf (t.valueFields[n]) = t.uniqFields.length + n := by
          have hget : t.fieldIndexMapping[t.uniqFields.length + n]? = some t.valueFields[n] := by
            rw [Table.fieldIndexMapping, List.getElem?_append_right (Nat.le_add_right _ _),
              Nat.add_sub_cancel_left, List.getElem?_eq_getElem hi]
          obtain ⟨hlt, hget⟩ := List.getElem?_eq_some_iff.mp hget
          rw [← hget]
          exact t.nodup_fieldIndexMapping.idxOf_getElem _ hlt
        have hfield := congrFun hrow t.valueFields[n]
        rw [rowValue, hidx, List.getElem?_append_right (by simp [Row.keys]), Row.keys,
          length_map, Nat.add_sub_cancel_left, List.getElem?_eq_getElem hn] at hfield
        have hc := List.Forall₂.get hcanon hi hn
        simp only [Row.values, getElem_map, Row.str]
        rw [← hfield]
        exact hc.symm
    · rintro ⟨hkeys, rfl⟩
      rw [hkeys, Row.keys, Row.values, ← map_append]
      exact rowValue_map_str row'

/-- A row that `saveRow` reads back has values that fit. -/
theorem fits_of_saveRow {row : Row t}
    (h : saveRow [] false row.rocksKey row.rocksValue = some (.row row)) : row.Fits :=
  row.getValues_shrunk.mp (saveRow_iff.mp h).2

theorem mem_selectLoop {preKey : Bytes} {es : List (Bytes × Bytes)} {res : List (Row t)} {n : Nat}
    {row : Row t} (h : selectLoop [] false preKey es = some (res, n)) (hrow : row ∈ res) :
    ∃ e ∈ es, saveRow [] false e.1 e.2 = some (.row row) := by
  induction es generalizing res n with
  | nil =>
    obtain ⟨rfl, -⟩ := Prod.mk.inj (Option.some.inj h)
    cases hrow
  | cons e es ih =>
    obtain ⟨fullKey, value⟩ := e
    rw [selectLoop] at h
    split at h
    · obtain ⟨saved, hsaved, h⟩ := Option.bind_eq_some_iff.mp h
      obtain ⟨⟨res', n'⟩, hrest, h⟩ := Option.bind_eq_some_iff.mp h
      have hcons : ∀ {l : List (Row t)}, row ∈ l → l = res' → _ := fun hl heq =>
        (ih hrest (heq ▸ hl)).imp fun e he => And.imp_left (mem_cons_of_mem (fullKey, value)) he
      cases saved with
      | counted =>
        obtain ⟨rfl, -⟩ := Prod.mk.inj (Option.some.inj h)
        exact hcons hrow rfl
      | unmatched =>
        obtain ⟨rfl, -⟩ := Prod.mk.inj (Option.some.inj h)
        exact hcons hrow rfl
      | row r =>
        obtain ⟨rfl, -⟩ := Prod.mk.inj (Option.some.inj h)
        rcases mem_cons.mp hrow with rfl | hrow
        · exact ⟨_, mem_cons_self, hsaved⟩
        · exact hcons hrow rfl
    · obtain ⟨rfl, -⟩ := Prod.mk.inj (Option.some.inj h)
      cases hrow

/-- After a successful insert, a select for the same primary key returns the rows that were stored
under it and the inserted row. -/
def ReadYourWrites (db : Db) (rows : List (Row t)) (req : InsertRequest t) : Prop :=
  ∀ db', processInsert db req = some (.ok db') →
    ∃ res, processSelect db' req.key [] false = some (.ok (res, 0)) ∧
      res.Perm (req.row :: rows.filter fun row => row.Under req.key)

theorem length_lowerKey (ty : FieldType) (s : Bytes) : (lowerKey ty s).length = s.length := by
  rw [lowerKey]
  split <;> simp [toLower]

theorem prefixKey_ne_nil (h : req.row.str 0 ≠ []) : prefixKey req.key ≠ [] := by
  rw [Row.str, req.row_zero, ← length_pos_iff, ← length_lowerKey (t.type 0)] at h
  exact length_pos_iff.mp h

theorem readYourWrites_of_fits (ht : t.StringKey) (h : Stores db rows) (hfits : req.row.Fits) :
    ReadYourWrites db rows req := by
  intro db' hinsert
  obtain ⟨hkey, hnew, rfl⟩ := processInsert_ok hinsert
  have hstores := h.put hfits hkey
  have hunder : req.row.Under req.key := by rw [Row.Under, req.row_zero]
  refine ⟨_, hstores.processSelect_eq ht (prefixKey_ne_nil hkey) [], ?_⟩
  have hperm := (h.insertRow_perm hnew).filter fun row => row.Under req.key
  rw [filter_cons_of_pos (by simpa using hunder)] at hperm
  simpa [Row.selected] using hperm

theorem fits_of_readYourWrites {db' : Db} (h : Stores db rows)
    (hinsert : processInsert db req = some (.ok db')) (hryw : ReadYourWrites db rows req) :
    req.row.Fits := by
  obtain ⟨res, hsel, hperm⟩ := hryw db' hinsert
  obtain ⟨hkey, hnew, rfl⟩ := processInsert_ok hinsert
  rw [processSelect, if_neg (prefixKey_ne_nil hkey)] at hsel
  obtain ⟨r, hloop, hr⟩ := Option.map_eq_some_iff.mp hsel
  obtain rfl := Except.ok.inj hr
  obtain ⟨e, he, hsave⟩ := mem_selectLoop hloop (hperm.mem_iff.mpr mem_cons_self)
  rcases SortedMap.mem_put.mp (mem_filter.mp he).1 with rfl | ⟨hne, he⟩
  · exact fits_of_saveRow hsave
  · -- an entry that was there before belongs to a row with another key
    rw [h.entries] at he
    obtain ⟨row, hrow, rfl⟩ := mem_map.mp he
    have hold := saveRow_entry (h.fits row hrow) []
    rw [if_pos (by rfl)] at hold
    have heq := Saved.row.inj (Option.some.inj (hold.symm.trans hsave))
    exact absurd (congrArg Row.rocksKey heq) hne

/-! ## Integer primary keys -/

def zeroValue : (ty : FieldType) → ty.Value
  | .signed => (0 : Int64)
  | .unsigned => (0 : UInt64)
  | .string | .binary => ([] : Bytes)

theorem fits_zeroValue (f : Field) : f.Fits (zeroValue f.type) := by
  obtain ⟨ty, size⟩ := f
  cases ty with
  | signed =>
    have h0 : (0 : Int64).toInt = 0 := rfl
    exact .inr (show -2 ^ 31 ≤ (0 : Int64).toInt ∧ (0 : Int64).toInt < 2 ^ 31 by rw [h0]; omega)
  | unsigned => exact .inr (show (0 : UInt64).toNat < 2 ^ 32 by decide)
  | string => exact (show ([] : Bytes).length < 2 ^ 31 by decide)
  | binary => exact (show ([] : Bytes).length < 2 ^ 31 by decide)

/-- A request that sets every field. -/
def zeroRequest (t : Table) : InsertRequest t where
  key := zeroValue (t.type 0)
  operation := (List.finRange (t.numFields + 1)).map fun i => ⟨i, zeroValue (t.type i)⟩

theorem foldl_set_eq {ids : List t.FieldId} (row : Row t) {row' : Row t} {i : t.FieldId}
    (hi : i ≠ 0) (h : i ∈ ids ∨ row' i = row i) :
    (ids.map fun i => (⟨i, row i⟩ : (i : t.FieldId) × (t.type i).Value)).foldl
      (fun (row : Row t) op => if op.1 = 0 then row else row.set op.1 op.2) row' i = row i := by
  induction ids generalizing row' with
  | nil => exact h.resolve_left (by simp)
  | cons j ids ih =>
    rw [map_cons, foldl_cons]
    apply ih
    by_cases hij : i = j
    · subst hij
      right
      rw [if_neg hi, Row.set_self]
    · rcases h with h | h
      · exact .inl ((mem_cons.mp h).resolve_left hij)
      · right
        split
        · exact h
        · rw [Row.set_of_ne _ hij, h]

theorem row_zeroRequest (t : Table) : (zeroRequest t).row = fun i => zeroValue (t.type i) := by
  funext i
  by_cases hi : i = 0
  · subst hi
    exact (zeroRequest t).row_zero
  · exact foldl_set_eq (fun i => zeroValue (t.type i)) hi (.inl (mem_finRange i))

/-- An integer key is encoded in bytes that its digits do not begin. -/
theorem not_keyMatched_zero (ht : ¬ t.StringKey) :
    keyMatched (encodePreKey (zeroValue (t.type 0))) (zeroRequest t).row.rocksKey = false := by
  obtain ⟨rest, hrest⟩ := (zeroRequest t).row.rocksKey_eq
  have hlower : (zeroRequest t).row.lower 0 = lowerValue (t.type 0) (zeroValue (t.type 0)) := by
    rw [Row.lower, row_zeroRequest]
  rw [hrest, hlower, encodePreKey, prefixKey]
  have hnot : t.type 0 ≠ .string ∧ t.type 0 ≠ .binary := not_or.mp ht
  generalize t.type 0 = ty at hnot
  have hdigits : encodeBytes [48] = [48, 0, 0, 0, 0, 0, 0, 121] := by decide +kernel
  cases ty with
  | signed =>
    have hstr : lowerKey .signed (FieldType.signed.toStr (zeroValue .signed)) = [48] := by
      decide +kernel
    have henc : FieldType.signed.enc (lowerValue .signed (zeroValue .signed)) =
        [128, 0, 0, 0, 0, 0, 0, 0] := by decide +kernel
    rw [hstr, hdigits, henc]
    rfl
  | unsigned =>
    have hstr : lowerKey .unsigned (FieldType.unsigned.toStr (zeroValue .unsigned)) = [48] := by
      decide +kernel
    have henc : FieldType.unsigned.enc (lowerValue .unsigned (zeroValue .unsigned)) =
        [0, 0, 0, 0, 0, 0, 0, 0] := by decide +kernel
    rw [hstr, hdigits, henc]
    rfl
  | string => exact absurd rfl hnot.1
  | binary => exact absurd rfl hnot.2

theorem str_zeroRequest_ne (ht : ¬ t.StringKey) : (zeroRequest t).row.str 0 ≠ [] := by
  have hnot : t.type 0 ≠ .string ∧ t.type 0 ≠ .binary := not_or.mp ht
  rw [Row.str, row_zeroRequest]
  dsimp only
  generalize t.type 0 = ty at hnot
  cases ty with
  | signed => decide +kernel
  | unsigned => decide +kernel
  | string => exact absurd rfl hnot.1
  | binary => exact absurd rfl hnot.2

theorem not_readYourWrites_zeroRequest (ht : ¬ t.StringKey) :
    ¬ ReadYourWrites SortedMap.empty [] (zeroRequest t) := by
  intro h
  have hinsert : processInsert SortedMap.empty (zeroRequest t) = some (.ok
      (SortedMap.empty.put (zeroRequest t).row.rocksKey (zeroRequest t).row.rocksValue)) := by
    rw [processInsert_eq, if_neg (str_zeroRequest_ne ht)]
    rfl
  obtain ⟨res, hsel, hperm⟩ := h _ hinsert
  rw [processSelect, if_neg (prefixKey_ne_nil (str_zeroRequest_ne ht))] at hsel
  have hloop : ∀ es : List (Bytes × Bytes), es <+: [(zeroRequest t).row.entry] →
      selectLoop (t := t) [] false (encodePreKey (zeroRequest t).key) es = some ([], 0) := by
    intro es hes
    cases es with
    | nil => rfl
    | cons e es =>
      obtain ⟨rfl, -⟩ := cons_prefix_cons.mp hes
      rw [Row.entry, selectLoop, if_neg]
      rw [Bool.not_eq_true]
      exact not_keyMatched_zero ht
  rw [hloop] at hsel
  · obtain ⟨rfl, -⟩ := Prod.mk.inj (Except.ok.inj (Option.some.inj hsel))
    exact cons_ne_nil _ _ (nil_perm.mp hperm)
  · simp only [SortedMap.seek, SortedMap.put, SortedMap.empty, filter_nil, nil_append,
      filter_cons]
    split
    · exact prefix_rfl
    · exact nil_prefix

/-- What is inserted under a String or Binary primary key is read back exactly if its values fit
their fields, and only tables with such a key read back every row whose values fit. -/
theorem readYourWrites_iff (t : Table) :
    (t.StringKey → ∀ (db : Db) (rows : List (Row t)), Stores db rows → ∀ req db',
      processInsert db req = some (.ok db') → (ReadYourWrites db rows req ↔ req.row.Fits)) ∧
    ((∀ (db : Db) (rows : List (Row t)), Stores db rows → ∀ req, req.row.Fits →
      ReadYourWrites db rows req) ↔ t.StringKey) := by
  refine ⟨?_, ?_, ?_⟩
  · intro ht db rows h req db' hinsert
    exact ⟨fits_of_readYourWrites h hinsert, readYourWrites_of_fits ht h⟩
  · intro h
    by_contra ht
    refine not_readYourWrites_zeroRequest ht (h _ _ .empty _ ?_)
    intro i _
    rw [row_zeroRequest]
    exact fits_zeroValue (t.field i)
  · intro ht db rows h req hfits
    exact readYourWrites_of_fits ht h hfits

attribute [local instance (2000)] Table.neZero_two in
/-- A String primary key and a value in four bytes. -/
def stringKeyTable : Table where
  numFields := 1
  column i := if i = 0 then ⟨⟨.string, 32⟩, ([] : Bytes)⟩ else ⟨⟨.signed, 4⟩, (0 : Int64)⟩
  uniqFields := [0]
  head_uniqFields := Table.head?_first_two
  nodup_uniqFields := Table.nodup_first_two

/-- The row `("Ab", -5)`. -/
def stringKeyRequest : InsertRequest stringKeyTable where
  key := ([65, 98] : Bytes)
  operation := [⟨1, (-5 : Int64)⟩]

theorem stringKeyRequest_read :
    (∃ db', processInsert SortedMap.empty stringKeyRequest = some (.ok db')) ∧
      ReadYourWrites SortedMap.empty [] stringKeyRequest := by
  have hne : stringKeyRequest.row.str 0 ≠ [] := by
    rw [Row.str, stringKeyRequest.row_zero]
    decide
  have hinsert : processInsert SortedMap.empty stringKeyRequest =
      some (.ok (SortedMap.empty.put stringKeyRequest.row.rocksKey
        stringKeyRequest.row.rocksValue)) := by
    rw [processInsert_eq, if_neg hne]
    rfl
  refine ⟨⟨_, hinsert⟩, ((readYourWrites_iff stringKeyTable).1 (.inl rfl) SortedMap.empty []
    .empty _ _ hinsert).mpr ?_⟩
  intro i hi
  have hvalue : i = 1 := by
    have hfields : stringKeyTable.valueFields = [1] := by decide
    simpa [hfields] using hi
  subst hvalue
  exact .inr (show -2 ^ 31 ≤ (-5 : Int64).toInt ∧ (-5 : Int64).toInt < 2 ^ 31 by decide)

/-- An Unsigned primary key and nothing else. -/
def unsignedKeyTable : Table where
  numFields := 0
  column _ := ⟨⟨.unsigned, 8⟩, (0 : UInt64)⟩
  uniqFields := [0]
  head_uniqFields := rfl
  nodup_uniqFields := by simp

/-- The key `0` is inserted, and not found. -/
theorem unsignedKey_not_read :
    Stores SortedMap.empty ([] : List (Row unsignedKeyTable)) ∧
      (zeroRequest unsignedKeyTable).row.Fits ∧
      ¬ ReadYourWrites SortedMap.empty [] (zeroRequest unsignedKeyTable) := by
  refine ⟨.empty, ?_, not_readYourWrites_zeroRequest (by simp [Table.StringKey]; decide)⟩
  intro i hi
  rw [row_zeroRequest]
  exact fits_zeroValue _

end ISearch.RocksProcess
