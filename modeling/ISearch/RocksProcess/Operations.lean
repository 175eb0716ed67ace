import ISearch.RocksProcess.Conditions

/-!
# The operations of an update

`update_row` keeps the fields as strings and applies the operations to the strings; an addition is
done in the type of its addend. What the strings denote is followed here, down to the entry that is
written for the updated row.
-/

namespace ISearch.RocksProcess

open KeyFormat List

variable {t : Table} {updateInfo : UpdateInfo t}

/-! ## Numbers as strings -/

theorem toStringU64_of_lt {u : UInt64} (h : u.toNat < 2 ^ 63) :
    toStringU64 u = toStringS64 u.toInt64 := by
  have hint : u.toInt64.toInt = Int.bmod u.toNat (2 ^ 64) :=
    u.toInt64.toBitVec.toInt_eq_toNat_bmod
  have hpos : u.toInt64.toInt = u.toNat := by
    rw [hint, Int.bmod_def]
    split <;> omega
  rw [toStringS64, if_neg (by omega), hpos, Int.natAbs_natCast, toStringU64]

theorem strtoull_toStringS64 (x : Int64) : strtoull (toStringS64 x) = x.toUInt64 := by
  have hint : x.toInt = Int.bmod x.toUInt64.toNat (2 ^ 64) := x.toBitVec.toInt_eq_toNat_bmod
  have hlt := x.toUInt64.toNat_lt
  rw [Int.bmod_def] at hint
  apply UInt64.toNat_inj.mp
  rw [toStringS64]
  split_ifs with h
  · rw [strtoull, strtonum_minus_decimal]
    simp only [if_true]
    rw [if_neg (by split at hint <;> omega), UInt64.toNat_ofNat']
    split at hint <;> omega
  · rw [strtoull, strtonum_decimal]
    simp only [Bool.false_eq_true, if_false]
    rw [if_neg (by split at hint <;> omega), UInt64.toNat_ofNat']
    split at hint <;> omega

theorem strtoll_nil : strtoll [] = 0 := by decide +kernel

theorem strtoull_nil : strtoull [] = 0 := by decide +kernel

/-- A string that `update_row` may hold for a value of a field. -/
def Denotes : (ty : FieldType) → Bytes → ty.Value → Prop
  | .signed, s, x => s = toStringS64 x ∨ s = [] ∧ x = (0 : Int64)
  | .unsigned, s, x =>
    s = toStringU64 x ∨ s = toStringS64 (UInt64.toInt64 x) ∨ s = [] ∧ x = (0 : UInt64)
  | .string, s, x | .binary, s, x => s = x

theorem Denotes.toStr (ty : FieldType) (x : ty.Value) : Denotes ty (ty.toStr x) x := by
  cases ty with
  | signed => exact .inl rfl
  | unsigned => exact .inl rfl
  | string => rfl
  | binary => rfl

theorem Denotes.nil (ty : FieldType) : Denotes ty [] (zeroValue ty) := by
  cases ty with
  | signed => exact .inr ⟨rfl, rfl⟩
  | unsigned => exact .inr (.inr ⟨rfl, rfl⟩)
  | string => rfl
  | binary => rfl

theorem strtoll_of_denotes {s : Bytes} {x : Int64} (h : Denotes .signed s x) : strtoll s = x := by
  rcases h with rfl | ⟨rfl, rfl⟩
  · exact strtoll_toStringS64 x
  · exact strtoll_nil

theorem strtoull_of_denotes {s : Bytes} {x : UInt64} (h : Denotes .unsigned s x) :
    strtoull s = x := by
  rcases h with rfl | rfl | ⟨rfl, rfl⟩
  · exact strtoull_toStringU64 x
  · exact strtoull_toStringS64 x.toInt64
  · exact strtoull_nil

theorem Denotes.str2Value {ty : FieldType} {s : Bytes} {x : ty.Value} (h : Denotes ty s x) :
    str2Value s ty = x := by
  cases ty with
  | signed => exact strtoll_of_denotes h
  | unsigned => exact strtoull_of_denotes h
  | string => exact h
  | binary => exact h

/-- The key of the entry depends on the value only. -/
theorem encodeField_str2Value (ty : FieldType) (s : Bytes) :
    encodeField (lowerKey ty s) ty = ty.enc (lowerValue ty (str2Value s ty)) := by
  cases ty with
  | signed =>
    have hx : FieldType.signed.enc (strtoll s) = encodeBytesS64 (strtoll s) :=
      congrArg encodeBytesS64 (strtoll_toStringS64 _)
    exact hx.symm
  | unsigned =>
    have hx : FieldType.unsigned.enc (strtoull s) = encodeBytesU64 (strtoull s) :=
      congrArg encodeBytesU64 (strtoull_toStringU64 _)
    exact hx.symm
  | string => rfl
  | binary => rfl

theorem convertKey_str2Value (ty : FieldType) (s : Bytes) :
    (convertKey ty s).2 = (convertKey ty (ty.toStr (str2Value s ty))).2 := by
  cases ty <;> rfl

theorem storeValue_str2Value (f : Field) (s : Bytes) :
    storeValue f s = storeValue f (f.type.toStr (str2Value s f.type)) := by
  obtain ⟨ty, size⟩ := f
  cases ty with
  | signed =>
    have hx : strtoll (FieldType.signed.toStr (strtoll s)) = strtoll s := strtoll_toStringS64 _
    simp only [storeValue, str2Value, hx]
  | unsigned =>
    have hx : strtoull (FieldType.unsigned.toStr (strtoull s)) = strtoull s :=
      strtoull_toStringU64 _
    simp only [storeValue, str2Value, hx]
  | string => rfl
  | binary => rfl

/-- The bits of an addend. -/
def bitsOf : (ty : FieldType) → ty.Value → UInt64
  | .signed, v => Int64.toUInt64 v
  | .unsigned, v => v
  | .string, _ | .binary, _ => 0

/-- The sum in the type of the field. -/
def addBits : (ty : FieldType) → ty.Value → UInt64 → ty.Value
  | .signed, x, b => (show Int64 from x) + b.toInt64
  | .unsigned, x, b => (show UInt64 from x) + b
  | .string, x, _ | .binary, x, _ => x

/-- The additions that are exact: in the type of the field, or in the other one where no string is
clamped. A String field takes no number. -/
def AddOk : (ty : FieldType) → ty.Value → (ty' : FieldType) → ty'.Value → Prop
  | .signed, x, .unsigned, v => (Int64.toUInt64 x + (show UInt64 from v)).toNat < 2 ^ 63
  | .unsigned, x, .signed, _ => UInt64.toNat x < 2 ^ 63
  | .string, _, .signed, _ | .string, _, .unsigned, _ => False
  | .binary, _, .signed, _ | .binary, _, .unsigned, _ => False
  | _, _, _, _ => True

theorem Denotes.add {ty ty' : FieldType} {s : Bytes} {x : ty.Value} {v : ty'.Value}
    (h : Denotes ty s x) (hok : AddOk ty x ty' v) :
    Denotes ty (valueAddToStr s ty' v) (addBits ty x (bitsOf ty' v)) := by
  cases ty with
  | signed =>
    have hzero : addBits .signed x 0 = x := Int64.add_zero x
    cases ty' with
    | signed => exact .inl (by rw [valueAddToStr, strtoll_of_denotes h]; rfl)
    | unsigned =>
      have hs : strtoull s = Int64.toUInt64 x := by
        rcases h with rfl | ⟨rfl, rfl⟩
        · exact strtoull_toStringS64 x
        · exact strtoull_nil
      left
      rw [valueAddToStr, hs]
      exact toStringU64_of_lt hok
    | string => exact hzero.symm ▸ h
    | binary => exact hzero.symm ▸ h
  | unsigned =>
    have hzero : addBits .unsigned x 0 = x := UInt64.add_zero x
    cases ty' with
    | signed =>
      have hs : strtoll s = UInt64.toInt64 x := by
        rcases h with rfl | rfl | ⟨rfl, rfl⟩
        · rw [toStringU64_of_lt hok]
          exact strtoll_toStringS64 _
        · exact strtoll_toStringS64 _
        · exact strtoll_nil
      right
      left
      rw [valueAddToStr, hs]
      rfl
    | unsigned => exact .inl (by rw [valueAddToStr, strtoull_of_denotes h]; rfl)
    | string => exact hzero.symm ▸ h
    | binary => exact hzero.symm ▸ h
  | string =>
    cases ty' with
    | signed => exact hok.elim
    | unsigned => exact hok.elim
    | string => exact h
    | binary => exact h
  | binary =>
    cases ty' with
    | signed => exact hok.elim
    | unsigned => exact hok.elim
    | string => exact h
    | binary => exact h

/-- What an operation makes of a value. -/
def Operation.apply {i : t.FieldId} : Operation t i → (t.type i).Value → (t.type i).Value
  | .set value, _ => value
  | .add type value, x => addBits (t.type i) x (bitsOf type value)
  | .unsupported, x => x

def Operation.Ok {i : t.FieldId} : Operation t i → (t.type i).Value → Prop
  | .add type value, x => AddOk (t.type i) x type value
  | _, _ => True

/-- The row after the operations. -/
def Row.update (row : Row t) : UpdateInfo t → Row t
  | [] => row
  | op :: ops => (row.set op.1 (op.2.apply (row op.1))).update ops

/-- Every addition on the way is exact. -/
def AddsOk : UpdateInfo t → Row t → Prop
  | [], _ => True
  | op :: ops, row => op.2.Ok (row op.1) ∧ AddsOk ops (row.set op.1 (op.2.apply (row op.1)))

/-- The strings of the fields after the operations, for the fields that matter. -/
theorem applyOperations_denotes {ids : List t.FieldId} {row : Row t} {strs : t.FieldId → Bytes}
    (hsup : supported updateInfo = true) (hids : ∀ op ∈ updateInfo, op.1 ∈ ids)
    (hadds : AddsOk updateInfo row) (h : ∀ i ∈ ids, Denotes (t.type i) (strs i) (row i)) :
    ∃ strs', applyOperations updateInfo strs = some strs' ∧
      ∀ i ∈ ids, Denotes (t.type i) (strs' i) (row.update updateInfo i) := by
  induction updateInfo generalizing row strs with
  | nil => exact ⟨strs, rfl, h⟩
  | cons op ops ih =>
    obtain ⟨i, op⟩ := op
    have hi : i ∈ ids := hids ⟨i, op⟩ mem_cons_self
    have hops : ∀ op ∈ ops, op.1 ∈ ids := fun op' hop' => hids op' (mem_cons_of_mem _ hop')
    have hset : ∀ {s : Bytes} {x : (t.type i).Value}, Denotes (t.type i) s x → ∀ j ∈ ids,
        Denotes (t.type j) (Function.update strs i s j) (row.set i x j) := by
      intro s x hs j hj
      by_cases hji : j = i
      · subst hji
        rwa [Function.update_self, Row.set_self]
      · rw [Function.update_of_ne hji, Row.set_of_ne row hji]
        exact h j hj
    cases op with
    | set value => exact ih hsup hops hadds.2 (hset (Denotes.toStr _ value))
    | add type value => exact ih hsup hops hadds.2 (hset ((h i hi).add hadds.1))
    | unsupported => simp [supported] at hsup

theorem update_of_notMem {row : Row t} {i : t.FieldId} (h : ∀ op ∈ updateInfo, op.1 ≠ i) :
    row.update updateInfo i = row i := by
  induction updateInfo generalizing row with
  | nil => rfl
  | cons op ops ih =>
    rw [Row.update, ih fun op' hop' => h op' (mem_cons_of_mem _ hop'),
      Row.set_of_ne row (h op mem_cons_self).symm]

/-- An updated field depends on the same field only. -/
theorem update_congr {row row' : Row t} {i : t.FieldId} (h : row i = row' i) :
    row.update updateInfo i = row'.update updateInfo i := by
  induction updateInfo generalizing row row' with
  | nil => exact h
  | cons op ops ih =>
    apply ih
    by_cases hi : i = op.1
    · subst hi
      rw [Row.set_self, Row.set_self, h]
    · rw [Row.set_of_ne row hi, Row.set_of_ne row' hi, h]

/-! ## The entry of the updated row -/

theorem encodeBitmapKeys_snd_congr {types : List FieldType} {keys keys' : List Bytes}
    (h : (List.zipWith convertKey types keys).map (·.2) =
      (List.zipWith convertKey types keys').map (·.2)) :
    (encodeBitmapKeys types keys).2 = (encodeBitmapKeys types keys').2 := by
  have hloc : ∀ l : List (Bytes × Option Bytes), l.map (·.2.isSome) =
    (l.map (·.2)).map (·.isSome) := by
    intro l
    rw [map_map]
    rfl
  have hcase : ∀ l : List (Bytes × Option Bytes), l.filterMap (·.2) =
    (l.map (·.2)).filterMap id := by
    intro l
    rw [filterMap_map]
    rfl
  rw [encodeBitmapKeys, encodeBitmapKeys]
  split
  · rfl
  · simp only [hloc, hcase, h]

theorem encode_lowerKey {ids : List t.FieldId} {row : Row t} {strs : t.FieldId → Bytes}
    (h : ∀ i ∈ ids, str2Value (strs i) (t.type i) = row i) :
    encode (List.zipWith lowerKey (ids.map t.type) (ids.map strs)) (ids.map t.type) =
      some (ids.flatMap fun i => (t.type i).enc (row.lower i)) := by
  induction ids with
  | nil => rfl
  | cons i ids ih =>
    simp only [map_cons, zipWith_cons_cons, encode, flatMap_cons,
      ih fun j hj => h j (mem_cons_of_mem i hj), encodeField_str2Value, h i mem_cons_self]
    rfl

/-- The key and the bitmaps that are written for strings of the key fields. -/
theorem encode_strs (row : Row t) (strs : t.FieldId → Bytes)
    (h : ∀ i ∈ t.uniqFields, str2Value (strs i) (t.type i) = row i) :
    encode (encodeBitmapKeys t.keyTypes (t.uniqFields.map strs)).1 t.keyTypes = some row.rocksKey ∧
      (encodeBitmapKeys t.keyTypes (t.uniqFields.map strs)).2 =
        (encodeBitmapKeys t.keyTypes row.keys).2 := by
  constructor
  · rw [encodeBitmapKeys_fst (by simp [Table.keyTypes])]
    exact encode_lowerKey h
  · apply encodeBitmapKeys_snd_congr
    simp only [Table.keyTypes, Row.keys, zipWith_map, zipWith_self, map_map]
    apply map_congr_left
    intro i hi
    exact (convertKey_str2Value _ _).trans (by rw [h i hi]; rfl)

theorem shrinkValue_congr {ids : List t.FieldId} {strs strs' : t.FieldId → Bytes}
    (h : ∀ i ∈ ids, storeValue (t.field i) (strs i) = storeValue (t.field i) (strs' i)) :
    shrinkValue (ids.map t.field) (ids.map strs) =
      shrinkValue (ids.map t.field) (ids.map strs') := by
  induction ids with
  | nil => rfl
  | cons i ids ih =>
    obtain ⟨hfirst, hrest⟩ := forall_mem_cons.mp h
    simp only [map_cons, shrinkValue, hfirst, ih hrest]

theorem shrinkValue_strs {ids : List t.FieldId} {row : Row t} {strs : t.FieldId → Bytes}
    (h : ∀ i ∈ ids, str2Value (strs i) (t.type i) = row i) :
    shrinkValue (ids.map t.field) (ids.map strs) =
      shrinkValue (ids.map t.field) (ids.map row.str) := by
  apply shrinkValue_congr
  intro i hi
  exact (storeValue_str2Value _ _).trans
    (congrArg (fun x => storeValue (t.field i) ((t.type i).toStr x)) (h i hi))

/-- The row that the operations start from: with a change of values, `split_values` has left out the
last field. -/
def Row.base (row : Row t) (updateInfo : UpdateInfo t) : Row t :=
  if updatesValue updateInfo then row.blankLast else row

/-- The row that `update_row` writes. -/
def Row.written (row : Row t) (updateInfo : UpdateInfo t) : Row t :=
  (row.base updateInfo).update updateInfo

theorem mem_uniqFields_of_not_updatesValue (h : updatesValue updateInfo = false) :
    ∀ op ∈ updateInfo, op.1 ∈ t.uniqFields := by
  intro op hop
  rw [updatesValue, any_eq_false] at h
  simpa using h op hop

theorem updatedEntry_written {row : Row t} {strs : t.FieldId → Bytes}
    (compoundKey bitmapKey : Bytes)
    (hkeys : ∀ i ∈ t.uniqFields, Denotes (t.type i) (strs i) (row.written updateInfo i))
    (hvalues : updatesValue updateInfo = true →
      ∀ i ∈ t.valueFields, Denotes (t.type i) (strs i) (row.written updateInfo i)) :
    updatedEntry true (updatesValue updateInfo) compoundKey bitmapKey row.shrunk strs =
      some (row.written updateInfo).entry := by
  have hshrunk : (if updatesValue updateInfo then
      shrinkValue (t.valueFields.map t.field) (t.valueFields.map strs) else row.shrunk) =
      (row.written updateInfo).shrunk := by
    cases hvalue : updatesValue updateInfo with
    | true => exact shrinkValue_strs fun i hi => (hvalues hvalue i hi).str2Value
    | false =>
      simp only [Bool.false_eq_true, if_false, Row.shrunk, Row.values]
      congr 1
      apply map_congr_left
      intro i hi
      have hnot : i ∉ t.uniqFields := by simpa [Table.valueFields] using hi
      have hbase : row.base updateInfo = row := by
        rw [Row.base, hvalue]
        exact if_neg Bool.false_ne_true
      rw [Row.str, Row.str, Row.written, hbase, update_of_notMem]
      rintro op hop rfl
      exact hnot (mem_uniqFields_of_not_updatesValue hvalue op hop)
  obtain ⟨hkey, hbitmap⟩ := encode_strs (row.written updateInfo) strs fun i hi =>
    (hkeys i hi).str2Value
  simp only [updatedEntry, hshrunk, hkey, hbitmap, if_true]
  rfl

theorem idxOf_fieldIndexMapping {i : t.FieldId} (hi : i ∈ t.uniqFields) (strs : t.FieldId → Bytes) :
    (t.uniqFields.map strs)[t.fieldIndexMapping.idxOf i]? = some (strs i) := by
  have hlt := idxOf_lt_length_of_mem hi
  rw [Table.fieldIndexMapping, idxOf_append_of_mem hi, List.getElem?_map,
    List.getElem?_eq_getElem hlt, getElem_idxOf hlt]
  rfl

theorem denotes_splitStr (row : Row t) (i : t.FieldId) :
    Denotes (t.type i) (row.splitStr i) (row.blankLast i) := by
  by_cases h : t.valueFields.getLast? = some i
  · rw [Row.splitStr, if_pos h, Row.blankLast, if_pos h]
    exact Denotes.nil _
  · rw [Row.splitStr, if_neg h, Row.blankLast, if_neg h]
    exact Denotes.toStr _ _

/-- The strings of a row before the operations, and after them. -/
theorem applyOperations_row {row : Row t} {values : List Bytes}
    (hvalues : values = if updatesValue updateInfo then
      (if t.valueFields = [] then [] else t.valueFields.dropLast.map row.str ++ [[]]) else [])
    (hsup : supported updateInfo = true) (hadds : AddsOk updateInfo (row.base updateInfo)) :
    ∃ strs, applyOperations updateInfo
        (fun i => (row.keys ++ values)[t.fieldIndexMapping.idxOf i]?.getD []) = some strs ∧
      (∀ i ∈ t.uniqFields, Denotes (t.type i) (strs i) (row.written updateInfo i)) ∧
      (updatesValue updateInfo = true →
        ∀ i ∈ t.valueFields, Denotes (t.type i) (strs i) (row.written updateInfo i)) := by
  cases hvalue : updatesValue updateInfo with
  | true =>
    have hbase : row.base updateInfo = row.blankLast := by
      rw [Row.base, hvalue]
      exact if_pos rfl
    rw [hvalue, if_pos rfl] at hvalues
    rw [hvalues, ← map_splitStr]
    have hden : ∀ i ∈ t.fieldIndexMapping, Denotes (t.type i)
        ((t.fieldIndexMapping.map row.splitStr)[t.fieldIndexMapping.idxOf i]?.getD [])
        (row.base updateInfo i) := by
      intro i _
      rw [getElem?_idxOf, hbase]
      exact denotes_splitStr row i
    obtain ⟨strs, happly, hstrs⟩ := applyOperations_denotes hsup
      (fun op _ => t.mem_fieldIndexMapping op.1) hadds hden
    exact ⟨strs, happly, fun i _ => hstrs i (t.mem_fieldIndexMapping i),
      fun _ i _ => hstrs i (t.mem_fieldIndexMapping i)⟩
  | false =>
    have hbase : row.base updateInfo = row := by
      rw [Row.base, hvalue]
      exact if_neg Bool.false_ne_true
    rw [hvalue, if_neg Bool.false_ne_true] at hvalues
    rw [hvalues, append_nil]
    have hden : ∀ i ∈ t.uniqFields, Denotes (t.type i)
        (row.keys[t.fieldIndexMapping.idxOf i]?.getD []) (row.base updateInfo i) := by
      intro i hi
      rw [Row.keys, idxOf_fieldIndexMapping hi, hbase]
      exact Denotes.toStr _ _
    obtain ⟨strs, happly, hstrs⟩ := applyOperations_denotes hsup
      (mem_uniqFields_of_not_updatesValue hvalue) hadds hden
    exact ⟨strs, happly, hstrs, fun h => absurd h Bool.false_ne_true⟩

/-- `update_row` with a change of the key. -/
theorem updateRow_key {row : Row t} {conds : List (Condition t)} (hfits : row.Fits)
    (hkey : updatesKey updateInfo = true)
    (hadds : row.passes conds = true → AddsOk updateInfo (row.base updateInfo)) :
    updateRow conds updateInfo row.rocksKey row.rocksValue =
      some (if row.passes conds then
        (if supported updateInfo then
          .row (row.written updateInfo).rocksKey (row.written updateInfo).rocksValue else .failed)
        else .unmatched) := by
  have hfilter := filterFields_tail hfits (fun i _ => rfl) conds
  have htail : row.keys.tail = t.uniqFields.tail.map row.str := by rw [Row.keys, ← map_tail]
  have hsplit := row.splitValues_shrunk hfits
  have hvalues : updateValues t (updatesValue updateInfo) row.shrunk =
      some (if updatesValue updateInfo then
        (if t.valueFields = [] then [] else t.valueFields.dropLast.map row.str ++ [[]])
          else []) := by
    rw [updateValues, hsplit]
    split <;> rfl
  simp only [updateRow, row.decode_rocksKey, hkey, row.decodeBitmapKeys_rocksValue, htail, hfilter,
    hvalues, Option.bind_eq_bind, Option.bind_some, if_true]
  by_cases hpass : row.passes conds = true
  · simp only [if_pos hpass]
    by_cases hsup : supported updateInfo = true
    · obtain ⟨strs, happly, hkeys, hvals⟩ := applyOperations_row rfl hsup (hadds hpass)
      simp only [happly, if_pos hsup, updatedEntry_written _ _ hkeys hvals]
      rfl
    · rw [if_neg hsup]
      rw [← isSome_applyOperations updateInfo (fun i => (row.keys ++
        (if updatesValue updateInfo then (if t.valueFields = [] then []
          else t.valueFields.dropLast.map row.str ++ [[]]) else []))[
            t.fieldIndexMapping.idxOf i]?.getD []), Bool.not_eq_true, Option.isSome_eq_false_iff,
        Option.isNone_iff_eq_none] at hsup
      rw [hsup]
      rfl
  · simp only [if_neg hpass]
    rfl

/-! ## The field that is left out -/

/-- The last value field is set, or there is nothing to lose. -/
def LastKept (updateInfo : UpdateInfo t) (row : Row t) : Prop :=
  updatesValue updateInfo = true → ∀ i, t.valueFields.getLast? = some i →
    (∃ value, ⟨i, .set value⟩ ∈ updateInfo) ∨ row i = zeroValue (t.type i)

theorem base_of_ne_last {row : Row t} {i : t.FieldId} (h : t.valueFields.getLast? ≠ some i) :
    row.base updateInfo i = row i := by
  rw [Row.base]
  split
  · rw [Row.blankLast, if_neg h]
  · rfl

theorem written_of_ne_last {row : Row t} {i : t.FieldId} (h : t.valueFields.getLast? ≠ some i) :
    row.written updateInfo i = row.update updateInfo i :=
  update_congr (base_of_ne_last h)

theorem getLast?_ne_of_mem_uniqFields {i : t.FieldId} (hi : i ∈ t.uniqFields) :
    t.valueFields.getLast? ≠ some i := by
  intro hlast
  have hmem := mem_of_getLast? hlast
  simp [Table.valueFields, hi] at hmem

theorem rocksKey_congr {row row' : Row t} (h : ∀ i ∈ t.uniqFields, row i = row' i) :
    row.rocksKey = row'.rocksKey := by
  rw [Row.rocksKey, Row.rocksKey]
  apply flatMap_congr
  intro i hi
  rw [Row.lower, Row.lower, h i hi]

/-- The key that is written is the key of the updated row. -/
theorem rocksKey_written (row : Row t) :
    (row.written updateInfo).rocksKey = (row.update updateInfo).rocksKey :=
  rocksKey_congr fun _ hi => written_of_ne_last (getLast?_ne_of_mem_uniqFields hi)

theorem keys_written (row : Row t) :
    (row.written updateInfo).keys = (row.update updateInfo).keys := by
  apply map_congr_left
  intro i hi
  rw [Row.str, written_of_ne_last (getLast?_ne_of_mem_uniqFields hi), Row.str]

theorem update_of_set {row row' : Row t} {i : t.FieldId}
    (h : ∃ value, ⟨i, .set value⟩ ∈ updateInfo) :
    row.update updateInfo i = row'.update updateInfo i := by
  obtain ⟨value, hmem⟩ := h
  induction updateInfo generalizing row row' with
  | nil => cases hmem
  | cons op ops ih =>
    rcases mem_cons.mp hmem with rfl | hmem
    · rw [Row.update, Row.update]
      exact update_congr (by rw [Row.set_self, Row.set_self]; rfl)
    · exact ih hmem

theorem written_eq_update {row : Row t} (h : LastKept updateInfo row) :
    row.written updateInfo = row.update updateInfo := by
  funext i
  by_cases hlast : t.valueFields.getLast? = some i
  · cases hvalue : updatesValue updateInfo with
    | false =>
      apply update_congr
      rw [Row.base, hvalue]
      rfl
    | true =>
      rcases h hvalue i hlast with hset | hzero
      · exact update_of_set hset
      · apply update_congr
        rw [Row.base, hvalue, if_pos rfl, Row.blankLast, if_pos hlast, hzero]
  · exact written_of_ne_last hlast

theorem addBits_zero (ty : FieldType) (x : ty.Value) : addBits ty x 0 = x := by
  cases ty with
  | signed => exact Int64.add_zero x
  | unsigned => exact UInt64.add_zero x
  | string => rfl
  | binary => rfl

theorem addBits_addBits (ty : FieldType) (x : ty.Value) (b b' : UInt64) :
    addBits ty (addBits ty x b) b' = addBits ty x (b + b') := by
  cases ty with
  | signed => exact Int64.add_assoc x b.toInt64 b'.toInt64
  | unsigned => exact UInt64.add_assoc x b b'
  | string => rfl
  | binary => rfl

/-- A field that is not set is added to. -/
theorem update_of_not_set {i : t.FieldId} (h : ¬ ∃ value, ⟨i, .set value⟩ ∈ updateInfo) :
    ∃ b, ∀ row : Row t, row.update updateInfo i = addBits (t.type i) (row i) b := by
  induction updateInfo with
  | nil => exact ⟨0, fun row => (addBits_zero _ _).symm⟩
  | cons op ops ih =>
    obtain ⟨b, hb⟩ := ih fun ⟨value, hmem⟩ => h ⟨value, mem_cons_of_mem _ hmem⟩
    obtain ⟨j, op⟩ := op
    by_cases hij : i = j
    · subst hij
      cases op with
      | set value => exact absurd ⟨value, mem_cons_self⟩ h
      | add type value =>
        refine ⟨bitsOf type value + b, fun row => ?_⟩
        rw [Row.update, hb, Row.set_self, ← addBits_addBits]
        rfl
      | unsupported =>
        refine ⟨b, fun row => ?_⟩
        rw [Row.update, hb, Row.set_self]
        rfl
    · refine ⟨b, fun row => ?_⟩
      rw [Row.update, hb, Row.set_of_ne row hij]

theorem leBytes_inj_mod {w m n : Nat} (h : leBytes w m = leBytes w n) :
    m % 256 ^ w = n % 256 ^ w := by
  rw [← ofLeBytes_leBytes, h, ofLeBytes_leBytes]

theorem eq_zero_of_store_signed {size : Nat} {x : Int64} {b : UInt64}
    (hfits : Field.Fits ⟨.signed, size⟩ x)
    (h : storeValue ⟨.signed, size⟩ (toStringS64 (x + b.toInt64)) =
      storeValue ⟨.signed, size⟩ (toStringS64 (0 + b.toInt64))) : x = 0 := by
  have hsum : ∀ y : Int64, (y + b.toInt64).toUInt64.toNat =
      (y.toUInt64.toNat + b.toNat) % 2 ^ 64 := fun y => UInt64.toNat_add _ _
  have hzero : (Int64.toUInt64 0).toNat = 0 := rfl
  simp only [storeValue, strtoll_toStringS64] at h
  have hmod := leBytes_inj_mod h
  rw [hsum, hsum, hzero] at hmod
  have hb := b.toNat_lt
  have hx := x.toUInt64.toNat_lt
  have hint : x.toInt = Int.bmod x.toUInt64.toNat (2 ^ 64) := x.toBitVec.toInt_eq_toNat_bmod
  rw [Int.bmod_def] at hint
  have hxz : x.toUInt64.toNat = 0 := by
    rcases Field.width_cases ⟨.signed, size⟩ with ⟨-, hw⟩ | ⟨hs, hw⟩
    · rw [hw] at hmod
      omega
    · have hrange : -2 ^ 31 ≤ x.toInt ∧ x.toInt < 2 ^ 31 := hfits.resolve_left hs
      rw [hw] at hmod
      split at hint <;> omega
  exact congrArg UInt64.toInt64 (UInt64.toNat_inj.mp (hxz.trans hzero.symm))

theorem eq_zero_of_store_unsigned {size : Nat} {x b : UInt64}
    (hfits : Field.Fits ⟨.unsigned, size⟩ x)
    (h : storeValue ⟨.unsigned, size⟩ (toStringU64 (x + b)) =
      storeValue ⟨.unsigned, size⟩ (toStringU64 (0 + b))) : x = 0 := by
  have hzero : UInt64.toNat 0 = 0 := rfl
  simp only [storeValue, strtoull_toStringU64] at h
  have hmod := leBytes_inj_mod h
  rw [UInt64.toNat_add, UInt64.toNat_add, hzero] at hmod
  have hb := b.toNat_lt
  have hx := x.toNat_lt
  have hxz : x.toNat = 0 := by
    rcases Field.width_cases ⟨.unsigned, size⟩ with ⟨-, hw⟩ | ⟨hs, hw⟩
    · rw [hw] at hmod
      omega
    · have hrange : x.toNat < 2 ^ 32 := hfits.resolve_left hs
      rw [hw] at hmod
      omega
  exact UInt64.toNat_inj.mp (hxz.trans hzero.symm)

/-- A sum is stored as if nothing was there only if nothing was there. -/
theorem eq_zero_of_storeValue {f : Field} {x : f.type.Value} {b : UInt64} (hfits : f.Fits x)
    (h : storeValue f (f.type.toStr (addBits f.type x b)) =
      storeValue f (f.type.toStr (addBits f.type (zeroValue f.type) b))) :
    x = zeroValue f.type := by
  obtain ⟨ty, size⟩ := f
  cases ty with
  | signed => exact eq_zero_of_store_signed hfits h
  | unsigned => exact eq_zero_of_store_unsigned hfits h
  | string =>
    have hlen := congrArg List.length h
    simp only [storeValue, length_append, length_leBytes] at hlen
    exact eq_nil_of_length_eq_zero (Nat.add_left_cancel hlen)
  | binary =>
    have hlen := congrArg List.length h
    simp only [storeValue, length_append, length_leBytes] at hlen
    exact eq_nil_of_length_eq_zero (Nat.add_left_cancel hlen)

theorem shrinkValue_append {ids ids' : List t.FieldId} (strs : t.FieldId → Bytes) :
    shrinkValue ((ids ++ ids').map t.field) ((ids ++ ids').map strs) =
      shrinkValue (ids.map t.field) (ids.map strs) ++
        shrinkValue (ids'.map t.field) (ids'.map strs) := by
  induction ids with
  | nil => rfl
  | cons i ids ih =>
    simp only [cons_append, map_cons, shrinkValue, ih, append_assoc]

/-- What is written is the updated row only if the last field is kept. -/
theorem lastKept_of_shrunk {row : Row t} (hfits : row.Fits)
    (h : (row.written updateInfo).shrunk = (row.update updateInfo).shrunk) :
    LastKept updateInfo row := by
  intro hvalue i hlast
  by_contra hnot
  obtain ⟨hset, hne⟩ := not_or.mp hnot
  obtain ⟨b, hb⟩ := update_of_not_set hset
  have hnil : t.valueFields ≠ [] := by
    intro hnil
    rw [hnil] at hlast
    cases hlast
  have hsplit := dropLast_append_getLast hnil
  have hi : t.valueFields.getLast hnil = i := by
    rw [List.getLast?_eq_getLast_of_ne_nil hnil] at hlast
    exact Option.some.inj hlast
  rw [hi] at hsplit
  have hnodup := t.nodup_fieldIndexMapping
  rw [Table.fieldIndexMapping, nodup_append] at hnodup
  have hvalues := hnodup.2.1
  rw [← hsplit, nodup_append] at hvalues
  have hinit : t.valueFields.dropLast.map (row.written updateInfo).str =
      t.valueFields.dropLast.map (row.update updateInfo).str := by
    apply map_congr_left
    intro j hj
    rw [Row.str, Row.str, written_of_ne_last]
    rw [hlast]
    rintro ⟨⟩
    exact hvalues.2.2 i hj i mem_cons_self rfl
  rw [Row.shrunk, Row.shrunk, Row.values, Row.values, ← hsplit, shrinkValue_append,
    shrinkValue_append, hinit] at h
  have hstore := append_cancel_left h
  simp only [map_cons, map_nil, shrinkValue, append_nil] at hstore
  have hbase : row.base updateInfo i = zeroValue (t.type i) := by
    rw [Row.base, hvalue, if_pos rfl, Row.blankLast, if_pos hlast]
  have hwritten : row.written updateInfo i = addBits (t.type i) (zeroValue (t.type i)) b := by
    rw [Row.written, hb, hbase]
  rw [Row.str, Row.str, hwritten, hb] at hstore
  exact hne (eq_zero_of_storeValue (hfits i (mem_of_getLast? hlast)) hstore.symm)

end ISearch.RocksProcess
