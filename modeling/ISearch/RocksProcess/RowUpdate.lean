import ISearch.RocksProcess.Replace

/-!
# What an update changes (`db_process_rocks.cc`)

The entry that `update_row` writes is followed field by field. An addition is done on decimal
strings, where `strtoll` clamps a number that is out of its range; the last value field is left out
of a change of values.
-/

namespace ISearch.RocksProcess

open KeyFormat List
open UInt64 (ofInt toNat_ofNat')

variable {t : Table} {ops : UpdateInfo t} {row : Row t}

/-- `strtoll` and `strtoull` find the number in the string. -/
structure SpellsInt (s : Bytes) (n : Int) : Prop where
  signed : strtoll s = Int64.ofIntClamp n
  unsigned : strtoull s = ofInt n

theorem spellsInt_nil : SpellsInt [] 0 := ⟨by decide +kernel, by decide +kernel⟩

theorem spellsInt_toStringS64 (x : Int64) : SpellsInt (toStringS64 x) x.toInt where
  signed := by rw [strtoll_toStringS64, Int64.ofIntClamp_toInt]
  unsigned := by
    have hint : x.toInt = Int.bmod x.toUInt64.toNat (2 ^ 64) := x.toBitVec.toInt_eq_toNat_bmod
    have hlt := x.toUInt64.toNat_lt
    rw [Int.bmod_def] at hint
    rw [strtoull_toStringS64, ofInt, ← UInt64.toNat_inj, toNat_ofNat']
    split at hint <;> omega

theorem ofIntClamp_of_le {n : Nat} (h : 2 ^ 63 ≤ n) : Int64.ofIntClamp n = Int64.maxValue := by
  have hmin : Int64.minValue.toInt = -2 ^ 63 := by decide +kernel
  have hmax : Int64.maxValue.toInt = 2 ^ 63 - 1 := by decide +kernel
  have hlow : Int64.minValue.toInt ≤ n := by
    rw [hmin]
    omega
  have hhigh : ¬ (n : Int) ≤ Int64.maxValue.toInt := by
    rw [hmax]
    omega
  rw [Int64.ofIntClamp, dif_pos hlow, dif_neg hhigh]

theorem spellsInt_toStringU64 (u : UInt64) : SpellsInt (toStringU64 u) u.toNat where
  signed := by
    by_cases h : 2 ^ 63 ≤ u.toNat
    · have hmax : UInt64.toInt64 (2 ^ 63 - 1) = Int64.maxValue := by decide +kernel
      have hclamped := strtoll_toStringU64 u
      rw [if_pos h] at hclamped
      rw [ofIntClamp_of_le h, ← hmax, ← hclamped, Int64.toInt64_toUInt64]
    · have hlt : u.toNat < 2 ^ 63 := Nat.lt_of_not_le h
      have hint : u.toInt64.toInt = Int.bmod u.toNat (2 ^ 64) :=
        u.toInt64.toBitVec.toInt_eq_toNat_bmod
      have heq : u.toInt64.toInt = u.toNat := by
        rw [hint, Int.bmod_def]
        split <;> omega
      rw [toStringU64_of_lt hlt, strtoll_toStringS64, ← heq, Int64.ofIntClamp_toInt]
  unsigned := by
    have hlt := u.toNat_lt
    rw [strtoull_toStringU64, ofInt, ← UInt64.toNat_inj, toNat_ofNat']
    omega

/-- The number of a value. -/
def numberOf : (ty : FieldType) → ty.Value → Int
  | .signed, x => Int64.toInt x
  | .unsigned, x => UInt64.toNat x
  | .string, _ | .binary, _ => 0

/-- The bits of what a field of the type reads. -/
def readNumber : FieldType → Int → UInt64
  | .signed, n => (Int64.ofIntClamp n).toUInt64
  | .unsigned, n => ofInt n
  | .string, _ | .binary, _ => 0

theorem spellsInt_toStr {ty : FieldType} (hty : IntegerType ty) (x : ty.Value) :
    SpellsInt (ty.toStr x) (numberOf ty x) := by
  rcases hty with rfl | rfl
  · exact spellsInt_toStringS64 x
  · exact spellsInt_toStringU64 x

theorem SpellsInt.read {ty : FieldType} (hty : IntegerType ty) {s : Bytes} {n : Int}
    (h : SpellsInt s n) : bitsOf ty (str2Value s ty) = readNumber ty n := by
  rcases hty with rfl | rfl
  · exact congrArg Int64.toUInt64 h.signed
  · exact h.unsigned

/-! ## One field -/

/-- What an operation makes of the string of its field. -/
def Operation.str {i : t.FieldId} : Operation t i → Bytes → Bytes
  | .set value, _ => (t.type i).toStr value
  | .add type value, s => valueAddToStr s type value
  | .unsupported, s => s

/-- What an operation makes of the number that the string spells: the sum is one in the type of the
addend. -/
def Operation.number {i : t.FieldId} : Operation t i → Int → Int
  | .set value, _ => numberOf (t.type i) value
  | .add .signed value, n => (Int64.ofIntClamp n + (show Int64 from value)).toInt
  | .add .unsigned value, n => (ofInt n + (show UInt64 from value)).toNat
  | .add _ _, n | .unsupported, n => n

def fieldStr (i : t.FieldId) : UpdateInfo t → Bytes → Bytes
  | [], s => s
  | op :: ops, s => fieldStr i ops (if op.1 = i then op.2.str s else s)

def fieldNumber (i : t.FieldId) : UpdateInfo t → Int → Int
  | [], n => n
  | op :: ops, n => fieldNumber i ops (if op.1 = i then op.2.number n else n)

theorem applyOperations_eq (hops : ∀ op ∈ ops, SetOrAdd op) (strs : t.FieldId → Bytes) :
    applyOperations ops strs = some fun i => fieldStr i ops (strs i) := by
  induction ops generalizing strs with
  | nil => rfl
  | cons op ops ih =>
    obtain ⟨hop, hrest⟩ := forall_mem_cons.mp hops
    obtain ⟨j, op⟩ := op
    have hstrs : ∀ s : Bytes, s = op.str (strs j) → applyOperations ops (Function.update strs j s) =
        some fun i => fieldStr i (⟨j, op⟩ :: ops) (strs i) := by
      rintro s rfl
      rw [ih hrest]
      congr 1
      funext i
      rw [fieldStr]
      by_cases hij : j = i
      · subst hij
        rw [Function.update_self, if_pos rfl]
      · rw [Function.update_of_ne (Ne.symm hij), if_neg hij]
    cases op with
    | set value => exact hstrs _ rfl
    | add type value => exact hstrs _ rfl
    | unsupported => exact hop.elim

theorem SpellsInt.op {i : t.FieldId} {op : Operation t i} (hop : SetOrAdd ⟨i, op⟩)
    (hty : IntegerType (t.type i)) {s : Bytes} {n : Int} (h : SpellsInt s n) :
    SpellsInt (op.str s) (op.number n) := by
  cases op with
  | set value => exact spellsInt_toStr hty value
  | add type value =>
    rcases hop.2 with rfl | rfl
    · rw [Operation.number, ← h.signed]
      exact spellsInt_toStringS64 _
    · rw [Operation.number, ← h.unsigned]
      exact spellsInt_toStringU64 _
  | unsupported => exact hop.elim

theorem spellsInt_fieldStr {i : t.FieldId} (hops : ∀ op ∈ ops, SetOrAdd op)
    (hty : IntegerType (t.type i)) {s : Bytes} {n : Int} (h : SpellsInt s n) :
    SpellsInt (fieldStr i ops s) (fieldNumber i ops n) := by
  induction ops generalizing s n with
  | nil => exact h
  | cons op ops ih =>
    obtain ⟨hop, hrest⟩ := forall_mem_cons.mp hops
    obtain ⟨j, op⟩ := op
    rw [fieldStr, fieldNumber]
    by_cases hij : j = i
    · subst hij
      rw [if_pos rfl, if_pos rfl]
      exact ih hrest (h.op hop hty)
    · rw [if_neg hij, if_neg hij]
      exact ih hrest h

theorem fieldStr_of_notMem {i : t.FieldId} (h : ∀ op ∈ ops, op.1 ≠ i) (s : Bytes) :
    fieldStr i ops s = s := by
  induction ops with
  | nil => rfl
  | cons op ops ih =>
    obtain ⟨hop, hrest⟩ := forall_mem_cons.mp h
    rw [fieldStr, if_neg hop, ih hrest]

/-- The last `Set` decides what a text field is. -/
theorem fieldStr_text {i : t.FieldId} (hops : ∀ op ∈ ops, SetOrAdd op)
    (hty : ¬ IntegerType (t.type i)) (row : Row t) :
    fieldStr i ops (row.str i) = (row.update ops).str i := by
  induction ops generalizing row with
  | nil => rfl
  | cons op ops ih =>
    obtain ⟨hop, hrest⟩ := forall_mem_cons.mp hops
    obtain ⟨j, op⟩ := op
    rw [fieldStr, Row.update, ← ih hrest]
    congr 1
    by_cases hij : j = i
    · subst hij
      rw [if_pos rfl]
      cases op with
      | set value => exact congrArg (t.type j).toStr (row.set_self j value).symm
      | add type value => exact absurd hop.1 hty
      | unsupported => exact hop.elim
    · rw [if_neg hij, Row.str, Row.str, Row.set_of_ne row (Ne.symm hij)]

/-- A text field is named by a `Set` only. -/
theorem notMem_of_text {i : t.FieldId} (hops : ∀ op ∈ ops, SetOrAdd op)
    (hty : ¬ IntegerType (t.type i)) (hset : ¬ ∃ value, ⟨i, .set value⟩ ∈ ops) :
    ∀ op ∈ ops, op.1 ≠ i := by
  rintro ⟨j, op⟩ hop rfl
  cases op with
  | set value => exact hset ⟨value, hop⟩
  | add type value => exact hty (hops _ hop).1
  | unsupported => exact hops _ hop

theorem fieldStr_of_set {i : t.FieldId} (h : ∃ value, ⟨i, .set value⟩ ∈ ops) (s s' : Bytes) :
    fieldStr i ops s = fieldStr i ops s' := by
  obtain ⟨value, hmem⟩ := h
  induction ops generalizing s s' with
  | nil => cases hmem
  | cons op ops ih =>
    rcases mem_cons.mp hmem with rfl | hmem
    · rw [fieldStr, fieldStr, if_pos rfl, if_pos rfl]
      rfl
    · exact ih _ _ hmem

/-! ## The entry that is written -/

/-- The string of a field before the operations. -/
def Row.baseStr (row : Row t) (ops : UpdateInfo t) (i : t.FieldId) : Bytes :=
  if updatesValue ops then row.splitStr i else row.str i

/-- The row that the strings of the fields spell after the operations. -/
def Row.outcome (row : Row t) (ops : UpdateInfo t) : Row t :=
  rowOf fun i => fieldStr i ops (row.baseStr ops i)

/-- The row that the conditions are tested on. -/
def Row.seen (row : Row t) (ops : UpdateInfo t) : Row t :=
  if updatesKey ops then row else row.keyLower

theorem baseStr_of_ne_last {i : t.FieldId} (h : t.valueFields.getLast? ≠ some i) :
    row.baseStr ops i = row.str i := by
  rw [Row.baseStr, Row.splitStr, if_neg h, ite_self]

theorem outcome_of_notMem {i : t.FieldId} (hlast : t.valueFields.getLast? ≠ some i)
    (h : ∀ op ∈ ops, op.1 ≠ i) : row.outcome ops i = row i := by
  rw [Row.outcome, rowOf, fieldStr_of_notMem h, baseStr_of_ne_last hlast]
  exact str2Value_toStr _ _

theorem outcome_key (hkey : updatesKey ops = false) {i : t.FieldId} (hi : i ∈ t.uniqFields) :
    row.outcome ops i = row i := by
  apply outcome_of_notMem (getLast?_ne_of_mem_uniqFields hi)
  rintro op hop rfl
  rw [updatesKey, any_eq_false] at hkey
  exact hkey op hop (decide_eq_true hi)

theorem outcome_value (hvalue : updatesValue ops = false) {i : t.FieldId}
    (hi : i ∈ t.valueFields) : row.outcome ops i = row i := by
  have hnot : i ∉ t.uniqFields := by simpa [Table.valueFields] using hi
  have hne : ∀ op ∈ ops, op.1 ≠ i := by
    rintro op hop rfl
    exact hnot (mem_uniqFields_of_not_updatesValue hvalue op hop)
  rw [Row.outcome, rowOf, fieldStr_of_notMem hne, Row.baseStr, hvalue]
  exact str2Value_toStr _ _

theorem idxOf_valueField {i : t.FieldId} (hi : i ∈ t.valueFields) {keys : List Bytes}
    (hlen : keys.length = t.uniqFields.length) (strs : t.FieldId → Bytes) :
    (keys ++ t.valueFields.map strs)[t.fieldIndexMapping.idxOf i]? = some (strs i) := by
  have hnot : i ∉ t.uniqFields := by simpa [Table.valueFields] using hi
  have hlt := idxOf_lt_length_of_mem hi
  rw [Table.fieldIndexMapping, idxOf_append_of_notMem hnot,
    List.getElem?_append_right (by omega), hlen, Nat.add_sub_cancel_left, List.getElem?_map,
    List.getElem?_eq_getElem hlt, getElem_idxOf hlt]
  rfl

theorem idxOf_keyField {i : t.FieldId} (hi : i ∈ t.uniqFields) (strs : t.FieldId → Bytes)
    (values : List Bytes) :
    (t.uniqFields.map strs ++ values)[t.fieldIndexMapping.idxOf i]? = some (strs i) := by
  have hlt : t.fieldIndexMapping.idxOf i < (t.uniqFields.map strs).length := by
    rw [Table.fieldIndexMapping, idxOf_append_of_mem hi, length_map]
    exact idxOf_lt_length_of_mem hi
  rw [List.getElem?_append_left hlt]
  exact idxOf_fieldIndexMapping hi strs

theorem updateValues_shrunk (ops : UpdateInfo t) (hfits : row.Fits) :
    updateValues t (updatesValue ops) row.shrunk =
    some (if updatesValue ops then t.valueFields.map row.splitStr else []) := by
  have hsplit := row.splitValues_shrunk hfits
  have hmap := map_splitStr row
  rw [Table.fieldIndexMapping, map_append] at hmap
  obtain ⟨-, hvalues⟩ := append_inj hmap (by simp [Row.keys])
  rw [updateValues, hsplit, hvalues]
  split <;> rfl

/-- What `update_row` makes of the strings. -/
theorem updatedEntry_outcome (row : Row t) (ops : UpdateInfo t) {keys : List Bytes}
    (hlen : keys.length = t.uniqFields.length)
    (hkeys : updatesKey ops = true → keys = row.keys) {strs : t.FieldId → Bytes}
    (hstrs : strs = fun i => fieldStr i ops ((keys ++
      if updatesValue ops then t.valueFields.map row.splitStr else [])[
        t.fieldIndexMapping.idxOf i]?.getD [])) :
    updatedEntry (updatesKey ops) (updatesValue ops) row.rocksKey
      (encodeBitmapKeys t.keyTypes row.keys).2 row.shrunk strs = some (row.outcome ops).entry := by
  have hshrunk : (if updatesValue ops then
      shrinkValue (t.valueFields.map t.field) (t.valueFields.map strs) else row.shrunk) =
      (row.outcome ops).shrunk := by
    cases hvalue : updatesValue ops with
    | true =>
      apply shrinkValue_strs
      intro i hi
      rw [hstrs, hvalue]
      simp only [if_true, idxOf_valueField hi hlen, Option.getD_some]
      rw [Row.outcome, rowOf, Row.baseStr, hvalue, if_pos rfl]
    | false =>
      simp only [Bool.false_eq_true, if_false, Row.shrunk, Row.values]
      congr 1
      apply map_congr_left
      intro i hi
      rw [Row.str, Row.str, outcome_value hvalue hi]
  simp only [updatedEntry, hshrunk]
  cases hkey : updatesKey ops with
  | true =>
    obtain ⟨hrocksKey, hbitmap⟩ := encode_strs (row.outcome ops) strs fun i hi => by
      rw [hstrs, hkeys hkey, Row.keys]
      simp only [idxOf_keyField hi, Option.getD_some]
      rw [Row.outcome, rowOf, baseStr_of_ne_last (getLast?_ne_of_mem_uniqFields hi)]
    simp only [if_true, hrocksKey, hbitmap]
    rfl
  | false =>
    have hrocksKey : (row.outcome ops).rocksKey = row.rocksKey :=
      rocksKey_congr fun _ hi => outcome_key hkey hi
    have hkeys : (row.outcome ops).keys = row.keys := by
      apply map_congr_left
      intro i hi
      rw [Row.str, Row.str, outcome_key hkey hi]
    rw [Row.entry, Row.rocksValue, hrocksKey, hkeys]
    rfl

/-- The entry that `update_row` writes for a row that meets the conditions. -/
theorem updateRow_eq (hfits : row.Fits) (hops : ∀ op ∈ ops, SetOrAdd op)
    (conds : List (Condition t)) :
    updateRow conds ops row.rocksKey row.rocksValue =
      some (if (row.seen ops).passes conds then
        .row (row.outcome ops).rocksKey (row.outcome ops).rocksValue else .unmatched) := by
  have hvalues := updateValues_shrunk ops hfits
  have htake : row.rocksValue.take (row.rocksValue.length - row.shrunk.length) =
      (encodeBitmapKeys t.keyTypes row.keys).2 := by
    rw [Row.rocksValue, length_append, Nat.add_sub_cancel, take_left' rfl]
  have htail : (if updatesKey ops then row.keys else row.lower.keys).tail =
      t.uniqFields.tail.map (row.seen ops).str := by
    rw [Row.seen]
    split
    · rw [Row.keys, ← map_tail]
    · exact lower_keys_tail row
  have hseen : ∀ i ∈ t.valueFields, row.seen ops i = row i := by
    intro i hi
    rw [Row.seen]
    split
    · rfl
    · exact keyLower_of_mem_valueFields row hi
  have hfilter := filterFields_tail hfits hseen conds
  have hlen : (if updatesKey ops then row.keys else row.lower.keys).length =
      t.uniqFields.length := by
    split <;> simp [Row.keys]
  have hentry := updatedEntry_outcome row ops hlen (fun h => if_pos h) rfl
  cases hkey : updatesKey ops with
  | true =>
    simp only [hkey, if_true] at htail hentry
    simp only [updateRow, row.decode_rocksKey, hkey, row.decodeBitmapKeys_rocksValue,
      htail, hfilter,
      hvalues, Option.bind_eq_bind, Option.bind_some, if_true]
    by_cases hpass : (row.seen ops).passes conds = true
    · simp only [if_pos hpass, applyOperations_eq hops, htake, hentry]
      rfl
    · simp only [if_neg hpass]
      rfl
  | false =>
    simp only [hkey, Bool.false_eq_true, if_false] at htail hentry
    simp only [updateRow, row.decode_rocksKey, hkey, row.skipKeyBitmap_rocksValue, htail, hfilter,
      hvalues, Option.bind_eq_bind, Option.bind_some, Option.map_some, Bool.false_eq_true, if_false]
    by_cases hpass : (row.seen ops).passes conds = true
    · simp only [if_pos hpass, applyOperations_eq hops, htake, hentry]
      rfl
    · simp only [if_neg hpass]
      rfl

/-! ## The row that is read back -/

theorem toNat_signedOf {w n : Nat} (hw : w = 8 ∨ w = 4) (hn : n < 256 ^ w) :
    (signedOf w n).toUInt64.toNat % 256 ^ w = n ∧
      (w = 4 → -2 ^ 31 ≤ (signedOf w n).toInt ∧ (signedOf w n).toInt < 2 ^ 31) := by
  rcases hw with rfl | rfl
  · refine ⟨?_, by simp⟩
    rw [signedOf, if_pos rfl, UInt64.toUInt64_toInt64, toNat_ofNat']
    omega
  · have hint : ∀ x : Int64, x.toInt = Int.bmod x.toUInt64.toNat (2 ^ 64) := fun x =>
      x.toBitVec.toInt_eq_toNat_bmod
    have hsmall : ∀ x : UInt32, x.toInt32.toInt = Int.bmod x.toNat (2 ^ 32) := fun x =>
      x.toInt32.toBitVec.toInt_eq_toNat_bmod
    have hx := hint (signedOf 4 n)
    have hlt := (signedOf 4 n).toUInt64.toNat_lt
    rw [signedOf, if_neg (by decide), Int32.toInt_toInt64, hsmall, UInt32.toNat_ofNat'] at *
    have hle := (UInt32.ofNat n).toInt32.le_toInt
    have hlt' := (UInt32.ofNat n).toInt32.toInt_lt
    rw [hsmall, UInt32.toNat_ofNat'] at hle hlt'
    refine ⟨?_, fun _ => ⟨hle, hlt'⟩⟩
    simp only [Int.bmod_def] at hx
    split at hx <;> split at hx <;> omega

theorem leBytes_of_mod {w n : Nat} {l : Bytes} (hlen : w ≤ l.length)
    (h : n % 256 ^ w = ofLeBytes (l.take w)) : leBytes w n ++ l.drop w = l := by
  have htake : (l.take w).length = w := length_take_of_le hlen
  have hbytes := leBytes_ofLeBytes (l.take w)
  rw [htake, ← h, leBytes_mod] at hbytes
  rw [hbytes, take_append_drop]

theorem ofLeBytes_take_lt {w : Nat} {l : Bytes} (hlen : w ≤ l.length) :
    ofLeBytes (l.take w) < 256 ^ w := by
  have h := ofLeBytes_lt (l.take w)
  rwa [length_take_of_le hlen] at h

/-- What is read of a field is what is stored of the value that is read. -/
theorem getValueById_spec {f : Field} {valueHead value rest : Bytes}
    (h : getValueById f valueHead = some (value, rest)) :
    valueHead = storeValue f value ++ rest ∧ f.Fits (str2Value value f.type) := by
  obtain ⟨ty, size⟩ := f
  have hwidth := Field.width_cases ⟨ty, size⟩
  have hstring : ∀ {value : Bytes}, (if ofLeBytes (valueHead.take 4) < 2 ^ 31 ∧
      4 + ofLeBytes (valueHead.take 4) ≤ valueHead.length then
      some ((valueHead.drop 4).take (ofLeBytes (valueHead.take 4)),
        valueHead.drop (4 + ofLeBytes (valueHead.take 4))) else none) = some (value, rest) →
      valueHead = leBytes 4 value.length ++ value ++ rest ∧ value.length < 2 ^ 31 := by
    intro value h
    split at h
    · rename_i hshort
      obtain ⟨rfl, rfl⟩ := Prod.mk.inj (Option.some.inj h)
      have hlen : ((valueHead.drop 4).take (ofLeBytes (valueHead.take 4))).length =
          ofLeBytes (valueHead.take 4) := length_take_of_le (by rw [length_drop]; omega)
      refine ⟨?_, by omega⟩
      rw [hlen, append_assoc, ← drop_drop, take_append_drop]
      exact (leBytes_of_mod (by omega) (Nat.mod_eq_of_lt (by omega))).symm
    · cases h
  cases ty with
  | signed =>
    simp only [getValueById] at h
    split at h
    · rename_i hlen
      obtain ⟨rfl, rfl⟩ := Prod.mk.inj (Option.some.inj h)
      obtain ⟨hmod, hrange⟩ := toNat_signedOf (hwidth.imp (·.2) (·.2)) (ofLeBytes_take_lt hlen)
      have hread := strtoll_toStringS64 (signedOf (Field.width ⟨.signed, size⟩)
        (ofLeBytes (valueHead.take (Field.width ⟨.signed, size⟩))))
      constructor
      · simp only [storeValue, hread]
        exact (leBytes_of_mod hlen hmod).symm
      · rw [str2Value, hread]
        exact hwidth.imp (·.1) fun hw => hrange hw.2
    · cases h
  | unsigned =>
    simp only [getValueById] at h
    split at h
    · rename_i hlen
      obtain ⟨rfl, rfl⟩ := Prod.mk.inj (Option.some.inj h)
      have hlt := ofLeBytes_take_lt hlen
      have hread := strtoull_toStringU64 (UInt64.ofNat
        (ofLeBytes (valueHead.take (Field.width ⟨.unsigned, size⟩))))
      constructor
      · simp only [storeValue, hread]
        refine (leBytes_of_mod hlen ?_).symm
        rw [toNat_ofNat']
        rcases hwidth with ⟨-, hw⟩ | ⟨-, hw⟩ <;> rw [hw] at hlt ⊢ <;> omega
      · rw [str2Value, hread]
        refine hwidth.imp (·.1) fun hw => ?_
        rw [hw.2] at hlt ⊢
        rw [toNat_ofNat']
        omega
    · cases h
  | string => exact hstring h
  | binary => exact hstring h

theorem getValues_spec {ids : List t.FieldId} {valueHead : Bytes}
    (h : getValues (ids.map t.field) valueHead = some (ids.map row.str)) :
    (∃ rest, valueHead = shrinkValue (ids.map t.field) (ids.map row.str) ++ rest) ∧
      ∀ i ∈ ids, (t.field i).Fits (row i) := by
  induction ids generalizing valueHead with
  | nil => exact ⟨⟨valueHead, rfl⟩, forall_mem_nil _⟩
  | cons i ids ih =>
    rw [map_cons, getValues] at h
    obtain ⟨⟨v, tail⟩, hv, h⟩ := Option.bind_eq_some_iff.mp h
    obtain ⟨vs, hvs, h⟩ := Option.bind_eq_some_iff.mp h
    obtain ⟨rfl, rfl⟩ := List.cons.inj (Option.some.inj h)
    obtain ⟨hhead, hfit⟩ := getValueById_spec hv
    obtain ⟨⟨rest, hrest⟩, hfits⟩ := ih hvs
    refine ⟨⟨rest, ?_⟩, forall_mem_cons.mpr ⟨?_, hfits⟩⟩
    · rw [hhead, hrest, map_cons, map_cons, shrinkValue, append_assoc]
    · have hvalue : str2Value (row.str i) (t.field i).type = row i := str2Value_toStr _ _
      rwa [hvalue] at hfit

/-- A string that `storeValue` stores with its length. -/
def Short (f : Field) (s : Bytes) : Prop := ¬ IntegerType f.type → s.length < 2 ^ 31

theorem storeValue_text {f : Field} (hty : ¬ IntegerType f.type) (s : Bytes) :
    storeValue f s = leBytes 4 s.length ++ s := by
  obtain ⟨ty, size⟩ := f
  cases ty with
  | signed => exact absurd (.inl rfl) hty
  | unsigned => exact absurd (.inr rfl) hty
  | string => rfl
  | binary => rfl

theorem storeValue_append_inj {f : Field} {s s' rest rest' : Bytes} (hs : Short f s)
    (hs' : Short f s') (h : storeValue f s ++ rest = storeValue f s' ++ rest') :
    storeValue f s = storeValue f s' ∧ rest = rest' := by
  by_cases hty : IntegerType f.type
  · exact append_inj h (by rw [length_storeValue hty, length_storeValue hty])
  · have hlen : s.length = s'.length := by
      have hshort := hs hty
      have hshort' := hs' hty
      rw [storeValue_text hty, storeValue_text hty, append_assoc, append_assoc] at h
      have hmod := leBytes_inj_mod (append_inj_left h (by simp))
      omega
    exact append_inj h (by rw [storeValue_text hty, storeValue_text hty]; simp [hlen])

theorem storeValue_of_shrinkValue {ids : List t.FieldId} {strs strs' : t.FieldId → Bytes}
    {rest : Bytes} (hs : ∀ i ∈ ids, Short (t.field i) (strs i) ∧ Short (t.field i) (strs' i))
    (h : shrinkValue (ids.map t.field) (ids.map strs) =
      shrinkValue (ids.map t.field) (ids.map strs') ++ rest) :
    ∀ i ∈ ids, storeValue (t.field i) (strs i) = storeValue (t.field i) (strs' i) := by
  induction ids with
  | nil => exact forall_mem_nil _
  | cons i ids ih =>
    obtain ⟨⟨hi, hi'⟩, hids⟩ := forall_mem_cons.mp hs
    simp only [map_cons, shrinkValue, append_assoc] at h
    obtain ⟨hfirst, hrest⟩ := storeValue_append_inj hi hi' h
    exact forall_mem_cons.mpr ⟨hfirst, ih hids hrest⟩

theorem short_of_fits {f : Field} {x : f.type.Value} (h : f.Fits x) : Short f (f.type.toStr x) := by
  intro hty
  obtain ⟨ty, size⟩ := f
  cases ty with
  | signed => exact absurd (.inl rfl) hty
  | unsigned => exact absurd (.inr rfl) hty
  | string => exact h
  | binary => exact h

/-! ## When the row is the updated one -/

/-- What `strtoll` and `strtoull` find in the string of an integer field is the sum, as far as the
field tells numbers apart. -/
def SumAgrees (ops : UpdateInfo t) (row : Row t) (i : t.FieldId) : Prop :=
  (readNumber (t.type i) (fieldNumber i ops (numberOf (t.type i) (row.base ops i)))).toNat %
      modulus i =
    (bitsOf (t.type i) (row.update ops i)).toNat % modulus i

/-- The updated values fit, no number is clamped to another one on the way, and a text that is left
out is either set or empty. -/
structure UpdateExact (ops : UpdateInfo t) (row : Row t) : Prop where
  fits : (row.update ops).Fits
  sums : ∀ i, IntegerType (t.type i) → SumAgrees ops row i
  texts : ∀ i, ¬ IntegerType (t.type i) →
    (∃ value, ⟨i, .set value⟩ ∈ ops) ∨ row.base ops i = row i

theorem spellsInt_baseStr {i : t.FieldId} (hty : IntegerType (t.type i)) (row : Row t)
    (ops : UpdateInfo t) :
    SpellsInt (row.baseStr ops i) (numberOf (t.type i) (row.base ops i)) := by
  by_cases hlast : updatesValue ops = true ∧ t.valueFields.getLast? = some i
  · obtain ⟨hvalue, hlast⟩ := hlast
    have hzero : numberOf (t.type i) (zeroValue (t.type i)) = 0 := by
      rcases hty with h | h <;> rw [h] <;> rfl
    rw [Row.baseStr, Row.base, if_pos hvalue, if_pos hvalue, Row.splitStr, if_pos hlast,
      Row.blankLast, if_pos hlast, hzero]
    exact spellsInt_nil
  · have hstr : row.baseStr ops i = row.str i := by
      rw [Row.baseStr, Row.splitStr]
      split_ifs with hvalue hlast' <;> first | rfl | exact absurd ⟨hvalue, hlast'⟩ hlast
    have hbase : row.base ops i = row i := by
      rw [Row.base]
      split_ifs with hvalue
      · exact if_neg fun hlast' => hlast ⟨hvalue, hlast'⟩
      · rfl
    rw [hstr, hbase]
    exact spellsInt_toStr hty _

theorem baseStr_text {i : t.FieldId} (hty : ¬ IntegerType (t.type i)) (row : Row t)
    (ops : UpdateInfo t) : row.baseStr ops i = (row.base ops).str i := by
  have hnil : (t.type i).toStr (zeroValue (t.type i)) = [] := by
    cases h : t.type i with
    | signed => exact absurd (.inl h) hty
    | unsigned => exact absurd (.inr h) hty
    | string => rfl
    | binary => rfl
  rw [Row.baseStr, Row.splitStr, Row.str, Row.str, Row.base]
  split_ifs with hvalue hlast
  · rw [Row.blankLast, if_pos hlast, hnil]
  · rw [Row.blankLast, if_neg hlast]
  · rfl

theorem sameStored_text {i : t.FieldId} (hty : ¬ IntegerType (t.type i)) (x y : (t.type i).Value) :
    SameStored i ((t.type i).toStr x) y ↔ x = y := by
  rw [SameStored]
  split_ifs
  · rw [str2Value_toStr]
  · rw [storeValue_text hty, storeValue_text hty]
    constructor
    · intro h
      exact toStr_injective _ (append_inj_right h (by simp))
    · rintro rfl
      rfl

/-- The string of a field is stored as the updated value is. -/
theorem sameStored_fieldStr_iff (hops : ∀ op ∈ ops, SetOrAdd op) (i : t.FieldId) :
    SameStored i (fieldStr i ops (row.baseStr ops i)) (row.update ops i) ↔
      (IntegerType (t.type i) → SumAgrees ops row i) ∧
        (¬ IntegerType (t.type i) →
          (∃ value, ⟨i, .set value⟩ ∈ ops) ∨ row.base ops i = row i) := by
  by_cases hty : IntegerType (t.type i)
  · have hspells := spellsInt_fieldStr hops hty (spellsInt_baseStr hty row ops)
    rw [sameStored_iff hty, hspells.read hty]
    exact ⟨fun h => ⟨fun _ => h, fun hnot => absurd hty hnot⟩, fun h => h.1 hty⟩
  · have htext : SameStored i (fieldStr i ops (row.baseStr ops i)) (row.update ops i) ↔
        (∃ value, ⟨i, .set value⟩ ∈ ops) ∨ row.base ops i = row i := by
      by_cases hset : ∃ value, ⟨i, .set value⟩ ∈ ops
      · rw [fieldStr_of_set hset _ (row.str i), fieldStr_text hops hty]
        exact iff_of_true (sameStored_toStr i _) (.inl hset)
      · have hnot := notMem_of_text hops hty hset
        rw [fieldStr_of_notMem hnot, update_of_notMem hnot, baseStr_text hty, Row.str,
          sameStored_text hty]
        exact (or_iff_right hset).symm
    rw [htext]
    exact ⟨fun h => ⟨fun hint => absurd hint hty, fun _ => h⟩, fun h => h.2 hty⟩

theorem updateExact_iff_sameStored (hops : ∀ op ∈ ops, SetOrAdd op) :
    UpdateExact ops row ↔ (row.update ops).Fits ∧
      ∀ i, SameStored i (fieldStr i ops (row.baseStr ops i)) (row.update ops i) := by
  simp only [sameStored_fieldStr_iff hops]
  exact ⟨fun h => ⟨h.fits, fun i => ⟨h.sums i, h.texts i⟩⟩,
    fun h => ⟨h.1, fun i => (h.2 i).1, fun i => (h.2 i).2⟩⟩

theorem short_outcome (hfits : row.Fits) (hnew : (row.update ops).Fits)
    (hops : ∀ op ∈ ops, SetOrAdd op) {i : t.FieldId} (hi : i ∈ t.valueFields) :
    Short (t.field i) ((row.outcome ops).str i) := by
  intro hty
  have hstr : (row.outcome ops).str i = fieldStr i ops (row.baseStr ops i) := by
    have htext : ∀ s : Bytes, (t.type i).toStr (str2Value s (t.type i)) = s := by
      intro s
      cases h : t.type i with
      | signed => exact absurd (.inl h) hty
      | unsigned => exact absurd (.inr h) hty
      | string => rfl
      | binary => rfl
    exact htext _
  rw [hstr]
  by_cases hset : ∃ value, ⟨i, .set value⟩ ∈ ops
  · rw [fieldStr_of_set hset _ (row.str i), fieldStr_text hops hty]
    exact short_of_fits (hnew i hi) hty
  · rw [fieldStr_of_notMem (notMem_of_text hops hty hset), Row.baseStr, Row.splitStr]
    split_ifs
    · exact Nat.two_pow_pos 31
    · exact short_of_fits (hfits i hi) hty
    · exact short_of_fits (hfits i hi) hty

theorem storeValue_outcome (row : Row t) (ops : UpdateInfo t) (i : t.FieldId) :
    storeValue (t.field i) (fieldStr i ops (row.baseStr ops i)) =
      storeValue (t.field i) ((row.outcome ops).str i) :=
  storeValue_str2Value _ _

theorem shrunk_outcome (hops : ∀ op ∈ ops, SetOrAdd op) (h : UpdateExact ops row) :
    (row.outcome ops).shrunk = (row.update ops).shrunk := by
  apply shrinkValue_congr
  intro i hi
  have hnot : i ∉ t.uniqFields := by simpa [Table.valueFields] using hi
  have hsame := ((updateExact_iff_sameStored hops).mp h).2 i
  rwa [SameStored, if_neg hnot, storeValue_outcome] at hsame

theorem saveRow_outcome_iff (hfits : row.Fits) (hops : ∀ op ∈ ops, SetOrAdd op) :
    saveRow [] false (row.outcome ops).rocksKey (row.outcome ops).rocksValue =
      some (.row (row.update ops)) ↔ UpdateExact ops row := by
  rw [saveRow_iff]
  constructor
  · rintro ⟨hkeys, hvalues⟩
    obtain ⟨⟨rest, hshrunk⟩, hnew⟩ := getValues_spec hvalues
    have hsame := storeValue_of_shrinkValue (fun i hi =>
      ⟨short_outcome hfits hnew hops hi, short_of_fits (hnew i hi)⟩) hshrunk
    refine (updateExact_iff_sameStored hops).mpr ⟨hnew, fun i => ?_⟩
    rw [SameStored]
    split_ifs with hi
    · exact toStr_injective _ (map_inj_left.mp hkeys i hi)
    · rw [storeValue_outcome]
      exact hsame i (by simpa [Table.valueFields] using hi)
  · intro h
    constructor
    · apply map_congr_left
      intro i hi
      have hsame := ((updateExact_iff_sameStored hops).mp h).2 i
      rw [SameStored, if_pos hi] at hsame
      exact congrArg (t.type i).toStr hsame
    · rw [shrunk_outcome hops h]
      exact (row.update ops).getValues_shrunk.mpr h.fits

/-- Where no addition leaves the range of its type, the last value field is all that is lost. -/
theorem updateExact_iff_lastKept (hfits : row.Fits) (hops : ∀ op ∈ ops, SetOrAdd op)
    (hadds : AddsOk ops (row.base ops)) :
    UpdateExact ops row ↔ (row.update ops).Fits ∧ LastKept ops row := by
  have hden :
    ∀ i ∈ t.fieldIndexMapping, Denotes (t.type i) (row.baseStr ops i) (row.base ops i) := by
    intro i _
    rw [Row.baseStr, Row.base]
    split
    · exact denotes_splitStr row i
    · exact Denotes.toStr _ _
  have hsup : supported ops = true := by
    rw [← isSome_applyOperations ops (row.baseStr ops), applyOperations_eq hops]
    rfl
  obtain ⟨strs, happly, hstrs⟩ := applyOperations_denotes hsup
    (fun op _ => t.mem_fieldIndexMapping op.1) hadds hden
  rw [applyOperations_eq hops, Option.some.injEq] at happly
  have hwritten : row.outcome ops = row.written ops := by
    funext i
    have hi := (hstrs i (t.mem_fieldIndexMapping i)).str2Value
    rwa [← happly] at hi
  constructor
  · intro h
    have hshrunk := shrunk_outcome hops h
    rw [hwritten] at hshrunk
    exact ⟨h.fits, lastKept_of_shrunk hfits hshrunk⟩
  · rintro ⟨hnew, hlast⟩
    rw [← saveRow_outcome_iff hfits hops, hwritten, written_eq_update hlast, saveRow_entry hnew]
    rfl

/-- The row that is read of the entry that `update_row` writes is the old one with the fields
changed that the operations name. -/
def UpdatesRow (conds : List (Condition t)) (ops : UpdateInfo t) (row : Row t) : Prop :=
  ∀ newKey newValue,
    updateRow conds ops row.rocksKey row.rocksValue = some (.row newKey newValue) →
      saveRow [] false newKey newValue = some (.row (row.update ops))

attribute [local instance (2000)] Table.neZero_three in
/-- A String key, a count and a note. -/
def noteTable : Table where
  numFields := 2
  column i := if i = 0 then ⟨⟨.string, 32⟩, ([] : Bytes)⟩
    else if i = 1 then ⟨⟨.signed, 4⟩, (0 : Int64)⟩ else ⟨⟨.string, 64⟩, ([] : Bytes)⟩
  uniqFields := [0]
  head_uniqFields := Table.head?_first_three
  nodup_uniqFields := Table.nodup_first_three

/-- The key `"Ab"`, a count and the note `"n"`. -/
def noteRow (count : Int64) : Row noteTable
  | 0 => ([65, 98] : Bytes)
  | 1 => count
  | 2 => ([110] : Bytes)

/-- The count is raised and the note is set. -/
def noteUpdate : UpdateInfo noteTable :=
  [⟨1, .add .signed (2 : Int64)⟩, ⟨2, .set ([109] : Bytes)⟩]

/-- The count is set. -/
def countUpdate : UpdateInfo noteTable := [⟨1, .set (3 : Int64)⟩]

theorem fits_noteTable {row : Row noteTable}
    (hcount : -2 ^ 31 ≤ (show Int64 from row 1).toInt ∧ (show Int64 from row 1).toInt < 2 ^ 31)
    (hnote : (show Bytes from row 2).length < 2 ^ 31) : row.Fits := by
  intro i hi
  have hfields : noteTable.valueFields = [1, 2] := by decide
  rw [hfields] at hi
  rcases mem_cons.mp hi with rfl | hi
  · exact .inr hcount
  · obtain rfl := mem_singleton.mp hi
    exact hnote

theorem fits_noteRow : (noteRow 1).Fits := fits_noteTable (by decide) (by decide)

end ISearch.RocksProcess
