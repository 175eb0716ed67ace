import ISearch.RawData.Bounds

/-!
# The expire time of a tree

`TreeData::get_expire_time` starts in the header of the record, nine bytes before the first row. It
returns another time wherever a row keeps one. If the expire time is the first key field, no row has
it, and the reader has to come to its end inside the record.
-/

namespace ISearch.RawData

open List Option

section Tree

variable {t : TableDef} {j : Nat} {f : FieldDef}

theorem decodeTreeRow_eq (content : Bytes) (offset : Nat) :
    decodeTreeRow t content offset = (getValue 1 content offset).bind fun r =>
      decodeFields content (t.fields.drop 1) 1 r.2 := rfl

/-- A row of zeros is as long as one with a 1. -/
theorem rowOf_zeros (first : Nat) :
    rowOf t first j (replicate f.width 0) =
      replicate (rowOf t first j (oneBytes f)).length 0 := by
  rw [rowOf, rowOf, length_rowWith, length_oneBytes, rowWith, replicate_add,
    replicate_add, replicate_add]
  rfl

theorem decodeRows_zeros (hle : 1 ≤ j) (hf : t.fields[j]? = some f) (hint : f.IsInteger)
    (hkept : f.discard = false) (n : Nat) (p : Bytes)
    (hp : p.length + n * (rowOf t 1 j (oneBytes f)).length < 2 ^ 31) :
    ∃ rows, decodeRows (decodeTreeRow t (p ++
        replicate (n * (rowOf t 1 j (oneBytes f)).length) 0)) n p.length =
      some (rows, p.length + n * (rowOf t 1 j (oneBytes f)).length) := by
  induction n generalizing p with
  | zero => exact ⟨[], by rw [Nat.zero_mul]; rfl⟩
  | succ n ih =>
    rw [Nat.succ_mul] at hp ⊢
    obtain ⟨row, hrow, -⟩ := decode_rowOf hle hf hint hkept length_replicate p
      (replicate (n * (rowOf t 1 j (oneBytes f)).length) 0) (by omega)
    rw [← decodeTreeRow_eq, rowOf_zeros, length_replicate, append_assoc, ← replicate_add] at hrow
    obtain ⟨rows, hrows⟩ := ih (p ++ replicate (rowOf t 1 j (oneBytes f)).length 0) (by
      rw [length_append, length_replicate]
      omega)
    rw [append_assoc, ← replicate_add, length_append, length_replicate,
      Nat.add_assoc] at hrows
    rw [Nat.add_comm (n * _)]
    simp only [decodeRows, hrow, hrows, bind_eq_bind, bind_some]
    exact ⟨row :: rows, rfl⟩

/-- A record of the row `row` and `n` rows of zeros that are as long. -/
def record (row : Bytes) (n : Nat) : Bytes :=
  [2] ++ leBytes 4 (9 + (n + 1) * row.length) ++ leBytes 4 (n + 1) ++
    (row ++ replicate (n * row.length) 0)

theorem record_eq (row : Bytes) (n : Nat) : ∃ header : Bytes, header.length = 9 ∧
    record row n = header ++ (row ++ replicate (n * row.length) 0) :=
  ⟨[2] ++ leBytes 4 (9 + (n + 1) * row.length) ++ leBytes 4 (n + 1), by simp, rfl⟩

theorem length_record (row : Bytes) (n : Nat) :
    (record row n).length = 9 + (n + 1) * row.length := by
  obtain ⟨header, hheader, heq⟩ := record_eq row n
  rw [heq, length_append, length_append, length_replicate, hheader, Nat.succ_mul,
    Nat.add_comm row.length]

theorem valueAt_record {row : Bytes} {n : Nat} (hn : n + 1 < 2 ^ 32)
    (hsize : (record row n).length < 2 ^ 32) :
    valueAt 1 (record row n) 0 = some dataTypeTreeNode ∧
      valueAt 4 (record row n) 1 = some (record row n).length ∧
      valueAt 4 (record row n) 5 = some (n + 1) := by
  have hlength := length_record row n
  have hdata := valueAt_append [2] (leBytes 4 (record row n).length)
    (leBytes 4 (n + 1) ++ (row ++ replicate (n * row.length) 0))
  have hrows := valueAt_append ([2] ++ leBytes 4 (record row n).length) (leBytes 4 (n + 1))
    (row ++ replicate (n * row.length) 0)
  have hpow : (2 : Nat) ^ 32 = 256 ^ 4 := by norm_num
  rw [length_leBytes, ofLeBytes_leBytes, Nat.mod_eq_of_lt (hpow ▸ hsize)] at hdata
  rw [length_leBytes, ofLeBytes_leBytes, Nat.mod_eq_of_lt (hpow ▸ hn), length_append,
    length_leBytes] at hrows
  rw [hlength] at hdata hrows ⊢
  rw [record]
  simp only [append_assoc] at hdata hrows ⊢
  exact ⟨valueAt_append [] [2] _, hdata, hrows⟩

/-- What agreement says of such a record. -/
theorem TreeExpireAgrees.record (h : TreeExpireAgrees t) {bytes : Bytes} {n : Nat}
    (hn : n + 1 < 2 ^ 32) (hsize : (record bytes n).length < 2 ^ 32) {row : List (Nat × DTCValue)}
    {rows : List (List (Nat × DTCValue))}
    (hrow : decodeTreeRow t (RawData.record bytes n) 9 = some (row, 9 + bytes.length))
    (hrest : decodeRows (decodeTreeRow t (RawData.record bytes n)) n (9 + bytes.length) =
      some (rows, (RawData.record bytes n).length)) :
    ∃ time, getTreeExpireTime t (RawData.record bytes n) = some (0, time) ∧
      IsTime t.expireId row time := by
  obtain ⟨htype, hdata, hrows⟩ := valueAt_record hn hsize
  refine h _ n row rows _ htype hdata hrows ?_
  rw [decodeRows, hrow]
  simp only [bind_eq_bind, bind_some, hrest]
  rfl

theorem not_treeExpireAgrees_of_kept (hid : t.expireId = some j) (hle : 1 ≤ j)
    (hf : t.fields[j]? = some f) (hkept : f.discard = false) : ¬TreeExpireAgrees t := by
  intro h
  have hint := t.expire_integer j f hid hf
  have hx := length_oneBytes f
  have hlen := length_rowOf_le 1 hf hx
  have hpos : 1 ≤ (rowOf t 1 j (oneBytes f)).length := by
    rw [rowOf, length_rowWith]
    omega
  obtain ⟨header, hheader, heq⟩ := record_eq (rowOf t 1 j (oneBytes f)) 3
  obtain ⟨row, hrow, hmem⟩ := decode_rowOf hle hf hint hkept hx header
    (replicate (3 * (rowOf t 1 j (oneBytes f)).length) 0) (by omega)
  obtain ⟨rows, hrest⟩ := decodeRows_zeros hle hf hint hkept 3
    (header ++ rowOf t 1 j (oneBytes f)) (by
      rw [length_append]
      omega)
  have hone := oneAt_zeros header (1 + rowWidth ((t.fields.drop 1).take (j - 1)))
    (f.width - 1 + rowWidth (t.fields.drop (j + 1)) + 3 * (rowOf t 1 j (oneBytes f)).length)
  rw [replicate_add (f.width - 1 + _), ← cons_append, append_assoc,
    ← append_assoc (replicate _ 0), ← rowOf_one, ← heq, hheader] at hone
  rw [append_assoc, ← heq, ← decodeTreeRow_eq, hheader] at hrow
  rw [append_assoc, ← heq, length_append, hheader] at hrest
  have hlength := length_record (rowOf t 1 j (oneBytes f)) 3
  generalize rowOf t 1 j (oneBytes f) = bytes at *
  obtain ⟨-, hsize, hrows⟩ := @valueAt_record bytes 3 (by norm_num) (by omega)
  obtain ⟨time, htime, hvalue, -⟩ := h.record (by norm_num) (by omega) hrow
    (hrest.trans (by rw [hlength]; congr 2; omega))
  have htoInt := hvalue j _ hid hmem
  rw [intValue_one hint] at htoInt
  obtain rfl : 1 = time := Int.ofNat_inj.mp (Option.some.inj htoInt)
  simp only [getTreeExpireTime, getExpireTimeFrom, hid] at htime
  split at htime
  · simp at htime
  · next o hskip =>
    obtain rfl : 0 + 1 = o := Option.some.inj (ite_none_right_eq_some.mp hskip).2
    have hwidth := rowWidth_mod ((t.fields.drop 1).take (j - 1))
    exact hone.expireLoop_tree (by omega) (by omega) (by omega) hsize hrows (.inl rfl) htime

/-- Where four bytes are never 0 on the way, the loop returns another time. -/
theorem expireLoop_ne_zero {content : Bytes} {id : Nat} {P : Nat → Prop}
    (hvalue : ∀ o, P o → valueAt 4 content o ≠ some 0)
    (hskip : ∀ f o o', P o → skipField f content o = some o' → P o') {fs : List FieldDef}
    {j o : Nat} (ho : P o) (hle : j ≤ id) (hlt : id < j + fs.length) :
    expireLoop content id fs j o ≠ some (0, 0) := by
  induction fs generalizing j o with
  | nil => exact absurd hlt (not_lt.mpr hle)
  | cons f fs ih =>
    rw [expireLoop]
    split
    · cases htime : valueAt 4 content o with
      | none => simp
      | some v =>
        have hv : v ≠ 0 := fun hv => hvalue o ho (hv ▸ htime)
        simp [hv]
    · next hne =>
      cases hnext : skipField f content o with
      | none => simp
      | some o' =>
        rw [length_cons] at hlt
        exact ih (hskip f o o' ho hnext) (by omega) (by omega)

/-- A record of one row whose bytes are all `b`. -/
def bytesRecord (t : TableDef) (b : UInt8) : Bytes :=
  record (replicate (1 + rowWidthOf b (t.fields.drop 1)) b) 0

theorem length_bytesRecord (t : TableDef) (b : UInt8) :
    (bytesRecord t b).length = 10 + rowWidthOf b (t.fields.drop 1) := by
  rw [bytesRecord, length_record, length_replicate]
  omega

theorem TreeExpireAgrees.bytesRecord (h : TreeExpireAgrees t) {b : UInt8}
    (hn : (RawData.bytesRecord t b).length < 2 ^ 32) :
    ∃ row next time, decodeFields (RawData.bytesRecord t b) (t.fields.drop 1) 1 10 =
        some (row, next) ∧
      getTreeExpireTime t (RawData.bytesRecord t b) = some (0, time) ∧
        IsTime t.expireId row time := by
  have hlength := length_bytesRecord t b
  obtain ⟨header, hheader, heq⟩ := record_eq (replicate (1 + rowWidthOf b (t.fields.drop 1)) b) 0
  rw [Nat.zero_mul, replicate_zero, append_nil] at heq
  obtain ⟨_, row, hflag, hrow⟩ := decode_replicate b (t.fields.drop 1) 1 header (by omega)
  rw [← heq, hheader] at hflag hrow
  have hend := length_record (replicate (1 + rowWidthOf b (t.fields.drop 1)) b) 0
  rw [Nat.zero_add, Nat.one_mul] at hend
  refine ⟨row, _, (h.record (by norm_num) hn ?_
    (congrArg (fun o => some ([], o)) hend.symm)).imp fun time h => ⟨hrow, h⟩⟩
  rw [decodeTreeRow_eq, hflag, length_replicate]
  exact hrow

theorem not_treeExpireAgrees_of_discarded (hid : t.expireId = some j) (hf : t.fields[j]? = some f)
    (hdiscard : f.discard = true) : ¬TreeExpireAgrees t := by
  intro h
  obtain ⟨hlt, -⟩ := List.getElem?_eq_some_iff.mp hf
  have hkey : t.keyFields ≤ j := by
    by_contra hkey
    rw [t.key_kept j f (not_le.mp hkey) hf] at hdiscard
    cases hdiscard
  have hle := rowWidthOf_one_le (t.fields.drop 1)
  have hfields := t.fields_le
  rw [length_drop] at hle
  have hlength := length_bytesRecord t 1
  obtain ⟨row, next, time, hrow, htime, -, hzero⟩ := h.bytesRecord (b := 1) (by omega)
  obtain ⟨-, hsize, hrows⟩ := @valueAt_record
    (replicate (1 + rowWidthOf 1 (t.fields.drop 1)) 1) 0 (by norm_num)
    (by rw [← bytesRecord]; omega)
  obtain ⟨header, hheader, heq⟩ := record_eq (replicate (1 + rowWidthOf 1 (t.fields.drop 1)) 1) 0
  have hone := onesFrom_append header (1 + rowWidthOf 1 (t.fields.drop 1))
  rw [Nat.zero_mul, replicate_zero, append_nil] at heq
  rw [← heq, hheader] at hone
  rw [← bytesRecord] at hsize hrows hone
  obtain rfl := hzero fun k v hk => Option.some.inj (hid.symm.trans hk) ▸
    notMem_of_discarded hrow
      (fun f' _ hf' => Option.some.inj (hf.symm.trans hf') ▸ hdiscard) v
  simp only [getTreeExpireTime, getExpireTimeFrom, hid] at htime
  rw [skipSize, if_pos (by omega)] at htime
  -- the loop meets the size, the number of rows, and then ones
  refine expireLoop_ne_zero (P := fun o => o = 1 ∨ o = 5 ∨ 9 ≤ o) ?_ ?_ (.inl rfl) hkey
    (by rw [length_drop]; omega) htime
  · rintro o (rfl | rfl | ho) hvalue
    · have hv := Option.some.inj (hsize.symm.trans hvalue)
      omega
    · have hv := Option.some.inj (hrows.symm.trans hvalue)
      omega
    · exact absurd (hone.valueAt_eq ho hvalue) (by norm_num)
  · rintro g o o' (rfl | rfl | ho) hskip
    · have hwidth := g.width_eq
      obtain hnext | ⟨-, len, hvalue, hnext, hle⟩ := skipField_step hskip
      · omega
      · rw [hsize] at hvalue
        obtain rfl := Option.some.inj hvalue
        rw [Nat.mod_eq_of_lt (by omega)] at hnext
        omega
    · have hwidth := g.width_eq
      obtain hnext | ⟨-, len, hvalue, hnext, -⟩ := skipField_step hskip
      · omega
      · rw [hrows] at hvalue
        obtain rfl := Option.some.inj hvalue
        rw [Nat.mod_eq_of_lt (by norm_num)] at hnext
        omega
    · obtain ⟨rfl, -⟩ := hone.skipField_eq (by omega) ho hskip
      omega

/-! ## The first key field -/

/-- The bytes that the reader steps over, those of discarded fields with the others. -/
def walkWidth (fs : List FieldDef) : Nat := (fs.map FieldDef.width).sum

theorem skipField_fixed {content : Bytes} {o next : Nat} (hf : ¬f.IsString) :
    skipField f content o = some next ↔ o + f.width ≤ content.length ∧ next = o + f.width := by
  rw [← decodeField_fixed hf]
  exact ⟨decodeField_of_skipField, fun ⟨_, hv⟩ => skipField_of_decodeField hv⟩

/-- The loop over fields without the time returns 0, or it comes to the end of the chunk. -/
theorem expireLoop_fixed {content : Bytes} {fs : List FieldDef} (hfs : ∀ f ∈ fs, ¬f.IsString)
    {id i o : Nat} (hid : id < i) (ho : o ≤ content.length) :
    expireLoop content id fs i o =
      some (if o + walkWidth fs ≤ content.length then 0 else -100, 0) := by
  induction fs generalizing i o with
  | nil => rw [walkWidth, map_nil, sum_nil, Nat.add_zero, if_pos ho, expireLoop]
  | cons f fs ih =>
    rw [forall_mem_cons] at hfs
    rw [expireLoop, if_neg (by omega), walkWidth, map_cons, sum_cons, ← Nat.add_assoc]
    by_cases hfits : o + f.width ≤ content.length
    · rw [(skipField_fixed hfs.1).mpr ⟨hfits, rfl⟩]
      exact ih hfs.2 (by omega) hfits
    · have hskip : skipField f content o = none := by
        refine eq_none_iff_forall_ne_some.mpr fun next h => ?_
        exact hfits ((skipField_fixed hfs.1).mp h).1
      rw [hskip, if_neg (by omega)]

theorem rowWidth_of_decodeFields {content : Bytes} {fs : List FieldDef}
    (hfs : ∀ f ∈ fs, ¬f.IsString) {i o next : Nat} {vs : List (Nat × DTCValue)}
    (ho : o ≤ content.length) (h : decodeFields content fs i o = some (vs, next)) :
    o + rowWidth fs ≤ content.length := by
  induction fs generalizing i o vs with
  | nil => exact ho
  | cons f fs ih =>
    rw [forall_mem_cons] at hfs
    rw [rowWidth]
    obtain ⟨hdiscard, h⟩ | ⟨hkept, v, mid, ws, hv, hws, -⟩ := decodeFields_cons h
    · rw [if_pos hdiscard, Nat.zero_add]
      exact ih hfs.2 ho h
    · obtain ⟨hfits, rfl⟩ := (decodeField_fixed hfs.1).mp ⟨v, hv⟩
      rw [if_neg (Bool.eq_false_iff.mp hkept), ← Nat.add_assoc]
      exact ih hfs.2 hfits hws

/-- The expire time, if there is one, is the first key field. The other fields are numbers, and
those that the reader steps over have at most nine bytes more than a row keeps. -/
def TreeExpireReadable (t : TableDef) : Prop :=
  ∀ j, t.expireId = some j → j = 0 ∧ (∀ f ∈ t.fields.drop 1, ¬f.IsString) ∧
    walkWidth (t.fields.drop t.keyFields) ≤ rowWidth (t.fields.drop 1) + 9

theorem not_string_of_mem (h : ∀ f ∈ t.fields.drop 1, ¬f.IsString) :
    ∀ f ∈ t.fields.drop t.keyFields, ¬f.IsString :=
  fun f hf => h f (drop_subset_drop_left t.fields t.key_pos hf)

theorem treeExpireAgrees_of_readable (h : TreeExpireReadable t) : TreeExpireAgrees t := by
  intro content n row rows next _ _ _ hall
  rw [getTreeExpireTime, getExpireTimeFrom]
  cases hid : t.expireId with
  | none => exact ⟨0, rfl, isTime_none row⟩
  | some j =>
    obtain ⟨rfl, hnumbers, hwidth⟩ := h j hid
    obtain ⟨row', mid, rest, hrow, -, hcons⟩ := decodeRows_succ hall
    obtain ⟨rfl, -⟩ := List.cons.inj hcons
    simp only [decodeTreeRow, getValue, bind_eq_bind, bind_eq_some_iff, map_eq_some_iff,
      Prod.exists, Prod.mk.injEq] at hrow
    obtain ⟨_, _, ⟨flag, hflag, -, rfl⟩, hrow⟩ := hrow
    have hroom := rowWidth_of_decodeFields hnumbers (valueAt_isSome.mp ⟨flag, hflag⟩) hrow
    refine ⟨0, ?_, fun k v hk hv => ?_, fun _ => rfl⟩
    · simp only [skipSize, if_pos (show 0 + 1 ≤ content.length by omega)]
      rw [expireLoop_fixed (not_string_of_mem hnumbers) t.key_pos (by omega), if_pos (by omega)]
    · have hle := (le_of_mem_decodeFields hrow hv).1
      obtain rfl := Option.some.inj hk
      omega

theorem TreeExpireAgrees.walkWidth_le (h : TreeExpireAgrees t) (hid : t.expireId = some 0)
    (hnumbers : ∀ f ∈ t.fields.drop 1, ¬f.IsString) :
    walkWidth (t.fields.drop t.keyFields) ≤ rowWidth (t.fields.drop 1) + 9 := by
  have hle := rowWidth_le (t.fields.drop 1)
  have hfields := t.fields_le
  rw [length_drop] at hle
  rw [← rowWidthOf_zero] at hle ⊢
  have hlength := length_bytesRecord t 0
  obtain ⟨row, next, time, -, htime, -⟩ := h.bytesRecord (b := 0) (by omega)
  simp only [getTreeExpireTime, getExpireTimeFrom, hid] at htime
  rw [skipSize, if_pos (by omega)] at htime
  dsimp only at htime
  rw [expireLoop_fixed (not_string_of_mem hnumbers) t.key_pos (by omega)] at htime
  by_contra hwidth
  rw [if_neg (by omega)] at htime
  cases htime

theorem TreeExpireAgrees.eq_zero (h : TreeExpireAgrees t) (hid : t.expireId = some j) : j = 0 := by
  by_contra hj
  obtain ⟨f, hf⟩ : ∃ f, t.fields[j]? = some f :=
    ⟨_, List.getElem?_eq_getElem (t.expire_lt j hid)⟩
  cases hdiscard : f.discard with
  | false => exact not_treeExpireAgrees_of_kept hid (by omega) hf hdiscard h
  | true => exact not_treeExpireAgrees_of_discarded hid hf hdiscard h

end Tree

/-- A key, a discarded field, the expire time and one more field. -/
def discardTable : TableDef where
  fields := [⟨.unsigned, 4, false⟩, ⟨.unsigned, 4, true⟩, ⟨.unsigned, 4, false⟩,
    ⟨.unsigned, 4, false⟩]
  keyFields := 1
  expireId := some 2
  lcmodId := none
  key_pos := Nat.one_pos
  fields_le := by decide
  key_kept j f hj hf := by
    obtain rfl : j = 0 := Nat.lt_one_iff.mp hj
    simpa using congrArg FieldDef.discard (Option.some.inj hf).symm
  expire_lt j hj := by
    obtain rfl : 2 = j := Option.some.inj hj
    decide
  expire_integer j f hj hf := by
    obtain rfl : 2 = j := Option.some.inj hj
    exact .inl (congrArg FieldDef.type (Option.some.inj hf).symm)
  lcmod_integer j f hj := by cases hj

end ISearch.RawData
