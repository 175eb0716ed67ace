import Mathlib.Data.List.Flatten
import Mathlib.Data.List.Induction
import ISearch.Protocol.RoundTrip

/-!
# Building a result (`packet_result.cc`, `result.h`)

A `ResultPacket` gets the rows that a query finds one by one and keeps those of the limit. Five
bytes in front are left for the number of rows, which `encode_result` writes. `bc` is the part of
the buffer that is in use; it grows without end here.
-/

namespace ISearch.Protocol

open UInt32 (le_iff_toNat_le lt_iff_toNat_lt toNat_add toNat_inj toNat_ofNat' toNat_sub_of_le
  add_zero sub_zero)
open List
open KeyFormat (Bytes)

variable {F α : Type} (lib : FloatFormat F) (fieldType : Nat → DField)

abbrev RowValue (F : Type) (fieldType : Nat → DField) : Type := (i : Nat) → (fieldType i).Value F

/-- `ResultWriter` and `ResultPacket`. The field set is empty for a query that only counts. -/
structure ResultPacket where
  fieldSet : List Nat
  limitStart : UInt32
  limitNext : UInt32
  totalRows : UInt32
  numRows : UInt32
  bc : Bytes
  rowDataBegin : Nat

namespace ResultPacket

/-- The number of fields and their ids. -/
def fieldBytes (fs : List Nat) : Bytes := UInt8.ofNat fs.length :: fs.map UInt8.ofNat

/-- The constructors. `malloc` leaves the first five bytes as they are; nothing reads them. -/
def new (fs : List Nat) (st cnt : UInt32) : ResultPacket :=
  let st := if cnt = 0 then 0 else st
  { fieldSet := fs
    limitStart := st
    limitNext := st + cnt
    totalRows := 0
    numRows := 0
    bc := [0, 0, 0, 0, 0] ++ fieldBytes fs
    rowDataBegin := 5 + 1 + fs.length }

/-- `append_row`, with its result. -/
def appendRow (w : ResultPacket) (r : RowValue F fieldType) : Nat × ResultPacket :=
  let w := { w with totalRows := w.totalRows + 1 }
  if w.limitNext > 0 ∧ (w.totalRows ≤ w.limitStart ∨ w.totalRows > w.limitNext) then (0, w)
  else if w.fieldSet ≠ [] then
    (1, { w with
      bc := w.bc ++ encodeRow lib fieldType w.fieldSet r
      numRows := w.totalRows - w.limitStart })
  else (0, { w with numRows := w.totalRows - w.limitStart })

/-- `set_rows`, for callers that only count; `none` where it returns `-1`. -/
def setRows (w : ResultPacket) (rows : UInt32) : Option ResultPacket :=
  if w.fieldSet = [] ∨ (w.numRows = 0 ∧ rows ≤ w.limitStart) then
    some { w with
      totalRows := rows
      numRows :=
        if w.limitNext = 0 then rows
        else if rows ≤ w.limitStart then 0
        else if rows ≤ w.limitNext then rows - w.limitStart
        else w.limitNext - w.limitStart }
  else if ¬ (w.limitNext > 0 ∧ w.totalRows ≥ w.limitNext) then none
  else some { w with totalRows := rows }

def mergeNoLimit (w rp : ResultPacket) : ResultPacket :=
  { w with
    bc := w.bc ++ rp.bc.drop rp.rowDataBegin
    totalRows := w.totalRows + rp.totalRows
    numRows := w.numRows + rp.numRows }

/-- What `encode_result` sends of the packet: the number of rows goes right before the fields. -/
def encodeResult (w : ResultPacket) : Bytes :=
  let off := 5 - encodedBytesLength w.numRows.toNat
  (w.bc.take off ++ encodeLength w.numRows.toNat ++ w.bc.drop 5).drop off

def appendRows (w : ResultPacket) (rows : List (RowValue F fieldType)) : ResultPacket :=
  rows.foldl (fun w r => (w.appendRow lib fieldType r).2) w

end ResultPacket

/-- The rows of a limit. -/
def window (st cnt : UInt32) (rows : List α) : List α :=
  if cnt = 0 then rows else (rows.drop st.toNat).take cnt.toNat

namespace ResultPacket

/-- The packet holds the rows of the limit, counts them and all that were offered, and is sent
so. -/
def Slices (w : ResultPacket) (st cnt : UInt32) (rows : List (RowValue F fieldType)) : Prop :=
  let bytes := (window st cnt rows).flatMap (encodeRow lib fieldType w.fieldSet)
  w.bc.drop w.rowDataBegin = bytes ∧
  w.numRows.toNat = (window st cnt rows).length ∧
  w.totalRows.toNat = rows.length ∧
  w.encodeResult = encodeLength (window st cnt rows).length ++ (fieldBytes w.fieldSet ++ bytes)

/-- `merge_no_limit` puts the rows behind each other and adds the numbers. -/
def Merges (w rp : ResultPacket) : Prop :=
  let m := w.mergeNoLimit rp
  m.bc.drop m.rowDataBegin = w.bc.drop w.rowDataBegin ++ rp.bc.drop rp.rowDataBegin ∧
  m.numRows.toNat = w.numRows.toNat + rp.numRows.toNat ∧
  m.totalRows.toNat = w.totalRows.toNat + rp.totalRows.toNat

/-- The end of the limit fits in 32 bits, or no row reaches the start of the limit. -/
def Bounded (fs : List Nat) (st cnt : UInt32) (n : Nat) : Prop :=
  n < 2 ^ 32 ∧
    (cnt = 0 ∨ n = 0 ∨ st.toNat + cnt.toNat < 2 ^ 32 ∨
      (2 ^ 32 < st.toNat + cnt.toNat ∧ n ≤ st.toNat) ∨
      -- the limit counts as none, and no row is written
      (st.toNat + cnt.toNat = 2 ^ 32 ∧ fs = [] ∧ st.toNat ≤ n))

/-! ## Runs -/

section Runs

variable (fs : List Nat) (st next : UInt32) (r : RowValue F fieldType)
  (rows : List (RowValue F fieldType))

/-- The packet after `n` rows, of which `written` were kept. -/
def state (n : Nat) (k : UInt32) (written : List (RowValue F fieldType)) : ResultPacket where
  fieldSet := fs
  limitStart := st
  limitNext := next
  totalRows := UInt32.ofNat n
  numRows := k
  bc := [0, 0, 0, 0, 0] ++ (fieldBytes fs ++ written.flatMap (encodeRow lib fieldType fs))
  rowDataBegin := 5 + 1 + fs.length

theorem new_eq_state (cnt : UInt32) : new fs st cnt =
    state lib fieldType fs (if cnt = 0 then 0 else st) ((if cnt = 0 then 0 else st) + cnt) 0 0 [] :=
  by simp [new, state]

theorem appendRow_state (n : Nat) (k : UInt32) (written : List (RowValue F fieldType)) :
    ((state lib fieldType fs st next n k written).appendRow lib fieldType r).2 =
      if next > 0 ∧ (UInt32.ofNat (n + 1) ≤ st ∨ UInt32.ofNat (n + 1) > next) then
        state lib fieldType fs st next (n + 1) k written
      else state lib fieldType fs st next (n + 1) (UInt32.ofNat (n + 1) - st) (written ++ [r]) := by
  have hn : UInt32.ofNat n + 1 = UInt32.ofNat (n + 1) := (UInt32.ofNat_add n 1).symm
  simp only [appendRow, state, hn]
  split
  · rfl
  · split
    · simp
    · rename_i hfs
      obtain rfl : fs = [] := by simpa using hfs
      simp [encodeRow]

theorem appendRows_concat (w : ResultPacket) : w.appendRows lib fieldType (rows ++ [r]) =
    ((w.appendRows lib fieldType rows).appendRow lib fieldType r).2 := by
  rw [appendRows, foldl_append, appendRows]
  rfl

theorem appendRows_unlimited :
    (state lib fieldType fs st 0 0 0 []).appendRows lib fieldType rows =
      state lib fieldType fs st 0 rows.length
        (if rows = [] then 0 else UInt32.ofNat rows.length - st) rows := by
  induction rows using List.reverseRecOn with
  | nil => rfl
  | append_singleton rows r ih =>
    rw [appendRows_concat, ih, appendRow_state, if_neg (by simp), if_neg (by simp),
      length_append]
    rfl

/-- No row lies behind the start and before the end. -/
theorem appendRows_wrapped (hpos : next > 0) (hle : next ≤ st) :
    (state lib fieldType fs st next 0 0 []).appendRows lib fieldType rows =
      state lib fieldType fs st next rows.length 0 [] := by
  induction rows using List.reverseRecOn with
  | nil => rfl
  | append_singleton rows r ih =>
    have hout : UInt32.ofNat (rows.length + 1) ≤ st ∨ UInt32.ofNat (rows.length + 1) > next := by
      rw [le_iff_toNat_le] at hle ⊢
      rw [gt_iff_lt, lt_iff_toNat_lt]
      omega
    rw [appendRows_concat, ih, appendRow_state, if_pos ⟨hpos, hout⟩, length_append]
    rfl

end Runs

end ResultPacket

theorem window_concat {st cnt : UInt32} (hcnt : cnt ≠ 0) (rows : List α) (r : α) :
    window st cnt (rows ++ [r]) =
      if st.toNat ≤ rows.length ∧ rows.length < st.toNat + cnt.toNat then
        window st cnt rows ++ [r]
      else window st cnt rows := by
  simp only [window, if_neg hcnt]
  by_cases hst : st.toNat ≤ rows.length
  · rw [drop_append_of_le_length hst]
    by_cases hend : rows.length < st.toNat + cnt.toNat
    · rw [if_pos ⟨hst, hend⟩, take_of_length_le (by simp; omega),
        take_of_length_le (by simp; omega)]
    · rw [if_neg (fun h => hend h.2), take_append_of_le_length (by simp; omega)]
  · rw [if_neg (fun h => hst h.1), drop_of_length_le (by simp; omega),
      drop_of_length_le (by omega)]

theorem length_window {st cnt : UInt32} (hcnt : cnt ≠ 0) (rows : List α) :
    (window st cnt rows).length = min cnt.toNat (rows.length - st.toNat) := by
  rw [window, if_neg hcnt, length_take, length_drop]

namespace ResultPacket

theorem appendRows_bounded (fs : List Nat) {st cnt : UInt32} (hcnt : cnt ≠ 0)
    (hno : st.toNat + cnt.toNat < 2 ^ 32) (rows : List (RowValue F fieldType))
    (hlen : rows.length < 2 ^ 32) :
    (state lib fieldType fs st (st + cnt) 0 0 []).appendRows lib fieldType rows =
      state lib fieldType fs st (st + cnt) rows.length
        (UInt32.ofNat (window st cnt rows).length) (window st cnt rows) := by
  have hnext : (st + cnt).toNat = st.toNat + cnt.toNat := by
    rw [toNat_add, Nat.mod_eq_of_lt hno]
  have hcnt' : 0 < cnt.toNat := Nat.pos_of_ne_zero fun h => hcnt (toNat_inj.mp h)
  induction rows using List.reverseRecOn with
  | nil =>
    have hnil : window st cnt ([] : List (RowValue F fieldType)) = [] := by simp [window]
    rw [hnil]
    rfl
  | append_singleton rows r ih =>
    rw [length_append, length_singleton] at hlen
    have hn : (UInt32.ofNat (rows.length + 1)).toNat = rows.length + 1 := by
      rw [toNat_ofNat', Nat.mod_eq_of_lt hlen]
    have hout : (st + cnt > 0 ∧ (UInt32.ofNat (rows.length + 1) ≤ st ∨
        UInt32.ofNat (rows.length + 1) > st + cnt)) ↔
        ¬ (st.toNat ≤ rows.length ∧ rows.length < st.toNat + cnt.toNat) := by
      rw [gt_iff_lt, gt_iff_lt, lt_iff_toNat_lt, lt_iff_toNat_lt,
        le_iff_toNat_le, hn, hnext]
      have hzero : (0 : UInt32).toNat = 0 := rfl
      omega
    rw [appendRows_concat, ih (by omega), appendRow_state, window_concat hcnt, length_append]
    by_cases hin : st.toNat ≤ rows.length ∧ rows.length < st.toNat + cnt.toNat
    · have hk : UInt32.ofNat (rows.length + 1) - st =
          UInt32.ofNat (window st cnt rows ++ [r]).length := by
        apply toNat_inj.mp
        rw [length_append, length_window hcnt, length_singleton, toNat_ofNat',
          toNat_sub_of_le _ _ (le_iff_toNat_le.mpr (by omega)), hn,
          Nat.mod_eq_of_lt (by omega)]
        omega
      rw [if_neg (fun h => hout.mp h hin), if_pos hin, hk]
      rfl
    · rw [if_pos (hout.mpr hin), if_neg hin]
      rfl

/-! ## When the limit is a slice -/

theorem slices_state (fs : List Nat) (st next st₀ cnt k : UInt32)
    (written rows : List (RowValue F fieldType)) :
    (state lib fieldType fs st next rows.length k written).Slices lib fieldType st₀ cnt rows ↔
      written.flatMap (encodeRow lib fieldType fs) =
          (window st₀ cnt rows).flatMap (encodeRow lib fieldType fs) ∧
        k.toNat = (window st₀ cnt rows).length ∧ rows.length < 2 ^ 32 := by
  have hdrop : (state lib fieldType fs st next rows.length k written).bc.drop
      (5 + 1 + fs.length) = written.flatMap (encodeRow lib fieldType fs) := by
    rw [state, ← append_assoc]
    exact drop_left' (by simp [fieldBytes]; omega)
  have htotal : (UInt32.ofNat rows.length).toNat = rows.length ↔ rows.length < 2 ^ 32 := by
    rw [toNat_ofNat']
    exact Nat.mod_eq_iff_lt (by decide)
  have hres : (state lib fieldType fs st next rows.length k written).encodeResult =
      encodeLength k.toNat ++ (fieldBytes fs ++ written.flatMap (encodeRow lib fieldType fs)) := by
    have hoff : (([0, 0, 0, 0, 0] ++ (fieldBytes fs ++ written.flatMap (encodeRow lib fieldType
        fs))).take (5 - encodedBytesLength k.toNat)).length = 5 - encodedBytesLength k.toNat :=
      length_take_of_le (by simp; omega)
    simp only [encodeResult, state]
    rw [append_assoc, drop_left' hoff]
    rfl
  rw [Slices, hres]
  constructor
  · rintro ⟨hbytes, hnum, hrows, -⟩
    exact ⟨hdrop.symm.trans hbytes, hnum, htotal.mp hrows⟩
  · rintro ⟨hbytes, hnum, hrows⟩
    exact ⟨hdrop.trans hbytes, hnum, htotal.mpr hrows, by rw [hnum, hbytes]; rfl⟩

theorem encodeDataValue_ne_nil (type : DField) (v : type.Value F) :
    encodeDataValue lib type v ≠ [] := by
  cases type with
  | none => simp [encodeDataValue]
  | signed => simp [encodeDataValue, encodeInt]
  | unsigned => simp [encodeDataValue, encodeInt]
  | float => simp [encodeDataValue]
  | string => cases v <;> simp [encodeDataValue, encodeStr]
  | binary => cases v <;> simp [encodeDataValue, encodeStr]

/-- A row has bytes if it has fields. -/
theorem encodeRow_ne_nil {fs : List Nat} (hfs : fs ≠ []) (r : RowValue F fieldType) :
    encodeRow lib fieldType fs r ≠ [] := by
  cases fs with
  | nil => exact absurd rfl hfs
  | cons i ids =>
    exact fun h => encodeDataValue_ne_nil lib _ _ (append_eq_nil_iff.mp h).1

/-- The rows before the limit are missed in a slice. -/
theorem flatMap_window_ne {fs : List Nat} (hfs : fs ≠ []) {st cnt : UInt32} (hcnt : cnt ≠ 0)
    (hst : 0 < st.toNat) {rows : List (RowValue F fieldType)} (hne : rows ≠ []) :
    rows.flatMap (encodeRow lib fieldType fs) ≠
      (window st cnt rows).flatMap (encodeRow lib fieldType fs) := by
  obtain ⟨r, rows, rfl⟩ := exists_cons_of_ne_nil hne
  intro h
  have hlen := congrArg List.length h
  have hsub : (window st cnt (r :: rows)).Sublist rows := by
    obtain ⟨n, hn⟩ : ∃ n, st.toNat = n + 1 := ⟨st.toNat - 1, by omega⟩
    rw [window, if_neg hcnt, hn, drop_succ_cons]
    exact (take_sublist ..).trans (drop_sublist ..)
  have hle := (hsub.flatMap (encodeRow lib fieldType fs)).length_le
  have hpos := length_pos_iff.mpr (encodeRow_ne_nil lib fieldType hfs r)
  rw [flatMap_cons, length_append] at hlen
  omega

/-- A limit that ends at `2 ^ 32` counts as none. -/
theorem slices_of_wrap {fs : List Nat} {st cnt : UInt32} (hcnt : cnt ≠ 0)
    (hend : st.toNat + cnt.toNat = 2 ^ 32) {rows : List (RowValue F fieldType)}
    (hlen : rows.length < 2 ^ 32) :
    (rows.flatMap (encodeRow lib fieldType fs) =
          (window st cnt rows).flatMap (encodeRow lib fieldType fs) ∧
        (if rows = [] then 0 else UInt32.ofNat rows.length - st).toNat =
          min cnt.toNat (rows.length - st.toNat) ∧ rows.length < 2 ^ 32) ↔
      Bounded fs st cnt rows.length := by
  have hst : 0 < st.toNat := by
    have := cnt.toNat_lt
    omega
  by_cases hne : rows = []
  · subst hne
    refine iff_of_true ⟨by simp [window], by simp, hlen⟩ ⟨hlen, .inr (.inl rfl)⟩
  · have hpos : 0 < rows.length := length_pos_iff.mpr hne
    have hnum : (UInt32.ofNat rows.length - st).toNat =
        (2 ^ 32 - st.toNat + rows.length) % 2 ^ 32 := by
      rw [UInt32.toNat_sub, toNat_ofNat', Nat.mod_eq_of_lt hlen]
    rw [if_neg hne, hnum]
    by_cases hfs : fs = []
    · subst hfs
      have hnil (l : List (RowValue F fieldType)) :
          l.flatMap (encodeRow lib fieldType []) = [] := by simp [encodeRow]
      rw [hnil, hnil]
      constructor
      · rintro ⟨-, hnum, -⟩
        exact ⟨hlen, .inr (.inr (.inr (.inr ⟨hend, rfl, by omega⟩)))⟩
      · rintro ⟨-, rfl | hzero | hlt | hgt | hcount⟩
        · exact absurd rfl hcnt
        · omega
        · omega
        · omega
        · have hle := hcount.2.2
          exact ⟨rfl, by omega, hlen⟩
    · refine iff_of_false (fun h => flatMap_window_ne lib fieldType hfs hcnt hst hne h.1) ?_
      rintro ⟨-, rfl | hzero | hlt | hgt | hcount⟩
      · exact hcnt rfl
      · omega
      · omega
      · omega
      · exact hfs hcount.2.1

/-- The packet is a slice exactly if the limit is bounded. -/
theorem slices_iff (fs : List Nat) (st cnt : UInt32) (rows : List (RowValue F fieldType)) :
    ((new fs st cnt).appendRows lib fieldType rows).Slices lib fieldType st cnt rows ↔
      Bounded fs st cnt rows.length := by
  have hst := st.toNat_lt
  have hcnt := cnt.toNat_lt
  by_cases hlen : rows.length < 2 ^ 32
  · have hn : (UInt32.ofNat rows.length).toNat = rows.length := by
      rw [toNat_ofNat', Nat.mod_eq_of_lt hlen]
    rw [new_eq_state lib fieldType]
    by_cases hzero : cnt = 0
    · subst hzero
      rw [if_pos rfl, add_zero, appendRows_unlimited, slices_state]
      refine iff_of_true ⟨rfl, ?_, hlen⟩ ⟨hlen, .inl rfl⟩
      split
      · rename_i hnil
        rw [hnil]
        rfl
      · rw [sub_zero, hn]
        rfl
    · have hpos : 0 < cnt.toNat := Nat.pos_of_ne_zero fun h => hzero (toNat_inj.mp h)
      have hnext : (st + cnt).toNat = (st.toNat + cnt.toNat) % 2 ^ 32 := toNat_add ..
      rw [if_neg hzero]
      rcases Nat.lt_trichotomy (st.toNat + cnt.toNat) (2 ^ 32) with hlt | heq | hgt
      · rw [appendRows_bounded lib fieldType fs hzero hlt rows hlen, slices_state]
        refine iff_of_true ⟨rfl, ?_, hlen⟩ ⟨hlen, .inr (.inr (.inl hlt))⟩
        rw [toNat_ofNat', Nat.mod_eq_of_lt]
        rw [length_window hzero]
        omega
      · have hwrap : st + cnt = 0 := toNat_inj.mp (by rw [hnext, heq]; rfl)
        rw [hwrap, appendRows_unlimited, slices_state, length_window hzero]
        exact slices_of_wrap lib fieldType hzero heq hlen
      · have hnext' : (st + cnt).toNat = st.toNat + cnt.toNat - 2 ^ 32 := by omega
        have hgt' : st + cnt > 0 :=
          lt_iff_toNat_lt.mpr (by rw [hnext']; exact Nat.sub_pos_of_lt hgt)
        have hle : st + cnt ≤ st := le_iff_toNat_le.mpr (by omega)
        rw [appendRows_wrapped lib fieldType fs _ _ rows hgt' hle, slices_state,
          length_window hzero]
        constructor
        · rintro ⟨-, hnum, -⟩
          have hnone : (0 : UInt32).toNat = 0 := rfl
          exact ⟨hlen, .inr (.inr (.inr (.inl ⟨hgt, by omega⟩)))⟩
        · rintro ⟨-, hbounded⟩
          have hle : rows.length ≤ st.toNat := by
            rcases hbounded with rfl | hnone | hlt | hout | hcount
            · exact absurd rfl hzero
            · omega
            · omega
            · exact hout.2
            · omega
          have hnil : window st cnt rows = [] := by
            rw [window, if_neg hzero, drop_of_length_le hle, take_nil]
          rw [hnil, Nat.sub_eq_zero_of_le hle, Nat.min_zero]
          exact ⟨rfl, rfl, hlen⟩
  · refine iff_of_false (fun h => ?_) fun h => hlen h.1
    have htotal := h.2.2.1
    have hlt := ((new fs st cnt).appendRows lib fieldType rows).totalRows.toNat_lt
    omega

theorem rowDataBegin_le (fs : List Nat) (st cnt : UInt32)
    (rows : List (RowValue F fieldType)) :
    ((new fs st cnt).appendRows lib fieldType rows).rowDataBegin ≤
      ((new fs st cnt).appendRows lib fieldType rows).bc.length := by
  induction rows using List.reverseRecOn with
  | nil => simp [appendRows, new, fieldBytes]; omega
  | append_singleton rows r ih =>
    rw [appendRows_concat]
    generalize (new fs st cnt).appendRows lib fieldType rows = w at ih
    rw [appendRow]
    split
    · exact ih
    · split
      · exact ih.trans (by simp)
      · exact ih

theorem length_window_le (st cnt : UInt32) (rows : List α) :
    (window st cnt rows).length ≤ rows.length := by
  rw [window]
  split
  · exact le_rfl
  · rw [length_take, length_drop]
    omega

/-- A query that only counts sets the number of rows, and gets what appending them would give. -/
theorem setRows_eq_appendRows {st cnt : UInt32} (hno : cnt = 0 ∨ st.toNat + cnt.toNat < 2 ^ 32)
    {rows : List (RowValue F fieldType)} (hlen : rows.length < 2 ^ 32) :
    (new [] st cnt).setRows (UInt32.ofNat rows.length) =
      some ((new [] st cnt).appendRows lib fieldType rows) := by
  have hn : (UInt32.ofNat rows.length).toNat = rows.length := by
    rw [toNat_ofNat', Nat.mod_eq_of_lt hlen]
  have hnil (l : List (RowValue F fieldType)) : l.flatMap (encodeRow lib fieldType []) = [] := by
    simp [encodeRow]
  rw [setRows, if_pos (.inl rfl), Option.some_inj]
  by_cases hzero : cnt = 0
  · subst hzero
    rw [new_eq_state lib fieldType, if_pos rfl, add_zero, appendRows_unlimited,
      sub_zero]
    simp only [state, hnil, if_pos]
    split
    · rename_i h
      rw [h]
      rfl
    · rfl
  · have hlt := hno.resolve_left hzero
    have hnext : (st + cnt).toNat = st.toNat + cnt.toNat := by
      rw [toNat_add, Nat.mod_eq_of_lt hlt]
    have hpos : 0 < cnt.toNat := Nat.pos_of_ne_zero fun h => hzero (toNat_inj.mp h)
    have hne : st + cnt ≠ 0 := fun h => by
      rw [h] at hnext
      have hnone : (0 : UInt32).toNat = 0 := rfl
      omega
    rw [new_eq_state lib fieldType, if_neg hzero, appendRows_bounded lib fieldType [] hzero hlt rows
      hlen, length_window hzero]
    simp only [state, hnil, if_neg hne]
    congr 1
    apply toNat_inj.mp
    rw [toNat_ofNat', Nat.mod_eq_of_lt (by omega)]
    simp only [le_iff_toNat_le, hn, hnext]
    split
    · rw [Nat.sub_eq_zero_of_le (by assumption), Nat.min_zero]
      rfl
    · split
      · rw [toNat_sub_of_le _ _ (le_iff_toNat_le.mpr (by omega)), hn]
        omega
      · rw [toNat_sub_of_le _ _ (le_iff_toNat_le.mpr (by omega)), hnext]
        omega

theorem setRows_eq_appendRows_three :
    (new [] 1 2).setRows (UInt32.ofNat (replicate 3 (7 : Int64)).length) =
      some ((new [] 1 2).appendRows sampleFormat (fun _ => .signed)
        (replicate 3 fun _ => (7 : Int64))) :=
  @setRows_eq_appendRows _ sampleFormat (fun _ => .signed) 1 2 (.inr (by decide))
    (replicate 3 fun _ => (7 : Int64)) (by decide)

/-- Two results that are slices of what they were offered. -/
def LimitsAreSlices (fs : List Nat) (st₁ cnt₁ st₂ cnt₂ : UInt32)
    (rows₁ rows₂ : List (RowValue F fieldType)) : Prop :=
  let w₁ := (new fs st₁ cnt₁).appendRows lib fieldType rows₁
  let w₂ := (new fs st₂ cnt₂).appendRows lib fieldType rows₂
  w₁.Slices lib fieldType st₁ cnt₁ rows₁ ∧ w₂.Slices lib fieldType st₂ cnt₂ rows₂ ∧ w₁.Merges w₂

/-- Results are limited as they should be exactly if both limits are bounded and the rows of both
can be counted. -/
theorem limitsAreSlices_iff (fs : List Nat) (st₁ cnt₁ st₂ cnt₂ : UInt32)
    (rows₁ rows₂ : List (RowValue F fieldType)) :
    LimitsAreSlices lib fieldType fs st₁ cnt₁ st₂ cnt₂ rows₁ rows₂ ↔
      Bounded fs st₁ cnt₁ rows₁.length ∧ Bounded fs st₂ cnt₂ rows₂.length ∧
        rows₁.length + rows₂.length < 2 ^ 32 := by
  rw [LimitsAreSlices]
  rw [slices_iff, slices_iff]
  refine and_congr_right fun h₁ => and_congr_right fun h₂ => ?_
  have hs₁ := (slices_iff lib fieldType fs st₁ cnt₁ rows₁).mpr h₁
  have hs₂ := (slices_iff lib fieldType fs st₂ cnt₂ rows₂).mpr h₂
  have hbegin := rowDataBegin_le lib fieldType fs st₁ cnt₁ rows₁
  generalize (new fs st₁ cnt₁).appendRows lib fieldType rows₁ = w₁ at hs₁ hbegin
  generalize (new fs st₂ cnt₂).appendRows lib fieldType rows₂ = w₂ at hs₂
  have htotal : (w₁.totalRows + w₂.totalRows).toNat = (rows₁.length + rows₂.length) % 2 ^ 32 := by
    rw [toNat_add, hs₁.2.2.1, hs₂.2.2.1]
  constructor
  · rintro ⟨-, -, hsum⟩
    have hlt := (w₁.totalRows + w₂.totalRows).toNat_lt
    change (w₁.totalRows + w₂.totalRows).toNat = _ at hsum
    rw [hs₁.2.2.1, hs₂.2.2.1] at hsum
    omega
  · intro hsum
    refine ⟨drop_append_of_le_length hbegin, ?_, ?_⟩
    · have hle₁ := length_window_le st₁ cnt₁ rows₁
      have hle₂ := length_window_le st₂ cnt₂ rows₂
      change (w₁.numRows + w₂.numRows).toNat = _
      rw [toNat_add, hs₁.2.1, hs₂.2.1, Nat.mod_eq_of_lt (by omega)]
    · change (w₁.totalRows + w₂.totalRows).toNat = _
      rw [htotal, hs₁.2.2.1, hs₂.2.2.1, Nat.mod_eq_of_lt hsum]

/-- All rows from the third on are asked for, and none of the three rows is kept. -/
theorem not_limitsAreSlices_max :
    ¬ LimitsAreSlices sampleFormat (fun _ => .signed) [1] 2 4294967295 0 0
      (replicate 3 fun _ => (7 : Int64)) [] := by
  rintro ⟨h, -⟩
  exact absurd h.2.1 (by decide)

end ResultPacket

end ISearch.Protocol
