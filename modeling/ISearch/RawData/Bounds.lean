import ISearch.RawData.Misreads

/-!
# Rows in any bytes

`decode_row` and `skip_row` add lengths that they read as `int` to a position of 32 bits, and
compare the sum with the size of the chunk. A row with a negative length is taken for one that goes
back, and a row may end behind the data size. Every other row is read inside the data.
-/

namespace ISearch.RawData

open Option

variable {content : Bytes} {f : FieldDef} {fs : List FieldDef} {t : TableDef}
  {offset next dataSize : Nat}

def FieldDef.IsString (f : FieldDef) : Prop := f.type = .string ∨ f.type = .binary

instance (f : FieldDef) : Decidable f.IsString := inferInstanceAs (Decidable (_ ∨ _))

/-- `bin.ptr` and `bin.len` of a string field. -/
def binAt (f : FieldDef) (content : Bytes) (offset : Nat) : Option (Nat × Int) :=
  if f.IsString then
    (valueAt 4 content offset).map fun len => (offset + 4, (UInt32.ofNat len).toInt32.toInt)
  else none

/-- The strings that the loop of `decode_row` sets. -/
def fieldBins (content : Bytes) : List FieldDef → Nat → List (Nat × Int)
  | [], _ => []
  | f :: fs, offset =>
    if f.discard then fieldBins content fs offset
    else
      match decodeField f content offset with
      | none => []
      | some (_, next) => (binAt f content offset).toList ++ fieldBins content fs next

/-- The strings of a row. -/
def rowBins (t : TableDef) (content : Bytes) (offset : Nat) : List (Nat × Int) :=
  fieldBins content (t.fields.drop t.keyFields) (offset + 1)

def skipFields (content : Bytes) : List FieldDef → Nat → Option Nat
  | [], offset => some offset
  | f :: fs, offset =>
    if f.discard then skipFields content fs offset
    else (skipField f content offset).bind (skipFields content fs)

/-- `RawData::skip_row`, from the row at `m_uiRowOffset`. -/
def skipRow (t : TableDef) (content : Bytes) (uiDataSize uiRowOffset : Nat) : Option Nat :=
  if uiRowOffset ≥ uiDataSize then none
  else (skipSize 1 content uiRowOffset).bind (skipFields content (t.fields.drop t.keyFields))

/-- A string lies inside the chunk. -/
def InChunk (content : Bytes) (bin : Nat × Int) : Prop :=
  0 ≤ bin.2 ∧ bin.1 + bin.2 ≤ content.length

/-- A row is not read, or it is read inside the data. -/
structure RowBounded (t : TableDef) (content : Bytes) (dataSize offset : Nat) : Prop where
  decoded : ∀ row next, decodeRow t content offset = some (row, next) →
    offset < next ∧ next ≤ dataSize ∧ ∀ bin ∈ rowBins t content offset, InChunk content bin
  skipped : ∀ next, skipRow t content dataSize offset = some next → offset < next ∧ next ≤ dataSize

/-- So are `n` rows in succession. -/
def RowsBounded (t : TableDef) (content : Bytes) (dataSize : Nat) : Nat → Nat → Prop
  | 0, _ => True
  | n + 1, offset => RowBounded t content dataSize offset ∧
    ∀ row next, decodeRow t content offset = some (row, next) →
      RowsBounded t content dataSize n next

/-- A field at a position, with its string, and where the next field lies. A length has its sign. -/
inductive FieldLies (content : Bytes) (f : FieldDef) (offset : Nat) :
  Option (Nat × Int) → Nat → Prop
  | fixed (htype : ¬f.IsString) (hfits : offset + f.width ≤ content.length) :
    FieldLies content f offset none (offset + f.width)
  | string {len next : Nat} (htype : f.IsString) (hlen : valueAt 4 content offset = some len)
    (hnext : (next : Int) = offset + 4 + (UInt32.ofNat len).toInt32.toInt)
    (hfits : next ≤ content.length) :
    FieldLies content f offset (some (offset + 4, (UInt32.ofNat len).toInt32.toInt)) next

inductive FieldsLie (content : Bytes) : List FieldDef → Nat → List (Nat × Int) → Nat → Prop
  | nil {offset : Nat} : FieldsLie content [] offset [] offset
  | discard {f : FieldDef} {fs : List FieldDef} {offset : Nat} {bins : List (Nat × Int)}
    {next : Nat}
    (hdiscard : f.discard = true) (hrest : FieldsLie content fs offset bins next) :
    FieldsLie content (f :: fs) offset bins next
  | cons {f : FieldDef} {fs : List FieldDef} {offset mid next : Nat} {bin : Option (Nat × Int)}
    {bins : List (Nat × Int)} (hkept : f.discard = false)
      (hfield : FieldLies content f offset bin mid)
    (hrest : FieldsLie content fs mid bins next) :
    FieldsLie content (f :: fs) offset (bin.toList ++ bins) next

/-- A row with its strings and its end. -/
def RowLies (t : TableDef) (content : Bytes) (offset : Nat) (bins : List (Nat × Int)) (next : Nat) :
    Prop :=
  offset + 1 ≤ content.length ∧
    FieldsLie content (t.fields.drop t.keyFields) (offset + 1) bins next

/-- If a row lies at a position, it has no negative length and ends in the data; and so on for `n`
rows. -/
def RowsFit (t : TableDef) (content : Bytes) (dataSize : Nat) : Nat → Nat → Prop
  | 0, _ => True
  | n + 1, offset => ∀ bins next, RowLies t content offset bins next →
    (∀ bin ∈ bins, 0 ≤ bin.2) ∧ next ≤ dataSize ∧ RowsFit t content dataSize n next

/-! ## What is read is what lies there -/

theorem valueAt_isSome {n : Nat} : (∃ v, valueAt n content offset = some v) ↔
    offset + n ≤ content.length := by
  rw [valueAt]
  split <;> simp_all

theorem decodeField_fixed (hf : ¬f.IsString) :
    (∃ v, decodeField f content offset = some (v, next)) ↔
      offset + f.width ≤ content.length ∧ next = offset + f.width := by
  have hget {n : Nat} (g : Nat → DTCValue) :
      (∃ v, (getValue n content offset).map (fun r => (g r.1, r.2)) = some (v, next)) ↔
        offset + n ≤ content.length ∧ next = offset + n := by
    rw [← valueAt_isSome]
    simp only [getValue, map_eq_some_iff, map_map, Function.comp, Prod.mk.injEq]
    constructor
    · rintro ⟨v, len, hlen, -, rfl⟩
      exact ⟨⟨len, hlen⟩, rfl⟩
    · rintro ⟨⟨len, hlen⟩, rfl⟩
      exact ⟨g len, len, hlen, rfl, rfl⟩
  rw [decodeField, FieldDef.width]
  cases htype : f.type <;> simp only
  case signed =>
    split
    · exact hget fun n => .s64 (UInt64.ofNat n).toInt64
    · exact hget fun n => .s64 (UInt32.ofNat n).toInt32.toInt64
  case unsigned =>
    split
    · exact hget fun n => .u64 (UInt64.ofNat n)
    · exact hget fun n => .u64 (UInt64.ofNat n)
  case float =>
    split
    · exact hget fun n => .flt n
    · exact hget fun n => .flt n
  case string => exact absurd (.inl htype) hf
  case binary => exact absurd (.inr htype) hf

/-- A sum of 32 bits that stays in the chunk is the sum with the sign. -/
theorem skipLen_iff {len : Nat} (hlen : len < 2 ^ 32) (hoffset : offset ≤ content.length)
    (hcontent : content.length < 2 ^ 31) :
    skipLen len content offset = some next ↔
      (next : Int) = offset + (UInt32.ofNat len).toInt32.toInt ∧ next ≤ content.length := by
  have hsigned : (UInt32.ofNat len).toInt32.toInt = Int.bmod len (2 ^ 32) := by
    rw [show (UInt32.ofNat len).toInt32.toInt = Int.bmod (UInt32.ofNat len).toNat (2 ^ 32) from
      (UInt32.ofNat len).toInt32.toBitVec.toInt_eq_toNat_bmod, UInt32.toNat_ofNat_of_lt' hlen]
  rw [hsigned, skipLen, Int.bmod_def]
  split
  · rename_i hfits
    rw [Option.some.injEq]
    split <;> omega
  · rename_i hout
    refine iff_of_false (by simp) ?_
    split <;> omega

theorem decodeField_string (hf : f.IsString) :
    (∃ v, decodeField f content offset = some (v, next)) ↔
      ∃ len, valueAt 4 content offset = some len ∧ skipLen len content (offset + 4) =
        some next := by
  have hbody : (∃ v : DTCValue, (do
      let len ← getValue 4 content offset
      let next ← skipLen len.1 content len.2
      return (.bin ((content.drop len.2).take len.1), next)) = some (v, next)) ↔
      ∃ len, valueAt 4 content offset = some len ∧ skipLen len content (offset + 4) =
        some next := by
    simp only [getValue, bind_eq_bind, bind_eq_some_iff, map_eq_some_iff,
      pure_def, Option.some.injEq, Prod.mk.injEq]
    constructor
    · rintro ⟨_, _, ⟨len, hlen, rfl⟩, _, hnext, -, rfl⟩
      exact ⟨len, hlen, hnext⟩
    · rintro ⟨len, hlen, hnext⟩
      exact ⟨_, _, ⟨len, hlen, rfl⟩, next, hnext, rfl, rfl⟩
  rw [← hbody, decodeField]
  rcases hf with hf | hf <;> rw [hf]

theorem fieldLies_iff (hcontent : content.length < 2 ^ 31) {bin : Option (Nat × Int)} :
    FieldLies content f offset bin next ↔
      (∃ v, decodeField f content offset = some (v, next)) ∧ bin = binAt f content offset := by
  by_cases hf : f.IsString
  · have hskip {len : Nat} (hlen : valueAt 4 content offset = some len) :
        skipLen len content (offset + 4) = some next ↔
          (next : Int) = offset + 4 + (UInt32.ofNat len).toInt32.toInt ∧ next ≤ content.length := by
      rw [skipLen_iff (valueAt_lt hlen) (valueAt_isSome.mp ⟨len, hlen⟩) hcontent]
      push_cast
      rfl
    rw [decodeField_string hf]
    constructor
    · rintro (⟨htype, -⟩ | ⟨-, hlen, hnext, hfits⟩)
      · exact absurd hf htype
      · exact ⟨⟨_, hlen, (hskip hlen).mpr ⟨hnext, hfits⟩⟩, by rw [binAt, if_pos hf, hlen]; rfl⟩
    · rintro ⟨⟨len, hlen, hnext⟩, rfl⟩
      obtain ⟨hnext, hfits⟩ := (hskip hlen).mp hnext
      rw [binAt, if_pos hf, hlen]
      exact .string hf hlen hnext hfits
  · rw [decodeField_fixed hf, binAt, if_neg hf]
    constructor
    · rintro (⟨-, hfits⟩ | ⟨htype, -⟩)
      · exact ⟨⟨hfits, rfl⟩, rfl⟩
      · exact absurd htype hf
    · rintro ⟨⟨hfits, rfl⟩, rfl⟩
      exact .fixed hf hfits

theorem fieldsLie_iff (hcontent : content.length < 2 ^ 31) {bins : List (Nat × Int)} (j : Nat) :
    FieldsLie content fs offset bins next ↔
      (∃ vs, decodeFields content fs j offset = some (vs, next)) ∧
        bins = fieldBins content fs offset := by
  induction fs generalizing offset bins j with
  | nil =>
    rw [decodeFields, fieldBins]
    constructor
    · rintro (_ | _)
      exact ⟨⟨[], rfl⟩, rfl⟩
    · rintro ⟨⟨vs, hvs⟩, rfl⟩
      cases hvs
      exact .nil
  | cons f fs ih =>
    rw [fieldBins]
    constructor
    · rintro (_ | ⟨hdiscard, hrest⟩ | ⟨hkept, hfield, hrest⟩)
      · rw [decodeFields, if_pos hdiscard, if_pos hdiscard]
        exact (ih (j + 1)).mp hrest
      · obtain ⟨⟨v, hv⟩, rfl⟩ := (fieldLies_iff hcontent).mp hfield
        obtain ⟨⟨vs, hvs⟩, rfl⟩ := (ih (j + 1)).mp hrest
        have hkept' : ¬f.discard = true := by rw [hkept]; exact Bool.false_ne_true
        rw [decodeFields, if_neg hkept', if_neg hkept', hv]
        refine ⟨⟨(j, v) :: vs, ?_⟩, rfl⟩
        simp [hvs]
    · rintro ⟨⟨vs, hvs⟩, rfl⟩
      rcases decodeFields_cons hvs with ⟨hdiscard, hvs⟩ | ⟨hkept, v, mid, ws, hv, hws, -⟩
      · rw [if_pos hdiscard]
        exact .discard hdiscard ((ih (j + 1)).mpr ⟨⟨vs, hvs⟩, rfl⟩)
      · have hkept' : ¬f.discard = true := by rw [hkept]; exact Bool.false_ne_true
        rw [if_neg hkept', hv]
        exact .cons hkept ((fieldLies_iff hcontent).mpr ⟨⟨v, hv⟩, rfl⟩)
          ((ih (j + 1)).mpr ⟨⟨ws, hws⟩, rfl⟩)

/-- `decode_row` reads a row where one lies. -/
theorem rowLies_iff (hcontent : content.length < 2 ^ 31) {bins : List (Nat × Int)} :
    RowLies t content offset bins next ↔
      (∃ row, decodeRow t content offset = some (row, next)) ∧ bins = rowBins t content offset := by
  have hrow : (∃ row, decodeRow t content offset = some (row, next)) ↔ offset + 1 ≤ content.length ∧
      ∃ row, decodeFields content (t.fields.drop t.keyFields) t.keyFields (offset + 1) =
        some (row, next) := by
    simp only [decodeRow, getValue, bind_eq_bind, bind_eq_some_iff,
      map_eq_some_iff, Prod.exists, Prod.mk.injEq]
    constructor
    · rintro ⟨row, _, _, ⟨flag, hflag, -, rfl⟩, hrow⟩
      exact ⟨valueAt_isSome.mp ⟨flag, hflag⟩, row, hrow⟩
    · rintro ⟨hflag, row, hrow⟩
      obtain ⟨flag, hflag⟩ := valueAt_isSome.mpr hflag
      exact ⟨row, _, _, ⟨flag, hflag, rfl, rfl⟩, hrow⟩
  rw [hrow, RowLies, fieldsLie_iff hcontent t.keyFields, rowBins, and_assoc]

theorem skipSize_iff {n : Nat} :
    skipSize n content offset = some next ↔ offset + n ≤ content.length ∧ next = offset + n := by
  rw [skipSize, ite_none_right_eq_some, Option.some.injEq, eq_comm]

/-- `skip_row` takes a field for what `decode_row` takes it for. -/
theorem decodeField_of_skipField (h : skipField f content offset = some next) :
    ∃ v, decodeField f content offset = some (v, next) := by
  by_cases hf : f.IsString
  · have hbody :
      (getValue 4 content offset).bind (fun r => skipLen r.1 content r.2) = some next := by
      rw [← h, skipField]
      rcases hf with hf | hf <;> rw [hf] <;> rfl
    simp only [getValue, bind_eq_some_iff, map_eq_some_iff] at hbody
    obtain ⟨_, ⟨len, hlen, rfl⟩, hnext⟩ := hbody
    exact (decodeField_string hf).mpr ⟨len, hlen, hnext⟩
  · rw [decodeField_fixed hf, ← skipSize_iff, ← h, skipField, FieldDef.width]
    cases htype : f.type <;> simp only
    case string => exact absurd (.inl htype) hf
    case binary => exact absurd (.inr htype) hf
    all_goals split <;> rfl

theorem decodeFields_of_skipFields (j : Nat) (h : skipFields content fs offset = some next) :
    ∃ vs, decodeFields content fs j offset = some (vs, next) := by
  induction fs generalizing offset j with
  | nil =>
    cases h
    exact ⟨[], rfl⟩
  | cons f fs ih =>
    rw [skipFields] at h
    rw [decodeFields]
    split at h
    · rename_i hdiscard
      rw [if_pos hdiscard]
      exact ih (j + 1) h
    · rename_i hkept
      obtain ⟨mid, hmid, h⟩ := bind_eq_some_iff.mp h
      obtain ⟨v, hv⟩ := decodeField_of_skipField hmid
      obtain ⟨vs, hvs⟩ := ih (j + 1) h
      refine ⟨(j, v) :: vs, ?_⟩
      simp [if_neg hkept, hv, hvs]

/-- `skip_row` finds a row where one lies. -/
theorem rowLies_of_skipRow (hcontent : content.length < 2 ^ 31)
    (h : skipRow t content dataSize offset = some next) :
    ∃ bins, RowLies t content offset bins next := by
  rw [skipRow, ite_none_left_eq_some] at h
  obtain ⟨-, h⟩ := h
  obtain ⟨mid, hmid, h⟩ := bind_eq_some_iff.mp h
  obtain ⟨hflag, rfl⟩ := skipSize_iff.mp hmid
  exact ⟨_, hflag, (fieldsLie_iff hcontent t.keyFields).mpr
    ⟨decodeFields_of_skipFields t.keyFields h, rfl⟩⟩

/-! ## Where rows lie in the data -/

theorem FieldLies.le {bin : Option (Nat × Int)} (h : FieldLies content f offset bin next)
    (hbin : ∀ b ∈ bin, 0 ≤ b.2) : offset ≤ next := by
  cases h with
  | fixed htype hfits => exact Nat.le_add_right offset _
  | string htype hlen hnext hfits =>
    have hpos := hbin _ rfl
    dsimp only at hpos
    omega

theorem FieldLies.inChunk {bin : Option (Nat × Int)} (h : FieldLies content f offset bin next)
    (hbin : ∀ b ∈ bin, 0 ≤ b.2) : ∀ b ∈ bin, InChunk content b := by
  cases h with
  | fixed htype hfits => exact fun b hb => absurd hb (by simp)
  | string htype hlen hnext hfits =>
    rintro b ⟨⟩
    refine ⟨hbin _ rfl, ?_⟩
    dsimp only
    push_cast
    omega

theorem FieldsLie.bounded {bins : List (Nat × Int)} (h : FieldsLie content fs offset bins next)
    (hbins : ∀ bin ∈ bins, 0 ≤ bin.2) : offset ≤ next ∧ ∀ bin ∈ bins, InChunk content bin := by
  induction h with
  | nil => exact ⟨Nat.le_refl _, fun _ h => absurd h List.not_mem_nil⟩
  | discard hdiscard hrest ih => exact ih hbins
  | cons hkept hfield hrest ih =>
    have hfirst := fun b hb => hbins b (List.mem_append_left _ (mem_toList.mpr hb))
    obtain ⟨hle, hin⟩ := ih fun b hb => hbins b (List.mem_append_right _ hb)
    refine ⟨(hfield.le hfirst).trans hle, fun b hb => ?_⟩
    rcases List.mem_append.mp hb with hb | hb
    · exact hfield.inChunk hfirst b (mem_toList.mp hb)
    · exact hin b hb

/-- Rows are read inside the data if and only if no row that lies there has a negative length or
ends behind the data. -/
theorem rowsBounded_iff (t : TableDef) {content : Bytes} (hcontent : content.length < 2 ^ 31)
    (dataSize n offset : Nat) :
    RowsBounded t content dataSize n offset ↔ RowsFit t content dataSize n offset := by
  induction n generalizing offset with
  | zero => exact Iff.rfl
  | succ n ih =>
    constructor
    · rintro ⟨hrow, hrest⟩ bins next hlies
      obtain ⟨⟨row, hdecode⟩, rfl⟩ := (rowLies_iff hcontent).mp hlies
      obtain ⟨-, hle, hin⟩ := hrow.decoded row next hdecode
      exact ⟨fun bin hbin => (hin bin hbin).1, hle, (ih next).mp (hrest row next hdecode)⟩
    · intro hfit
      have hbounded {bins : List (Nat × Int)} {next : Nat}
        (hlies : RowLies t content offset bins next) :
          offset < next ∧ next ≤ dataSize ∧ ∀ bin ∈ bins, InChunk content bin := by
        obtain ⟨hpos, hle, -⟩ := hfit bins next hlies
        obtain ⟨hlt, hin⟩ := hlies.2.bounded hpos
        exact ⟨hlt, hle, hin⟩
      refine ⟨⟨fun row next hdecode => ?_, fun next hskip => ?_⟩, fun row next hdecode => ?_⟩
      · exact hbounded ((rowLies_iff hcontent).mpr ⟨⟨row, hdecode⟩, rfl⟩)
      · obtain ⟨bins, hlies⟩ := rowLies_of_skipRow hcontent hskip
        exact ⟨(hbounded hlies).1, (hbounded hlies).2.1⟩
      · exact (ih next).mpr
          (hfit _ next ((rowLies_iff hcontent).mpr ⟨⟨row, hdecode⟩, rfl⟩)).2.2

/-- A key field and a string. -/
def stringTable : TableDef where
  fields := [⟨.unsigned, 4, false⟩, ⟨.string, 255, false⟩]
  keyFields := 1
  expireId := none
  lcmodId := none
  key_pos := Nat.one_pos
  fields_le := by decide
  key_kept := by
    rintro j f hj hf
    obtain rfl : j = 0 := Nat.lt_one_iff.mp hj
    cases hf
    rfl
  expire_lt := by simp
  expire_integer := by simp
  lcmod_integer := by simp

/-- The head of a node with one row, and the key 7. -/
def nodeHead (dataSize : UInt8) : Bytes :=
  [0, dataSize, 0, 0, 0, 1, 0, 0, 0, 1, 0, 0, 0, 0, 0, 0, 7, 0, 0, 0]

/-- A string of two bytes is read inside the data. -/
theorem rowsBounded_two :
    RowsBounded stringTable (nodeHead 27 ++ [0, 2, 0, 0, 0, 97, 98]) 27 1 20 := by
  refine (rowsBounded_iff stringTable (by decide) 27 1 20).mpr fun bins next hlies => ?_
  obtain ⟨⟨row, hrow⟩, rfl⟩ := (rowLies_iff (by decide)).mp hlies
  have hdecode : decodeRow stringTable (nodeHead 27 ++ [0, 2, 0, 0, 0, 97, 98]) 20 =
      some ([(1, .bin [97, 98])], 27) := by decide
  obtain ⟨-, rfl⟩ := Prod.mk.inj (Option.some.inj (hdecode.symm.trans hrow))
  exact ⟨by decide, Nat.le_refl 27, trivial⟩

/-- With the length -5, `decode_row` ends where it began. -/
theorem not_rowsBounded_backwards :
    ¬RowsBounded stringTable (nodeHead 25 ++ [0, 251, 255, 255, 255]) 25 1 20 := by
  intro h
  have hdecode : decodeRow stringTable (nodeHead 25 ++ [0, 251, 255, 255, 255]) 20 =
      some ([(1, .bin [])], 20) := by decide
  exact absurd (h.1.decoded _ _ hdecode).1 (Nat.lt_irrefl 20)

end ISearch.RawData
