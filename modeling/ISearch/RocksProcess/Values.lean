import ISearch.KeyFormat.Codec

/-!
# Values of the storage helper (`db_process_rocks.cc`)

Between requests, keys and the stored bytes a field value is a string, decimal for the integers. The
fields that are not part of the key are stored one behind the other, an integer in 4 or 8 bytes and
a string behind its length.

`none` stands for a read past the end of the stored bytes or an exception. Field type `Float` is
left out as in the key codec.
-/

namespace ISearch.RocksProcess

open KeyFormat List

/-- `str2Value`. `errno` stays `0`, since the strings come from `to_string`. -/
def str2Value (str : Bytes) : (t : FieldType) → t.Value
  | .signed => strtoll str
  | .unsigned => strtoull str
  | .string | .binary => str

structure Field where
  type : FieldType
  size : Nat
  deriving DecidableEq, Repr

/-- The bytes of an integer field. -/
def Field.width (f : Field) : Nat := if f.size > 4 then 8 else 4

/-- What `shrink_value` appends for a field. -/
def storeValue (f : Field) (value : Bytes) : Bytes :=
  match f.type with
  | .signed => leBytes f.width (strtoll value).toUInt64.toNat
  | .unsigned => leBytes f.width (strtoull value).toNat
  | .string | .binary => leBytes 4 value.length ++ value

def shrinkValue : List Field → List Bytes → Bytes
  | f :: fields, value :: values => storeValue f value ++ shrinkValue fields values
  | _, _ => []

/-- An `int32_t` or `int64_t` with the given bytes. -/
def signedOf (n : Nat) (v : Nat) : Int64 :=
  if n = 8 then (UInt64.ofNat v).toInt64 else (UInt32.ofNat v).toInt32.toInt64

/-- `get_value_by_id`, with the bytes behind the value. -/
def getValueById (f : Field) (valueHead : Bytes) : Option (Bytes × Bytes) :=
  match f.type with
  | .signed =>
    if f.width ≤ valueHead.length then
      some (toStringS64 (signedOf f.width (ofLeBytes (valueHead.take f.width))),
        valueHead.drop f.width)
    else none
  | .unsigned =>
    if f.width ≤ valueHead.length then
      some (toStringU64 (UInt64.ofNat (ofLeBytes (valueHead.take f.width))),
        valueHead.drop f.width)
    else none
  | .string | .binary =>
    let len := ofLeBytes (valueHead.take 4)
    if len < 2 ^ 31 ∧ 4 + len ≤ valueHead.length then
      some ((valueHead.drop 4).take len, valueHead.drop (4 + len))
    else none

/-- The fields one after the other. -/
def getValues : List Field → Bytes → Option (List Bytes)
  | [], _ => some []
  | f :: fields, valueHead => do
    let (value, valueHead) ← getValueById f valueHead
    return value :: (← getValues fields valueHead)

/-- `split_values`, which does not parse the last field. -/
def splitValues : List Field → Bytes → Option (List Bytes)
  | [], _ => some []
  | [_], _ => some [[]]
  | f :: fields, valueHead => do
    let (value, valueHead) ← getValueById f valueHead
    return value :: (← splitValues fields valueHead)

/-! ## What was stored is read back -/

theorem str2Value_toStr (t : FieldType) (x : t.Value) : str2Value (t.toStr x) t = x := by
  cases t with
  | signed => exact strtoll_toStringS64 x
  | unsigned => exact strtoull_toStringU64 x
  | string => rfl
  | binary => rfl

theorem toStr_injective (t : FieldType) : Function.Injective t.toStr := by
  intro x y h
  rw [← str2Value_toStr t x, h, str2Value_toStr]

/-- The values that the bytes of a field hold. -/
def Field.Fits : (f : Field) → f.type.Value → Prop
  | ⟨.signed, size⟩, x => size > 4 ∨ (-2 ^ 31 ≤ Int64.toInt x ∧ Int64.toInt x < 2 ^ 31)
  | ⟨.unsigned, size⟩, x => size > 4 ∨ UInt64.toNat x < 2 ^ 32
  | ⟨.string, _⟩, x | ⟨.binary, _⟩, x => (show Bytes from x).length < 2 ^ 31

theorem Field.width_cases (f : Field) :
    (f.size > 4 ∧ f.width = 8) ∨ (¬ f.size > 4 ∧ f.width = 4) := by
  rw [Field.width]
  split
  · rename_i h
    exact .inl ⟨h, rfl⟩
  · rename_i h
    exact .inr ⟨h, rfl⟩

theorem signedOf_leBytes {size : Nat} {x : Int64} :
    signedOf (Field.width ⟨.signed, size⟩) (ofLeBytes (leBytes (Field.width ⟨.signed, size⟩)
      x.toUInt64.toNat)) = x ↔ Field.Fits ⟨.signed, size⟩ x := by
  have hlt := x.toUInt64.toNat_lt
  rw [ofLeBytes_leBytes]
  rcases Field.width_cases ⟨.signed, size⟩ with ⟨hs, hw⟩ | ⟨hs, hw⟩
  · rw [hw, signedOf, if_pos rfl, Nat.mod_eq_of_lt (by omega), UInt64.ofNat_toNat]
    exact iff_of_true rfl (.inl hs)
  · have hx : x.toInt = Int.bmod x.toUInt64.toNat (2 ^ 64) := x.toBitVec.toInt_eq_toNat_bmod
    have hy : ∀ y : UInt32, y.toInt32.toInt = Int.bmod y.toNat (2 ^ 32) := fun y =>
      y.toInt32.toBitVec.toInt_eq_toNat_bmod
    have hfits : Field.Fits ⟨.signed, size⟩ x ↔ -2 ^ 31 ≤ x.toInt ∧ x.toInt < 2 ^ 31 :=
      or_iff_right hs
    rw [hw, signedOf, if_neg (by decide), hfits, ← Int64.toInt_inj, Int32.toInt_toInt64, hy,
      UInt32.toNat_ofNat', hx]
    simp only [Int.bmod_def]
    constructor
    · intro h
      split at h <;> split at h <;> split <;> omega
    · intro h
      split at h <;> split <;> omega

theorem unsignedOf_leBytes {size : Nat} {x : UInt64} :
    UInt64.ofNat (ofLeBytes (leBytes (Field.width ⟨.unsigned, size⟩) x.toNat)) = x ↔
      Field.Fits ⟨.unsigned, size⟩ x := by
  have hlt := x.toNat_lt
  rw [ofLeBytes_leBytes]
  rcases Field.width_cases ⟨.unsigned, size⟩ with ⟨hs, hw⟩ | ⟨hs, hw⟩
  · rw [hw, Nat.mod_eq_of_lt (by omega), UInt64.ofNat_toNat]
    exact iff_of_true rfl (.inl hs)
  · have hfits : Field.Fits ⟨.unsigned, size⟩ x ↔ x.toNat < 2 ^ 32 := or_iff_right hs
    rw [hw, hfits, ← UInt64.toNat_inj, UInt64.toNat_ofNat']
    omega

/-- What is read from the bytes of a value, and what the value must satisfy to be read back. -/
structure ReadBack (f : Field) (x : f.type.Value) : Prop where
  fits : f.Fits x → ∀ rest,
    getValueById f (storeValue f (f.type.toStr x) ++ rest) = some (f.type.toStr x, rest)
  of_eq : ∀ rest rest',
    getValueById f (storeValue f (f.type.toStr x) ++ rest) = some (f.type.toStr x, rest') → f.Fits x

theorem readBack_signed (size : Nat) (x : Int64) : ReadBack ⟨.signed, size⟩ x := by
  have hread : ∀ rest, getValueById ⟨.signed, size⟩
      (storeValue ⟨.signed, size⟩ (toStringS64 x) ++ rest) =
      some (toStringS64 (signedOf (Field.width ⟨.signed, size⟩) (ofLeBytes (leBytes
        (Field.width ⟨.signed, size⟩) x.toUInt64.toNat))), rest) := by
    intro rest
    simp only [getValueById, storeValue, strtoll_toStringS64]
    rw [if_pos (by simp), take_left' (by simp), drop_left' (by simp)]
  constructor
  · intro h rest
    exact (hread rest).trans (by rw [signedOf_leBytes.mpr h]; rfl)
  · intro rest rest' h
    have heq := (Prod.mk.inj (Option.some.inj ((hread rest).symm.trans h))).1
    exact signedOf_leBytes.mp (toStr_injective .signed heq)

theorem readBack_unsigned (size : Nat) (x : UInt64) : ReadBack ⟨.unsigned, size⟩ x := by
  have hread : ∀ rest, getValueById ⟨.unsigned, size⟩
      (storeValue ⟨.unsigned, size⟩ (toStringU64 x) ++ rest) =
      some (toStringU64 (UInt64.ofNat (ofLeBytes (leBytes (Field.width ⟨.unsigned, size⟩)
        x.toNat))), rest) := by
    intro rest
    simp only [getValueById, storeValue, strtoull_toStringU64]
    rw [if_pos (by simp), take_left' (by simp), drop_left' (by simp)]
  constructor
  · intro h rest
    exact (hread rest).trans (by rw [unsignedOf_leBytes.mpr h]; rfl)
  · intro rest rest' h
    have heq := (Prod.mk.inj (Option.some.inj ((hread rest).symm.trans h))).1
    exact unsignedOf_leBytes.mp (toStr_injective .unsigned heq)

theorem readBack_str (size : Nat) (x : Bytes) : ReadBack ⟨.string, size⟩ x := by
  have hlen : ∀ rest, ofLeBytes ((leBytes 4 x.length ++ x ++ rest).take 4) =
      x.length % 2 ^ 32 := by
    intro rest
    rw [append_assoc, take_left' (length_leBytes 4 _), ofLeBytes_leBytes]
    norm_num
  constructor
  · intro (h : x.length < 2 ^ 31) rest
    have hmod : x.length % 2 ^ 32 = x.length := Nat.mod_eq_of_lt (by omega)
    change getValueById ⟨.string, size⟩ (leBytes 4 x.length ++ x ++ rest) = some (x, rest)
    simp only [getValueById, hlen, hmod]
    rw [if_pos ⟨h, by simp⟩, append_assoc, drop_left' (length_leBytes 4 _),
      take_left' rfl, ← append_assoc, drop_left' (by simp)]
  · intro rest rest' h
    change getValueById ⟨.string, size⟩ (leBytes 4 x.length ++ x ++ rest) = some (x, rest') at h
    simp only [getValueById, hlen] at h
    split at h
    · rename_i hshort
      have htake := congrArg List.length (Prod.mk.inj (Option.some.inj h)).1
      rw [length_take] at htake
      change x.length < 2 ^ 31
      omega
    · cases h

theorem readBack (f : Field) (x : f.type.Value) : ReadBack f x := by
  obtain ⟨t, size⟩ := f
  cases t with
  | signed => exact readBack_signed size x
  | unsigned => exact readBack_unsigned size x
  | string => exact readBack_str size x
  | binary => exact ⟨(readBack_str size x).fits, (readBack_str size x).of_eq⟩

section Fields

variable {ι : Type} {field : ι → Field} {value : (i : ι) → (field i).type.Value} {ids : List ι}

/-- The row that is read back is the one that was stored, exactly if every value fits its field. -/
theorem getValues_shrinkValue :
    getValues (ids.map field)
        (shrinkValue (ids.map field) (ids.map fun i => (field i).type.toStr (value i))) =
      some (ids.map fun i => (field i).type.toStr (value i)) ↔
      ∀ i ∈ ids, (field i).Fits (value i) := by
  induction ids with
  | nil => simp [getValues]
  | cons i ids ih =>
    simp only [map_cons, shrinkValue, getValues, forall_mem_cons, ← ih]
    constructor
    · intro h
      obtain ⟨⟨v, rest⟩, hv, h⟩ := Option.bind_eq_some_iff.mp h
      obtain ⟨vs, hvs, h⟩ := Option.bind_eq_some_iff.mp h
      obtain ⟨rfl, rfl⟩ := List.cons.inj (Option.some.inj h)
      have hfit := (readBack (field i) (value i)).of_eq _ _ hv
      rw [(readBack (field i) (value i)).fits hfit] at hv
      obtain ⟨-, rfl⟩ := Prod.mk.inj (Option.some.inj hv)
      exact ⟨hfit, hvs⟩
    · rintro ⟨hfit, hrest⟩
      rw [(readBack (field i) (value i)).fits hfit]
      simp [hrest]

/-- `split_values` reads the last field as the empty string. -/
theorem splitValues_shrinkValue (h : ∀ i ∈ ids, (field i).Fits (value i)) :
    splitValues (ids.map field)
        (shrinkValue (ids.map field) (ids.map fun i => (field i).type.toStr (value i))) =
      some (if ids = [] then []
        else ids.dropLast.map (fun i => (field i).type.toStr (value i)) ++ [[]]) := by
  induction ids with
  | nil => rfl
  | cons i ids ih =>
    cases ids with
    | nil => rfl
    | cons j ids =>
      have hrest := ih fun k hk => h k (mem_cons_of_mem i hk)
      simp only [map_cons] at hrest ⊢
      rw [shrinkValue, splitValues, (readBack (field i) (value i)).fits (h i mem_cons_self)]
      · simp [hrest]
      · simp

end Fields

end ISearch.RocksProcess
