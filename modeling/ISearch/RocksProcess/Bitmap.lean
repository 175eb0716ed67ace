import ISearch.KeyFormat.Codec
import ISearch.Lib.BitSections

/-!
# Case bitmaps of the storage helper (`db_process_rocks.cc`)

String keys are stored in lower case. The value of an entry begins with the bitmaps that restore
them: a location bitmap with a bit for every key field, and for every key that was changed a bitmap
with a bit for every character. Tables without a string key have no bitmaps.

`none` stands for an `assert` that fails and for an access past the end of a string. A function that
advances `bitmapLen` returns the rest of the value instead.
-/

namespace ISearch.RocksProcess

open List
open KeyFormat (FieldType Bytes)

def isUpper (c : UInt8) : Bool := 65 ≤ c && c ≤ 90

/-- `::tolower`, and what `convert_to_lower` does to a character. -/
def lowerChar (c : UInt8) : UInt8 := if isUpper c then c + 32 else c

def toLower (s : Bytes) : Bytes := s.map lowerChar

/-- `convert_to_lower`: the key, its bitmap, and whether it was changed. -/
def convertToLower (key : Bytes) : Bytes × Bytes × Bool :=
  (toLower key, packSections (key.map isUpper), key.any isUpper)

/-- The loop body of `encode_bitmap_keys`: the key, and its bitmap if it was changed. -/
def convertKey : FieldType → Bytes → Bytes × Option Bytes
  | .string, key =>
    let (lower, bitmap, hasBeenConverted) := convertToLower key
    (lower, if hasBeenConverted then some bitmap else none)
  | _, key => (key, none)

/-- `mNoBitmapKey`. -/
def noBitmapKey (types : List FieldType) : Bool := !types.contains .string

/-- The converted keys, and the bitmaps. -/
def encodeBitmapKeys (types : List FieldType) (keys : List Bytes) : List Bytes × Bytes :=
  if noBitmapKey types then (keys, [])
  else
    let converted := List.zipWith convertKey types keys
    (converted.map (·.1),
      packSections (converted.map (·.2.isSome)) ++ (converted.filterMap (·.2)).flatten)

/-- The characters that `recover_to_upper` changes back. -/
def recoverToUpper : Bytes → List Bool → Option Bytes
  | key, [] => some key
  | key, false :: bits =>
    match key with
    | [] => recoverToUpper [] bits
    | c :: key => do return c :: (← recoverToUpper key bits)
  | key, true :: bits =>
    match key with
    | [] => none
    | c :: key => if 97 ≤ c ∧ c ≤ 122 then do return (c - 32) :: (← recoverToUpper key bits) else none

/-- The loop of `decodeBitmapKeys` over the keys. -/
def recoverKeys : List FieldType → List Bytes → List Bool → Bytes → Option (List Bytes × Bytes)
  | _, [], _, value => some ([], value)
  | t :: types, key :: keys, bit :: bits, value =>
    if bit then
      if t = .string then do
        let (caseBits, value) ← unpackSections value
        let key ← recoverToUpper key caseBits
        let (keys, value) ← recoverKeys types keys bits value
        return (key :: keys, value)
      else none
    else do
      let (keys, value) ← recoverKeys types keys bits value
      return (key :: keys, value)
  | _, _, _, _ => none

def decodeBitmapKeys (types : List FieldType) (value : Bytes) (keys : List Bytes) :
    Option (List Bytes × Bytes) :=
  if noBitmapKey types then some (keys, value)
  else do
    let (bits, value) ← unpackSections value
    recoverKeys types keys bits value

/-- The second loop of `get_key_bitmap_len`. -/
def skipCaseBitmaps : List Bool → Bytes → Option Bytes
  | [], value => some value
  | bit :: bits, value =>
    if bit then do
      let (_, value) ← unpackSections value
      skipCaseBitmaps bits value
    else skipCaseBitmaps bits value

/-- `get_key_bitmap_len`. -/
def skipKeyBitmap (types : List FieldType) (value : Bytes) : Option Bytes :=
  if noBitmapKey types then some value
  else do
    let (bits, value) ← unpackSections value
    skipCaseBitmaps bits value

/-! ## What was encoded is restored -/

/-- The key as it is stored. -/
def lowerKey (t : FieldType) (key : Bytes) : Bytes := if t = .string then toLower key else key

theorem convertKey_fst (t : FieldType) (key : Bytes) : (convertKey t key).1 = lowerKey t key := by
  cases t <;> rfl

theorem lowerChar_sub {c : UInt8} (h : isUpper c = true) :
    97 ≤ lowerChar c ∧ lowerChar c ≤ 122 ∧ lowerChar c - 32 = c := by
  have hlt := c.toNat_lt
  simp only [isUpper, Bool.and_eq_true, decide_eq_true_eq, UInt8.le_iff_toNat_le] at h
  have h65 : UInt8.toNat 65 = 65 := rfl
  have h90 : UInt8.toNat 90 = 90 := rfl
  have h97 : UInt8.toNat 97 = 97 := rfl
  have h122 : UInt8.toNat 122 = 122 := rfl
  have h32 : UInt8.toNat 32 = 32 := rfl
  have hup : isUpper c = true := by
    simp only [isUpper, Bool.and_eq_true, decide_eq_true_eq, UInt8.le_iff_toNat_le]
    omega
  have hadd : (c + 32).toNat = c.toNat + 32 := by
    rw [UInt8.toNat_add, h32]
    omega
  rw [lowerChar, if_pos hup]
  refine ⟨?_, ?_, UInt8.add_sub_cancel ..⟩
  · rw [UInt8.le_iff_toNat_le]
    omega
  · rw [UInt8.le_iff_toNat_le]
    omega

theorem recoverToUpper_replicate (key : Bytes) (n : Nat) :
    recoverToUpper key (replicate n false) = some key := by
  induction n generalizing key with
  | zero => simp [recoverToUpper]
  | succ n ih =>
    rw [replicate_succ]
    cases key with
    | nil => exact ih []
    | cons c key => simp [recoverToUpper, ih]

theorem recoverToUpper_toLower (key : Bytes) (n : Nat) :
    recoverToUpper (toLower key) (key.map isUpper ++ replicate n false) = some key := by
  induction key with
  | nil => exact recoverToUpper_replicate [] n
  | cons c key ih =>
    cases h : isUpper c with
    | true =>
      obtain ⟨hlo, hhi, hsub⟩ := lowerChar_sub h
      rw [toLower, map_cons, map_cons, cons_append, h, recoverToUpper,
        if_pos ⟨hlo, hhi⟩, hsub]
      exact congrArg (·.bind fun key => some (c :: key)) ih
    | false =>
      have hc : lowerChar c = c := by rw [lowerChar, if_neg (by simp [h])]
      rw [toLower, map_cons, map_cons, cons_append, h, recoverToUpper, hc]
      exact congrArg (·.bind fun key => some (c :: key)) ih

/-- A key that was not changed has no upper case character. -/
theorem toLower_of_not_any {key : Bytes} (h : key.any isUpper = false) : toLower key = key := by
  rw [any_eq_false] at h
  have hmap : key.map lowerChar = key.map id := by
    apply map_congr_left
    intro c hc
    rw [lowerChar, if_neg (h c hc), id]
  rw [toLower, hmap, map_id]

theorem convertKey_string (key : Bytes) :
    convertKey .string key =
      (toLower key, bif key.any isUpper then some (packSections (key.map isUpper)) else none) := by
  cases h : key.any isUpper <;> simp [convertKey, convertToLower, h]

theorem convertKey_none {t : FieldType} {key : Bytes} (h : (convertKey t key).2 = none) :
    lowerKey t key = key := by
  cases t with
  | string =>
    rw [convertKey_string] at h
    cases hany : key.any isUpper with
    | true => simp [hany] at h
    | false => exact toLower_of_not_any hany
  | _ => rfl

theorem convertKey_some {t : FieldType} {key bitmap : Bytes}
    (h : (convertKey t key).2 = some bitmap) :
    t = .string ∧ key ≠ [] ∧ bitmap = packSections (key.map isUpper) := by
  cases t with
  | string =>
    rw [convertKey_string] at h
    cases hany : key.any isUpper with
    | true =>
      rw [hany] at h
      refine ⟨rfl, ?_, (Option.some.inj h).symm⟩
      rintro rfl
      simp at hany
    | false => simp [hany] at h
  | _ => cases h

/-- The bits of the location bitmap, and the case bitmaps. -/
def locationBits (types : List FieldType) (keys : List Bytes) : List Bool :=
  (List.zipWith convertKey types keys).map (·.2.isSome)
def caseBitmaps (types : List FieldType) (keys : List Bytes) : Bytes :=
  ((List.zipWith convertKey types keys).filterMap (·.2)).flatten

theorem recoverKeys_encode {types : List FieldType} {keys : List Bytes}
    (hlen : types.length = keys.length) (n : Nat) (rest : Bytes) :
    recoverKeys types (List.zipWith lowerKey types keys)
        (locationBits types keys ++ replicate n false) (caseBitmaps types keys ++ rest) =
      some (keys, rest) := by
  induction types generalizing keys with
  | nil =>
    obtain rfl : keys = [] := eq_nil_of_length_eq_zero hlen.symm
    simp [recoverKeys, caseBitmaps]
  | cons t types ih =>
    obtain ⟨key, keys, rfl⟩ := exists_cons_of_length_eq_add_one hlen.symm
    have hrest := ih (Nat.succ.inj hlen)
    cases hconv : (convertKey t key).2 with
    | none =>
      have hloc : locationBits (t :: types) (key :: keys) = false :: locationBits types keys := by
        simp [locationBits, hconv]
      have hcase : caseBitmaps (t :: types) (key :: keys) = caseBitmaps types keys := by
        simp [caseBitmaps, hconv]
      rw [hloc, hcase, zipWith_cons_cons, cons_append, recoverKeys, hrest,
        convertKey_none hconv]
      rfl
    | some bitmap =>
      obtain ⟨rfl, hne, rfl⟩ := convertKey_some hconv
      have hloc : locationBits (.string :: types) (key :: keys) =
          true :: locationBits types keys := by
        simp [locationBits, hconv]
      have hcase : caseBitmaps (.string :: types) (key :: keys) =
          packSections (key.map isUpper) ++ caseBitmaps types keys := by
        simp [caseBitmaps, hconv]
      obtain ⟨m, hm⟩ := unpackSections_packSections (key.map isUpper) (by simpa using hne)
        (caseBitmaps types keys ++ rest)
      have hlow : lowerKey .string key = toLower key := rfl
      rw [hloc, hcase, zipWith_cons_cons, cons_append, append_assoc, recoverKeys]
      simp [hm, hlow, recoverToUpper_toLower, hrest]

theorem skipCaseBitmaps_replicate (n : Nat) (rest : Bytes) :
    skipCaseBitmaps (replicate n false) rest = some rest := by
  induction n with
  | zero => rfl
  | succ n ih => simpa [replicate_succ, skipCaseBitmaps] using ih

theorem skipCaseBitmaps_encode {types : List FieldType} {keys : List Bytes} (n : Nat)
    (rest : Bytes) :
    skipCaseBitmaps (locationBits types keys ++ replicate n false)
      (caseBitmaps types keys ++ rest) = some rest := by
  induction types generalizing keys with
  | nil => simpa [locationBits, caseBitmaps] using skipCaseBitmaps_replicate n rest
  | cons t types ih =>
    cases keys with
    | nil => simpa [locationBits, caseBitmaps] using skipCaseBitmaps_replicate n rest
    | cons key keys =>
      cases hconv : (convertKey t key).2 with
      | none =>
        simpa [locationBits, caseBitmaps, hconv, skipCaseBitmaps] using @ih keys
      | some bitmap =>
        obtain ⟨rfl, hne, rfl⟩ := convertKey_some hconv
        obtain ⟨m, hm⟩ := unpackSections_packSections (key.map isUpper)
          (by simpa using hne) (caseBitmaps types keys ++ rest)
        have hloc : locationBits (.string :: types) (key :: keys) =
            true :: locationBits types keys := by
          simp [locationBits, hconv]
        have hcase : caseBitmaps (.string :: types) (key :: keys) =
            packSections (key.map isUpper) ++ caseBitmaps types keys := by
          simp [caseBitmaps, hconv]
        rw [hloc, hcase, cons_append, append_assoc, skipCaseBitmaps]
        simp [hm, ih]

theorem zipWith_lowerKey_of_noBitmapKey {types : List FieldType} {keys : List Bytes}
    (h : noBitmapKey types = true) (hlen : types.length = keys.length) :
    List.zipWith lowerKey types keys = keys := by
  induction types generalizing keys with
  | nil => exact (eq_nil_of_length_eq_zero hlen.symm).symm
  | cons t types ih =>
    obtain ⟨key, keys, rfl⟩ := exists_cons_of_length_eq_add_one hlen.symm
    have ht : t ≠ .string ∧ noBitmapKey types = true := by
      simpa [noBitmapKey, ne_comm] using h
    rw [zipWith_cons_cons, ih ht.2 (Nat.succ.inj hlen), lowerKey, if_neg ht.1]

theorem encodeBitmapKeys_fst {types : List FieldType} {keys : List Bytes}
    (hlen : types.length = keys.length) :
    (encodeBitmapKeys types keys).1 = List.zipWith lowerKey types keys := by
  rw [encodeBitmapKeys]
  split
  · rename_i h
    exact (zipWith_lowerKey_of_noBitmapKey h hlen).symm
  · simp only [map_zipWith]
    congr
    funext t key
    exact convertKey_fst t key

theorem unpackSections_encode {types : List FieldType} {keys : List Bytes}
    (h : ¬noBitmapKey types = true) (hlen : types.length = keys.length) (rest : Bytes) :
    ∃ n, unpackSections (packSections (locationBits types keys) ++ caseBitmaps types keys ++ rest) =
      some (locationBits types keys ++ replicate n false, caseBitmaps types keys ++ rest) := by
  have hne : locationBits types keys ≠ [] := by
    cases types with
    | nil => simp [noBitmapKey] at h
    | cons t types =>
      obtain ⟨key, keys, rfl⟩ := exists_cons_of_length_eq_add_one hlen.symm
      simp [locationBits]
  rw [append_assoc]
  exact unpackSections_packSections _ hne _

/-- `decodeBitmapKeys` restores what `encode_bitmap_keys` has changed. -/
theorem decodeBitmapKeys_encodeBitmapKeys {types : List FieldType} {keys : List Bytes}
    (hlen : types.length = keys.length) (rest : Bytes) :
    decodeBitmapKeys types ((encodeBitmapKeys types keys).2 ++ rest)
      (List.zipWith lowerKey types keys) = some (keys, rest) := by
  rw [decodeBitmapKeys, encodeBitmapKeys]
  split
  · rename_i h
    rw [zipWith_lowerKey_of_noBitmapKey h hlen]
    rfl
  · rename_i h
    obtain ⟨n, hn⟩ := unpackSections_encode h hlen rest
    change (unpackSections (packSections (locationBits types keys) ++ caseBitmaps types keys ++
      rest)).bind _ = _
    rw [hn]
    exact recoverKeys_encode hlen n rest

theorem skipKeyBitmap_encodeBitmapKeys {types : List FieldType} {keys : List Bytes}
    (hlen : types.length = keys.length) (rest : Bytes) :
    skipKeyBitmap types ((encodeBitmapKeys types keys).2 ++ rest) = some rest := by
  rw [skipKeyBitmap, encodeBitmapKeys]
  split
  · rfl
  · rename_i h
    obtain ⟨n, hn⟩ := unpackSections_encode h hlen rest
    change (unpackSections (packSections (locationBits types keys) ++ caseBitmaps types keys ++
      rest)).bind _ = _
    rw [hn]
    exact skipCaseBitmaps_encode n rest

end ISearch.RocksProcess
