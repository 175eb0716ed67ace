import ISearch.RocksProcess.Bitmap

/-!
# The bytes of the case bitmaps (`db_process_rocks.cc`)

The loops that write and read the case bitmaps work on bytes: a writer collects seven bits in
`localBits` and sets the head bit of every section but the last; a reader moves `bitmapLen` forward
in the value. They do what `packSections` and the functions on bits do.

`none` stands for an `assert` that fails and for an access behind the `'\0'` of a string.
-/

namespace ISearch.RocksProcess

open List Option
open KeyFormat (FieldType Bytes)

/-! ## The writers -/

/-- A round of the loops of `encode_bitmap_keys` and `convert_to_lower`. The head bit is not set
yet, so that the shift to the right brings in no sign. -/
def addBit (localBits : UInt8) (idx : Nat) (bit : Bool) : UInt8 :=
  let shift := UInt8.ofNat (6 - idx % 7)
  if bit then (localBits >>> shift ||| 1) <<< shift else localBits

/-- The loops, over the bits from `idx` on. -/
def packLoop (localBits : UInt8) (idx : Nat) : List Bool → Bytes
  | [] => []
  | bit :: bits =>
    let localBits := addBit localBits idx bit
    if bits = [] then [localBits]
    else if (idx + 1) % 7 = 0 then (localBits ||| 128) :: packLoop 0 (idx + 1) bits
    else packLoop localBits (idx + 1) bits

/-- `addBit` puts a bit behind those of the section. -/
theorem addBit_sectionBits {bits : List Bool} {idx : Nat} (hlen : bits.length = idx % 7)
    (bit : Bool) :
    addBit (UInt8.ofNat (sectionBits 6 bits)) idx bit =
      UInt8.ofNat (sectionBits 6 (bits ++ [bit])) := by
  have hlt : idx % 7 < 7 := Nat.mod_lt _ (by decide)
  rw [addBit, ← hlen]
  match bits with
  | [] => decide +revert
  | [a] => clear hlen; decide +revert
  | [a, b] => clear hlen; decide +revert
  | [a, b, c] => clear hlen; decide +revert
  | [a, b, c, d] => clear hlen; decide +revert
  | [a, b, c, d, e] => clear hlen; decide +revert
  | [a, b, c, d, e, f] => clear hlen; decide +revert
  | _ :: _ :: _ :: _ :: _ :: _ :: _ :: _ =>
    simp only [length_cons] at hlen
    omega

theorem or_headBit (n : Nat) (hlt : n < 128) : UInt8.ofNat n ||| 128 = UInt8.ofNat (n + 128) := by
  decide +revert

theorem packSections_append {bits rest : List Bool} (hlen : bits.length = 7) (hne : rest ≠ []) :
    packSections (bits ++ rest) = (UInt8.ofNat (sectionBits 6 bits) ||| 128) :: packSections rest := by
  have hpos := length_pos_iff.mpr hne
  rw [packSections, dif_neg (by rw [length_append]; omega), take_left' hlen,
    drop_left' hlen, or_headBit _ (sectionBits_lt 6 bits)]

theorem packLoop_eq {bits done : List Bool} {idx : Nat} (hlen : done.length = idx % 7)
    (hne : bits ≠ []) :
    packLoop (UInt8.ofNat (sectionBits 6 done)) idx bits = packSections (done ++ bits) := by
  induction bits generalizing done idx with
  | nil => exact absurd rfl hne
  | cons bit bits ih =>
    have hmod : idx % 7 < 7 := Nat.mod_lt _ (by decide)
    have happend : done ++ bit :: bits = (done ++ [bit]) ++ bits := by
      rw [append_assoc, singleton_append]
    have hlen' : (done ++ [bit]).length = idx % 7 + 1 := by
      rw [length_append, hlen, length_singleton]
    rw [packLoop, addBit_sectionBits hlen, happend]
    split_ifs with hlast hhead
    · subst hlast
      rw [append_nil, packSections, dif_pos (by omega), if_neg (by simp)]
    · rw [packSections_append (by omega) hlast]
      have hnil : ([] : List Bool).length = (idx + 1) % 7 := by simp [hhead]
      exact congrArg _ (ih hnil hlast)
    · exact ih (by omega) hlast

/-- `convert_to_lower`, byte by byte. -/
def convertToLowerBytes (key : Bytes) : Bytes × Bytes × Bool :=
  (toLower key, packLoop 0 0 (key.map isUpper), key.any isUpper)

theorem packLoop_zero (bits : List Bool) : packLoop 0 0 bits = packSections bits := by
  by_cases hne : bits = []
  · subst hne
    rw [packLoop, packSections]
    rfl
  · have hnil : ([] : List Bool).length = 0 % 7 := rfl
    exact packLoop_eq hnil hne

theorem convertToLowerBytes_eq (key : Bytes) : convertToLowerBytes key = convertToLower key := by
  rw [convertToLowerBytes, convertToLower, packLoop_zero]

/-- The loop body of `encode_bitmap_keys`. -/
def convertKeyBytes : FieldType → Bytes → Bytes × Option Bytes
  | .string, key =>
    let (lower, bitmap, hasBeenConverted) := convertToLowerBytes key
    (lower, if hasBeenConverted then some bitmap else none)
  | _, key => (key, none)

def encodeBitmapKeysBytes (types : List FieldType) (keys : List Bytes) : List Bytes × Bytes :=
  if noBitmapKey types then (keys, [])
  else
    let converted := List.zipWith convertKeyBytes types keys
    (converted.map (·.1),
      packLoop 0 0 (converted.map (·.2.isSome)) ++ (converted.filterMap (·.2)).flatten)

theorem encodeBitmapKeysBytes_eq (types : List FieldType) (keys : List Bytes) :
    encodeBitmapKeysBytes types keys = encodeBitmapKeys types keys := by
  have hconvert : convertKeyBytes = convertKey := by
    funext t key
    cases t with
    | string => rw [convertKeyBytes, convertKey, convertToLowerBytes_eq]
    | _ => rfl
  rw [encodeBitmapKeysBytes, encodeBitmapKeys, hconvert]
  dsimp only
  rw [packLoop_zero]

/-- `sectionBits >> shift & 1U`, for the bit of a key or of a character. -/
def bitAt (sectionBits : UInt8) (idx : Nat) : Bool :=
  sectionBits >>> UInt8.ofNat (6 - idx % 7) &&& 1 = 1

/-- The first loop of `decodeBitmapKeys`: the sections, and `bitmapLen`. -/
def readSections (value : Bytes) (bitmapLen : Nat) : Option (Bytes × Nat) :=
  if bitmapLen ≤ value.length then
    let sectionBits := value.getD bitmapLen 0
    if sectionBits &&& 0x80 = 0 then some ([sectionBits], bitmapLen + 1)
    else (readSections value (bitmapLen + 1)).map fun (bytes, len) => (sectionBits :: bytes, len)
  else none
termination_by value.length + 1 - bitmapLen

/-- A character that is changed back; behind the key stands the `'\0'`. -/
def upperAt (key : Bytes) (kIdx : Nat) : Option Bytes :=
  match key[kIdx]? with
  | some cc => if 97 ≤ cc ∧ cc ≤ 122 then some (key.set kIdx (cc - 32)) else none
  | none => none

/-- The loop of `recover_to_upper`, with `bitmapLen`. -/
def recoverToUpperAt (value : Bytes) (bitmapLen kIdx : Nat) (key : Bytes) : Option (Bytes × Nat) :=
  if bitmapLen ≤ value.length then
    let sectionBits := value.getD bitmapLen 0
    match if bitAt sectionBits kIdx then upperAt key kIdx else some key with
    | none => none
    | some key =>
      if (kIdx + 1) % 7 = 0 then
        if sectionBits &&& 0x80 = 0 then some (key, bitmapLen + 1)
        else recoverToUpperAt value (bitmapLen + 1) (kIdx + 1) key
      else recoverToUpperAt value bitmapLen (kIdx + 1) key
  else none
termination_by (value.length + 1 - bitmapLen, 6 - kIdx % 7)

/-- The second loop of `decodeBitmapKeys`, over the keys from `idx` on. -/
def recoverKeysAt (value location : Bytes) :
    Nat → List FieldType → List Bytes → Nat → Option (List Bytes × Nat)
  | _, _, [], bitmapLen => some ([], bitmapLen)
  | idx, t :: types, key :: keys, bitmapLen => do
    let sectionBits ← location[idx / 7]?
    if bitAt sectionBits idx then
      if t = .string then do
        let (key, bitmapLen) ← recoverToUpperAt value bitmapLen 0 key
        let (keys, bitmapLen) ← recoverKeysAt value location (idx + 1) types keys bitmapLen
        return (key :: keys, bitmapLen)
      else none
    else do
      let (keys, bitmapLen) ← recoverKeysAt value location (idx + 1) types keys bitmapLen
      return (key :: keys, bitmapLen)
  | _, [], _ :: _, _ => none

/-- `decodeBitmapKeys`, with `bitmapLen`. -/
def decodeBitmapKeysAt (types : List FieldType) (value : Bytes) (keys : List Bytes) :
    Option (List Bytes × Nat) :=
  if noBitmapKey types then some (keys, 0)
  else do
    let (location, bitmapLen) ← readSections value 0
    recoverKeysAt value location 0 types keys bitmapLen

/-- The loops of `get_key_bitmap_len` over the bits of a location bitmap. -/
def skipCaseBitmapsAt (value : Bytes) : List Bool → Nat → Option Nat
  | [], bitmapLen => some bitmapLen
  | bit :: bits, bitmapLen =>
    if bit then do
      let (_, bitmapLen) ← readSections value bitmapLen
      skipCaseBitmapsAt value bits bitmapLen
    else skipCaseBitmapsAt value bits bitmapLen

def getKeyBitmapLen (types : List FieldType) (value : Bytes) : Option Nat :=
  if noBitmapKey types then some 0
  else do
    let (location, bitmapLen) ← readSections value 0
    skipCaseBitmapsAt value (location.flatMap fun b => (List.range 7).map (bitAt b)) bitmapLen

/-! ## What is read -/

theorem bitAt_eq (b : UInt8) (idx : Nat) : bitAt b idx = b.toNat.testBit (6 - idx % 7) := by
  have hshift : (UInt8.ofNat (6 - idx % 7)).toNat % 8 = 6 - idx % 7 := by
    rw [UInt8.toNat_ofNat']
    omega
  have h1 : UInt8.toNat 1 = 1 := rfl
  rw [bitAt, Nat.testBit, Bool.eq_iff_iff, decide_eq_true_eq, ← UInt8.toNat_inj, UInt8.toNat_and,
    UInt8.toNat_shiftRight, hshift, h1, Nat.and_comm 1, Nat.and_one_is_mod, bne_iff_ne]
  omega

theorem sectionOf_eq (b : UInt8) : (List.range 7).map (bitAt b) = sectionOf b := by
  apply map_congr_left
  intro i hi
  rw [bitAt_eq, Nat.mod_eq_of_lt (mem_range.mp hi)]

theorem headBit_eq_zero (b : UInt8) : b &&& 0x80 = 0 ↔ b.toNat < 128 := by
  have h80 : UInt8.toNat 0x80 = 2 ^ 7 := rfl
  have hlt := b.toNat_lt
  rw [← UInt8.toNat_inj, UInt8.toNat_and, h80, Nat.and_two_pow, UInt8.toNat_zero,
    Nat.testBit_eq_decide_div_mod_eq]
  by_cases h : b.toNat / 2 ^ 7 % 2 = 1
  · rw [decide_eq_true h, Bool.toNat_true]
    omega
  · rw [decide_eq_false h, Bool.toNat_false]
    omega

/-- The reader of a value has got to a position, and has `rest` in front of it. -/
structure At (value : Bytes) (pos : Nat) (rest : Bytes) : Prop where
  le : pos ≤ value.length
  drop : value.drop pos = rest

theorem At.cons {value : Bytes} {pos : Nat} {b : UInt8} {rest : Bytes}
    (h : At value pos (b :: rest)) : value.getD pos 0 = b ∧ At value (pos + 1) rest := by
  have hlt : pos < value.length := by
    by_contra hge
    have := h.drop
    rw [drop_eq_nil_of_le (Nat.le_of_not_lt hge)] at this
    cases this
  have hdrop := h.drop
  rw [drop_eq_getElem_cons hlt] at hdrop
  obtain ⟨hb, hrest⟩ := List.cons.inj hdrop
  exact ⟨by rw [getD_eq_getElem _ _ hlt, hb], hlt, hrest⟩

theorem At.pos_eq {bitmap rest : Bytes} {pos : Nat} (h : At (bitmap ++ rest) pos rest) :
    pos = bitmap.length := by
  have hlen := congrArg List.length h.drop
  have hle := h.le
  rw [length_drop, length_append] at hlen
  rw [length_append] at hle
  omega

theorem readSections_of_unpackSections {value l : Bytes} {pos : Nat} {bits : List Bool}
    {rest : Bytes} (hl : At value pos l) (h : unpackSections l = some (bits, rest)) :
    ∃ bytes len, readSections value pos = some (bytes, len) ∧ At value len rest ∧
      bytes.flatMap sectionOf = bits := by
  induction l generalizing pos bits rest with
  | nil => cases h
  | cons b l ih =>
    obtain ⟨hb, hnext⟩ := hl.cons
    rw [readSections, if_pos hl.le, hb]
    dsimp only
    rw [unpackSections] at h
    split_ifs at h with hlast
    · obtain ⟨rfl, rfl⟩ := Prod.mk.inj (Option.some.inj h)
      rw [if_pos ((headBit_eq_zero b).mpr hlast)]
      exact ⟨_, _, rfl, hnext, by simp⟩
    · obtain ⟨⟨bits', rest'⟩, hunpack, h⟩ := bind_eq_some_iff.mp h
      obtain ⟨rfl, rfl⟩ := Prod.mk.inj (Option.some.inj h)
      obtain ⟨bytes, len, hread, hrest, hbits⟩ := ih hnext hunpack
      rw [if_neg (mt (headBit_eq_zero b).mp hlast), hread]
      exact ⟨_, _, rfl, hrest, by rw [flatMap_cons, hbits]⟩

/-- `recover_to_upper` on the bits, by position. -/
def upperBits : List Bool → Nat → Bytes → Option Bytes
  | [], _, key => some key
  | bit :: bits, kIdx, key =>
    (if bit then upperAt key kIdx else some key).bind (upperBits bits (kIdx + 1))

theorem upperBits_eq (bits : List Bool) (kIdx : Nat) (key : Bytes) :
    upperBits bits kIdx key =
      (recoverToUpper (key.drop kIdx) bits).map (key.take kIdx ++ ·) := by
  induction bits generalizing kIdx key with
  | nil => simp [upperBits, recoverToUpper]
  | cons bit bits ih =>
    rw [upperBits]
    rcases Nat.lt_or_ge kIdx key.length with hlt | hge
    · have hget : key[kIdx]? = some key[kIdx] := List.getElem?_eq_getElem hlt
      rw [drop_eq_getElem_cons hlt]
      cases bit with
      | true =>
        rw [if_pos rfl, upperAt, hget, recoverToUpper]
        dsimp only
        split_ifs with hc
        · have htake : (key.set kIdx (key[kIdx] - 32)).take (kIdx + 1) =
              key.take kIdx ++ [key[kIdx] - 32] := by
            rw [take_add_one, take_set_of_le le_rfl, List.getElem?_set_self hlt]
            rfl
          rw [bind_some, ih, htake, drop_set_of_lt (Nat.lt_succ_self _)]
          cases recoverToUpper (key.drop (kIdx + 1)) bits <;> simp
        · rfl
      | false =>
        have htake : key.take (kIdx + 1) = key.take kIdx ++ [key[kIdx]] := by
          rw [take_add_one, hget, toList_some]
        rw [if_neg Bool.false_ne_true, bind_some, ih, recoverToUpper, htake]
        cases recoverToUpper (key.drop (kIdx + 1)) bits with
        | none => rfl
        | some recovered => exact congrArg some (append_assoc ..)
    · have hnone : key[kIdx]? = none := List.getElem?_eq_none hge
      rw [drop_eq_nil_of_le hge]
      cases bit with
      | true => rw [if_pos rfl, upperAt, hnone, recoverToUpper, bind_none, map_none]
      | false =>
        rw [if_neg Bool.false_ne_true, bind_some, ih, recoverToUpper,
          drop_eq_nil_of_le (by omega), take_of_length_le (by omega),
          take_of_length_le hge]

theorem upperBits_append (bits bits' : List Bool) (kIdx : Nat) (key : Bytes) :
    upperBits (bits ++ bits') kIdx key =
      (upperBits bits kIdx key).bind (upperBits bits' (kIdx + bits.length)) := by
  induction bits generalizing kIdx key with
  | nil => rfl
  | cons bit bits ih =>
    rw [cons_append, upperBits, upperBits, bind_assoc]
    congr 1
    funext key
    rw [ih, length_cons, Nat.add_assoc, Nat.add_comm 1]

/-- `recover_to_upper` from the bit `7 - n` of a section on. -/
theorem recoverToUpperAt_section {value : Bytes} {bitmapLen : Nat} (hle : bitmapLen ≤ value.length)
    (n q : Nat) (hn : 0 < n ∧ n ≤ 7) (key : Bytes) :
    recoverToUpperAt value bitmapLen (7 * q + (7 - n)) key =
      (upperBits ((sectionOf (value.getD bitmapLen 0)).drop (7 - n)) (7 * q + (7 - n)) key).bind
        fun key =>
          if value.getD bitmapLen 0 &&& 0x80 = 0 then some (key, bitmapLen + 1)
          else recoverToUpperAt value (bitmapLen + 1) (7 * (q + 1)) key := by
  induction n generalizing key with
  | zero => exact absurd hn.1 (lt_irrefl _)
  | succ n ih =>
    have hmod : (7 * q + (7 - (n + 1))) % 7 = 7 - (n + 1) := by omega
    have hsection : (sectionOf (value.getD bitmapLen 0)).drop (7 - (n + 1)) =
        bitAt (value.getD bitmapLen 0) (7 * q + (7 - (n + 1))) ::
          (sectionOf (value.getD bitmapLen 0)).drop (7 - n) := by
      have hlt : 7 - (n + 1) < (sectionOf (value.getD bitmapLen 0)).length := by
        rw [sectionOf, length_map, length_range]
        omega
      rw [drop_eq_getElem_cons hlt]
      congr 1
      · simp only [sectionOf, getElem_map, getElem_range, bitAt_eq, hmod]
      · congr 1
        omega
    have hnext : 7 * q + (7 - (n + 1)) + 1 = 7 * q + (7 - n) := by omega
    rw [recoverToUpperAt, if_pos hle, hsection, upperBits, hnext]
    dsimp only
    cases (if bitAt (value.getD bitmapLen 0) (7 * q + (7 - (n + 1))) then
      upperAt key (7 * q + (7 - (n + 1))) else some key) with
    | none => rfl
    | some key =>
      rw [bind_some]
      dsimp only
      rcases Nat.eq_zero_or_pos n with rfl | hpos
      · have hdone : (sectionOf (value.getD bitmapLen 0)).drop (7 - 0) = [] :=
          drop_eq_nil_of_le (by simp [sectionOf])
        rw [if_pos (by omega), hdone, upperBits]
        rfl
      · rw [if_neg (by omega)]
        exact ih ⟨hpos, by omega⟩ key

theorem recoverToUpperAt_of_unpackSections {value l : Bytes} {pos : Nat} {bits : List Bool}
    {rest : Bytes} (hl : At value pos l) (h : unpackSections l = some (bits, rest)) :
    ∃ len, At value len rest ∧ ∀ q key,
      recoverToUpperAt value pos (7 * q) key = (upperBits bits (7 * q) key).map (·, len) := by
  induction l generalizing pos bits rest with
  | nil => cases h
  | cons b l ih =>
    obtain ⟨hb, hnext⟩ := hl.cons
    have hsection : ∀ q key, recoverToUpperAt value pos (7 * q) key =
        (upperBits (sectionOf b) (7 * q) key).bind fun key =>
          if b &&& 0x80 = 0 then some (key, pos + 1)
          else recoverToUpperAt value (pos + 1) (7 * (q + 1)) key := fun q key => by
      have := recoverToUpperAt_section hl.le 7 q ⟨by decide, le_rfl⟩ key
      rwa [Nat.sub_self, Nat.add_zero, drop_zero, hb] at this
    rw [unpackSections] at h
    split_ifs at h with hlast
    · obtain ⟨rfl, rfl⟩ := Prod.mk.inj (Option.some.inj h)
      refine ⟨pos + 1, hnext, fun q key => ?_⟩
      simp only [hsection, if_pos ((headBit_eq_zero b).mpr hlast)]
      exact (map_eq_bind ..).symm
    · obtain ⟨⟨bits', rest'⟩, hunpack, h⟩ := bind_eq_some_iff.mp h
      obtain ⟨rfl, rfl⟩ := Prod.mk.inj (Option.some.inj h)
      obtain ⟨len, hlen, hrest⟩ := ih hnext hunpack
      refine ⟨len, hlen, fun q key => ?_⟩
      have hcount : 7 * q + (sectionOf b).length = 7 * (q + 1) := by
        rw [sectionOf, length_map, length_range]
        omega
      simp only [hsection, if_neg (mt (headBit_eq_zero b).mp hlast), hrest, upperBits_append,
        hcount, map_bind]
      rfl

/-- The bit of a key in the location bitmap. -/
theorem getElem?_sections (location : Bytes) (idx : Nat) :
    (location.flatMap sectionOf)[idx]? = (location[idx / 7]?).map (bitAt · idx) := by
  induction location generalizing idx with
  | nil => rfl
  | cons b location ih =>
    have hlen : (sectionOf b).length = 7 := by rw [sectionOf, length_map, length_range]
    rw [flatMap_cons]
    rcases Nat.lt_or_ge idx 7 with hlt | hge
    · rw [List.getElem?_append_left (by omega), Nat.div_eq_of_lt hlt, List.getElem?_cons_zero,
        map_some, bitAt_eq, Nat.mod_eq_of_lt hlt]
      simp [sectionOf, hlt]
    · obtain ⟨j, rfl⟩ := Nat.exists_eq_add_of_le hge
      rw [List.getElem?_append_right (by omega), hlen, Nat.add_sub_cancel_left, ih,
        Nat.add_div_left _ (by decide), List.getElem?_cons_succ]
      congr 1
      funext b'
      rw [bitAt_eq, bitAt_eq, Nat.add_mod_left]

theorem recoverKeysAt_of_recoverKeys {value location : Bytes} {types : List FieldType}
    {keys keys' : List Bytes} {idx pos : Nat} {l rest : Bytes} (hl : At value pos l)
    (h : recoverKeys types keys ((location.flatMap sectionOf).drop idx) l = some (keys', rest)) :
    ∃ len, At value len rest ∧
      recoverKeysAt value location idx types keys pos = some (keys', len) := by
  induction keys generalizing types idx pos l keys' rest with
  | nil =>
    rw [recoverKeys] at h
    obtain ⟨rfl, rfl⟩ := Prod.mk.inj (Option.some.inj h)
    exact ⟨pos, hl, by rw [recoverKeysAt]⟩
  | cons key keys ih =>
    cases types with
    | nil => cases h
    | cons t types =>
      cases hbit : (location.flatMap sectionOf)[idx]? with
      | none =>
        rw [drop_eq_nil_of_le (List.getElem?_eq_none_iff.mp hbit)] at h
        cases h
      | some bit =>
        obtain ⟨hlt, hget⟩ := List.getElem?_eq_some_iff.mp hbit
        rw [getElem?_sections] at hbit
        obtain ⟨sectionBits, hsection, rfl⟩ := map_eq_some_iff.mp hbit
        rw [drop_eq_getElem_cons hlt, hget, recoverKeys] at h
        rw [recoverKeysAt, hsection]
        change ∃ len, At value len rest ∧ (if bitAt sectionBits idx then _ else _) = _
        split_ifs at h ⊢ with hset hstring
        · obtain ⟨⟨caseBits, l'⟩, hunpack, h⟩ := bind_eq_some_iff.mp h
          obtain ⟨key', hkey, h⟩ := bind_eq_some_iff.mp h
          obtain ⟨⟨keys'', rest'⟩, hkeys, h⟩ := bind_eq_some_iff.mp h
          obtain ⟨rfl, rfl⟩ := Prod.mk.inj (Option.some.inj h)
          obtain ⟨len, hlen, hread⟩ := recoverToUpperAt_of_unpackSections hl hunpack
          obtain ⟨len', hlen', hrest⟩ := ih hlen hkeys
          have hupper : recoverToUpperAt value pos 0 key = some (key', len) := by
            have := hread 0 key
            rw [Nat.mul_zero, upperBits_eq, drop_zero, hkey] at this
            exact this
          refine ⟨len', hlen', ?_⟩
          rw [hupper]
          change (recoverKeysAt value location (idx + 1) types keys len).bind _ = _
          rw [hrest]
          rfl
        · obtain ⟨⟨keys'', rest'⟩, hkeys, h⟩ := bind_eq_some_iff.mp h
          obtain ⟨rfl, rfl⟩ := Prod.mk.inj (Option.some.inj h)
          obtain ⟨len, hlen, hrest⟩ := ih hl hkeys
          refine ⟨len, hlen, ?_⟩
          change (recoverKeysAt value location (idx + 1) types keys pos).bind _ = _
          rw [hrest]
          rfl

theorem decodeBitmapKeysAt_of_decodeBitmapKeys {types : List FieldType} {keys keys' : List Bytes}
    {value rest : Bytes} (h : decodeBitmapKeys types value keys = some (keys', rest)) :
    ∃ len, At value len rest ∧ decodeBitmapKeysAt types value keys = some (keys', len) := by
  rw [decodeBitmapKeys] at h
  rw [decodeBitmapKeysAt]
  split_ifs at h ⊢ with hno
  · obtain ⟨rfl, rfl⟩ := Prod.mk.inj (Option.some.inj h)
    exact ⟨0, ⟨Nat.zero_le _, rfl⟩, rfl⟩
  · obtain ⟨⟨bits, l⟩, hunpack, h⟩ := bind_eq_some_iff.mp h
    obtain ⟨location, pos, hread, hpos, rfl⟩ :=
      readSections_of_unpackSections ⟨Nat.zero_le _, rfl⟩ hunpack
    have hkeys : recoverKeys types keys ((location.flatMap sectionOf).drop 0) l =
        some (keys', rest) := h
    obtain ⟨len, hlen, hrest⟩ := recoverKeysAt_of_recoverKeys hpos hkeys
    refine ⟨len, hlen, ?_⟩
    rw [hread]
    exact hrest

theorem skipCaseBitmapsAt_of_skipCaseBitmaps {value : Bytes} {bits : List Bool} {pos : Nat}
    {l rest : Bytes} (hl : At value pos l) (h : skipCaseBitmaps bits l = some rest) :
    ∃ len, At value len rest ∧ skipCaseBitmapsAt value bits pos = some len := by
  induction bits generalizing pos l with
  | nil =>
    cases h
    exact ⟨pos, hl, rfl⟩
  | cons bit bits ih =>
    rw [skipCaseBitmaps] at h
    rw [skipCaseBitmapsAt]
    split_ifs at h ⊢ with hset
    · obtain ⟨⟨caseBits, l'⟩, hunpack, h⟩ := bind_eq_some_iff.mp h
      obtain ⟨bytes, pos', hread, hpos', -⟩ := readSections_of_unpackSections hl hunpack
      rw [hread]
      exact ih hpos' h
    · exact ih hl h

theorem getKeyBitmapLen_of_skipKeyBitmap {types : List FieldType} {value rest : Bytes}
    (h : skipKeyBitmap types value = some rest) :
    ∃ len, At value len rest ∧ getKeyBitmapLen types value = some len := by
  rw [skipKeyBitmap] at h
  rw [getKeyBitmapLen]
  split_ifs at h ⊢ with hno
  · cases h
    exact ⟨0, ⟨Nat.zero_le _, rfl⟩, rfl⟩
  · obtain ⟨⟨bits, l⟩, hunpack, h⟩ := bind_eq_some_iff.mp h
    obtain ⟨location, pos, hread, hpos, rfl⟩ :=
      readSections_of_unpackSections ⟨Nat.zero_le _, rfl⟩ hunpack
    obtain ⟨len, hlen, hskip⟩ := skipCaseBitmapsAt_of_skipCaseBitmaps hpos h
    refine ⟨len, hlen, ?_⟩
    rw [hread]
    simp only [sectionOf_eq]
    exact hskip

/-- The keys come back from what `encode_bitmap_keys` makes of them, whatever is stored behind the
bitmaps, and both readers stop where the bitmaps end. -/
theorem caseBitmaps_roundTrip (fields : List (FieldType × Bytes)) (value : Bytes) :
    ∃ lowered bitmap,
      encodeBitmapKeysBytes (fields.map Prod.fst) (fields.map Prod.snd) = (lowered, bitmap) ∧
      lowered = fields.map (fun f => lowerKey f.1 f.2) ∧
      decodeBitmapKeysAt (fields.map Prod.fst) (bitmap ++ value) lowered =
        some (fields.map Prod.snd, bitmap.length) ∧
      getKeyBitmapLen (fields.map Prod.fst) (bitmap ++ value) = some bitmap.length := by
  have hlen : (fields.map Prod.fst).length = (fields.map Prod.snd).length := by
    rw [length_map, length_map]
  have hlower : List.zipWith lowerKey (fields.map Prod.fst) (fields.map Prod.snd) =
      fields.map fun f => lowerKey f.1 f.2 := by
    rw [zipWith_map, zipWith_self]
  obtain ⟨len, hat, hdecode⟩ := decodeBitmapKeysAt_of_decodeBitmapKeys
    (decodeBitmapKeys_encodeBitmapKeys hlen value)
  obtain ⟨len', hat', hskip⟩ := getKeyBitmapLen_of_skipKeyBitmap
    (skipKeyBitmap_encodeBitmapKeys hlen value)
  rw [hat.pos_eq] at hdecode
  rw [hat'.pos_eq] at hskip
  rw [encodeBitmapKeysBytes_eq]
  exact ⟨_, _, Prod.ext (encodeBitmapKeys_fst hlen) rfl, hlower, hdecode, hskip⟩

end ISearch.RocksProcess
