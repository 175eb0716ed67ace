import ISearch.Protocol.Packets
import Mathlib.Data.Int.ModEq
import Mathlib.Data.List.Perm.Subperm

/-!
# Round trips

What the encoders write has the announced length, and the decoders give it back and leave what is
behind it. A string without a pointer is written as one of length zero, and comes back as the empty
string (`CONVERT_NULL_TO_EMPTY_STRING`).
-/

namespace ISearch.Protocol

open List
open DTCBinary (next_cons)
open KeyFormat (Bytes)

variable {F : Type} (lib : FloatFormat F)

theorem length_encodeLength (n : Nat) : (encodeLength n).length = encodedBytesLength n := by
  rw [encodeLength, encodedBytesLength]
  split_ifs <;> rfl

section Codes

variable (ptr : Nat) (rest : Bytes) {a b c d : UInt8}

theorem decodeLength_one (ha : a.toNat < 240) :
    decodeLength ⟨ptr, a :: rest⟩ = .ok (a.toNat, ⟨ptr + 1, rest⟩) := by
  rw [decodeLength, if_neg (by simp), next_cons, ok_bind]
  dsimp only
  rw [if_pos ha]
  rfl

theorem decodeLength_two (h240 : 240 ≤ a.toNat) (h252 : a.toNat ≤ 252) :
    decodeLength ⟨ptr, a :: b :: rest⟩ = .ok (a.toNat % 16 * 2 ^ 8 + b.toNat, ⟨ptr + 2, rest⟩) := by
  rw [decodeLength, if_neg (by simp), next_cons, ok_bind]
  dsimp only
  rw [if_neg (not_lt.mpr h240), if_pos h252, if_neg (by simp)]
  rfl

theorem decodeLength_253 :
    decodeLength ⟨ptr, 253 :: a :: b :: rest⟩ =
      .ok (a.toNat * 2 ^ 8 + b.toNat, ⟨ptr + 3, rest⟩) := by
  rw [decodeLength, if_neg (by simp), next_cons, ok_bind]
  dsimp only
  rw [if_neg (by decide), if_neg (by decide), if_pos (by decide), if_neg (by simp)]
  rfl

theorem decodeLength_254 :
    decodeLength ⟨ptr, 254 :: a :: b :: c :: rest⟩ =
      .ok (a.toNat * 2 ^ 16 + b.toNat * 2 ^ 8 + c.toNat, ⟨ptr + 4, rest⟩) := by
  rw [decodeLength, if_neg (by simp), next_cons, ok_bind]
  dsimp only
  rw [if_neg (by decide), if_neg (by decide), if_neg (by decide), if_pos (by decide),
    if_neg (by simp)]
  rfl

theorem decodeLength_255
    (hmax : a.toNat * 2 ^ 24 + b.toNat * 2 ^ 16 + c.toNat * 2 ^ 8 + d.toNat ≤ maxPacketSize) :
    decodeLength ⟨ptr, 255 :: a :: b :: c :: d :: rest⟩ =
      .ok (a.toNat * 2 ^ 24 + b.toNat * 2 ^ 16 + c.toNat * 2 ^ 8 + d.toNat, ⟨ptr + 5, rest⟩) := by
  rw [decodeLength, if_neg (by simp), next_cons, ok_bind]
  dsimp only
  rw [if_neg (by decide), if_neg (by decide), if_neg (by decide), if_neg (by decide),
    if_neg (by simp)]
  simp only [DTCBinary.get_cons_succ, DTCBinary.get_cons_zero]
  rw [ok_bind, ok_bind, ok_bind, ok_bind, if_neg (not_lt.mpr hmax)]
  rfl

end Codes

theorem decodeLength_encodeLength (ptr : Nat) (rest : Bytes) {n : Nat} (hn : n ≤ maxPacketSize) :
    decodeLength ⟨ptr, encodeLength n ++ rest⟩ =
      .ok (n, ⟨ptr + encodedBytesLength n, rest⟩) := by
  have hmax : n ≤ 67108864 := by simpa [maxPacketSize] using hn
  have hbyte : ∀ {m k}, m % 256 = k → (UInt8.ofNat m).toNat = k := by
    intro m k h
    rw [toNat_ofNat_uint8, h]
  rw [encodeLength, encodedBytesLength]
  split_ifs with h1 h2 h3 h4
  · have hb : (UInt8.ofNat n).toNat = n := hbyte (by omega)
    rw [singleton_append, decodeLength_one ptr rest (by omega), hb]
  · have hb : (UInt8.ofNat (0xF0 + n / 2 ^ 8)).toNat = 0xF0 + n / 2 ^ 8 := hbyte (by omega)
    have heq : (0xF0 + n / 2 ^ 8) % 16 * 2 ^ 8 + n % 256 = n := by omega
    rw [cons_append, singleton_append,
      decodeLength_two ptr rest (by omega) (by omega), hb, toNat_ofNat_uint8, heq]
  · have heq : n / 2 ^ 8 % 256 * 2 ^ 8 + n % 256 = n := by omega
    rw [cons_append, cons_append, singleton_append, decodeLength_253,
      toNat_ofNat_uint8, toNat_ofNat_uint8, heq]
  · have heq : n / 2 ^ 16 % 256 * 2 ^ 16 + n / 2 ^ 8 % 256 * 2 ^ 8 + n % 256 = n := by omega
    rw [cons_append, cons_append, cons_append, singleton_append,
      decodeLength_254, toNat_ofNat_uint8, toNat_ofNat_uint8, toNat_ofNat_uint8, heq]
  · have heq : (UInt8.ofNat (n / 2 ^ 24)).toNat * 2 ^ 24 + (UInt8.ofNat (n / 2 ^ 16)).toNat * 2 ^ 16 +
        (UInt8.ofNat (n / 2 ^ 8)).toNat * 2 ^ 8 + (UInt8.ofNat n).toNat = n := by
      simp only [toNat_ofNat_uint8]
      omega
    rw [cons_append, cons_append, cons_append, cons_append,
      singleton_append, decodeLength_255 ptr rest (heq.trans_le hn), heq]

/-! ## Integers -/

theorem encodedBytesInt_eq (s64 : Int64) : encodedBytesInt s64 = intBytes s64 + 1 := by
  rw [encodedBytesInt, intBytes]
  split_ifs <;> rfl

/-- As many bytes as the number needs with its sign. -/
theorem intBytes_bounds (s64 : Int64) : ∃ k ≤ 7, intBytes s64 = k + 1 ∧
    -(128 * 256 ^ k : Int) ≤ s64.toInt ∧ s64.toInt < 128 * 256 ^ k := by
  have hle := s64.le_toInt
  have hlt := s64.toInt_lt
  rw [intBytes]
  simp only [Int64.lt_iff_toInt_lt, Int64.le_iff_toInt_le]
  simp only [Int64.reduceToInt]
  split_ifs with h0 h1 h2 h3 h4 h5 h6 h7
  · exact ⟨0, by decide, rfl, by omega, by omega⟩
  · exact ⟨1, by decide, rfl, by omega, by omega⟩
  · exact ⟨2, by decide, rfl, by omega, by omega⟩
  · exact ⟨3, by decide, rfl, by omega, by omega⟩
  · exact ⟨4, by decide, rfl, by omega, by omega⟩
  · exact ⟨5, by decide, rfl, by omega, by omega⟩
  · exact ⟨6, by decide, rfl, by omega, by omega⟩
  · exact ⟨7, by decide, rfl, by omega, by omega⟩
  · exact ⟨0, by decide, rfl, by omega, by omega⟩
  · exact ⟨1, by decide, rfl, by omega, by omega⟩
  · exact ⟨2, by decide, rfl, by omega, by omega⟩
  · exact ⟨3, by decide, rfl, by omega, by omega⟩
  · exact ⟨4, by decide, rfl, by omega, by omega⟩
  · exact ⟨5, by decide, rfl, by omega, by omega⟩
  · exact ⟨6, by decide, rfl, by omega, by omega⟩
  · exact ⟨7, by decide, rfl, by omega, by omega⟩

theorem decodeInt_append {front : Bytes} (hfront : front ≠ []) (b : UInt8) :
    decodeInt (front ++ [b]) = decodeInt front * 256 + Int64.ofNat b.toNat := by
  cases front with
  | nil => exact absurd rfl hfront
  | cons c cs => rw [cons_append, decodeInt, foldl_append, decodeInt]; rfl

theorem decodeInt_leBytes {k : Nat} {s : Int} {x : Nat}
    (hx : (x : Int) % 256 ^ (k + 1) = s % 256 ^ (k + 1)) (hle : -(128 * 256 ^ k : Int) ≤ s)
    (hlt : s < 128 * 256 ^ k) : decodeInt (leBytes (k + 1) x).reverse = Int64.ofInt s := by
  induction k generalizing s x with
  | zero =>
    have hb : (x : Int).bmod Int8.size = s := by
      simp only [pow_zero, zero_add, pow_one, Int.bmod_def, Int8.size] at *
      split <;> omega
    have h64 : s.bmod Int64.size = s := by
      simp only [pow_zero, Int.bmod_def, Int64.size] at *
      split <;> omega
    apply Int64.toInt_inj.mp
    simp [leBytes, decodeInt, hb, h64]
  | succ k ih =>
    obtain ⟨c, hc⟩ := Int.ModEq.dvd hx
    rw [pow_succ', mul_assoc] at hc
    -- the last byte and the bytes before it
    have hmod : (x : Int) % 256 = s % 256 := by omega
    have hdiv : decodeInt (leBytes (k + 1) (x / 256)).reverse = Int64.ofInt (s / 256) := by
      refine ih (Int.modEq_iff_dvd.mpr ⟨c, ?_⟩) ?_ ?_
      · omega
      · rw [pow_succ] at hle
        omega
      · rw [pow_succ] at hlt
        omega
    have hlast : Int64.ofNat (UInt8.ofNat x).toNat = Int64.ofInt (s % 256) := by
      rw [← Int64.ofInt_eq_ofNat, toNat_ofNat_uint8, Int.natCast_emod, ← hmod]
      rfl
    calc decodeInt (leBytes (k + 1 + 1) x).reverse
        = decodeInt (leBytes (k + 1) (x / 256)).reverse * 256 +
            Int64.ofNat (UInt8.ofNat x).toNat := by
          rw [leBytes, reverse_cons, decodeInt_append (by simp [leBytes])]
      _ = Int64.ofInt (s / 256 * 256 + s % 256) := by
          rw [hdiv, hlast, Int64.ofInt_add, Int64.ofInt_mul]
          rfl
      _ = Int64.ofInt s := by rw [Int.ediv_mul_add_emod]

theorem decodeInteger_encodeInt (ptr : Nat) (s64 : Int64) (rest : Bytes) :
    decodeInteger ⟨ptr, (leBytes (intBytes s64) s64.toUInt64.toNat).reverse ++ rest⟩
      (intBytes s64) = .ok s64 := by
  obtain ⟨k, hk, hn, hle, hlt⟩ := intBytes_bounds s64
  have hmod : (s64.toUInt64.toNat : Int) % 256 ^ (k + 1) = s64.toInt % 256 ^ (k + 1) := by
    have h64 : (s64.toUInt64.toNat : Int) ≡ s64.toInt [ZMOD 256 ^ 8] := by
      rw [toNat_toUInt64]
      exact Int.emod_emod_of_dvd _ dvd_rfl
    exact h64.of_dvd (pow_dvd_pow 256 (by omega))
  rw [decodeInteger, if_neg (by omega), DTCBinary.read_append _ _ (by simp), ok_bind, hn,
    decodeInt_leBytes hmod hle hlt, Int64.ofInt_toInt]
  rfl

/-- An integer has a length code of one byte. -/
theorem encodeInt_eq (s64 : Int64) : encodeInt s64 =
    encodeLength (intBytes s64) ++ (leBytes (intBytes s64) s64.toUInt64.toNat).reverse := by
  obtain ⟨k, hk, hn, -, -⟩ := intBytes_bounds s64
  rw [encodeInt, encodeLength, if_pos (by omega)]
  rfl

/-! ## Values -/

/-- What the C library does with the numbers that the code prints: `"%LA"` gives a text between the
lengths that the decoder and the buffer have room for, which gives the number again, and the texts
of the special values are theirs. -/
structure FloatFormat.Exact (lib : FloatFormat F) : Prop where
  no_zero : ∀ x, 0 ∉ lib.print x
  two_le : ∀ x, 2 ≤ (lib.print x).length
  lt_bufSize : ∀ x, (lib.print x).length < floatBufSize
  eq_nan : ∀ x, lib.print x = nanText → lib.nan = x
  eq_infinity : ∀ x, lib.print x = infText → lib.infinity = x
  eq_negInfinity : ∀ x, lib.print x = negInfText → lib.negInfinity = x
  scan_print : ∀ x, lib.print x ≠ nanText → lib.print x ≠ infText → lib.print x ≠ negInfText →
    lib.scan (lib.print x) = some x

/-- A string has a length that the protocol allows. -/
def DField.Value.Fits : (type : DField) → type.Value F → Prop
  | .string, v | .binary, v => ∀ str, v = some str → str.len + 1 ≤ maxPacketSize
  | .none, _ | .signed, _ | .unsigned, _ | .float, _ => True

/-- The same number, or a string with the same bytes; a string without a pointer is taken for an
empty one. -/
def DField.Value.SameAs : (type : DField) → type.Value F → type.Value F → Prop
  | .none, _, _ => True
  | .signed, v, v' => v' = v
  | .unsigned, v, v' => v' = v
  | .float, v, v' => v' = v
  | .string, v, v' | .binary, v, v' =>
    v'.map (·.bytes) = some (v.elim [] (·.bytes))

theorem length_encodeInt (s64 : Int64) : (encodeInt s64).length = encodedBytesInt s64 := by
  simp [encodeInt, encodedBytesInt_eq]

theorem length_encodeDataValue (type : DField) (v : type.Value F) :
    (encodeDataValue lib type v).length = encodedBytesDataValue lib type v := by
  have hstr : ∀ v : Option DTCBinary, (encodeStr v).length = encodedBytesStr v := by
    rintro (_ | str)
    · rfl
    · simp only [encodeStr, encodedBytesStr, length_append, length_encodeLength,
        length_singleton, DTCBinary.len]
      omega
  cases type with
  | none => rfl
  | signed => exact length_encodeInt v
  | unsigned => exact length_encodeInt _
  | float =>
    simp only [encodeDataValue, encodedBytesDataValue, floatText]
    split
    · rfl
    · simp only [length_cons, length_append, length_nil]
      omega
  | string => exact hstr v
  | binary => exact hstr v

theorem decodeDataValue_of_length {ptr n : Nat} {type : DField} {val v : type.Value F}
    {body rest : Bytes} (hn : body.length = n) (hmax : n ≤ maxPacketSize)
    (hv : decodeByType lib ⟨ptr + encodedBytesLength n, body ++ rest⟩ n type val = .ok v) :
    decodeDataValue lib ⟨ptr, encodeLength n ++ body ++ rest⟩ type val =
      .ok (v, ⟨ptr + (encodeLength n ++ body).length, rest⟩) := by
  rw [decodeDataValue, append_assoc, decodeLength_encodeLength _ _ hmax, ok_bind]
  dsimp only
  rw [if_neg (by simp [hn]), hv, ok_bind, DTCBinary.advance_append _ _ hn, length_append, hn,
    length_encodeLength, Nat.add_assoc]
  rfl

theorem decodeStr_append (ptr : Nat) (str rest : Bytes) :
    decodeStr ⟨ptr, str ++ [0] ++ rest⟩ (str.length + 1) = .ok (some ⟨ptr, str⟩) := by
  have hget := DTCBinary.get_append ptr 0 rest str
  rw [append_assoc, decodeStr, if_neg (by simp), Nat.add_sub_cancel]
  simp [hget, DTCBinary.read_append]

theorem cString_append (ptr : Nat) {text : Bytes} (htext : 0 ∉ text) (rest : Bytes) :
    (DTCBinary.mk ptr (text ++ 0 :: rest)).cString = .ok text := by
  have htake : (text ++ 0 :: rest).takeWhile (· ≠ 0) = text := by
    rw [takeWhile_append_of_pos fun b hb => by simpa using ne_of_mem_of_not_mem hb htext,
      takeWhile_cons_of_neg (by simp), append_nil]
  rw [DTCBinary.cString, if_pos (by simp), htake]

theorem decodeFloat_append (h : lib.Exact) (ptr : Nat) (x : F) (rest : Bytes) :
    decodeFloat lib ⟨ptr, lib.print x ++ [0] ++ rest⟩ ((lib.print x).length + 1) = .ok x := by
  have hlen := h.two_le x
  have hget := DTCBinary.get_append ptr 0 rest (lib.print x)
  rw [append_assoc, singleton_append, decodeFloat, if_neg (by omega), Nat.add_sub_cancel,
    hget, ok_bind, if_neg (by simp), cString_append ptr (h.no_zero x), ok_bind]
  split_ifs with hnan hinf hneg
  · rw [h.eq_nan x hnan]
    rfl
  · rw [h.eq_infinity x hinf]
    rfl
  · rw [h.eq_negInfinity x hneg]
    rfl
  · rw [h.scan_print x hnan hinf hneg]
    rfl

theorem encodeLength_lt {n : Nat} (h : n < 240) : encodeLength n = [UInt8.ofNat n] := if_pos h

/-- A value is its length and what `decodeByType` reads. -/
theorem encodeDataValue_eq (h : lib.Exact) (type : DField) (v val : type.Value F)
    (hfits : v.Fits) (ptr : Nat) (rest : Bytes) : ∃ n body v', body.length = n ∧
      n ≤ maxPacketSize ∧ DField.Value.SameAs type v v' ∧
      encodeDataValue lib type v = encodeLength n ++ body ∧
      decodeByType lib ⟨ptr + encodedBytesLength n, body ++ rest⟩ n type val = .ok v' := by
  have hint : ∀ s64 ptr, decodeInteger ⟨ptr, (leBytes (intBytes s64) s64.toUInt64.toNat).reverse ++
      rest⟩ (intBytes s64) = .ok s64 := fun s64 ptr => decodeInteger_encodeInt ptr s64 rest
  have hsmall : ∀ n ≤ 240, n ≤ maxPacketSize := fun n hn => hn.trans (by decide)
  have hbytes : ∀ s64, intBytes s64 ≤ 240 := by
    intro s64
    obtain ⟨k, hk, hn, -, -⟩ := intBytes_bounds s64
    omega
  have hstr : ∀ v : Option DTCBinary, (∀ str, v = some str → str.len + 1 ≤ maxPacketSize) →
      ∃ n body v', body.length = n ∧ n ≤ maxPacketSize ∧
        v'.map (·.bytes) = some (v.elim [] (·.bytes)) ∧ encodeStr v = encodeLength n ++ body ∧
        decodeStr ⟨ptr + encodedBytesLength n, body ++ rest⟩ n = .ok v' := by
    rintro (_ | str) hfits
    · exact ⟨0, [], _, rfl, Nat.zero_le _, rfl, rfl, rfl⟩
    · exact ⟨str.len + 1, str.bytes ++ [0], _, by simp [DTCBinary.len], hfits str rfl, rfl,
        append_assoc .., decodeStr_append ..⟩
  cases type with
  | none => exact ⟨0, [], val, rfl, Nat.zero_le _, trivial, rfl, rfl⟩
  | signed =>
    exact ⟨_, _, v, by simp, hsmall _ (hbytes v), rfl, encodeInt_eq v, hint v _⟩
  | unsigned =>
    refine ⟨_, _, v, by simp, hsmall _ (hbytes _), rfl, encodeInt_eq _, ?_⟩
    rw [decodeByType, hint, ok_bind]
    exact congrArg Except.ok (UInt64.toUInt64_toInt64 v)
  | float =>
    have hlen := h.lt_bufSize v
    have htext : floatText lib v = lib.print v := if_neg (not_le.mpr hlen)
    rw [floatBufSize] at hlen
    refine ⟨(lib.print v).length + 1, lib.print v ++ [0], v, by simp, hsmall _ (by omega), rfl, ?_,
      decodeFloat_append lib h ..⟩
    rw [encodeDataValue, htext, encodeLength_lt (by omega)]
    rfl
  | string => exact hstr v hfits
  | binary => exact hstr v hfits

/-- A value comes back, and what is behind it is left. -/
theorem decodeDataValue_encodeDataValue (h : lib.Exact) (ptr : Nat) (type : DField)
    (v val : type.Value F) (hfits : v.Fits) (rest : Bytes) :
    ∃ v', DField.Value.SameAs type v v' ∧
      decodeDataValue lib ⟨ptr, encodeDataValue lib type v ++ rest⟩ type val =
        .ok (v', ⟨ptr + (encodeDataValue lib type v).length, rest⟩) := by
  obtain ⟨n, body, v', hn, hmax, hsame, henc, hdec⟩ :=
    encodeDataValue_eq lib h type v val hfits ptr rest
  refine ⟨v', hsame, ?_⟩
  rw [henc]
  exact decodeDataValue_of_length lib hn hmax hdec

section Row

variable (fieldType : Nat → DField)

theorem length_encodeRow (ids : List Nat) (row : (i : Nat) → (fieldType i).Value F) :
    (encodeRow lib fieldType ids row).length = encodedBytesRow lib fieldType ids row := by
  simp [encodeRow, encodedBytesRow, length_flatMap, length_encodeDataValue]

/-- The fields of a row come back, and the other ones are as they were. -/
theorem decodeFields_encodeRow (h : lib.Exact) (ids : List Nat)
    (row old : (i : Nat) → (fieldType i).Value F) (hfits : ∀ i ∈ ids, (row i).Fits) (ptr : Nat)
    (rest : Bytes) : ∃ row', (∀ i ∈ ids, DField.Value.SameAs (fieldType i) (row i) (row' i)) ∧
      (∀ i ∉ ids, row' i = old i) ∧
      decodeFields lib fieldType ids ⟨ptr, encodeRow lib fieldType ids row ++ rest⟩ old =
        .ok (row', ⟨ptr + (encodeRow lib fieldType ids row).length, rest⟩) := by
  induction ids generalizing old ptr with
  | nil => exact ⟨old, by simp, by simp, rfl⟩
  | cons i ids ih =>
    obtain ⟨v', hsame, hdec⟩ := decodeDataValue_encodeDataValue lib h ptr (fieldType i) (row i)
      (old i) (hfits i mem_cons_self) (encodeRow lib fieldType ids row ++ rest)
    obtain ⟨row', hrow, hold, hdecs⟩ := ih (Function.update old i v')
      (fun j hj => hfits j (mem_cons_of_mem _ hj))
      (ptr + (encodeDataValue lib (fieldType i) (row i)).length)
    refine ⟨row', fun j hj => ?_, fun j hj => ?_, ?_⟩
    · by_cases hmem : j ∈ ids
      · exact hrow j hmem
      · obtain rfl := (mem_cons.mp hj).resolve_right hmem
        rw [hold j hmem, Function.update_self]
        exact hsame
    · rw [mem_cons, not_or] at hj
      rw [hold j hj.2, Function.update_of_ne hj.1]
    · rw [encodeRow, flatMap_cons, append_assoc, decodeFields]
      rw [encodeRow] at hdec hdecs
      rw [hdec, ok_bind]
      dsimp only
      rw [hdecs, length_append, Nat.add_assoc]

end Row

/-! ## Simple sections -/

theorem length_encode_simpleSection {definition : SectionDefinition} {kt : DField}
    (sct : SimpleSection F definition kt) :
    (sct.encode lib).length = sct.encodedBytes lib := by
  simp [SimpleSection.encode, SimpleSection.encodedBytes, length_flatMap,
    length_encodeDataValue, Nat.add_comm]

section Tags

variable {lib} {definition : SectionDefinition} {kt : DField}

theorem decodeTags_nil (ptr : Nat) (mask : List UInt8) (ss : SimpleSection F definition kt) :
    decodeTags lib ⟨ptr, []⟩ mask ss = .ok ss := by
  rw [decodeTags]
  rfl

theorem decodeTags_cons {ptr : Nat} {id : UInt8} {bs : Bytes} {bin : DTCBinary}
    {mask : List UInt8} {ss ss' : SimpleSection F definition kt}
    {val : (definition.typeOf kt id.toNat).Value F} (hmask : id ∉ mask)
    (htype : definition.typeOf kt id.toNat ≠ .none)
    (hval : decodeDataValue lib ⟨ptr + 1, bs⟩ _ (ss.tagValue id.toNat) = .ok (val, bin))
    (hset : ss.setTag id.toNat val = .ok ss') :
    decodeTags lib ⟨ptr, id :: bs⟩ mask ss = decodeTags lib bin (id :: mask) ss' := by
  rw [decodeTags, dif_neg (by simp)]
  split
  · next hnext => simp at hnext
  · next id' bin' hnext =>
    obtain ⟨rfl, rfl⟩ : id = id' ∧ _ = bin' := by simpa using hnext
    rw [if_neg hmask]
    split
    · next herr => simp [hval] at herr
    · next val' bin'' hok =>
      obtain ⟨rfl, rfl⟩ : val = val' ∧ bin = bin'' := by simpa [hval] using hok
      simp only [hset, if_neg htype]

/-- `ss'` is `ss` with the tags `l` of `sct`. -/
structure SimpleSection.Receives (ss sct : SimpleSection F definition kt) (l : List Nat)
    (ss' : SimpleSection F definition kt) : Prop where
  numTags : ss'.numTags = ss.numTags + l.length
  tagPresent : ∀ i, ss'.tagPresent i = (decide (i ∈ l) || ss.tagPresent i)
  sameAs : ∀ i ∈ l, DField.Value.SameAs _ (sct.tagValue i) (ss'.tagValue i)
  other : ∀ i ∉ l, ss'.tagValue i = ss.tagValue i

theorem SimpleSection.Receives.cons {ss sct ss₁ ss' : SimpleSection F definition kt} {i : Nat}
    {l : List Nat} (hmem : i ∉ l) (h₁ : ss.Receives sct [i] ss₁) (h : ss₁.Receives sct l ss') :
    ss.Receives sct (i :: l) ss' where
  numTags := by
    rw [h.numTags, h₁.numTags, length_singleton, length_cons]
    omega
  tagPresent j := by
    rw [h.tagPresent, h₁.tagPresent]
    by_cases hj : j = i <;> simp [hj]
  sameAs j hj := by
    rcases mem_cons.mp hj with rfl | hj
    · rw [h.other j hmem]
      exact h₁.sameAs j (mem_singleton_self j)
    · exact h.sameAs j hj
  other j hj := by
    rw [mem_cons, not_or] at hj
    rw [h.other j hj.2, h₁.other j (by simpa using hj.1)]

/-- A tag that can be sent: it has a place in the section, a type and a value that fits. -/
def SimpleSection.Sendable (sct : SimpleSection F definition kt) (i : Nat) : Prop :=
  i < maxStaticSection ∧ definition.typeOf kt i ≠ .none ∧ (sct.tagValue i).Fits

theorem decodeTags_encode (h : lib.Exact) (sct ss : SimpleSection F definition kt) {l : List Nat}
    (hl : ∀ i ∈ l, sct.Sendable i) (hnodup : l.Nodup) {mask : List UInt8}
    (hmask : ∀ i ∈ l, UInt8.ofNat i ∉ mask) (ptr : Nat) :
    ∃ ss', ss.Receives sct l ss' ∧ decodeTags lib ⟨ptr, l.flatMap fun i =>
      UInt8.ofNat i :: encodeDataValue lib _ (sct.tagValue i)⟩ mask ss = .ok ss' := by
  induction l generalizing ss mask ptr with
  | nil => exact ⟨ss, ⟨rfl, by simp, by simp, by simp⟩, decodeTags_nil ..⟩
  | cons i l ih =>
    obtain ⟨hlt, htype, hfits⟩ := hl i mem_cons_self
    obtain ⟨hmem, htail⟩ := nodup_cons.mp hnodup
    have hbyte : ∀ j, j < maxStaticSection → (UInt8.ofNat j).toNat = j := by
      intro j hj
      rw [maxStaticSection] at hj
      rw [toNat_ofNat_uint8]
      omega
    obtain ⟨id, rfl⟩ : ∃ id : UInt8, i = id.toNat := ⟨_, (hbyte i hlt).symm⟩
    rw [flatMap_cons, UInt8.ofNat_toNat]
    obtain ⟨v', hsame, hval⟩ := decodeDataValue_encodeDataValue lib h (ptr + 1) _
      (sct.tagValue id.toNat) (ss.tagValue id.toNat) hfits
      (l.flatMap fun i => UInt8.ofNat i :: encodeDataValue lib _ (sct.tagValue i))
    let ss₁ : SimpleSection F definition kt := {
      numTags := ss.numTags + 1
      tagPresent := Function.update ss.tagPresent id.toNat true
      tagValue := Function.update ss.tagValue id.toNat v' }
    have hset : ss.setTag id.toNat v' = .ok ss₁ := by
      rw [SimpleSection.setTag, if_neg htype, if_neg (by omega)]
    have hone : ss.Receives sct [id.toNat] ss₁ := by
      refine ⟨rfl, fun j => ?_, fun j hj => ?_, fun j hj => ?_⟩
      · by_cases hj : j = id.toNat <;> simp [ss₁, hj]
      · obtain rfl := mem_singleton.mp hj
        simpa [ss₁] using hsame
      · exact Function.update_of_ne (by simpa using hj) ..
    have hmask' : ∀ j ∈ l, UInt8.ofNat j ∉ id :: mask := by
      intro j hj
      rw [mem_cons, not_or]
      refine ⟨?_, hmask j (mem_cons_of_mem _ hj)⟩
      rintro rfl
      rw [hbyte j (hl j (mem_cons_of_mem _ hj)).1] at hmem
      exact hmem hj
    obtain ⟨ss', hrec, hdec⟩ := ih ss₁ (fun j hj => hl j (mem_cons_of_mem _ hj)) htail
      hmask' (ptr + 1 + (encodeDataValue lib _ (sct.tagValue id.toNat)).length)
    have hnew : id ∉ mask := by simpa using hmask id.toNat mem_cons_self
    exact ⟨ss', hone.cons hmem hrec, (decodeTags_cons hnew htype hval hset).trans hdec⟩

end Tags

/-! ## Field sets -/

/-- The bytes of a field. -/
def fieldIdBytes (id : Nat) : Bytes := if id = 0 then [0, 0] else [UInt8.ofNat id]

theorem decodeFieldId_bytes (tdef : TableDefinition) (ptr : Nat) {id : Nat} (hid : id < 256)
    (rest : Bytes) : decodeFieldId tdef ⟨ptr, fieldIdBytes id ++ rest⟩ =
      .ok (id, false, ⟨ptr + (fieldIdBytes id).length, rest⟩) := by
  have hbyte : (UInt8.ofNat id).toNat = id := by
    rw [toNat_ofNat_uint8]
    omega
  rw [fieldIdBytes]
  split
  · next h0 => rw [h0]; rfl
  · next h0 =>
    have hne : UInt8.ofNat id ≠ 0 := by
      intro h
      rw [h] at hbyte
      exact h0 hbyte.symm
    rw [singleton_append, decodeFieldId, if_neg (by simp), next_cons, ok_bind]
    dsimp only
    rw [if_pos hne, hbyte]
    rfl

/-- A field set of a table: its mask is that of its ids, which are fields of the table, each once.
-/
structure DTCFieldSet.Sound (fs : DTCFieldSet) (tdef : TableDefinition) : Prop where
  nodup : fs.ids.Nodup
  le_numFields : ∀ id ∈ fs.ids, id ≤ tdef.numFields
  mask : ∀ i, fs.mask i = decide (i ∈ fs.ids)

theorem length_fieldIdBytes_flatMap {ids : List Nat} (h : ids.Nodup) :
    (ids.flatMap fieldIdBytes).length = ids.length + if 0 ∈ ids then 1 else 0 := by
  induction ids with
  | nil => rfl
  | cons id ids ih =>
    obtain ⟨hmem, htail⟩ := nodup_cons.mp h
    rw [flatMap_cons, length_append, ih htail, length_cons, fieldIdBytes]
    by_cases h0 : id = 0
    · subst h0
      simp [hmem]
      omega
    · simp [h0, Ne.symm h0]
      omega

theorem encode_fieldSet (fs : DTCFieldSet) (hne : fs.ids ≠ []) :
    fs.encode = UInt8.ofNat fs.ids.length :: fs.ids.flatMap fieldIdBytes :=
  if_neg (by simpa using hne)

theorem length_encode_fieldSet {fs : DTCFieldSet} {tdef : TableDefinition} (h : fs.Sound tdef) :
    fs.encode.length = fs.encodedBytes := by
  by_cases hne : fs.ids = []
  · simp [DTCFieldSet.encode, DTCFieldSet.encodedBytes, hne]
  · rw [encode_fieldSet fs hne, length_cons, length_fieldIdBytes_flatMap h.nodup,
      DTCFieldSet.encodedBytes, h.mask 0]
    by_cases h0 : 0 ∈ fs.ids <;> simp [h0, hne]

theorem decodeIds_bytes (tdef : TableDefinition) (idtab : List Nat) {ids : List Nat}
    (hnodup : (idtab ++ ids).Nodup) (hlt : ∀ id ∈ ids, id < 256) (ptr : Nat) (nd : Bool)
    (rest : Bytes) :
    decodeIds tdef ids.length ⟨ptr, ids.flatMap fieldIdBytes ++ rest⟩ idtab nd =
      .ok (idtab ++ ids, nd, ⟨ptr + (ids.flatMap fieldIdBytes).length, rest⟩) := by
  induction ids generalizing idtab ptr with
  | nil => simp [decodeIds]
  | cons id ids ih =>
    have hmem : id ∉ idtab := fun hid =>
      disjoint_of_nodup_append hnodup hid mem_cons_self
    have happ : idtab ++ [id] ++ ids = idtab ++ id :: ids := by simp
    rw [length_cons, flatMap_cons, append_assoc, decodeIds,
      decodeFieldId_bytes tdef ptr (hlt id mem_cons_self), ok_bind]
    dsimp only
    rw [if_neg hmem, Bool.or_false, ih _ (happ ▸ hnodup) (fun j hj => hlt j (mem_cons_of_mem _ hj)),
      happ, length_append, Nat.add_assoc]

theorem length_le_of_sound {fs : DTCFieldSet} {tdef : TableDefinition} (h : fs.Sound tdef) :
    fs.ids.length ≤ tdef.numFields + 1 := by
  have hsub : fs.ids ⊆ List.range (tdef.numFields + 1) := fun id hid =>
    mem_range.mpr (Nat.lt_succ_of_le (h.le_numFields id hid))
  simpa using (subperm_of_subset h.nodup hsub).length_le

/-- The ids come back; a new set has their mask. -/
theorem put_of_sound {fs : DTCFieldSet} {tdef : TableDefinition} (h : fs.Sound tdef)
    (old : Option DTCFieldSet) : ∃ fs', DTCFieldSet.put old tdef.numFields fs.ids = .ok fs' ∧
      fs'.ids = fs.ids ∧ (old = none → fs'.mask = fs.mask) := by
  have hlen := length_le_of_sound h
  have hmax := tdef.numFields_le
  have htake : fs.ids.take 255 = fs.ids := take_of_length_le (by omega)
  cases old with
  | none =>
    rw [DTCFieldSet.put, DTCFieldSet.new]
    rw [htake, if_neg (by omega)]
    exact ⟨_, rfl, rfl, fun _ => funext fun i => (h.mask i).symm⟩
  | some fs₀ =>
    rw [DTCFieldSet.put, DTCFieldSet.set]
    rw [htake, if_neg]
    · exact ⟨_, rfl, rfl, nofun⟩
    · split
      · exact not_lt.mpr hlen
      · omega

theorem decodeFieldSet_encode {fs : DTCFieldSet} {tdef : TableDefinition} (h : fs.Sound tdef)
    (hne : fs.ids ≠ []) (old : Option DTCFieldSet) (ptr : Nat) :
    ∃ fs', decodeFieldSet tdef old ⟨ptr, fs.encode⟩ = .ok (some fs', false) ∧
      fs'.ids = fs.ids ∧ (old = none → fs'.mask = fs.mask) := by
  obtain ⟨fs', hput, hids, hmask⟩ := put_of_sound h old
  have hlen := length_le_of_sound h
  have hmax := tdef.numFields_le
  have hpos := length_pos_of_ne_nil hne
  have hnum : (UInt8.ofNat fs.ids.length).toNat = fs.ids.length := by
    rw [toNat_ofNat_uint8]
    omega
  have hnum0 : UInt8.ofNat fs.ids.length ≠ 0 := by
    intro h0
    rw [h0] at hnum
    exact hpos.ne hnum
  have hdec := decodeIds_bytes tdef [] h.nodup
    (fun id hid => Nat.lt_of_le_of_lt (h.le_numFields id hid) (by omega)) (ptr + 1) false []
  refine ⟨fs', ?_, hids, hmask⟩
  rw [encode_fieldSet fs hne, decodeFieldSet, if_neg (by simp), next_cons, ok_bind]
  dsimp only
  rw [append_nil] at hdec
  rw [if_neg hnum0, hnum, hdec, ok_bind]
  dsimp only
  rw [if_neg (by simp), nil_append, hput]
  rfl

/-! ## Field lists -/

theorem length_encode_entry (e : FieldEntry F) : (e.encode lib).length = e.encodedBytes lib := by
  rw [FieldEntry.encode, FieldEntry.encodedBytes]
  split <;> simp [length_encodeDataValue] <;> omega

theorem length_encodeFieldValue (fv : List (FieldEntry F)) :
    (encodeFieldValue lib fv).length = encodedBytesFieldValue lib fv := by
  rw [encodeFieldValue, encodedBytesFieldValue]
  split
  · rfl
  · simp [length_flatMap, length_encode_entry, Nat.add_comm]

/-- An entry that the table takes in this mode, with a value that fits. -/
structure FieldEntry.Sendable (tdef : TableDefinition) (mode : Mode) (e : FieldEntry F) : Prop where
  le_numFields : e.id ≤ tdef.numFields
  check : checkEntry tdef mode e.id e.oper e.type = .ok ()
  fits : e.val.Fits

/-- The entry as it comes back. -/
def FieldEntry.SameAs (e e' : FieldEntry F) : Prop :=
  ∃ v', DField.Value.SameAs e.type e.val v' ∧ e' = ⟨e.id, e.oper, e.type, v'⟩

theorem oper_lt_of_check {tdef : TableDefinition} {mode : Mode} {id op : Nat} {vt : DField}
    (h : checkEntry tdef mode id op vt = .ok ()) : op < 6 := by
  by_contra hop
  cases mode with
  | condition =>
    rw [checkEntry, if_pos (.inl (not_lt.mp hop))] at h
    cases h
  | insert =>
    rw [checkEntry, if_pos (by omega)] at h
    cases h
  | update =>
    rw [checkEntry] at h
    split at h
    · cases h
    · rw [if_pos (.inl (by omega))] at h
      cases h

theorem ofCode_code (type : DField) : DField.ofCode type.code = some type := by
  cases type <;> rfl

theorem decodeEntry_encode (h : lib.Exact) {tdef : TableDefinition} {mode : Mode}
    {e : FieldEntry F} (he : e.Sendable tdef mode) (old : (type : DField) → type.Value F)
    (ptr : Nat) (rest : Bytes) : ∃ e', e.SameAs e' ∧
      decodeEntry lib tdef mode old ⟨ptr, e.encode lib ++ rest⟩ =
        .ok (e', false, ⟨ptr + (e.encode lib).length, rest⟩) := by
  have hop := oper_lt_of_check he.check
  have hcode : e.type.code < 16 := by cases e.type <;> decide
  have hid : e.id < 256 := Nat.lt_of_le_of_lt he.le_numFields (by have := tdef.numFields_le; omega)
  have hbyte : (UInt8.ofNat (e.oper * 16 + e.type.code)).toNat = e.oper * 16 + e.type.code := by
    rw [toNat_ofNat_uint8]
    omega
  have henc : e.encode lib = UInt8.ofNat (e.oper * 16 + e.type.code) ::
      (fieldIdBytes e.id ++ encodeDataValue lib e.type e.val) := by
    rw [FieldEntry.encode, fieldIdBytes]
    split
    · next h0 => rw [h0]; rfl
    · rfl
  obtain ⟨v', hsame, hval⟩ := decodeDataValue_encodeDataValue lib h
    (ptr + 1 + (fieldIdBytes e.id).length) e.type e.val (old e.type) he.fits rest
  refine ⟨_, ⟨v', hsame, rfl⟩, ?_⟩
  have htype : (e.oper * 16 + e.type.code) % 16 = e.type.code := by omega
  have hoper : (e.oper * 16 + e.type.code) / 16 = e.oper := by omega
  rw [henc, cons_append, append_assoc, decodeEntry, if_neg (by simp),
    next_cons, ok_bind]
  dsimp only
  rw [decodeFieldId_bytes tdef _ hid, ok_bind]
  dsimp only
  rw [if_neg (by have := he.le_numFields; omega), hbyte, htype, hoper, ofCode_code]
  dsimp only
  rw [he.check, ok_bind, hval, ok_bind]
  dsimp only
  have hptr : ptr + 1 + (fieldIdBytes e.id).length + (encodeDataValue lib e.type e.val).length =
      ptr + (UInt8.ofNat (e.oper * 16 + e.type.code) ::
        (fieldIdBytes e.id ++ encodeDataValue lib e.type e.val)).length := by
    rw [length_cons, length_append]
    omega
  rw [hptr]
  rfl

theorem decodeEntries_encode (h : lib.Exact) {tdef : TableDefinition} {mode : Mode}
    {l : List (FieldEntry F)} (hl : ∀ e ∈ l, e.Sendable tdef mode)
    (hkeys : l.Pairwise fun e e' => e'.id < tdef.keyFields → e'.id ≠ e.id)
    (old : (type : DField) → type.Value F) (fv : FieldList F)
    (hfv : ∀ e ∈ l, e.id < tdef.keyFields → e.id ∉ fv.entries.map (·.id)) (ptr : Nat)
    (rest : Bytes) : ∃ fv' l', fv'.entries = fv.entries ++ l' ∧
      List.Forall₂ FieldEntry.SameAs l l' ∧
      decodeEntries lib tdef mode old l.length ⟨ptr, l.flatMap (FieldEntry.encode lib) ++ rest⟩ fv =
        .ok (fv', ⟨ptr + (l.flatMap (FieldEntry.encode lib)).length, rest⟩) := by
  induction l generalizing fv ptr with
  | nil => exact ⟨fv, [], by simp, .nil, rfl⟩
  | cons e l ih =>
    obtain ⟨_, ⟨v', hsame, rfl⟩, hdec⟩ := decodeEntry_encode lib h (hl e mem_cons_self) old ptr
      (l.flatMap (FieldEntry.encode lib) ++ rest)
    rw [pairwise_cons] at hkeys
    obtain ⟨fv', l', hentries, hsames, hdecs⟩ := ih (fun e' he' => hl e' (mem_cons_of_mem _ he'))
      hkeys.2 (fv.add tdef mode ⟨e.id, e.oper, e.type, v'⟩ false)
      (fun e' he' hkey => by
        have hnew := hfv e' (mem_cons_of_mem _ he') hkey
        have hne := hkeys.1 e' he' hkey
        simp only [FieldList.add, map_append, mem_append, map_cons, map_nil,
          mem_singleton, not_or]
        exact ⟨hnew, hne⟩)
      (ptr + (e.encode lib).length)
    refine ⟨fv', ⟨e.id, e.oper, e.type, v'⟩ :: l', ?_, .cons ⟨v', hsame, rfl⟩ hsames, ?_⟩
    · rw [hentries]
      simp [FieldList.add]
    · rw [length_cons, flatMap_cons, append_assoc, decodeEntries, hdec, ok_bind]
      dsimp only
      rw [if_neg fun hdup => hfv e mem_cons_self hdup.1 hdup.2, hdecs, length_append,
        Nat.add_assoc]

theorem decodeFieldValue_encode (h : lib.Exact) {tdef : TableDefinition} {mode : Mode}
    {l : List (FieldEntry F)} (hne : l ≠ []) (hlen : l.length ≤ 255)
    (hl : ∀ e ∈ l, e.Sendable tdef mode)
    (hkeys : l.Pairwise fun e e' => e'.id < tdef.keyFields → e'.id ≠ e.id)
    (old : (type : DField) → type.Value F) (ptr : Nat) :
    ∃ fv, List.Forall₂ FieldEntry.SameAs l fv.entries ∧
      decodeFieldValue lib tdef mode old ⟨ptr, encodeFieldValue lib l⟩ = .ok fv := by
  have hpos := length_pos_of_ne_nil hne
  have hnum : (UInt8.ofNat l.length).toNat = l.length := by
    rw [toNat_ofNat_uint8]
    omega
  have hnum0 : UInt8.ofNat l.length ≠ 0 := by
    intro h0
    rw [h0] at hnum
    exact hpos.ne hnum
  obtain ⟨fv, l', hentries, hsames, hdec⟩ := decodeEntries_encode lib h hl hkeys old
    .empty (fun _ _ _ => by simp [FieldList.empty]) (ptr + 1) []
  rw [show (FieldList.empty : FieldList F).entries = [] from rfl, nil_append] at hentries
  refine ⟨fv, hentries ▸ hsames, ?_⟩
  rw [encodeFieldValue, if_neg hpos.ne', decodeFieldValue, if_neg (by simp), next_cons,
    ok_bind]
  dsimp only
  rw [append_nil] at hdec
  rw [if_neg hnum0, hnum, hdec, ok_bind]
  rfl

/-! ## The protocol -/

theorem decodeSimpleSection_encode (h : lib.Exact) {definition : SectionDefinition} {kt : DField}
    (sct ss : SimpleSection F definition kt)
    (htags : ∀ i ∈ sct.tags, definition.typeOf kt i ≠ .none ∧ (sct.tagValue i).Fits) (ptr : Nat) :
    ∃ ss', ss.Receives sct sct.tags ss' ∧
      decodeSimpleSection lib ⟨ptr, sct.encode lib⟩ ss = .ok ss' := by
  refine decodeTags_encode h sct ss (fun i hi => ⟨?_, htags i hi⟩) (nodup_range.filter _)
    (by simp) ptr
  have hpresent := (mem_filter.mp hi).2
  rw [SimpleSection.present] at hpresent
  split at hpresent
  · cases hpresent
  · omega

theorem decodeRow_encodeRow (h : lib.Exact) (fieldType : Nat → DField) {result : ResultSet}
    (hrows : result.rowno ≠ result.numRows) {row : (i : Nat) → (fieldType i).Value F}
    (hfits : ∀ i ∈ result.fieldSet.ids, (row i).Fits) {ptr : Nat} {rest : Bytes}
    (hcurr : result.curr = ⟨ptr, encodeRow lib fieldType result.fieldSet.ids row ++ rest⟩)
    (old : (i : Nat) → (fieldType i).Value F) :
    ∃ row', (∀ i ∈ result.fieldSet.ids, DField.Value.SameAs (fieldType i) (row i) (row' i)) ∧
      result.decodeRow lib fieldType old = .ok (row', { result with
        curr := ⟨ptr + (encodeRow lib fieldType result.fieldSet.ids row).length, rest⟩
        rowno := result.rowno + 1 }) := by
  obtain ⟨row', hsame, -, hdec⟩ := decodeFields_encodeRow lib fieldType h result.fieldSet.ids row old
    hfits ptr rest
  refine ⟨row', hsame, ?_⟩
  rw [ResultSet.decodeRow, if_neg hrows, hcurr, hdec]
  rfl

/-- The announced lengths, and the round trips of values, simple sections, field sets, field lists
and rows. -/
theorem decode_encode (h : lib.Exact) :
    (∀ type (v : type.Value F),
      (encodeDataValue lib type v).length = encodedBytesDataValue lib type v ∧
      (v.Fits → ∀ val ptr rest, ∃ v', DField.Value.SameAs type v v' ∧
        decodeDataValue lib ⟨ptr, encodeDataValue lib type v ++ rest⟩ type val =
          .ok (v', ⟨ptr + encodedBytesDataValue lib type v, rest⟩))) ∧
    (∀ definition kt (sct : SimpleSection F definition kt),
      (sct.encode lib).length = sct.encodedBytes lib ∧
      ((∀ i ∈ sct.tags, definition.typeOf kt i ≠ .none ∧ (sct.tagValue i).Fits) →
        ∀ ss ptr, ∃ ss', ss.Receives sct sct.tags ss' ∧
          decodeSimpleSection lib ⟨ptr, sct.encode lib⟩ ss = .ok ss')) ∧
    (∀ tdef (fs : DTCFieldSet), fs.Sound tdef →
      fs.encode.length = fs.encodedBytes ∧
      (fs.ids ≠ [] → ∀ old ptr, ∃ fs', fs'.ids = fs.ids ∧ (old = none → fs'.mask = fs.mask) ∧
        decodeFieldSet tdef old ⟨ptr, fs.encode⟩ = .ok (some fs', false))) ∧
    (∀ tdef mode (l : List (FieldEntry F)),
      (encodeFieldValue lib l).length = encodedBytesFieldValue lib l ∧
      (l ≠ [] → l.length ≤ 255 → (∀ e ∈ l, e.Sendable tdef mode) →
        (l.Pairwise fun e e' => e'.id < tdef.keyFields → e'.id ≠ e.id) →
        ∀ old ptr, ∃ fv, List.Forall₂ FieldEntry.SameAs l fv.entries ∧
          decodeFieldValue lib tdef mode old ⟨ptr, encodeFieldValue lib l⟩ = .ok fv)) ∧
    (∀ fieldType ids (row : (i : Nat) → (fieldType i).Value F),
      (encodeRow lib fieldType ids row).length = encodedBytesRow lib fieldType ids row ∧
      ((∀ i ∈ ids, (row i).Fits) → ∀ (result : ResultSet) ptr rest, result.fieldSet.ids = ids →
        result.rowno ≠ result.numRows →
        result.curr = ⟨ptr, encodeRow lib fieldType ids row ++ rest⟩ →
        ∀ old, ∃ row', (∀ i ∈ ids, DField.Value.SameAs (fieldType i) (row i) (row' i)) ∧
          result.decodeRow lib fieldType old = .ok (row', { result with
            curr := ⟨ptr + encodedBytesRow lib fieldType ids row, rest⟩
            rowno := result.rowno + 1 }))) := by
  refine ⟨fun type v => ⟨length_encodeDataValue lib type v, fun hfits val ptr rest => ?_⟩,
    fun definition kt sct => ⟨length_encode_simpleSection lib sct, fun htags ss ptr =>
      decodeSimpleSection_encode lib h sct ss htags ptr⟩,
    fun tdef fs hfs => ⟨length_encode_fieldSet hfs, fun hne old ptr => ?_⟩,
    fun tdef mode l => ⟨length_encodeFieldValue lib l, fun hne hlen hl hkeys old ptr =>
      decodeFieldValue_encode lib h hne hlen hl hkeys old ptr⟩,
    fun fieldType ids row => ⟨length_encodeRow lib fieldType ids row, ?_⟩⟩
  · rw [← length_encodeDataValue]
    exact decodeDataValue_encodeDataValue lib h ptr type v val hfits rest
  · obtain ⟨fs', hdec, hids, hmask⟩ := decodeFieldSet_encode hfs hne old ptr
    exact ⟨fs', hids, hmask, hdec⟩
  · rintro hfits result ptr rest rfl hrows hcurr old
    rw [← length_encodeRow]
    exact decodeRow_encodeRow lib h fieldType hrows hfits hcurr old

/-- The special values and a number. -/
inductive SampleFloat where
  | nan
  | infinity
  | negInfinity
  | one
  deriving DecidableEq, Repr

/-- `1.0` is printed as `0X8P-3`. -/
def sampleFormat : FloatFormat SampleFloat where
  print
    | .nan => nanText
    | .infinity => infText
    | .negInfinity => negInfText
    | .one => [48, 88, 56, 80, 45, 51]
  scan text := if text = [48, 88, 56, 80, 45, 51] then some .one else none
  nan := .nan
  infinity := .infinity
  negInfinity := .negInfinity

theorem sampleFormat_exact : sampleFormat.Exact where
  no_zero x := by cases x <;> decide
  two_le x := by cases x <;> decide
  lt_bufSize x := by cases x <;> decide
  eq_nan x := by cases x <;> decide
  eq_infinity x := by cases x <;> decide
  eq_negInfinity x := by cases x <;> decide
  scan_print x := by cases x <;> decide

theorem decode_encode_sampleFormat : sampleFormat.Exact ∧
    ∃ v', DField.Value.SameAs .float SampleFloat.one v' ∧
      decodeDataValue sampleFormat ⟨0, encodeDataValue sampleFormat .float .one ++ [7]⟩ .float
        SampleFloat.nan = .ok (v', ⟨8, [7]⟩) :=
  ⟨sampleFormat_exact, (decode_encode sampleFormat sampleFormat_exact).1 .float .one |>.2 trivial
    .nan 0 [7]⟩

/-- A string without a pointer is not given back. -/
theorem not_decode_encode_null : ¬ ∀ (str old : Option DTCBinary) (ptr : Nat) (rest : Bytes),
    ∃ str' : Option DTCBinary, str'.map (·.bytes) = str.map (·.bytes) ∧
      decodeDataValue sampleFormat ⟨ptr, encodeDataValue sampleFormat .string str ++ rest⟩ .string
        old = .ok (str', ⟨ptr + encodedBytesDataValue sampleFormat .string str, rest⟩) := by
  intro h
  obtain ⟨str', hsame, hdec⟩ := h none none 0 []
  have hrun : decodeDataValue sampleFormat ⟨0, [0]⟩ .string (none : Option DTCBinary) =
      .ok (some ⟨0, []⟩, ⟨1, []⟩) := rfl
  obtain ⟨rfl, -⟩ := Prod.mk.inj (Except.ok.inj (hrun.symm.trans hdec))
  cases hsame

end ISearch.Protocol
