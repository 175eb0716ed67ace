import ISearch.RocksProcess.Bitmap
import ISearch.Lib.Memory

/-!
# Packed keys (`task_pkey.cc`, `table_def.cc`, `task_request.cc`)

The fields of a key are packed into one string of bytes, under which the cache finds the node: the
bytes of the integers one after the other, or one string behind a byte for its length.
`set_key_fields` decides which. It checks the size of the key before it has computed it, against
whatever `maxKeySize` holds, so it also admits keys whose length does not fit into a byte.
-/

namespace ISearch.Task

open List
open KeyFormat (FieldType Bytes)
open RocksProcess (toLower)

def maxPacketSize : Nat := 64 * 2 ^ 20

def isInteger : FieldType → Bool
  | .signed | .unsigned => true
  | .string | .binary => false

/-- A field as `add_field` admits it. -/
structure FieldDefinition where
  type : FieldType
  size : Nat
  pos : 0 < size
  le : size ≤ if isInteger type then 8 else maxPacketSize

/-- What `set_key_fields` sets: the key fields, their offsets, the size of a packed key or 0 where
it varies, and the bound on its size. -/
structure KeyLayout where
  keyFields : List FieldDefinition
  offsets : List UInt8
  keyFormat : UInt8
  maxKeySize : UInt16

/-- The loop of `set_key_fields`: the offsets, `maxSize` and `nvar`. A string starts the count of
the sizes over. -/
def layoutFields : List FieldDefinition → Nat → Nat → List UInt8 × Nat × Nat
  | [], maxSize, nvar => ([], maxSize, nvar)
  | f :: fs, maxSize, nvar =>
    let (offsets, size, n) :=
      if isInteger f.type then layoutFields fs (maxSize + f.size) nvar
      else layoutFields fs (1 + f.size) (nvar + 1)
    (.ofNat maxSize :: offsets, size, n)

/-- `set_key_fields`, where `maxKeySize` is what the member holds before; `none` is the result -1.
With no key fields it changes nothing. -/
def setKeyFields (fieldList : List FieldDefinition) (maxKeySize : UInt16) (n : Int) :
    Option KeyLayout :=
  let n := if n < 0 then 1 else n
  if n ≤ 0 then some ⟨[], [], 0, maxKeySize⟩
  else if n > 32 then none
  else
    let keyFields := fieldList.take n.toNat
    let (offsets, maxSize, nvar) := layoutFields keyFields 0 0
    if nvar = 0 then
      if maxKeySize ≥ 256 then none
      else some ⟨keyFields, offsets, .ofNat maxSize, .ofNat maxSize⟩
    else if maxKeySize ≥ 257 then none
    else if keyFields.length ≠ 1 then none
    else some ⟨keyFields, offsets, 0, .ofNat (maxSize + if nvar > 1 then 1 else 0)⟩

/-- A `DTCValue`: the member of the union that was set. -/
inductive Value where
  | int (u64 : UInt64)
  | str (bytes : Bytes)
  deriving DecidableEq, Repr

def Value.u64? : Value → Option UInt64
  | int u64 => some u64
  | str _ => none

def Value.str? : Value → Option Bytes
  | int _ => none
  | str bytes => some bytes

/-- The values of a field: the integers of its width, the strings up to its size. -/
def FieldDefinition.Holds (f : FieldDefinition) : Value → Prop
  | .int u64 =>
    match f.type with
    | .signed => -2 ^ (8 * f.size - 1) ≤ u64.toInt64.toInt ∧ u64.toInt64.toInt <
      2 ^ (8 * f.size - 1)
    | .unsigned => u64.toNat < 2 ^ (8 * f.size)
    | .string | .binary => False
  | .str bytes => isInteger f.type = false ∧ bytes.length ≤ f.size

/-- A value up to the letter case of a `String` field. -/
def FieldDefinition.fold (f : FieldDefinition) : Value → Value
  | .str bytes => .str (if f.type = .string then toLower bytes else bytes)
  | value => value

/-- The number of an integer type. -/
def typeNumber : FieldType → Nat
  | .signed => 1
  | .unsigned => 2
  | .string => 4
  | .binary => 5

def intoff : List UInt64 :=
  [0x80, 0x8000, 0x800000, 0x80000000, 0x8000000000, 0x800000000000, 0x80000000000000, 0,
    0, 0, 0, 0, 0, 0, 0, 0]

def intmask : List UInt64 :=
  [0xFFFFFFFFFFFFFF00, 0xFFFFFFFFFFFF0000, 0xFFFFFFFFFF000000, 0xFFFFFFFF00000000,
    0xFFFFFF0000000000, 0xFFFF000000000000, 0xFF00000000000000, 0]

/-- `store_value`: the bytes it stores; `none` inside is an overflow, outside an access behind the
tables. -/
def storeValue (val : UInt64) (type : FieldType) (size : Nat) : Option (Option Bytes) := do
  let off ← intoff[typeNumber type * 8 + size - 9]?
  let mask ← intmask[size - 1]?
  return if (val + off) &&& mask ≠ 0 then none else some (leBytes size val.toNat)

/-- The stores of an integer key, or the code of the error. -/
def storeFields (err : Int) :
    List (FieldDefinition × UInt8) → List Value → (Nat → UInt8) → Option (Except Int (Nat → UInt8))
  | [], _, packKey => some (.ok packKey)
  | (f, offset) :: fs, values, packKey => do
    let val ← values.head?.bind Value.u64?
    match ← storeValue val f.type f.size with
    | none => return .error err
    | some bytes => storeFields err fs values.tail (write packKey offset.toNat bytes)

/-- `build_packed_key`, into a buffer of `bufSize` bytes; `none` where it reads a member of a value
that was not set. -/
def buildPackedKey (layout : KeyLayout) (values : List Value) (bufSize : Nat)
    (packKey : Nat → UInt8) : Option (Except Int (Nat → UInt8)) :=
  if layout.keyFormat = 0 then do
    let f ← layout.keyFields.head?
    let str ← values.head?.bind Value.str?
    if str.length > f.size then return .error (-1)
    if bufSize < str.length + 1 then return .error (-2)
    let bytes := if f.type = .string then toLower str else str
    return .ok (write packKey 0 (.ofNat str.length :: bytes))
  else if layout.keyFields.length = 1 then
    if bufSize < layout.keyFormat.toNat then some (.error (-3))
    else storeFields (-4) (layout.keyFields.zip [0]) values packKey
  else
    if bufSize < layout.keyFormat.toNat then some (.error (-5))
    else storeFields (-6) (layout.keyFields.zip layout.offsets) values packKey

def packedKeySize (layout : KeyLayout) (p : Nat → UInt8) : Nat :=
  if layout.keyFormat ≠ 0 then layout.keyFormat.toNat else 1 + (p 0).toNat

/-- The packed key in a buffer. -/
def packedKey (layout : KeyLayout) (p : Nat → UInt8) : Bytes := slice p 0 (packedKeySize layout p)

/-- The bytes of an integer in a packed key, extended by its sign. -/
def loadValue (f : FieldDefinition) (bytes : Bytes) : UInt64 :=
  let fill : UInt8 :=
    if f.type = .unsigned then 0 else if (bytes.getLastD 0) &&& 0x80 ≠ 0 then 0xFF else 0
  .ofNat (ofLeBytes (bytes ++ replicate (8 - bytes.length) fill))

def unpackFields : List FieldDefinition → Nat → (Nat → UInt8) → List Value
  | [], _, _ => []
  | f :: fs, ptr, p => .int (loadValue f (slice p ptr f.size)) :: unpackFields fs (ptr + f.size) p

def unpackKey (layout : KeyLayout) (p : Nat → UInt8) : List Value :=
  if layout.keyFormat = 0 then [.str (slice p 1 (p 0).toNat)]
  else unpackFields layout.keyFields 0 p

/-! ## One integer -/

theorem and_mask_eq_zero_iff {k : Nat} (hk : k ≤ 64) (x mask : UInt64)
    (hmask : mask.toNat = 2 ^ 64 - 2 ^ k) : x &&& mask = 0 ↔ x.toNat < 2 ^ k := by
  have hshift : (2 ^ 64 - 2 ^ k : Nat) = (2 ^ (64 - k) - 1) <<< k := by
    rw [Nat.shiftLeft_eq, Nat.sub_mul, one_mul, ← pow_add, Nat.sub_add_cancel hk]
  have hand : (x &&& mask).toNat = (x.toNat / 2 ^ k) * 2 ^ k := by
    rw [UInt64.toNat_and, hmask, hshift]
    have hlt : x.toNat / 2 ^ k < 2 ^ (64 - k) := by
      rw [Nat.div_lt_iff_lt_mul (Nat.two_pow_pos k), ← pow_add, Nat.sub_add_cancel hk]
      exact x.toNat_lt
    have hbits : x.toNat &&& (2 ^ (64 - k) - 1) <<< k =
      (x.toNat >>> k &&& (2 ^ (64 - k) - 1)) <<< k := by
      refine Nat.eq_of_testBit_eq fun i => ?_
      simp only [Nat.testBit_and, Nat.testBit_shiftLeft, Nat.testBit_shiftRight]
      by_cases hi : k ≤ i
      · simp [hi, Nat.add_sub_cancel' hi]
      · simp [hi]
    rw [hbits, Nat.and_two_pow_sub_one_eq_mod, Nat.shiftRight_eq_div_pow, Nat.mod_eq_of_lt hlt,
      Nat.shiftLeft_eq]
  rw [← UInt64.toNat_inj, hand]
  change _ * _ = 0 ↔ _
  rw [Nat.mul_eq_zero, Nat.div_eq_zero_iff]
  have := Nat.two_pow_pos k
  omega

theorem leBytes_zero (n : Nat) : leBytes n 0 = replicate n 0 := by
  induction n with
  | zero => rfl
  | succ n ih => rw [leBytes, Nat.zero_div, ih, replicate_succ]; rfl

theorem leBytes_pow_sub_one (n : Nat) : leBytes n (256 ^ n - 1) = replicate n 0xFF := by
  induction n with
  | zero => rfl
  | succ n ih =>
    have hpos : 0 < 256 ^ n := Nat.pow_pos (by decide)
    have hdiv : (256 ^ (n + 1) - 1) / 256 = 256 ^ n - 1 := by
      rw [pow_succ]
      omega
    have hbyte : UInt8.ofNat (256 ^ (n + 1) - 1) = 0xFF := by
      apply UInt8.toNat_inj.mp
      rw [toNat_ofNat_uint8]
      change _ = 255
      rw [pow_succ]
      omega
    rw [leBytes, hdiv, ih, hbyte, replicate_succ]

theorem toInt_toInt64 (u : UInt64) :
    u.toInt64.toInt = if u.toNat < 2 ^ 63 then (u.toNat : Int) else u.toNat - 2 ^ 64 := by
  have hbits : u.toInt64.toInt = u.toBitVec.toInt := rfl
  have hnat : u.toBitVec.toNat = u.toNat := rfl
  rw [hbits, BitVec.toInt_eq_toNat_cond, hnat]
  split_ifs <;> omega

section Integer

variable {f : FieldDefinition} {u : UInt64}

theorem FieldDefinition.Holds.integer (h : f.Holds (.int u)) : isInteger f.type = true := by
  cases htype : f.type with
  | signed => rfl
  | unsigned => rfl
  | string =>
    rw [FieldDefinition.Holds, htype] at h
    exact h.elim
  | binary =>
    rw [FieldDefinition.Holds, htype] at h
    exact h.elim

theorem FieldDefinition.Holds.exists_int {value : Value} (h : f.Holds value)
    (hint : isInteger f.type = true) : ∃ u64, value = .int u64 := by
  cases value with
  | int u64 => exact ⟨u64, rfl⟩
  | str bytes =>
    obtain ⟨hstr, -⟩ : isInteger f.type = false ∧ bytes.length ≤ f.size := h
    rw [hint] at hstr
    cases hstr

theorem FieldDefinition.size_le (h : isInteger f.type = true) : f.size ≤ 8 := by
  have := f.le
  rwa [if_pos h] at this

/-- A signed value in the range of its width, as the number that is stored. -/
theorem holds_signed_iff (htype : f.type = .signed) : f.Holds (.int u) ↔
    u.toNat < 2 ^ (8 * f.size - 1) ∨ 2 ^ 64 - 2 ^ (8 * f.size - 1) ≤ u.toNat := by
  have hsize := f.size_le (by rw [htype]; rfl)
  have hpow : (2 : Nat) ^ (8 * f.size - 1) ≤ 2 ^ 63 := Nat.pow_le_pow_right (by decide) (by omega)
  have hcast : ((2 : Int) ^ (8 * f.size - 1)) = ((2 ^ (8 * f.size - 1) : Nat) : Int) := by
    push_cast; rfl
  have hlt := u.toNat_lt
  rw [FieldDefinition.Holds, htype, toInt_toInt64, hcast]
  dsimp only
  generalize (2 : Nat) ^ (8 * f.size - 1) = b at hpow ⊢
  split_ifs <;> omega

theorem intmask_eq (size : Nat) (hpos : 0 < size) (hle : size ≤ 8) :
    ∃ mask, intmask[size - 1]? = some mask ∧ mask.toNat = 2 ^ 64 - 2 ^ (8 * size) := by
  interval_cases size <;> exact ⟨_, rfl, by decide⟩

theorem intoff_signed (size : Nat) (hpos : 0 < size) (hle : size ≤ 8) :
    ∃ off, intoff[1 * 8 + size - 9]? = some off ∧
      off.toNat = if size = 8 then 0 else 2 ^ (8 * size - 1) := by
  interval_cases size <;> exact ⟨_, rfl, by decide⟩

theorem intoff_unsigned (size : Nat) (hpos : 0 < size) (hle : size ≤ 8) :
    intoff[2 * 8 + size - 9]? = some 0 := by
  interval_cases size <;> rfl

/-- A value of the field is stored. -/
theorem storeValue_of_holds (h : f.Holds (.int u)) :
    storeValue u f.type f.size = some (some (leBytes f.size u.toNat)) := by
  have hsize := f.size_le h.integer
  have hlt := u.toNat_lt
  obtain ⟨mask, hmask, hmaskNat⟩ := intmask_eq f.size f.pos hsize
  have hzero : ∀ x : UInt64, x &&& mask = 0 ↔ x.toNat < 2 ^ (8 * f.size) := fun x =>
    and_mask_eq_zero_iff (by omega) x mask hmaskNat
  have hfits : ∃ off, intoff[typeNumber f.type * 8 + f.size - 9]? = some off ∧
      (u + off).toNat < 2 ^ (8 * f.size) := by
    cases htype : f.type with
    | unsigned =>
      refine ⟨0, intoff_unsigned f.size f.pos hsize, ?_⟩
      rw [FieldDefinition.Holds, htype] at h
      rw [UInt64.add_zero]
      exact h
    | signed =>
      obtain ⟨off, hoff, hoffNat⟩ := intoff_signed f.size f.pos hsize
      refine ⟨off, hoff, ?_⟩
      have hrange := (holds_signed_iff htype).mp h
      rw [UInt64.toNat_add, hoffNat]
      by_cases h8 : f.size = 8
      · rw [if_pos h8, h8]
        omega
      · have hpos := f.pos
        have hdouble : (2 : Nat) ^ (8 * f.size) = 2 * 2 ^ (8 * f.size - 1) := by
          rw [← pow_succ']
          congr 1
          omega
        have hsmall : (2 : Nat) ^ (8 * f.size - 1) ≤ 2 ^ 62 :=
          Nat.pow_le_pow_right (by decide) (by omega)
        rw [if_neg h8, hdouble]
        generalize (2 : Nat) ^ (8 * f.size - 1) = b at hrange hsmall ⊢
        rcases hrange with hrange | hrange
        · rw [Nat.mod_eq_of_lt (by omega)]
          omega
        · rw [Nat.mod_eq_sub_mod (by omega), Nat.mod_eq_of_lt (by omega)]
          omega
    | string =>
      have := h.integer
      rw [htype] at this
      cases this
    | binary =>
      have := h.integer
      rw [htype] at this
      cases this
  obtain ⟨off, hoff, hlt'⟩ := hfits
  simp only [storeValue, hoff, hmask, Option.bind_eq_bind, Option.bind_some, ne_eq,
    (hzero _).mpr hlt', not_true_eq_false, if_false]
  rfl

theorem and_0x80_ne_zero_iff (b : UInt8) : b &&& 0x80 ≠ 0 ↔ 128 ≤ b.toNat := by
  have hlt := b.toNat_lt
  have hand : (b &&& 0x80).toNat = (b.toNat.testBit 7).toNat * 2 ^ 7 := by
    rw [UInt8.toNat_and]
    exact Nat.and_two_pow b.toNat 7
  rw [Ne, ← UInt8.toNat_inj, hand, Nat.testBit_eq_decide_div_mod_eq]
  change ¬_ = 0 ↔ _
  by_cases hb : b.toNat / 2 ^ 7 % 2 = 1
  · rw [decide_eq_true hb]
    simp only [Bool.toNat_true]
    omega
  · rw [decide_eq_false hb]
    simp only [Bool.toNat_false]
    omega

theorem getLastD_leBytes {n : Nat} (hn : 0 < n) (v : Nat) :
    (leBytes n v).getLastD 0 = UInt8.ofNat (v / 256 ^ (n - 1)) := by
  obtain ⟨m, rfl⟩ := Nat.exists_eq_succ_of_ne_zero hn.ne'
  have hrev := reverse_leBytes_succ m v
  have hlist : leBytes (m + 1) v = (leBytes m v) ++ [UInt8.ofNat (v / 256 ^ m)] := by
    rw [← reverse_reverse (leBytes (m + 1) v), hrev, reverse_cons, reverse_reverse]
  rw [Nat.succ_eq_add_one, hlist, Nat.add_sub_cancel]
  simp

theorem ofLeBytes_append_replicate {n v : Nat} {fill : UInt8} (hn : n ≤ 8) (hv : v < 2 ^ 64)
    (hfill : leBytes (8 - n) (v / 256 ^ n) = replicate (8 - n) fill) :
    ofLeBytes (leBytes n v ++ replicate (8 - n) fill) = v := by
  have hlt : v % 256 ^ n < 256 ^ n := Nat.mod_lt _ (Nat.pow_pos (by decide))
  have hsplit := leBytes_add (n := 8 - n) (b := v / 256 ^ n) hlt
  rw [Nat.mod_add_div, leBytes_mod, Nat.add_sub_cancel' hn, hfill] at hsplit
  rw [← hsplit, ofLeBytes_leBytes]
  exact Nat.mod_eq_of_lt hv

/-- A value of the field is read back. -/
theorem loadValue_leBytes (h : f.Holds (.int u)) : loadValue f (leBytes f.size u.toNat) = u := by
  have hsize := f.size_le h.integer
  have hpos := f.pos
  have hlt := u.toNat_lt
  have hfill : ∀ fill : UInt8,
      leBytes (8 - f.size) (u.toNat / 256 ^ f.size) = replicate (8 - f.size) fill →
      UInt64.ofNat (ofLeBytes (leBytes f.size u.toNat ++ replicate (8 - f.size) fill)) = u := by
    intro fill heq
    rw [ofLeBytes_append_replicate hsize hlt heq, UInt64.ofNat_toNat]
  rw [loadValue, length_leBytes]
  refine hfill _ ?_
  have h256 : (256 : Nat) ^ f.size = 2 ^ (8 * f.size) := by
    rw [pow_mul]
    rfl
  cases htype : f.type with
  | unsigned =>
    rw [FieldDefinition.Holds, htype] at h
    rw [if_pos rfl, h256, Nat.div_eq_of_lt h, leBytes_zero]
  | signed =>
    rw [if_neg (by decide), getLastD_leBytes hpos]
    have hhalf : (2 : Nat) ^ (8 * f.size - 1) = 128 * 256 ^ (f.size - 1) := by
      have hexp : 8 * f.size - 1 = 7 + 8 * (f.size - 1) := by omega
      rw [hexp, pow_add, pow_mul]
      rfl
    have hwhole : (256 : Nat) ^ f.size = 256 * 256 ^ (f.size - 1) := by
      rw [← pow_succ']
      congr 1
      omega
    have htop : (2 : Nat) ^ 64 = 256 ^ (8 - f.size) * 256 ^ f.size := by
      rw [← pow_add, Nat.sub_add_cancel hsize]
      rfl
    rw [holds_signed_iff htype, hhalf] at h
    rw [hwhole] at htop ⊢
    have hp : 0 < (256 : Nat) ^ (f.size - 1) := Nat.pow_pos (by decide)
    generalize (256 : Nat) ^ (f.size - 1) = p at *
    have hdiv : u.toNat / (256 * p) = u.toNat / p / 256 := by
      rw [Nat.mul_comm, Nat.div_div_eq_div_mul]
    have hbyte : (UInt8.ofNat (u.toNat / p)).toNat = u.toNat / p % 256 := toNat_ofNat_uint8 _
    rw [hdiv]
    rcases h with h | h
    · have hq : u.toNat / p < 128 := (Nat.div_lt_iff_lt_mul hp).mpr h
      generalize u.toNat / p = q at *
      rw [if_neg (by rw [and_0x80_ne_zero_iff, hbyte]; omega), Nat.div_eq_of_lt (by omega),
        leBytes_zero]
    · -- the bytes behind the stored ones are all 0xFF
      generalize hN : (256 : Nat) ^ (8 - f.size) = N at htop
      have hNpos : 0 < N := hN ▸ Nat.pow_pos (by decide)
      have hle : (N * 256 - 128) * p ≤ u.toNat := by
        rw [Nat.sub_mul, Nat.mul_assoc]
        omega
      have hq : u.toNat / p < N * 256 := by
        rw [Nat.div_lt_iff_lt_mul hp, Nat.mul_assoc]
        omega
      have hq' : N * 256 - 128 ≤ u.toNat / p := (Nat.le_div_iff_mul_le hp).mpr hle
      generalize u.toNat / p = q at *
      have hfirst : q / 256 = N - 1 := by omega
      rw [if_pos (by rw [and_0x80_ne_zero_iff, hbyte]; omega), hfirst, ← hN, leBytes_pow_sub_one]
  | string =>
    have := h.integer
    rw [htype] at this
    cases this
  | binary =>
    have := h.integer
    rw [htype] at this
    cases this

end Integer

/-! ## Integer keys -/

/-- The sizes of the fields together. -/
def totalSize (fs : List FieldDefinition) : Nat := (fs.map FieldDefinition.size).sum

/-- The bytes of an integer key. -/
def packInts : List FieldDefinition → List Value → Bytes
  | f :: fs, .int u64 :: values => leBytes f.size u64.toNat ++ packInts fs values
  | _, _ => []

section Integers

variable {fs : List FieldDefinition} {values : List Value}

theorem length_packInts (hint : ∀ f ∈ fs, isInteger f.type = true)
    (h : List.Forall₂ FieldDefinition.Holds fs values) :
    (packInts fs values).length = totalSize fs := by
  induction h with
  | nil => rfl
  | @cons f value fs values hf _ ih =>
    obtain ⟨u64, rfl⟩ := hf.exists_int (hint f mem_cons_self)
    rw [packInts, length_append, length_leBytes,
      ih fun f hf => hint f (mem_cons_of_mem _ hf), totalSize, totalSize, map_cons,
      sum_cons]

theorem layoutFields_of_ints (hint : ∀ f ∈ fs, isInteger f.type = true) (maxSize nvar : Nat) :
    (layoutFields fs maxSize nvar).2 = (maxSize + totalSize fs, nvar) := by
  induction fs generalizing maxSize with
  | nil => rfl
  | cons f fs ih =>
    rw [layoutFields, if_pos (hint f mem_cons_self)]
    refine (ih (fun f hf => hint f (mem_cons_of_mem _ hf)) _).trans ?_
    rw [totalSize, totalSize, map_cons, sum_cons, Nat.add_assoc]

/-- The integers are stored one behind the other. -/
theorem storeFields_of_holds (err : Int) (hint : ∀ f ∈ fs, isInteger f.type = true)
    (h : List.Forall₂ FieldDefinition.Holds fs values) {maxSize : Nat} (nvar : Nat)
    (hsize : maxSize + totalSize fs ≤ 256) (mem : Nat → UInt8) :
    storeFields err (fs.zip (layoutFields fs maxSize nvar).1) values mem =
      some (.ok (write mem maxSize (packInts fs values))) := by
  induction h generalizing maxSize mem with
  | nil =>
    rw [packInts, write_nil]
    · rfl
    · simp
  | @cons f value fs values hf _ ih =>
    obtain ⟨u64, rfl⟩ := hf.exists_int (hint f mem_cons_self)
    have hpos := f.pos
    rw [totalSize, map_cons, sum_cons] at hsize
    have hoffset : (UInt8.ofNat maxSize).toNat = maxSize := by
      rw [toNat_ofNat_uint8]
      omega
    have hfits : maxSize + f.size + totalSize fs ≤ 256 := by
      rw [totalSize]
      omega
    have hrest := ih (fun f hf => hint f (mem_cons_of_mem _ hf)) hfits
      (write mem maxSize (leBytes f.size u64.toNat))
    rw [layoutFields, if_pos (hint f mem_cons_self)]
    simp only [zip_cons_cons, storeFields, List.head?_cons, Option.bind_some, Value.u64?,
      Option.bind_eq_bind, storeValue_of_holds hf, hoffset, tail_cons, hrest]
    rw [packInts, ← write_write_append, length_leBytes]

theorem unpackFields_of_holds (hint : ∀ f ∈ fs, isInteger f.type = true)
    (h : List.Forall₂ FieldDefinition.Holds fs values) {ptr : Nat} {mem : Nat → UInt8}
    (hmem : slice mem ptr (totalSize fs) = packInts fs values) :
    unpackFields fs ptr mem = values := by
  induction h generalizing ptr with
  | nil => rfl
  | @cons f value fs values hf hfs ih =>
    obtain ⟨u64, rfl⟩ := hf.exists_int (hint f mem_cons_self)
    rw [totalSize, map_cons, sum_cons, slice_add, packInts] at hmem
    obtain ⟨hfirst, hrest⟩ := append_inj hmem (by rw [length_slice, length_leBytes])
    rw [unpackFields, hfirst, loadValue_leBytes hf,
      ih (fun f hf => hint f (mem_cons_of_mem _ hf)) hrest]

theorem zipWith_fold_of_ints (hint : ∀ f ∈ fs, isInteger f.type = true)
    (h : List.Forall₂ FieldDefinition.Holds fs values) :
    List.zipWith FieldDefinition.fold fs values = values := by
  induction h with
  | nil => rfl
  | @cons f value fs values hf _ ih =>
    obtain ⟨u64, rfl⟩ := hf.exists_int (hint f mem_cons_self)
    rw [zipWith_cons_cons, ih fun f hf => hint f (mem_cons_of_mem _ hf)]
    rfl

theorem totalSize_le (hint : ∀ f ∈ fs, isInteger f.type = true) :
    totalSize fs ≤ 8 * fs.length := by
  induction fs with
  | nil => exact le_rfl
  | cons f fs ih =>
    have hfirst := f.size_le (hint f mem_cons_self)
    have hrest := ih fun f hf => hint f (mem_cons_of_mem _ hf)
    rw [totalSize] at hrest ⊢
    rw [map_cons, sum_cons, length_cons]
    omega

theorem holds_zero (hint : ∀ f ∈ fs, isInteger f.type = true) :
    List.Forall₂ FieldDefinition.Holds fs (fs.map fun _ => .int 0) := by
  induction fs with
  | nil => exact .nil
  | cons f fs ih =>
    refine .cons ?_ (ih fun f hf => hint f (mem_cons_of_mem _ hf))
    have hf := hint f mem_cons_self
    cases htype : f.type with
    | signed => exact (holds_signed_iff htype).mpr (.inl (Nat.two_pow_pos _))
    | unsigned =>
      rw [FieldDefinition.Holds, htype]
      exact Nat.two_pow_pos _
    | string =>
      rw [htype] at hf
      cases hf
    | binary =>
      rw [htype] at hf
      cases hf

end Integers

/-! ## Keys -/

/-- The key values of a table. -/
def KeyLayout.Typed (layout : KeyLayout) (values : List Value) : Prop :=
  List.Forall₂ FieldDefinition.Holds layout.keyFields values

/-- Two keys are the same if they are equal up to the letter case of `String` fields. -/
def KeyLayout.fold (layout : KeyLayout) (values : List Value) : List Value :=
  List.zipWith FieldDefinition.fold layout.keyFields values

/-- The bytes a packed key takes. -/
def KeyLayout.room (layout : KeyLayout) (values : List Value) : Nat :=
  if layout.keyFormat = 0 then ((values.head?.bind Value.str?).getD []).length + 1
  else layout.keyFormat.toNat

/-- Packed keys identify keys: in a buffer of any content that is large enough, a key is packed and
unpacked again, and it is packed as another one only if the two are the same. -/
def KeyLayout.Identifies (layout : KeyLayout) : Prop :=
  ∀ (values : List Value) (bufSize : Nat) (buf : Nat → UInt8), layout.Typed values →
    layout.room values ≤ bufSize → ∃ p, buildPackedKey layout values bufSize buf = some (.ok p) ∧
      unpackKey layout p = layout.fold values ∧
      ∀ (values' : List Value) (bufSize' : Nat) (buf' p' : Nat → UInt8), layout.Typed values' →
        buildPackedKey layout values' bufSize' buf' = some (.ok p') →
          (packedKey layout p = packedKey layout p' ↔ layout.fold values = layout.fold values')

section Identify

variable {layout : KeyLayout}

/-- It is enough that the packed key determines the key and the other way round. -/
theorem identifies_of_pack (pack : List Value → Bytes)
    (hbuild : ∀ values bufSize buf, layout.Typed values → layout.room values ≤ bufSize →
      ∃ p, buildPackedKey layout values bufSize buf = some (.ok p))
    (hpack : ∀ values bufSize buf p, layout.Typed values →
      buildPackedKey layout values bufSize buf = some (.ok p) →
        packedKey layout p = pack values ∧ unpackKey layout p = layout.fold values)
    (hunpack : ∀ p p', packedKey layout p = packedKey layout p' →
      unpackKey layout p = unpackKey layout p')
    (hfold : ∀ values values', layout.Typed values → layout.Typed values' →
      layout.fold values = layout.fold values' → pack values = pack values') :
    layout.Identifies := by
  intro values bufSize buf htyped hroom
  obtain ⟨p, hp⟩ := hbuild values bufSize buf htyped hroom
  obtain ⟨hpacked, hunpacked⟩ := hpack values bufSize buf p htyped hp
  refine ⟨p, hp, hunpacked, fun values' bufSize' buf' p' htyped' hp' => ?_⟩
  obtain ⟨hpacked', hunpacked'⟩ := hpack values' bufSize' buf' p' htyped' hp'
  constructor
  · intro heq
    rw [← hunpacked, ← hunpacked', hunpack p p' heq]
  · intro heq
    rw [hpacked, hpacked', hfold values values' htyped htyped' heq]

/-- The layout of an integer key. -/
def intLayout (fs : List FieldDefinition) (maxKeySize : UInt16) : KeyLayout :=
  ⟨fs, (layoutFields fs 0 0).1, .ofNat (totalSize fs), maxKeySize⟩

/-- The layout of a string key. -/
def stringLayout (f : FieldDefinition) (offsets : List UInt8) (maxKeySize : UInt16) : KeyLayout :=
  ⟨[f], offsets, 0, maxKeySize⟩

/-- The layouts `set_key_fields` sets. -/
inductive Admitted : KeyLayout → Prop
  | empty (keyFormat : UInt8) (offsets : List UInt8) (maxKeySize : UInt16) (h : keyFormat = 0) :
      Admitted ⟨[], offsets, keyFormat, maxKeySize⟩
  | ints (fs : List FieldDefinition) (maxKeySize : UInt16) (hne : fs ≠ [])
      (hint : ∀ f ∈ fs, isInteger f.type = true) (hlen : fs.length ≤ 32) :
      Admitted (intLayout fs maxKeySize)
  | string (f : FieldDefinition) (offsets : List UInt8) (maxKeySize : UInt16)
      (hstr : isInteger f.type = false) : Admitted (stringLayout f offsets maxKeySize)

theorem le_nvar_layoutFields (fs : List FieldDefinition) (maxSize nvar : Nat) :
    nvar ≤ (layoutFields fs maxSize nvar).2.2 := by
  induction fs generalizing maxSize nvar with
  | nil => exact le_rfl
  | cons f fs ih =>
    rw [layoutFields]
    split_ifs
    · exact ih _ _
    · exact (Nat.le_succ nvar).trans (ih _ _)

theorem ints_of_layoutFields {fs : List FieldDefinition} {maxSize nvar : Nat}
    (h : (layoutFields fs maxSize nvar).2.2 = nvar) : ∀ f ∈ fs, isInteger f.type = true := by
  induction fs generalizing maxSize with
  | nil => exact nofun
  | cons f fs ih =>
    rw [layoutFields] at h
    split_ifs at h with hint
    · exact forall_mem_cons.mpr ⟨hint, ih h⟩
    · have := le_nvar_layoutFields fs (1 + f.size) (nvar + 1)
      change (layoutFields fs (1 + f.size) (nvar + 1)).2.2 = nvar at h
      omega

theorem admitted_of_setKeyFields {fieldList : List FieldDefinition} {maxKeySize : UInt16} {n : Int}
    (h : setKeyFields fieldList maxKeySize n = some layout) : Admitted layout := by
  simp only [setKeyFields] at h
  generalize (if n < 0 then 1 else n) = m at h
  by_cases hzero : m ≤ 0
  · rw [if_pos hzero] at h
    cases h
    exact .empty 0 [] _ rfl
  by_cases hmany : m > 32
  · rw [if_neg hzero, if_pos hmany] at h
    cases h
  rw [if_neg hzero, if_neg hmany] at h
  by_cases hnvar : (layoutFields (fieldList.take m.toNat) 0 0).2.2 = 0
  · have hint := ints_of_layoutFields hnvar
    have hsize := congrArg Prod.fst (layoutFields_of_ints hint 0 0)
    rw [Nat.zero_add] at hsize
    rw [if_pos hnvar, hsize] at h
    split_ifs at h
    cases h
    cases hfs : fieldList.take m.toNat with
    | nil => exact .empty _ _ _ rfl
    | cons f fs =>
      rw [hfs] at hint
      refine .ints (f :: fs) _ (cons_ne_nil _ _) hint ?_
      rw [← hfs, length_take]
      omega
  · rw [if_neg hnvar] at h
    split at h
    · cases h
    · split at h
      · cases h
      · next hlen =>
        cases h
        obtain ⟨f, hf⟩ := length_eq_one_iff.mp (not_not.mp hlen)
        rw [hf] at hnvar ⊢
        cases hint : isInteger f.type with
        | true =>
          simp only [layoutFields, hint, if_true] at hnvar
          exact absurd trivial hnvar
        | false => exact .string f _ _ hint

section Ints

variable {fs : List FieldDefinition} {maxKeySize : UInt16}

theorem totalSize_pos (hne : fs ≠ []) : 0 < totalSize fs := by
  obtain ⟨f, rest, rfl⟩ := exists_cons_of_ne_nil hne
  rw [totalSize, map_cons, sum_cons]
  exact Nat.add_pos_left f.pos _

theorem toNat_keyFormat (maxKeySize : UInt16) (hsize : totalSize fs < 256) :
    (intLayout fs maxKeySize).keyFormat.toNat = totalSize fs :=
  (toNat_ofNat_uint8 _).trans (Nat.mod_eq_of_lt hsize)

theorem keyFormat_ne_zero (maxKeySize : UInt16) (hne : fs ≠ []) (hsize : totalSize fs < 256) :
    (intLayout fs maxKeySize).keyFormat ≠ 0 := by
  intro heq
  have := totalSize_pos hne
  rw [← toNat_keyFormat maxKeySize hsize, heq] at this
  exact absurd this (by decide)

theorem buildPackedKey_ints (hne : fs ≠ []) (hint : ∀ f ∈ fs, isInteger f.type = true)
    (hsize : totalSize fs < 256) {values : List Value}
    (htyped : (intLayout fs maxKeySize).Typed values) (bufSize : Nat) (buf : Nat → UInt8) :
    buildPackedKey (intLayout fs maxKeySize) values bufSize buf =
      if bufSize < totalSize fs then some (.error (if fs.length = 1 then -3 else -5))
      else some (.ok (write buf 0 (packInts fs values))) := by
  have hstore : ∀ err, storeFields err (fs.zip (layoutFields fs 0 0).1) values buf =
      some (.ok (write buf 0 (packInts fs values))) := fun err =>
    storeFields_of_holds err hint htyped 0 (by omega) buf
  rw [buildPackedKey, if_neg (keyFormat_ne_zero maxKeySize hne hsize),
    toNat_keyFormat maxKeySize hsize]
  change (if fs.length = 1 then _ else _) = _
  by_cases hone : fs.length = 1
  · rw [if_pos hone, if_pos hone]
    obtain ⟨f, rfl⟩ := length_eq_one_iff.mp hone
    have hoffset : (layoutFields [f] 0 0).1 = [0] := by
      rw [layoutFields, if_pos (hint f mem_cons_self)]
      rfl
    rw [← hoffset]
    exact if_congr Iff.rfl rfl (hstore _)
  · rw [if_neg hone, if_neg hone]
    exact if_congr Iff.rfl rfl (hstore _)

theorem unpackFields_congr {ptr : Nat} {p p' : Nat → UInt8}
    (h : ∀ k, ptr ≤ k → k < ptr + totalSize fs → p k = p' k) :
    unpackFields fs ptr p = unpackFields fs ptr p' := by
  induction fs generalizing ptr with
  | nil => rfl
  | cons f fs ih =>
    rw [totalSize, map_cons, sum_cons] at h
    have hfirst : slice p ptr f.size = slice p' ptr f.size :=
      slice_congr fun k hk hlt => h k hk (by omega)
    have hrest : unpackFields fs (ptr + f.size) p = unpackFields fs (ptr + f.size) p' :=
      ih fun k hk hlt => h k (by omega) (by rw [totalSize] at hlt; omega)
    rw [unpackFields, unpackFields, hfirst, hrest]

theorem identifies_ints (hne : fs ≠ []) (hint : ∀ f ∈ fs, isInteger f.type = true)
    (hsize : totalSize fs < 256) : (intLayout fs maxKeySize).Identifies := by
  have hformat := keyFormat_ne_zero maxKeySize hne hsize
  have hnat := toNat_keyFormat maxKeySize hsize
  have hpacked : ∀ p, packedKey (intLayout fs maxKeySize) p = slice p 0 (totalSize fs) :=
    fun p => by
    rw [packedKey, packedKeySize, if_pos hformat, hnat]
  have hunpacked : ∀ p, unpackKey (intLayout fs maxKeySize) p = unpackFields fs 0 p := fun p => by
    rw [unpackKey, if_neg hformat]
    rfl
  refine identifies_of_pack (packInts fs) ?_ ?_ ?_ ?_
  · intro values bufSize buf htyped hroom
    rw [KeyLayout.room, if_neg hformat, hnat] at hroom
    rw [buildPackedKey_ints hne hint hsize htyped, if_neg (Nat.not_lt.mpr hroom)]
    exact ⟨_, rfl⟩
  · intro values bufSize buf p htyped hp
    rw [buildPackedKey_ints hne hint hsize htyped] at hp
    split at hp
    · cases hp
    cases hp
    have hslice : slice (write buf 0 (packInts fs values)) 0 (totalSize fs) =
      packInts fs values := by
      rw [← length_packInts hint htyped, slice_write_self]
    refine ⟨(hpacked _).trans hslice, ?_⟩
    rw [hunpacked, unpackFields_of_holds hint htyped hslice, KeyLayout.fold]
    exact (zipWith_fold_of_ints hint htyped).symm
  · intro p p' heq
    rw [hpacked, hpacked, slice_inj] at heq
    rw [hunpacked, hunpacked, unpackFields_congr heq]
  · intro values values' htyped htyped' heq
    have hfold := zipWith_fold_of_ints hint htyped
    have hfold' := zipWith_fold_of_ints hint htyped'
    rw [KeyLayout.fold, KeyLayout.fold] at heq
    rw [← hfold, ← hfold']
    exact congrArg (packInts fs) heq

/-- The only other size is 256, and then the key is taken for a string. -/
theorem totalSize_lt_of_identifies (hne : fs ≠ []) (hint : ∀ f ∈ fs, isInteger f.type = true)
    (hlen : fs.length ≤ 32) (hid : (intLayout fs maxKeySize).Identifies) : totalSize fs < 256 := by
  by_contra hlarge
  have hle := totalSize_le hint
  have hsize : totalSize fs = 256 := by omega
  have hformat : (intLayout fs maxKeySize).keyFormat = 0 := by
    change UInt8.ofNat (totalSize fs) = 0
    rw [hsize]
    rfl
  obtain ⟨f, rest, rfl⟩ := exists_cons_of_ne_nil hne
  obtain ⟨p, hp, -⟩ := hid _ _ (fun _ => 0) (holds_zero hint) le_rfl
  rw [buildPackedKey, if_pos hformat] at hp
  cases hp

end Ints

section String

variable {f : FieldDefinition} {offsets : List UInt8} {maxKeySize : UInt16}

/-- The bytes of a string in a packed key. -/
def FieldDefinition.keyBytes (f : FieldDefinition) (str : Bytes) : Bytes :=
  if f.type = .string then toLower str else str

/-- The packed key of one value of a string field. -/
def FieldDefinition.packString (f : FieldDefinition) : List Value → Bytes
  | [.str str] => .ofNat str.length :: f.keyBytes str
  | _ => []

theorem length_keyBytes (f : FieldDefinition) (str : Bytes) :
    (f.keyBytes str).length = str.length := by
  rw [FieldDefinition.keyBytes]
  split_ifs
  · exact length_map _
  · rfl

theorem typed_string (hstr : isInteger f.type = false) {values : List Value} :
    (stringLayout f offsets maxKeySize).Typed values ↔
      ∃ str, values = [.str str] ∧ str.length ≤ f.size := by
  constructor
  · intro h
    have hforall : List.Forall₂ FieldDefinition.Holds [f] values := h
    cases hforall with
    | @cons _ value _ _ hf hrest =>
      cases hrest
      cases value with
      | int u64 =>
        rw [hf.integer] at hstr
        cases hstr
      | str bytes => exact ⟨bytes, rfl, hf.2⟩
  · rintro ⟨str, rfl, hlen⟩
    exact .cons ⟨hstr, hlen⟩ .nil

theorem buildPackedKey_string {str : Bytes} (hlen : str.length ≤ f.size) (bufSize : Nat)
    (buf : Nat → UInt8) :
    buildPackedKey (stringLayout f offsets maxKeySize) [.str str] bufSize buf =
      if bufSize < str.length + 1 then some (.error (-2))
      else some (.ok (write buf 0 (.ofNat str.length :: f.keyBytes str))) := by
  rw [buildPackedKey, if_pos (by rfl)]
  simp only [stringLayout, List.head?_cons, Option.bind_eq_bind, Option.bind_some, Value.str?,
    gt_iff_lt, Nat.not_lt.mpr hlen, if_false]
  by_cases hbuf : bufSize < str.length + 1
  · rw [if_pos hbuf, if_pos hbuf]
    rfl
  · rw [if_neg hbuf, if_neg hbuf]
    rfl

theorem identifies_string (hstr : isInteger f.type = false) (hsize : f.size < 256) :
    (stringLayout f offsets maxKeySize).Identifies := by
  let pack := f.packString
  have hpacked : ∀ p, packedKey (stringLayout f offsets maxKeySize) p =
      slice p 0 (1 + (p 0).toNat) := fun p => by
    rw [packedKey, packedKeySize, if_neg fun h => h rfl]
  have hunpacked : ∀ p, unpackKey (stringLayout f offsets maxKeySize) p =
      [.str (slice p 1 (p 0).toNat)] := fun p => by
    rw [unpackKey, if_pos (by rfl)]
  refine identifies_of_pack pack ?_ ?_ ?_ ?_
  · intro values bufSize buf htyped hroom
    obtain ⟨str, rfl, hlen⟩ := (typed_string hstr).mp htyped
    have hle : str.length + 1 ≤ bufSize := hroom
    rw [buildPackedKey_string hlen, if_neg (by omega)]
    exact ⟨_, rfl⟩
  · intro values bufSize buf p htyped hp
    obtain ⟨str, rfl, hlen⟩ := (typed_string hstr).mp htyped
    rw [buildPackedKey_string hlen] at hp
    split at hp
    · cases hp
    cases hp
    have hfirst : (write buf 0 (.ofNat str.length :: f.keyBytes str) 0).toNat = str.length := by
      rw [write, if_pos le_rfl, Nat.sub_self, List.getElem?_cons_zero, Option.getD_some,
        toNat_ofNat_uint8]
      omega
    have hslice := slice_write_self buf 0 (.ofNat str.length :: f.keyBytes str)
    rw [length_cons, length_keyBytes, Nat.add_comm] at hslice
    refine ⟨?_, ?_⟩
    · rw [hpacked, hfirst]
      exact hslice
    · rw [hunpacked, hfirst]
      rw [slice_add, ← singleton_append] at hslice
      have htail := (append_inj hslice (by rw [length_slice, length_singleton])).2
      rw [Nat.zero_add, singleton_append] at htail
      rw [htail]
      rfl
  · intro p p' heq
    rw [hpacked, hpacked] at heq
    have hlen := congrArg List.length heq
    rw [length_slice, length_slice] at hlen
    rw [hunpacked, hunpacked]
    have hsame : (p 0).toNat = (p' 0).toNat := by omega
    rw [hsame, slice_inj] at heq
    rw [hsame, slice_congr fun k hk hlt => heq k (Nat.zero_le k) (by omega)]
  · intro values values' htyped htyped' heq
    obtain ⟨str, rfl, -⟩ := (typed_string hstr).mp htyped
    obtain ⟨str', rfl, -⟩ := (typed_string hstr).mp htyped'
    have hbytes : f.keyBytes str = f.keyBytes str' := by
      simpa only [FieldDefinition.keyBytes, KeyLayout.fold, stringLayout, zipWith_cons_cons,
        zipWith_nil_left,
        FieldDefinition.fold, List.cons.injEq, Value.str.injEq, and_true] using heq
    have hlen := congrArg List.length hbytes
    rw [length_keyBytes, length_keyBytes] at hlen
    change UInt8.ofNat str.length :: f.keyBytes str = UInt8.ofNat str'.length :: f.keyBytes str'
    rw [hlen, hbytes]

/-- The length of a longer string is cut to a byte. -/
theorem size_lt_of_identifies (hstr : isInteger f.type = false)
    (hid : (stringLayout f offsets maxKeySize).Identifies) : f.size < 256 := by
  by_contra hlarge
  obtain ⟨str, hstr256⟩ : ∃ str : Bytes, str.length = 256 := ⟨replicate 256 0, length_replicate⟩
  have htyped : (stringLayout f offsets maxKeySize).Typed [.str str] :=
    (typed_string hstr).mpr ⟨str, rfl, by omega⟩
  have hroom : (stringLayout f offsets maxKeySize).room [.str str] ≤ 257 := by
    change str.length + 1 ≤ 257
    omega
  obtain ⟨p, hp, hunpack, -⟩ := hid _ 257 (fun _ => 0) htyped hroom
  rw [buildPackedKey_string (by omega), if_neg (by omega), hstr256] at hp
  cases hp
  have hfold : (stringLayout f offsets maxKeySize).fold [.str str] = [.str (f.keyBytes str)] := rfl
  rw [hfold] at hunpack
  have hbytes := congrArg List.length (Value.str.inj (singleton_injective hunpack))
  rw [length_keyBytes, length_slice, hstr256] at hbytes
  have hlt := (write (fun _ => 0) 0 (UInt8.ofNat 256 :: f.keyBytes str) 0).toNat_lt
  omega

end String

/-- `set_key_fields` admits keys that are not identified by their packed keys: those whose declared
sizes add up to more than a byte can hold. -/
theorem identifies_iff_totalSize_lt {fieldList : List FieldDefinition} {maxKeySize : UInt16}
    {n : Int} (h : setKeyFields fieldList maxKeySize n = some layout) :
    layout.Identifies ↔ layout.keyFields ≠ [] ∧ totalSize layout.keyFields < 256 := by
  cases admitted_of_setKeyFields h with
  | empty keyFormat offsets maxKeySize hformat =>
    subst hformat
    refine iff_of_false (fun hid => ?_) fun hc => hc.1 rfl
    obtain ⟨p, hp, -⟩ := hid [] 1 (fun _ => 0) .nil le_rfl
    cases hp
  | ints fs maxKeySize hne hint hlen =>
    refine ⟨fun hid => ⟨hne, ?_⟩, fun hc => identifies_ints hne hint hc.2⟩
    exact totalSize_lt_of_identifies hne hint hlen hid
  | string f offsets maxKeySize hstr =>
    refine ⟨fun hid => ⟨cons_ne_nil _ _, ?_⟩, fun hc => identifies_string hstr hc.2⟩
    exact size_lt_of_identifies hstr hid

end Identify

/-- An integer of eight bytes. -/
def int64Field : FieldDefinition := ⟨.signed, 8, by decide, by decide⟩

/-- A string of up to 256 bytes. -/
def string256Field : FieldDefinition := ⟨.string, 256, by decide, by decide⟩

theorem identifies_int64Field :
    ∃ layout, setKeyFields [int64Field] 0 1 = some layout ∧ layout.Identifies := by
  have hset : setKeyFields [int64Field] 0 1 = some (intLayout [int64Field] 8) := by rfl
  exact ⟨_, hset, (identifies_iff_totalSize_lt hset).mpr ⟨cons_ne_nil _ _, by decide⟩⟩

/-- A string of 256 bytes is packed with the length 0. -/
theorem not_identifies_string256Field :
    ∃ layout, setKeyFields [string256Field] 0 1 = some layout ∧ ¬layout.Identifies :=
  ⟨_, rfl, fun hid => absurd (size_lt_of_identifies rfl hid) (by decide)⟩

end ISearch.Task
