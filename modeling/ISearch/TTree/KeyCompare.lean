import ISearch.KeyFormat.TableDef
import ISearch.TTree.Defs

/-!
# The comparator of the tree index (`t_tree.cc`)

`KeyCompare` compares the key of a request with the key of a record, whose bytes follow the header
of the record. Numbers are subtracted in 64 bits, and the callers put the result into an `int`; the
sign that is left is that of the distance of the keys modulo `2 ^ 32`. Strings are compared by
`strncasecmp`, which ends at a byte 0 that both have.
-/

namespace ISearch.TTree

open List
open KeyFormat (FieldType DTCValue compareOfLessAndEq_congr)

abbrev Bytes := List UInt8

/-- The key field that a `CmpCookie` names: its type and its size. -/
structure CmpCookie where
  fieldType : FieldType
  fieldSize : Int

/-- `*(int64_t *)p` and its siblings: the number in the first bytes. -/
def readNat (size : Nat) (p : Bytes) : Option Nat :=
  if size ≤ p.length then some (ofLeBytes (p.take size)) else none

/-- The signed key of a record: eight bytes, or four in a field of at most four. -/
def readSigned (fieldSize : Int) (p : Bytes) : Option Int64 :=
  if fieldSize > 4 then (readNat 8 p).map fun n => (UInt64.ofNat n).toInt64
  else (readNat 4 p).map fun n => (UInt32.ofNat n).toInt32.toInt64

def readUnsigned (fieldSize : Int) (p : Bytes) : Option UInt64 :=
  if fieldSize > 4 then (readNat 8 p).map UInt64.ofNat
  else (readNat 4 p).map fun n => (UInt32.ofNat n).toUInt64

/-- The length of a string or binary key. -/
def readLen (p : Bytes) : Option Int32 := (readNat 4 p).map fun n => (UInt32.ofNat n).toInt32

/-- The bytes behind the length; a negative length names none. -/
def readBytes (p : Bytes) : Option Bytes := do
  let len ← readLen p
  if 0 ≤ len.toInt ∧ len.toInt ≤ (p.drop 4).length then some ((p.drop 4).take len.toInt.toNat)
  else none

def convertCvalue (cookie : CmpCookie) (pchKey : Bytes) : Option DTCValue :=
  match cookie.fieldType with
  | .signed => (readSigned cookie.fieldSize pchKey).map .s64
  | .unsigned => (readUnsigned cookie.fieldSize pchKey).map .u64
  | .string => (readBytes pchKey).map .str
  | .binary => (readBytes pchKey).map .bin

/-- `tolower` in the C locale. -/
def lower (c : UInt8) : UInt8 := if 65 ≤ c ∧ c ≤ 90 then c + 32 else c

/-- `strncasecmp` on two texts of at least `n` bytes. -/
def strncasecmp : Nat → Bytes → Bytes → Int
  | n + 1, a :: key, b :: other =>
    if lower a ≠ lower b then (lower a).toNat - (lower b).toNat
    else if a = 0 then 0
    else strncasecmp n key other
  | _, _, _ => 0

/-- `memcmp` on two texts of at least `n` bytes. -/
def memcmp : Nat → Bytes → Bytes → Int
  | n + 1, a :: key, b :: other => if a ≠ b then a.toNat - b.toNat else memcmp n key other
  | _, _, _ => 0

/-- The cases for `String` and `Binary`, which differ in the function that compares the bytes. -/
def compareBytes (cmp : Nat → Bytes → Bytes → Int) (key pOtherKey : Bytes) : Option Int64 := do
  let tKeyLen ← readLen pOtherKey
  let keyLen := Int32.ofNat key.length
  if keyLen = 0 ∧ tKeyLen = 0 then return 0
  else if keyLen = 0 ∧ tKeyLen ≠ 0 then return -1
  else if keyLen ≠ 0 ∧ tKeyLen = 0 then return 1
  else
    let other := pOtherKey.drop 4
    let len := if keyLen < tKeyLen then keyLen else tKeyLen
    if 0 ≤ len.toInt ∧ len.toInt ≤ other.length then
      let res := Int32.ofInt (cmp len.toInt.toNat key other)
      if keyLen = tKeyLen then return res.toInt64
      else if res = 0 then return if keyLen > tKeyLen then 1 else -1
      else return res.toInt64
    else none

/-- `KeyCompare`; `none` reads outside of the record or another member of the value. -/
def keyCompare (cookie : CmpCookie) (value : DTCValue) (pOtherKey : Bytes) : Option Int64 :=
  match cookie.fieldType, value with
  | .signed, .s64 skey => (readSigned cookie.fieldSize pOtherKey).map fun sotherKey =>
      skey - sotherKey
  | .unsigned, .u64 ukey => (readUnsigned cookie.fieldSize pOtherKey).map fun uotherKey =>
      (ukey - uotherKey).toInt64
  | .string, .str key => compareBytes strncasecmp key pOtherKey
  | .binary, .bin key => compareBytes memcmp key pOtherKey
  | _, _ => none

/-- The order of two keys: of numbers, of bytes without regard to case, or of bytes. -/
def naturalOrder : DTCValue → DTCValue → Ordering
  | .s64 a, .s64 b => compare a b
  | .u64 a, .u64 b => compare a b
  | .str a, .str b => compare (a.map lower) (b.map lower)
  | .bin a, .bin b => compare a b
  | _, _ => .eq

/-- A key of the type of the field, with a length that an `int` holds. -/
def IsKey : FieldType → DTCValue → Prop
  | .signed, .s64 _ => True
  | .unsigned, .u64 _ => True
  | .string, .str v => v.length < 2 ^ 31
  | .binary, .bin v => v.length < 2 ^ 31
  | _, _ => False

/-- The comparison, as an `int`, has the sign of the order. -/
def Decides (cookie : CmpCookie) (value : DTCValue) (pOtherKey : Bytes) (other : DTCValue) : Prop :=
  ∃ d, keyCompare cookie value pOtherKey = some d ∧
    compare d.toInt32.toInt 0 = naturalOrder value other

/-- A distance whose remainder modulo `2 ^ 32`, as an `int`, has its sign. -/
def KeepsSign (d : Int) : Prop :=
  d = 0 ∨ 0 < d ∧ 0 < d % 2 ^ 32 ∧ d % 2 ^ 32 < 2 ^ 31 ∨
    d < 0 ∧ 0 < -d % 2 ^ 32 ∧ -d % 2 ^ 32 ≤ 2 ^ 31

/-- The keys are numbers whose distance keeps its sign, or binary, or strings in which nothing but
the lengths decides behind the first byte 0 that both have at one place. -/
def Comparable : DTCValue → DTCValue → Prop
  | .s64 a, .s64 b => KeepsSign (a.toInt - b.toInt)
  | .u64 a, .u64 b => KeepsSign (a.toNat - b.toNat)
  | .str a, .str b => ∀ p q s t, a = p ++ 0 :: s → b = q ++ 0 :: t → p.map lower = q.map lower →
      compare (s.map lower) (t.map lower) = compare s.length t.length
  | _, _ => True

theorem compare_bmod_iff (d : Int) : compare (d.bmod (2 ^ 32)) 0 = compare d 0 ↔ KeepsSign d := by
  have hbmod : d.bmod (2 ^ 32) =
      if d % 2 ^ 32 < 2 ^ 31 then d % 2 ^ 32 else d % 2 ^ 32 - 2 ^ 32 := by
    rw [Int.bmod_def]
    norm_num
  generalize d.bmod (2 ^ 32) = e at hbmod ⊢
  rw [KeepsSign]
  rcases lt_trichotomy d 0 with hd | rfl | hd
  · rw [compare_lt_iff_lt.mpr hd, compare_lt_iff_lt]
    split at hbmod <;> omega
  · have he : e = 0 := by simpa using hbmod
    simp [he]
  · rw [compare_gt_iff_gt.mpr hd, compare_gt_iff_gt]
    split at hbmod <;> omega

theorem compare_sub (a b : Int) : compare (a - b) 0 = compare a b := by
  rcases lt_trichotomy a b with h | rfl | h
  · rw [compare_lt_iff_lt.mpr h, compare_lt_iff_lt]
    omega
  · simp
  · rw [compare_gt_iff_gt.mpr h, compare_gt_iff_gt]
    omega

theorem compare_signed_iff (a b : Int64) :
    compare (a - b).toInt32.toInt 0 = compare a b ↔ KeepsSign (a.toInt - b.toInt) := by
  have hint : (a - b).toInt32.toInt = (a.toInt - b.toInt).bmod (2 ^ 32) := by
    rw [Int64.toInt_toInt32, Int64.toInt_sub, Int.bmod_bmod_of_dvd (by decide)]
  have horder : compare a b = compare (a.toInt - b.toInt) 0 := by
    rw [compare_sub]
    exact compareOfLessAndEq_congr Int64.lt_iff_toInt_lt Int64.toInt_inj.symm
  rw [hint, horder, compare_bmod_iff]

theorem compare_unsigned_iff (a b : UInt64) :
    compare (a - b).toInt64.toInt32.toInt 0 = compare a b ↔ KeepsSign (a.toNat - b.toNat) := by
  have hint : (a - b).toInt64.toInt32.toInt = ((a.toNat : Int) - b.toNat).bmod (2 ^ 32) := by
    have hbits : (a - b).toInt64.toInt = ((a - b).toNat : Int).bmod (2 ^ 64) :=
      (a - b).toBitVec.toInt_eq_toNat_bmod
    have ha := a.toNat_lt
    have hb := b.toNat_lt
    have hsub : ((a - b).toNat : Int) = ((a.toNat : Int) - b.toNat) % 2 ^ 64 := by
      rw [UInt64.toNat_sub]
      omega
    rw [Int64.toInt_toInt32, hbits, hsub, Int.bmod_bmod_of_dvd (by decide)]
    rw [← Int.emod_bmod, Int.emod_emod_of_dvd _ (by norm_num), Int.emod_bmod]
  have horder : compare a b = compare ((a.toNat : Int) - b.toNat) 0 := by
    rw [compare_sub]
    refine compareOfLessAndEq_congr ?_ ?_
    · rw [UInt64.lt_iff_toNat_lt, Int.ofNat_lt]
    · rw [← UInt64.toNat_inj, Int.ofNat_inj]
  rw [hint, horder, compare_bmod_iff]

/-! ## Bytes -/

theorem compare_cons_self (c : UInt8) (a b : Bytes) :
    compare (c :: a) (c :: b) = compare a b := by
  rw [List.compare_cons_cons, compare_eq_iff_eq.mpr rfl, Ordering.eq_then]

theorem compare_append (p a b : Bytes) : compare (p ++ a) (p ++ b) = compare a b := by
  induction p with
  | nil => rfl
  | cons c p ih => rw [cons_append, cons_append, compare_cons_self, ih]

theorem lower_eq_zero (c : UInt8) : lower c = 0 ↔ c = 0 := by
  rw [lower]
  split
  · next hupper =>
    have hlow := UInt8.le_iff_toNat_le.mp hupper.1
    have hhigh := UInt8.le_iff_toNat_le.mp hupper.2
    rw [← UInt8.toNat_inj, ← UInt8.toNat_inj, UInt8.toNat_add]
    simp only [UInt8.reduceToNat] at hlow hhigh ⊢
    omega
  · rfl

/-- The order that `compareBytes` decides by. -/
def order (cmp : Nat → Bytes → Bytes → Int) (key other : Bytes) : Ordering :=
  (compare (cmp (min key.length other.length) key other) 0).then
    (compare key.length other.length)

section Order

variable {cmp : Nat → Bytes → Bytes → Int} {a b : UInt8} {key other : Bytes}

theorem order_of_ne {c d : UInt8} (hne : c ≠ d)
    (hcmp : cmp (min key.length other.length + 1) (a :: key) (b :: other) = c.toNat - d.toNat)
    (s t : Bytes) : order cmp (a :: key) (b :: other) = compare (c :: s) (d :: t) := by
  have hbyte : compare c d = compare ((c.toNat : Int) - d.toNat) 0 := by
    rw [compare_sub]
    refine compareOfLessAndEq_congr ?_ ?_
    · rw [UInt8.lt_iff_toNat_lt, Int.ofNat_lt]
    · rw [← UInt8.toNat_inj, Int.ofNat_inj]
  have hlen : min (a :: key).length (b :: other).length = min key.length other.length + 1 :=
    Nat.succ_min_succ _ _
  rw [order, hlen, hcmp, ← hbyte, List.compare_cons_cons]
  cases hcd : compare c d with
  | eq => exact absurd (compare_eq_iff_eq.mp hcd) hne
  | lt => rfl
  | gt => rfl

theorem order_of_eq
    (hcmp : cmp (min key.length other.length + 1) (a :: key) (b :: other) =
      cmp (min key.length other.length) key other) :
    order cmp (a :: key) (b :: other) = order cmp key other := by
  have hlen : min (a :: key).length (b :: other).length = min key.length other.length + 1 :=
    Nat.succ_min_succ _ _
  have hlengths : compare (a :: key).length (b :: other).length =
      compare key.length other.length := by
    refine compareOfLessAndEq_congr ?_ ?_ <;> simp
  rw [order, hlen, hcmp, hlengths, order]

end Order

theorem order_memcmp (key other : Bytes) : order memcmp key other = compare key other := by
  induction key generalizing other with
  | nil => cases other <;> rfl
  | cons a key ih =>
    cases other with
    | nil => rfl
    | cons b other =>
      by_cases hne : a = b
      · subst hne
        rw [order_of_eq (by simp [memcmp]), ih, compare_cons_self]
      · exact order_of_ne hne (by simp [memcmp, hne]) _ _

/-- Behind a byte 0 that both have `strncasecmp` reads nothing, and the lengths decide. -/
theorem order_zero (key other : Bytes) :
    order strncasecmp (0 :: key) (0 :: other) = compare key.length other.length := by
  have hlengths : compare (0 :: key).length (0 :: other).length =
      compare key.length other.length := by
    refine compareOfLessAndEq_congr ?_ ?_ <;> simp
  have hlen : min (0 :: key).length (0 :: other).length = min key.length other.length + 1 :=
    Nat.succ_min_succ _ _
  rw [order, hlen, hlengths, strncasecmp]
  rfl

theorem comparable_zero_iff (key other : Bytes) :
    Comparable (.str (0 :: key)) (.str (0 :: other)) ↔
      compare (key.map lower) (other.map lower) = compare key.length other.length := by
  refine ⟨fun h => h [] [] key other rfl rfl rfl, fun h p q s t hkey hother hpq => ?_⟩
  cases p with
  | nil =>
    obtain rfl : q = [] := by simpa using hpq.symm
    obtain rfl : key = s := by simpa using hkey
    obtain rfl : other = t := by simpa using hother
    exact h
  | cons c p =>
    cases q with
    | nil => simp at hpq
    | cons d q =>
      obtain rfl : key = p ++ 0 :: s := (List.cons.inj hkey).2
      obtain rfl : other = q ++ 0 :: t := (List.cons.inj hother).2
      have hpq : p.map lower = q.map lower := (List.cons.inj hpq).2
      have hlength : p.length = q.length := by simpa using congrArg List.length hpq
      have hlengths : compare (p ++ 0 :: s).length (q ++ 0 :: t).length =
          compare s.length t.length := by
        refine compareOfLessAndEq_congr ?_ ?_ <;> simp [hlength]
      rw [hlengths, map_append, map_append, hpq, compare_append, map_cons,
        map_cons, compare_cons_self] at h
      exact h

theorem comparable_cons_iff {a b : UInt8} (hab : lower a = lower b) (ha : a ≠ 0)
    (key other : Bytes) :
    Comparable (.str (a :: key)) (.str (b :: other)) ↔ Comparable (.str key) (.str other) := by
  constructor
  · intro h p q s t hkey hother hpq
    exact h (a :: p) (b :: q) s t (by rw [hkey]; rfl) (by rw [hother]; rfl) (by simp [hab, hpq])
  · intro h p q s t hkey hother hpq
    cases p with
    | nil => exact absurd (List.cons.inj hkey).1 ha
    | cons c p =>
      cases q with
      | nil => simp at hpq
      | cons d q =>
        exact h p q s t (List.cons.inj hkey).2 (List.cons.inj hother).2 (List.cons.inj hpq).2

theorem comparable_of_ne {a b : UInt8} (hab : lower a ≠ lower b) (key other : Bytes) :
    Comparable (.str (a :: key)) (.str (b :: other)) := by
  intro p q s t hkey hother hpq
  refine absurd ?_ hab
  have hhead : ((p ++ 0 :: s).map lower).head? = ((q ++ 0 :: t).map lower).head? := by
    rw [map_append, map_append, hpq, map_cons, map_cons, List.head?_append,
      List.head?_append, List.head?_cons, List.head?_cons]
  simpa [← hkey, ← hother] using hhead

theorem order_strncasecmp_iff (key other : Bytes) :
    order strncasecmp key other = compare (key.map lower) (other.map lower) ↔
      Comparable (.str key) (.str other) := by
  induction key generalizing other with
  | nil =>
    refine iff_of_true ?_ fun p q s t hkey => ?_
    · cases other <;> rfl
    · simp at hkey
  | cons a key ih =>
    cases other with
    | nil =>
      refine iff_of_true rfl fun p q s t _ hother => ?_
      simp at hother
    | cons b other =>
      by_cases hab : lower a = lower b
      · by_cases ha : a = 0
        · subst ha
          obtain rfl : b = 0 := (lower_eq_zero b).mp (hab ▸ (lower_eq_zero 0).mpr rfl)
          rw [order_zero, comparable_zero_iff, map_cons, map_cons, compare_cons_self]
          exact eq_comm
        · rw [comparable_cons_iff hab ha, map_cons, map_cons, hab, compare_cons_self,
            order_of_eq (by simp [strncasecmp, hab, ha]), ih]
      · exact iff_of_true (order_of_ne hab (by simp [strncasecmp, hab]) _ _)
          (comparable_of_ne hab key other)

/-! ## The comparison of two texts -/

/-- A comparison of bytes that the shorter text decides. -/
structure ReadsPrefix (cmp : Nat → Bytes → Bytes → Int) : Prop where
  zero : ∀ key other, cmp 0 key other = 0
  append : ∀ n key other rest, n ≤ other.length → cmp n key (other ++ rest) = cmp n key other
  small : ∀ n key other, -256 < cmp n key other ∧ cmp n key other < 256

theorem UInt8.sub_small (a b : UInt8) :
    -256 < (a.toNat : Int) - b.toNat ∧ (a.toNat : Int) - b.toNat < 256 := by
  have ha := a.toNat_lt
  have hb := b.toNat_lt
  omega

theorem zero_small : (-256 : Int) < 0 ∧ (0 : Int) < 256 := by decide

theorem memcmp_readsPrefix : ReadsPrefix memcmp where
  zero _ _ := rfl
  append n := by
    induction n with
    | zero => intros; rfl
    | succ n ih =>
      rintro (_ | ⟨a, key⟩) (_ | ⟨b, other⟩) rest hn
      · cases rest <;> rfl
      · rfl
      · simp at hn
      · simp only [cons_append, memcmp, ih key other rest (Nat.le_of_succ_le_succ hn)]
  small n := by
    induction n with
    | zero => exact fun _ _ => zero_small
    | succ n ih =>
      rintro (_ | ⟨a, key⟩) (_ | ⟨b, other⟩)
      · exact zero_small
      · exact zero_small
      · exact zero_small
      · rw [memcmp]
        split
        · exact UInt8.sub_small a b
        · exact ih key other

theorem strncasecmp_readsPrefix : ReadsPrefix strncasecmp where
  zero _ _ := rfl
  append n := by
    induction n with
    | zero => intros; rfl
    | succ n ih =>
      rintro (_ | ⟨a, key⟩) (_ | ⟨b, other⟩) rest hn
      · cases rest <;> rfl
      · rfl
      · simp at hn
      · simp only [cons_append, strncasecmp, ih key other rest (Nat.le_of_succ_le_succ hn)]
  small n := by
    induction n with
    | zero => exact fun _ _ => zero_small
    | succ n ih =>
      rintro (_ | ⟨a, key⟩) (_ | ⟨b, other⟩)
      · exact zero_small
      · exact zero_small
      · exact zero_small
      · rw [strncasecmp]
        split
        · exact UInt8.sub_small (lower a) (lower b)
        · split
          · exact zero_small
          · exact ih key other

theorem compareBytes_order {cmp : Nat → Bytes → Bytes → Int} {key pOtherKey other : Bytes}
    (hcmp : ReadsPrefix cmp) (hkey : key.length < 2 ^ 31)
    (hother : readBytes pOtherKey = some other) :
    ∃ d, compareBytes cmp key pOtherKey = some d ∧
      compare d.toInt32.toInt 0 = order cmp key other := by
  simp only [readBytes, Option.bind_eq_bind, Option.bind_eq_some_iff, Option.ite_none_right_eq_some,
    Option.some.injEq] at hother
  obtain ⟨tKeyLen, hlen, ⟨hnonneg, hwithin⟩, hother⟩ := hother
  have hlength : (other.length : Int) = tKeyLen.toInt := by
    rw [← hother, length_take]
    omega
  have hsplit : pOtherKey.drop 4 = other ++ (pOtherKey.drop 4).drop tKeyLen.toInt.toNat := by
    rw [← hother, take_append_drop]
  have hkeyLen : (Int32.ofNat key.length).toInt = key.length := Int32.toInt_ofNat_of_lt hkey
  have hless : Int32.ofNat key.length < tKeyLen ↔ key.length < other.length := by
    rw [Int32.lt_iff_toInt_lt, hkeyLen, ← hlength, Int.ofNat_lt]
  have hgreater : tKeyLen < Int32.ofNat key.length ↔ other.length < key.length := by
    rw [Int32.lt_iff_toInt_lt, hkeyLen, ← hlength, Int.ofNat_lt]
  have hequal : Int32.ofNat key.length = tKeyLen ↔ key.length = other.length := by
    rw [← Int32.toInt_inj, hkeyLen, ← hlength, Int.ofNat_inj]
  have hkeyZero : Int32.ofNat key.length = 0 ↔ key.length = 0 := by
    rw [← Int32.toInt_inj, hkeyLen, Int32.toInt_zero, Int.natCast_eq_zero]
  have hotherZero : tKeyLen = 0 ↔ other.length = 0 := by
    rw [← Int32.toInt_inj, ← hlength, Int32.toInt_zero, Int.natCast_eq_zero]
  have hmin : (if Int32.ofNat key.length < tKeyLen then Int32.ofNat key.length
      else tKeyLen).toInt = (min key.length other.length : Nat) := by
    split
    · next h => rw [hkeyLen, min_eq_left (hless.mp h).le]
    · next h => rw [← hlength, min_eq_right (not_lt.mp (hless.not.mp h))]
  have hc := hcmp.small (min key.length other.length) key other
  have hdrop : cmp (min key.length other.length) key (pOtherKey.drop 4) =
      cmp (min key.length other.length) key other := by
    rw [hsplit, hcmp.append _ _ _ _ (min_le_right ..)]
  have hres : (Int32.ofInt (cmp (min key.length other.length) key other)).toInt =
      cmp (min key.length other.length) key other :=
    Int32.toInt_ofInt_of_le (by omega) (by omega)
  have hreads : (0 : Int) ≤ (min key.length other.length : Nat) ∧
      ((min key.length other.length : Nat) : Int) ≤ (pOtherKey.drop 4).length := by
    have := congrArg List.length hsplit
    rw [length_append] at this
    omega
  rw [compareBytes, hlen, order]
  simp only [Option.bind_eq_bind, Option.bind_some, ne_eq, hkeyZero, hotherZero, hmin, hequal,
    hgreater, hreads, and_self, if_true, Int.toNat_natCast, hdrop, gt_iff_lt]
  by_cases hkey0 : key.length = 0
  · by_cases hother0 : other.length = 0
    · exact ⟨0, by simp [hkey0, hother0], by simp [hkey0, hother0, hcmp.zero]⟩
    · refine ⟨-1, by simp [hkey0, hother0], ?_⟩
      rw [hkey0, Nat.zero_min, hcmp.zero, compare_lt_iff_lt.mpr (Nat.pos_of_ne_zero hother0)]
      rfl
  by_cases hother0 : other.length = 0
  · refine ⟨1, by simp [hkey0, hother0], ?_⟩
    rw [hother0, Nat.min_zero, hcmp.zero, compare_gt_iff_gt.mpr (Nat.pos_of_ne_zero hkey0)]
    rfl
  rw [if_neg (fun h => hkey0 h.1), if_neg (fun h => hkey0 h.1), if_neg (fun h => hother0 h.2)]
  generalize cmp (min key.length other.length) key other = c at hres
  have hresZero : Int32.ofInt c = 0 ↔ c = 0 := by
    rw [← Int32.toInt_inj, hres, Int32.toInt_zero]
  by_cases hlengths : key.length = other.length
  · refine ⟨_, if_pos hlengths, ?_⟩
    rw [Int32.toInt32_toInt64, hres, hlengths, compare_eq_iff_eq.mpr rfl, Ordering.then_eq]
  rw [if_neg hlengths]
  by_cases hc0 : c = 0
  · refine ⟨_, if_pos (hresZero.mpr hc0), ?_⟩
    rw [hc0]
    rcases lt_or_gt_of_ne hlengths with hlt | hgt
    · rw [if_neg hlt.asymm, compare_lt_iff_lt.mpr hlt]
      rfl
    · rw [if_pos hgt, compare_gt_iff_gt.mpr hgt]
      rfl
  · refine ⟨_, if_neg (hresZero.not.mpr hc0), ?_⟩
    rw [Int32.toInt32_toInt64, hres]
    cases hcompare : compare c 0 with
    | eq => exact absurd (compare_eq_iff_eq.mp hcompare) hc0
    | lt => rfl
    | gt => rfl

theorem decides_of_eq {cookie : CmpCookie} {value other : DTCValue} {pOtherKey : Bytes} {d : Int64}
    (h : keyCompare cookie value pOtherKey = some d) :
    Decides cookie value pOtherKey other ↔
      compare d.toInt32.toInt 0 = naturalOrder value other := by
  rw [Decides, h]
  simp

/-- The comparison of a request's key with the key of a record, as an `int`, has the sign of their
order exactly if the keys are comparable. -/
theorem decides_iff (cookie : CmpCookie) (value other : DTCValue) (pOtherKey : Bytes)
    (hkey : IsKey cookie.fieldType value) (hother : convertCvalue cookie pOtherKey = some other) :
    Decides cookie value pOtherKey other ↔ Comparable value other := by
  obtain ⟨fieldType, fieldSize⟩ := cookie
  cases fieldType <;> cases value <;> simp only [IsKey] at hkey
  case signed.s64 skey =>
    obtain ⟨sotherKey, hread, rfl⟩ := Option.map_eq_some_iff.mp hother
    have hcompare : keyCompare ⟨.signed, fieldSize⟩ (.s64 skey) pOtherKey =
        some (skey - sotherKey) := congrArg (Option.map _) hread
    exact (decides_of_eq hcompare).trans (compare_signed_iff skey sotherKey)
  case unsigned.u64 ukey =>
    obtain ⟨uotherKey, hread, rfl⟩ := Option.map_eq_some_iff.mp hother
    have hcompare : keyCompare ⟨.unsigned, fieldSize⟩ (.u64 ukey) pOtherKey =
        some (ukey - uotherKey).toInt64 := congrArg (Option.map _) hread
    exact (decides_of_eq hcompare).trans (compare_unsigned_iff ukey uotherKey)
  case string.str key =>
    obtain ⟨text, hread, rfl⟩ := Option.map_eq_some_iff.mp hother
    obtain ⟨d, hd, horder⟩ := compareBytes_order strncasecmp_readsPrefix hkey hread
    have hcompare : keyCompare ⟨.string, fieldSize⟩ (.str key) pOtherKey = some d := hd
    rw [decides_of_eq hcompare, horder]
    exact order_strncasecmp_iff key text
  case binary.bin key =>
    obtain ⟨bytes, hread, rfl⟩ := Option.map_eq_some_iff.mp hother
    obtain ⟨d, hd, horder⟩ := compareBytes_order memcmp_readsPrefix hkey hread
    have hcompare : keyCompare ⟨.binary, fieldSize⟩ (.bin key) pOtherKey = some d := hd
    rw [decides_of_eq hcompare, horder]
    exact iff_of_true (order_memcmp key bytes) trivial

/-- Two keys of eight bytes one apart. -/
theorem decides_neighbours :
    Decides ⟨.signed, 8⟩ (.s64 5) [4, 0, 0, 0, 0, 0, 0, 0] (.s64 4) ↔
      Comparable (.s64 5) (.s64 4) :=
  decides_iff _ _ _ _ trivial (by decide)

/-- The key `2 ^ 32` compares equal to the key 0. -/
theorem not_decides_distance :
    convertCvalue ⟨.signed, 8⟩ [0, 0, 0, 0, 0, 0, 0, 0] = some (.s64 0) ∧
      (keyCompare ⟨.signed, 8⟩ (.s64 4294967296) [0, 0, 0, 0, 0, 0, 0, 0]).map
        (fun d => d.toInt32.toInt) = some 0 ∧
      ¬ Decides ⟨.signed, 8⟩ (.s64 4294967296) [0, 0, 0, 0, 0, 0, 0, 0] (.s64 0) := by
  refine ⟨by decide, by decide +kernel, ?_⟩
  rw [decides_of_eq (d := 4294967296) (by decide +kernel)]
  decide +kernel

end ISearch.TTree
