import Mathlib.Data.Nat.ModEq
import Mathlib.Tactic.Ring

/-!
# Numbers as bytes

`leBytes n v` are the `n` low bytes of `v`, least significant first, as `memcpy` sees them on a
little-endian machine. Read from the most significant end, the bytes of two numbers compare as the
numbers do.
-/

namespace ISearch

/-- The `n` low bytes of `v`, least significant first. -/
def leBytes : Nat → Nat → List UInt8
  | 0, _ => []
  | n + 1, v => UInt8.ofNat v :: leBytes n (v / 256)

/-- The number with the given bytes, least significant first. -/
def ofLeBytes : List UInt8 → Nat
  | [] => 0
  | b :: bs => b.toNat + 256 * ofLeBytes bs

@[simp] theorem length_leBytes (n v : Nat) : (leBytes n v).length = n := by
  induction n generalizing v with
  | zero => rfl
  | succ n ih => simp [leBytes, ih]

theorem toNat_toUInt64 (x : Int64) : (x.toUInt64.toNat : Int) = x.toInt % 2 ^ 64 := by
  have hx : x.toInt = Int.bmod x.toUInt64.toNat (2 ^ 64) := x.toBitVec.toInt_eq_toNat_bmod
  have hlt := x.toUInt64.toNat_lt
  rw [Int.bmod_def] at hx
  split at hx <;> omega

theorem toNat_ofNat_uint8 (v : Nat) : (UInt8.ofNat v).toNat = v % 256 := by
  simp

theorem ofLeBytes_leBytes (n v : Nat) : ofLeBytes (leBytes n v) = v % 256 ^ n := by
  induction n generalizing v with
  | zero => simp [leBytes, ofLeBytes, Nat.mod_one]
  | succ n ih =>
    rw [leBytes, ofLeBytes, ih, toNat_ofNat_uint8, pow_succ', Nat.mod_mul]

theorem leBytes_ofLeBytes (bs : List UInt8) : leBytes bs.length (ofLeBytes bs) = bs := by
  induction bs with
  | nil => rfl
  | cons b bs ih =>
    have hb := b.toNat_lt
    have hdiv : (b.toNat + 256 * ofLeBytes bs) / 256 = ofLeBytes bs := by omega
    have hmod : UInt8.ofNat (b.toNat + 256 * ofLeBytes bs) = b := by
      apply UInt8.toNat_inj.mp
      rw [toNat_ofNat_uint8]
      omega
    rw [ofLeBytes, List.length_cons, leBytes, hdiv, hmod, ih]

theorem ofLeBytes_lt (bs : List UInt8) : ofLeBytes bs < 256 ^ bs.length := by
  induction bs with
  | nil => simp [ofLeBytes]
  | cons b bs ih =>
    have hb := b.toNat_lt
    rw [ofLeBytes, List.length_cons, pow_succ']
    omega

/-- The bytes of a number that is put together from two parts. -/
theorem leBytes_add {m n a b : Nat} (ha : a < 256 ^ m) :
    leBytes (m + n) (a + 256 ^ m * b) = leBytes m a ++ leBytes n b := by
  induction m generalizing a with
  | zero =>
    obtain rfl : a = 0 := by simpa using ha
    simp [leBytes]
  | succ m ih =>
    have hdiv : (a + 256 ^ (m + 1) * b) / 256 = a / 256 + 256 ^ m * b := by
      rw [pow_succ', mul_assoc, Nat.add_mul_div_left _ _ (by decide)]
    have hmod : UInt8.ofNat (a + 256 ^ (m + 1) * b) = UInt8.ofNat a := by
      apply UInt8.toNat_inj.mp
      rw [toNat_ofNat_uint8, toNat_ofNat_uint8, pow_succ', mul_assoc,
        Nat.add_mul_mod_self_left]
    have hlt : a / 256 < 256 ^ m := by
      rw [Nat.div_lt_iff_lt_mul (by decide), ← pow_succ]
      exact ha
    rw [Nat.succ_add, leBytes, hdiv, hmod, ih hlt]
    rfl

theorem leBytes_mod (n v : Nat) : leBytes n (v % 256 ^ n) = leBytes n v := by
  induction n generalizing v with
  | zero => rfl
  | succ n ih =>
    have hmod : UInt8.ofNat (v % 256 ^ (n + 1)) = UInt8.ofNat v := by
      apply UInt8.toNat_inj.mp
      rw [toNat_ofNat_uint8, toNat_ofNat_uint8, pow_succ', Nat.mod_mul_right_mod]
    rw [leBytes, leBytes, hmod, ← ih (v / 256), pow_succ', Nat.mod_mul_right_div_self]

theorem reverse_leBytes_succ (n v : Nat) :
    (leBytes (n + 1) v).reverse = UInt8.ofNat (v / 256 ^ n) :: (leBytes n v).reverse := by
  have hv : v = v % 256 ^ n + 256 ^ n * (v / 256 ^ n) := (Nat.mod_add_div _ _).symm
  have hlt : v % 256 ^ n < 256 ^ n := Nat.mod_lt _ (Nat.pow_pos (by decide))
  conv_lhs => rw [hv, leBytes_add hlt, leBytes_mod]
  simp [leBytes]

instance linearOrderUInt8 : LinearOrder UInt8 where
  le_refl := UInt8.le_refl
  le_trans _ _ _ := UInt8.le_trans
  le_antisymm _ _ := UInt8.le_antisymm
  le_total := UInt8.le_total
  lt_iff_le_not_ge a b := by
    rw [UInt8.not_le]
    exact ⟨fun h => ⟨UInt8.le_of_lt h, h⟩, fun h => h.2⟩
  toDecidableLE := inferInstance
  toDecidableLT := inferInstance
  toDecidableEq := inferInstance
  toOrd := inferInstance
  compare_eq_compareOfLessAndEq _ _ := rfl

instance lawfulBEqUInt8 : LawfulBEq UInt8 := inferInstance

instance lawfulBEqBytes : LawfulBEq (List UInt8) := inferInstance

theorem compare_uint8 (x y : UInt8) : compare x y = compare x.toNat y.toNat := by
  have hx : compare x y = compareOfLessAndEq x y := rfl
  have hn : compare x.toNat y.toNat = compareOfLessAndEq x.toNat y.toNat := rfl
  simp only [hx, hn, compareOfLessAndEq, UInt8.lt_iff_toNat_lt, UInt8.toNat_inj]

theorem compare_bytes_eq_lt (a b : List UInt8) : compare a b = .lt ↔ a < b := by
  induction a generalizing b with
  | nil => cases b <;> simp
  | cons x a ih =>
    cases b with
    | nil => simp
    | cons y b =>
      rw [List.compare_cons_cons, Ordering.then_eq_lt, ih, List.cons_lt_cons_iff, compare_uint8,
        compare_lt_iff_lt, compare_eq_iff_eq, UInt8.lt_iff_toNat_lt, UInt8.toNat_inj]

/-- Numbers compare by quotient, then by remainder. -/
theorem compare_div_mod (p a b : Nat) :
    (compare (a / p) (b / p)).then (compare (a % p) (b % p)) = compare a b := by
  have ha := Nat.div_add_mod a p
  have hb := Nat.div_add_mod b p
  rcases lt_trichotomy (a / p) (b / p) with h | h | h
  · have hlt : a < b := lt_of_not_ge fun hge => absurd h (Nat.div_le_div_right hge).not_gt
    rw [compare_lt_iff_lt.mpr h, compare_lt_iff_lt.mpr hlt, Ordering.lt_then]
  · rw [compare_eq_iff_eq.mpr h, Ordering.eq_then]
    rw [← h] at hb
    conv_rhs => rw [← ha, ← hb]
    rcases lt_trichotomy (a % p) (b % p) with h' | h' | h'
    · rw [compare_lt_iff_lt.mpr h', compare_lt_iff_lt.mpr (Nat.add_lt_add_left h' _)]
    · rw [h', compare_eq_iff_eq.mpr rfl, compare_eq_iff_eq.mpr rfl]
    · rw [compare_gt_iff_gt.mpr h', compare_gt_iff_gt.mpr (Nat.add_lt_add_left h' _)]
  · have hgt : b < a := lt_of_not_ge fun hge => absurd h (Nat.div_le_div_right hge).not_gt
    rw [compare_gt_iff_gt.mpr h, compare_gt_iff_gt.mpr hgt, Ordering.gt_then]

/-- Big-endian bytes compare as the numbers. -/
theorem compare_reverse_leBytes {n a b : Nat} (ha : a < 256 ^ n) (hb : b < 256 ^ n) :
    compare (leBytes n a).reverse (leBytes n b).reverse = compare a b := by
  induction n generalizing a b with
  | zero =>
    obtain rfl : a = 0 := by simpa using ha
    obtain rfl : b = 0 := by simpa using hb
    rfl
  | succ n ih =>
    have hp : 0 < 256 ^ n := Nat.pow_pos (by decide)
    have hdiv : ∀ {v}, v < 256 ^ (n + 1) → v / 256 ^ n < 256 := by
      intro v hv
      rw [Nat.div_lt_iff_lt_mul hp, ← pow_succ']
      exact hv
    rw [reverse_leBytes_succ, reverse_leBytes_succ, List.compare_cons_cons,
      ← leBytes_mod n a, ← leBytes_mod n b, ih (Nat.mod_lt _ hp) (Nat.mod_lt _ hp), compare_uint8,
      toNat_ofNat_uint8, toNat_ofNat_uint8, Nat.mod_eq_of_lt (hdiv ha), Nat.mod_eq_of_lt (hdiv hb),
      compare_div_mod]

end ISearch
