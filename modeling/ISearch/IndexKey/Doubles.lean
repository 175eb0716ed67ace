import ISearch.KeyFormat.Decimals
import Mathlib.Data.List.TakeWhile
import Mathlib.Data.Nat.Log

/-!
# Integer-valued doubles in keys

A `double` that is a whole number is an `Int` here. A stream writes it with six significant digits,
a larger number in scientific notation. `EncodeBytes(double)` turns the bits of the double into a
number that sorts as the doubles do.
-/

namespace ISearch.IndexKey

open List
open Nat (log le_of_not_lt)
open KeyFormat (decimal digitsValue isDigit encodeBytesU64 atof)

abbrev Bytes := List UInt8

/-- The quotient that is nearest, the even one of two. -/
def divRound (n d : Nat) : Nat :=
  if 2 * (n % d) < d then n / d
  else if d < 2 * (n % d) then n / d + 1
  else if n / d % 2 = 0 then n / d else n / d + 1

/-- Six significant digits and the power of ten they are a multiple of. -/
def sixDigits (n : Nat) : Nat × Nat :=
  if n < 1000000 then (n, 0)
  else
    let k := log 10 n - 5
    if divRound n (10 ^ k) = 1000000 then (100000, k + 1) else (divRound n (10 ^ k), k)

/-- A number as a stream shows it. -/
def roundSix (x : Int) : Int :=
    x.sign * ((sixDigits x.natAbs).1 * 10 ^ (sixDigits x.natAbs).2 : Nat)

/-- Digits without the zeros at the end. -/
def stripZeros (s : Bytes) : Bytes := (s.reverse.dropWhile (· = 48)).reverse

/-- The exponent of the scientific notation: two digits at least. -/
def exponentText (e : Nat) : Bytes :=
  [101, 43] ++ if e < 10 then 48 :: decimal e else decimal e

/-- `stream << double` of a natural number. -/
def streamNat (n : Nat) : Bytes :=
  if n < 1000000 then decimal n
  else
    let (m, k) := sixDigits n
    match decimal m with
    | [] => []
    | d :: ds =>
      d :: ((if stripZeros ds = [] then [] else 46 :: stripZeros ds) ++ exponentText (k + 5))

def streamDouble (x : Int) : Bytes := if x < 0 then 45 :: streamNat x.natAbs else streamNat x.natAbs

/-- The bits of a natural number as a double: the exponent and the fraction below the leading one.
-/
def natBits (n : Nat) : Nat :=
  if n = 0 then 0
  else (log 2 n + 1023) * 2 ^ 52 + (n * 2 ^ 52 / 2 ^ log 2 n - 2 ^ 52)

/-- The bits of a whole number as a double. -/
def doubleBits (x : Int) : UInt64 :=
  UInt64.ofNat (natBits x.natAbs + if x < 0 then 2 ^ 63 else 0)

def encodeBytesDouble (x : Int) : Bytes :=
  let u := doubleBits x
  encodeBytesU64 (if 0 ≤ x then u ||| KeyFormat.signMask else ~~~u)

/-- The whole numbers that are doubles, up to twice the largest odd one. -/
def IsDouble (n : Nat) : Prop := n < 2 ^ 53 ∨ n < 2 ^ 54 ∧ 2 ∣ n

theorem divRound_mul {m d : Nat} (hd : 0 < d) : divRound (m * d) d = m := by
  simp [divRound, Nat.mul_div_cancel _ hd, hd]

theorem divRound_bounds {n d : Nat} : n / d ≤ divRound n d ∧ divRound n d ≤ n / d + 1 := by
  rw [divRound]
  split_ifs <;> omega

/-- The digits of a number of at least seven digits. -/
theorem log_spec {n : Nat} (hn : 1000000 ≤ n) :
    100000 * 10 ^ (log 10 n - 5) ≤ n ∧ n < 1000000 * 10 ^ (log 10 n - 5) := by
  have hlog : 6 ≤ log 10 n := Nat.le_log_of_pow_le (by decide) hn
  obtain ⟨k, hk⟩ := Nat.exists_eq_add_of_le (show 5 ≤ log 10 n by omega)
  have hlo := Nat.pow_log_le_self 10 (show n ≠ 0 by omega)
  have hhi := Nat.lt_pow_succ_log_self (by decide : 1 < 10) n
  rw [hk] at hlo hhi ⊢
  rw [Nat.add_sub_cancel_left]
  constructor
  · calc 100000 * 10 ^ k = 10 ^ (5 + k) := by rw [pow_add]; norm_num
      _ ≤ n := hlo
  · calc n < 10 ^ (5 + k).succ := hhi
      _ = 1000000 * 10 ^ k := by rw [Nat.succ_eq_add_one, pow_succ, pow_add]; ring

/-- A larger number is shown with six digits, the first of which is not zero. -/
theorem sixDigits_spec {n : Nat} (hn : 1000000 ≤ n) :
    100000 ≤ (sixDigits n).1 ∧ (sixDigits n).1 < 1000000 := by
  obtain ⟨hlo, hhi⟩ := log_spec hn
  have hpos : 0 < 10 ^ (log 10 n - 5) := Nat.pow_pos (by decide)
  have hdlo : 100000 ≤ n / 10 ^ (log 10 n - 5) := (Nat.le_div_iff_mul_le hpos).mpr hlo
  have hdhi : n / 10 ^ (log 10 n - 5) < 1000000 := (Nat.div_lt_iff_lt_mul hpos).mpr hhi
  have hb := divRound_bounds (n := n) (d := 10 ^ (log 10 n - 5))
  rw [sixDigits, if_neg (by omega)]
  dsimp only
  split
  · exact ⟨le_refl _, by norm_num⟩
  · dsimp only
    omega

/-- At most six significant digits. -/
def SixSignificant (n : Nat) : Prop := ∃ m k, m < 1000000 ∧ n = m * 10 ^ k

theorem sixDigits_eq_iff {n : Nat} :
    (sixDigits n).1 * 10 ^ (sixDigits n).2 = n ↔ SixSignificant n := by
  constructor
  · intro h
    refine ⟨(sixDigits n).1, (sixDigits n).2, ?_, h.symm⟩
    by_cases hn : n < 1000000
    · rwa [sixDigits, if_pos hn]
    · exact (sixDigits_spec (le_of_not_lt hn)).2
  · rintro ⟨m, k, hm, rfl⟩
    by_cases hn : m * 10 ^ k < 1000000
    · rw [sixDigits, if_pos hn, pow_zero, mul_one]
    · obtain ⟨hlo, hhi⟩ := log_spec (le_of_not_lt hn)
      rw [sixDigits, if_neg hn]
      generalize log 10 (m * 10 ^ k) - 5 = l at hlo hhi ⊢
      have hle : l ≤ k := by
        by_contra hgt
        have hpow : 10 * 10 ^ k ≤ 10 ^ l := by
          rw [← pow_succ']
          exact Nat.pow_le_pow_right (by decide) (by omega)
        have hlt : m * 10 ^ k < 1000000 * 10 ^ k :=
          Nat.mul_lt_mul_of_pos_right hm (Nat.pow_pos (by decide))
        omega
      obtain ⟨j, rfl⟩ := Nat.exists_eq_add_of_le hle
      have hprod : m * 10 ^ (l + j) = m * 10 ^ j * 10 ^ l := by rw [pow_add]; ring
      have hpos : 0 < 10 ^ l := Nat.pow_pos (by decide)
      rw [hprod] at hhi ⊢
      have hsix : m * 10 ^ j < 1000000 := Nat.lt_of_mul_lt_mul_right hhi
      dsimp only
      rw [divRound_mul hpos, if_neg (by omega)]

theorem roundSix_eq_iff {x : Int} : roundSix x = x ↔ SixSignificant x.natAbs := by
  rw [← sixDigits_eq_iff, roundSix]
  rcases eq_or_ne x 0 with rfl | hne
  · decide
  generalize (sixDigits x.natAbs).1 * 10 ^ (sixDigits x.natAbs).2 = n
  constructor
  · intro h
    rcases lt_or_gt_of_ne hne with hx | hx
    · rw [Int.sign_eq_neg_one_of_neg hx] at h
      omega
    · rw [Int.sign_eq_one_of_pos hx] at h
      omega
  · intro h
    rw [h, Int.sign_mul_natAbs]

/-! ## The text is read back -/

theorem digitsValue_zeros {s : Bytes} (hs : ∀ c ∈ s, isDigit c = true) (j : Nat) :
    digitsValue 0 (s ++ replicate j 48) = digitsValue 0 s * 10 ^ j := by
  have hzeros (acc : Nat) : digitsValue acc (replicate j 48) = acc * 10 ^ j := by
    induction j generalizing acc with
    | zero => simp [digitsValue]
    | succ j ih =>
      have hzero : isDigit 48 = true := rfl
      have hsub : UInt8.toNat 48 - 48 = 0 := rfl
      rw [replicate_succ, digitsValue, if_pos hzero, ih, hsub, Nat.add_zero, pow_succ]
      ring
  rw [KeyFormat.digitsValue_append hs, hzeros]

theorem stripZeros_append (s : Bytes) : ∃ j, s = stripZeros s ++ replicate j 48 := by
  refine ⟨(s.reverse.takeWhile (· = 48)).length, ?_⟩
  have hzeros : s.reverse.takeWhile (· = 48) =
      replicate (s.reverse.takeWhile (· = 48)).length 48 :=
    eq_replicate_of_mem fun c hc => by simpa using mem_takeWhile_imp hc
  have hs := congrArg List.reverse (takeWhile_append_dropWhile (p := (· = 48)) (l := s.reverse))
  rw [reverse_append, reverse_reverse] at hs
  rw [stripZeros, ← reverse_replicate, ← hzeros, hs]

theorem length_decimal {k m : Nat} (hlo : 10 ^ k ≤ m) (hhi : m < 10 ^ (k + 1)) :
    (decimal m).length = k + 1 := by
  induction k generalizing m with
  | zero =>
    rw [decimal, dif_pos (by simpa using hhi)]
    rfl
  | succ k ih =>
    have hpow : 10 ^ (k + 1) = 10 * 10 ^ k := pow_succ' 10 k
    have hpow' : 10 ^ (k + 1 + 1) = 10 * 10 ^ (k + 1) := pow_succ' 10 (k + 1)
    have hpos : 0 < 10 ^ k := Nat.pow_pos (by decide)
    rw [decimal, dif_neg (by omega), length_append, ih (by omega) (by omega)]
    rfl

theorem exponentOf_exponentText (e : Nat) :
    KeyFormat.exponentOf 101 69 (exponentText e) = e := by
  have hvalue : digitsValue 0 (if e < 10 then 48 :: decimal e else decimal e) = e := by
    split
    · have hzero : isDigit 48 = true := rfl
      rw [digitsValue, if_pos hzero]
      exact KeyFormat.digitsValue_decimal e
    · exact KeyFormat.digitsValue_decimal e
  rw [exponentText, cons_append, cons_append, nil_append, KeyFormat.exponentOf]
  simp [hvalue]

/-- The text of a larger number, in its parts. -/
theorem streamNat_eq {n : Nat} (hn : 1000000 ≤ n) :
    ∃ (d : UInt8) (frac : Bytes) (j : Nat), isDigit d = true ∧ (∀ c ∈ frac, isDigit c = true) ∧
      frac.length + j = 5 ∧ digitsValue 0 (d :: frac) * 10 ^ j = (sixDigits n).1 ∧
        streamNat n = [d] ++ ((if frac = [] then [] else 46 :: frac) ++
          exponentText ((sixDigits n).2 + 5)) := by
  obtain ⟨hlo, hhi⟩ := sixDigits_spec hn
  have hlen : (decimal (sixDigits n).1).length = 5 + 1 :=
    length_decimal (by norm_num; exact hlo) (by norm_num; exact hhi)
  obtain ⟨d, ds, hdec⟩ := exists_cons_of_ne_nil (KeyFormat.decimal_ne_nil (sixDigits n).1)
  obtain ⟨j, hj⟩ := stripZeros_append ds
  have hdigit : ∀ c ∈ d :: ds, isDigit c = true := hdec ▸ KeyFormat.isDigit_of_mem_decimal
  have hfrac : ∀ c ∈ d :: stripZeros ds, isDigit c = true := by
    intro c hc
    apply hdigit
    rw [hj]
    exact (mem_cons.mp hc).elim (fun h => h ▸ mem_cons_self)
      fun h => mem_cons_of_mem _ (mem_append_left _ h)
  refine ⟨d, stripZeros ds, j, hdigit d mem_cons_self,
    fun c hc => hfrac c (mem_cons_of_mem _ hc), ?_, ?_, ?_⟩
  · have hlen' := congrArg List.length hj
    rw [hdec, length_cons] at hlen
    rw [length_append, length_replicate] at hlen'
    omega
  · rw [← digitsValue_zeros hfrac, cons_append, ← hj, ← hdec, KeyFormat.digitsValue_decimal]
  · rw [streamNat, if_neg (Nat.not_lt.mpr hn)]
    dsimp only
    rw [hdec]
    rfl

theorem decimalNumber_streamNat (n : Nat) :
    KeyFormat.decimalNumber (streamNat n) = ((sixDigits n).1 * 10 ^ (sixDigits n).2 : Nat) := by
  by_cases hn : n < 1000000
  · rw [streamNat, if_pos hn, KeyFormat.decimalNumber_decimal, sixDigits, if_pos hn,
      pow_zero, mul_one]
  · obtain ⟨d, frac, j, hd, hfrac, hlen, hvalue, htext⟩ := streamNat_eq (le_of_not_lt hn)
    have hexp : ∀ c, (exponentText ((sixDigits n).2 + 5)).head? = some c →
        isDigit c = false ∧ c ≠ 46 := by
      rintro c hc
      cases hc
      decide
    rw [htext, KeyFormat.decimalNumber_scientific (by simp) (by simpa using hd) hfrac hexp,
      exponentOf_exponentText, singleton_append, ← hvalue]
    have hpow : (((sixDigits n).2 + 5 : Nat) : Int) - frac.length =
      ((j + (sixDigits n).2 : Nat) : Int) := by
      omega
    rw [hpow, zpow_natCast, pow_add]
    push_cast
    ring

theorem streamNat_cons (n : Nat) :
    ∃ c s, streamNat n = c :: s ∧ isDigit c = true ∧
      (s.head? ≠ some 120 ∧ s.head? ≠ some 88) := by
  by_cases hn : n < 1000000
  · obtain ⟨c, s, hcs⟩ := exists_cons_of_ne_nil (KeyFormat.decimal_ne_nil n)
    have hdigit : ∀ c' ∈ c :: s, isDigit c' = true := hcs ▸ KeyFormat.isDigit_of_mem_decimal
    have hhead (w : UInt8) (hw : isDigit w = false) : s.head? ≠ some w := by
      intro h
      rw [hdigit w (mem_cons_of_mem _ (mem_of_head? h))] at hw
      cases hw
    refine ⟨c, s, ?_, hdigit c mem_cons_self, hhead 120 rfl, hhead 88 rfl⟩
    rw [streamNat, if_pos hn, hcs]
  · obtain ⟨d, frac, j, hd, -, -, -, htext⟩ := streamNat_eq (le_of_not_lt hn)
    refine ⟨d, _, htext, hd, ?_⟩
    by_cases hnil : frac = []
    · simp [hnil, exponentText]
    · simp [hnil]

/-- The text of a whole number denotes what is left of it with six significant digits. -/
theorem atof_streamDouble (x : Int) : atof (streamDouble x) = some (roundSix x : ℚ) := by
  obtain ⟨c, s, hcs, hc, hs⟩ : ∃ c s, streamNat x.natAbs = c :: s ∧ isDigit c = true ∧
      (s.head? ≠ some 120 ∧ s.head? ≠ some 88) := streamNat_cons x.natAbs
  obtain ⟨hpos, hneg⟩ := KeyFormat.atof_of_digit hc hs
  rw [← hcs, decimalNumber_streamNat] at hpos hneg
  rw [streamDouble, roundSix]
  rcases lt_trichotomy x 0 with hx | rfl | hx
  · rw [if_pos hx, Int.sign_eq_neg_one_of_neg hx, hneg]
    push_cast
    ring_nf
  · rw [if_neg (lt_irrefl 0), hpos]
    norm_num [sixDigits]
  · rw [if_neg (by omega), Int.sign_eq_one_of_pos hx, hpos]
    push_cast
    ring_nf

/-! ## Bits determine the number -/

theorem natBits_eq {n : Nat} (hne : n ≠ 0) (h : IsDouble n) :
    ∃ e M : Nat, natBits n = (e + 1023) * 2 ^ 52 + M ∧ M < 2 ^ 52 ∧ e ≤ 53 ∧
      n * 2 ^ 52 = (M + 2 ^ 52) * 2 ^ e := by
  have hlo := Nat.pow_log_le_self 2 hne
  have hhi := Nat.lt_pow_succ_log_self (by decide : 1 < 2) n
  have he : log 2 n ≤ 53 := by
    have hlt : n < 2 ^ 54 := h.elim (fun h => h.trans (by norm_num)) And.left
    have := Nat.log_lt_of_lt_pow hne hlt
    omega
  have hpos : 0 < 2 ^ log 2 n := Nat.pow_pos (by decide)
  have hdvd : 2 ^ log 2 n ∣ n * 2 ^ 52 := by
    rcases Nat.lt_or_ge (log 2 n) 53 with hlt | hge
    · exact Dvd.dvd.mul_left (pow_dvd_pow 2 (by omega)) n
    · have hlog : log 2 n = 53 := by omega
      rw [hlog] at hlo ⊢
      have heven : 2 ∣ n := by
        rcases h with h | h
        · omega
        · exact h.2
      have hmul := Nat.mul_dvd_mul heven (dvd_refl (2 ^ 52))
      rwa [← pow_succ'] at hmul
  obtain ⟨q, hq⟩ := hdvd
  have hquot : n * 2 ^ 52 / 2 ^ log 2 n = q := by rw [hq, Nat.mul_div_cancel_left _ hpos]
  have hqlo : 2 ^ 52 ≤ q := by
    by_contra hlt
    have := Nat.mul_lt_mul_of_pos_left (Nat.lt_of_not_le hlt) hpos
    rw [← hq, Nat.mul_comm n] at this
    have := Nat.mul_le_mul_left (2 ^ 52) hlo
    rw [Nat.mul_comm _ (2 ^ log 2 n)] at this
    omega
  have hqhi : q < 2 ^ 53 := by
    by_contra hge
    have hge' := Nat.mul_le_mul_left (2 ^ log 2 n) (le_of_not_lt hge)
    rw [← hq] at hge'
    have hmul := Nat.mul_lt_mul_of_pos_right hhi (show 0 < 2 ^ 52 by decide)
    rw [Nat.succ_eq_add_one, pow_succ] at hmul
    omega
  refine ⟨log 2 n, q - 2 ^ 52, ?_, by omega, he, ?_⟩
  · rw [natBits, if_neg hne, hquot]
  · rw [Nat.sub_add_cancel hqlo, hq, Nat.mul_comm]

theorem natBits_lt {n : Nat} (h : IsDouble n) : natBits n < 2 ^ 63 := by
  rcases Nat.eq_zero_or_pos n with rfl | hpos
  · decide
  · obtain ⟨e, M, hbits, hM, he, -⟩ := natBits_eq (Nat.ne_of_gt hpos) h
    omega

theorem natBits_inj {m n : Nat} (hm : IsDouble m) (hn : IsDouble n) (h : natBits m = natBits n) :
    m = n := by
  have hzero : natBits 0 = 0 := rfl
  rcases Nat.eq_zero_or_pos m with rfl | hm0 <;> rcases Nat.eq_zero_or_pos n with rfl | hn0
  · rfl
  · obtain ⟨e, M, hbits, -⟩ := natBits_eq (Nat.ne_of_gt hn0) hn
    omega
  · obtain ⟨e, M, hbits, -⟩ := natBits_eq (Nat.ne_of_gt hm0) hm
    omega
  · obtain ⟨e, M, hbits, hM, -, hmul⟩ := natBits_eq (Nat.ne_of_gt hm0) hm
    obtain ⟨e', M', hbits', hM', -, hmul'⟩ := natBits_eq (Nat.ne_of_gt hn0) hn
    obtain rfl : e = e' := by omega
    obtain rfl : M = M' := by omega
    exact Nat.eq_of_mul_eq_mul_right (by decide) (hmul.trans hmul'.symm)

/-- The number that stands for a double in a key. -/
theorem toNat_encoded {x : Int} (h : IsDouble x.natAbs) :
    (if 0 ≤ x then doubleBits x ||| KeyFormat.signMask else ~~~doubleBits x).toNat =
      if 0 ≤ x then 2 ^ 63 + natBits x.natAbs else 2 ^ 63 - 1 - natBits x.natAbs := by
  have hlt := natBits_lt h
  have hmask : KeyFormat.signMask.toNat = 2 ^ 63 := rfl
  have hsize : UInt64.size = 2 ^ 64 := rfl
  by_cases hx : 0 ≤ x
  · rw [if_pos hx, if_pos hx, UInt64.toNat_or, doubleBits, if_neg (by omega), hmask,
      UInt64.toNat_ofNat_of_lt' (by omega), Nat.add_zero, Nat.or_comm]
    have hor := Nat.two_pow_add_eq_or_of_lt hlt 1
    rwa [Nat.mul_one, eq_comm] at hor
  · rw [if_neg hx, if_neg hx, UInt64.toNat_not, doubleBits, if_pos (by omega),
      UInt64.toNat_ofNat_of_lt' (by omega)]
    omega

theorem encodeBytesDouble_inj {x y : Int} (hx : IsDouble x.natAbs) (hy : IsDouble y.natAbs)
    (h : encodeBytesDouble x = encodeBytesDouble y) : x = y := by
  have hnat := congrArg UInt64.toNat (KeyFormat.orderCode_u64.injective h)
  rw [toNat_encoded hx, toNat_encoded hy] at hnat
  have hxlt := natBits_lt hx
  have hylt := natBits_lt hy
  have habs : (0 ≤ x ↔ 0 ≤ y) ∧ natBits x.natAbs = natBits y.natAbs := by
    split at hnat <;> split at hnat <;> omega
  have heq := natBits_inj hx hy habs.2
  omega

theorem sixDigits_value {n : Nat} (hn : 1000000 ≤ n) :
    (sixDigits n).1 * 10 ^ (sixDigits n).2 =
      divRound n (10 ^ (log 10 n - 5)) * 10 ^ (log 10 n - 5) := by
  rw [sixDigits, if_neg (Nat.not_lt.mpr hn)]
  dsimp only
  split
  · rename_i heq
    rw [heq, pow_succ]
    ring
  · rfl

/-- Rounding to six digits gives a double again. -/
theorem isDouble_roundSix {x : Int} (h : x.natAbs < 2 ^ 53) : IsDouble (roundSix x).natAbs := by
  have habs : (roundSix x).natAbs ≤ (sixDigits x.natAbs).1 * 10 ^ (sixDigits x.natAbs).2 ∧
      (((sixDigits x.natAbs).1 * 10 ^ (sixDigits x.natAbs).2 : Nat) : Int) ∣ roundSix x := by
    rw [roundSix]
    generalize (sixDigits x.natAbs).1 * 10 ^ (sixDigits x.natAbs).2 = n
    refine ⟨?_, Dvd.intro_left _ rfl⟩
    rw [Int.natAbs_mul, Int.natAbs_sign, Int.natAbs_natCast]
    split <;> simp
  generalize roundSix x = r at habs
  by_cases hn : x.natAbs < 1000000
  · rw [sixDigits, if_pos hn, pow_zero, Nat.mul_one] at habs
    exact .inl (by omega)
  · obtain ⟨hlo, -⟩ := log_spec (le_of_not_lt hn)
    have hlog : 6 ≤ log 10 x.natAbs := Nat.le_log_of_pow_le (by decide) (le_of_not_lt hn)
    rw [sixDigits_value (le_of_not_lt hn)] at habs
    generalize hk : log 10 x.natAbs - 5 = k at habs hlo
    have hb := (divRound_bounds (n := x.natAbs) (d := 10 ^ k)).2
    have hdiv := Nat.div_mul_le_self x.natAbs (10 ^ k)
    have hle := Nat.mul_le_mul_right (10 ^ k) hb
    rw [Nat.add_mul, Nat.one_mul] at hle
    have heven : 2 ∣ divRound x.natAbs (10 ^ k) * 10 ^ k :=
      Dvd.dvd.mul_left (dvd_pow (by decide) (by omega)) _
    right
    refine ⟨by omega, ?_⟩
    have hdvd : (2 : Int) ∣ r := (Int.natCast_dvd_natCast.mpr heven).trans habs.2
    omega

end ISearch.IndexKey
