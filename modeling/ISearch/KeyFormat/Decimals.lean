import ISearch.KeyFormat.Codec
import Mathlib.Data.Rat.Floor

/-!
# Decimals

`std::to_string(double)` and `atof`, as far as the keys of the index go through them. A double is
the rational number it stands for. `atof` gives the number that the text denotes; that this number
is rounded to a double makes no difference to what is proved about it here.
-/

namespace ISearch.KeyFormat

open List

/-- The nearest number, the even one of two. -/
def roundEven (q : ℚ) : Nat :=
  let n := ⌊q⌋₊
  if q - n < 1 / 2 then n else if 1 / 2 < q - n then n + 1 else if n % 2 = 0 then n else n + 1

/-- The last `k` decimal digits of a number. -/
def lowDigits : Nat → Nat → Bytes
  | 0, _ => []
  | k + 1, n => lowDigits k (n / 10) ++ [UInt8.ofNat (48 + n % 10)]

/-- The six decimals of `std::to_string(double)`, as a number of millionths. -/
def millionths (x : ℚ) : Nat := roundEven (|x| * 1000000)

/-- `std::to_string(double)`. -/
def toStringDouble (x : ℚ) : Bytes :=
  let digits := decimal (millionths x / 1000000) ++ 46 :: lowDigits 6 (millionths x % 1000000)
  if x < 0 then 45 :: digits else digits

/-- What `strtoll` makes of the text of a double: the decimals are cut off, and the result is
clamped. -/
def wholePart (x : ℚ) : Int64 :=
  if x < 0 then Int64.ofInt (max (-(2 ^ 63)) (-(millionths x / 1000000 : Nat)))
  else Int64.ofInt (min (2 ^ 63 - 1) (millionths x / 1000000 : Nat))

theorem strtoll_toStringDouble (x : ℚ) : strtoll (toStringDouble x) = wholePart x := by
  have hdot (n : Nat) (s : Bytes) : digitsValue n (46 :: s) = n := rfl
  rw [toStringDouble, wholePart, strtoll]
  by_cases hx : x < 0
  · simp only [if_pos hx, strtonum_minus_decimal_append, hdot, if_true]
  · simp only [if_neg hx, strtonum_decimal_append, hdot, Bool.false_eq_true, if_false]

theorem roundEven_natCast (n : Nat) : roundEven n = n := by
  simp [roundEven]

/-- A whole number in the range of the result is read back. -/
theorem wholePart_intCast (x : Int64) : wholePart (x.toInt : ℚ) = x := by
  have hlo := x.le_toInt
  have hhi := x.toInt_lt
  have hmill : millionths (x.toInt : ℚ) = x.toInt.natAbs * 1000000 := by
    have hcast : |(x.toInt : ℚ)| * 1000000 = ((x.toInt.natAbs * 1000000 : Nat) : ℚ) := by
      push_cast
      rw [Nat.cast_natAbs, Int.cast_abs]
    rw [millionths, hcast, roundEven_natCast]
  have hdiv : x.toInt.natAbs * 1000000 / 1000000 = x.toInt.natAbs := Nat.mul_div_cancel _ (by decide)
  have hneg : (x.toInt : ℚ) < 0 ↔ x.toInt < 0 := by exact_mod_cast Iff.rfl
  rw [wholePart, hmill, hdiv]
  simp only [hneg]
  split_ifs with h
  · have habs : max (-(2 ^ 63)) (-(x.toInt.natAbs : Int)) = x.toInt := by omega
    rw [habs, Int64.ofInt_toInt]
  · have habs : min (2 ^ 63 - 1) (x.toInt.natAbs : Int) = x.toInt := by omega
    rw [habs, Int64.ofInt_toInt]

def isHexDigit (c : UInt8) : Bool := isDigit c || (65 ≤ c && c ≤ 70) || (97 ≤ c && c ≤ 102)

def hexValue (c : UInt8) : Nat :=
  if isDigit c then c.toNat - 48 else if c ≤ 70 then c.toNat - 55 else c.toNat - 87

/-- The exponent behind one of the two marks; 0 without the mark or without digits. -/
def exponentOf (mark mark' : UInt8) : Bytes → Int
  | [] => 0
  | c :: s =>
    if c = mark ∨ c = mark' then
      match s with
      | 45 :: s => -(digitsValue 0 s : Int)
      | 43 :: s => digitsValue 0 s
      | s => digitsValue 0 s
    else 0

/-- The digits before the point, those behind it, and the rest. -/
def splitPoint (digit : UInt8 → Bool) (s : Bytes) : Bytes × Bytes × Bytes :=
  match s.dropWhile digit with
  | 46 :: rest => (s.takeWhile digit, rest.takeWhile digit, rest.dropWhile digit)
  | rest => (s.takeWhile digit, [], rest)

def decimalNumber (s : Bytes) : ℚ :=
  let (whole, frac, rest) := splitPoint isDigit s
  if whole ++ frac = [] then 0
  else digitsValue 0 (whole ++ frac) * 10 ^ (exponentOf 101 69 rest - frac.length)

def hexNumber (s : Bytes) : ℚ :=
  let (whole, frac, rest) := splitPoint isHexDigit s
  if whole ++ frac = [] then 0
  else ((whole ++ frac).foldl (fun acc c => 16 * acc + hexValue c) 0 : Nat) *
    2 ^ (exponentOf 112 80 rest - 4 * frac.length)

/-- The first three letters, in lower case. -/
def startsWith (word s : Bytes) : Bool :=
  (s.take word.length).map (fun c => if 65 ≤ c && c ≤ 90 then c + 32 else c) = word

/-- The number without a sign; `none` is an infinity or no number. -/
def unsignedNumber (s : Bytes) : Option ℚ :=
  if startsWith [105, 110, 102] s || startsWith [110, 97, 110] s then none
  else
    match s with
    | 48 :: 120 :: rest => some (hexNumber rest)
    | 48 :: 88 :: rest => some (hexNumber rest)
    | s => some (decimalNumber s)

def atof (s : Bytes) : Option ℚ :=
  match s.dropWhile isSpace with
  | 45 :: s => (unsignedNumber s).map (- ·)
  | 43 :: s => unsignedNumber s
  | s => unsignedNumber s

/-! ## Short texts -/

theorem length_splitPoint (digit : UInt8 → Bool) (s : Bytes) :
    (splitPoint digit s).1.length + (splitPoint digit s).2.1.length +
      (splitPoint digit s).2.2.length ≤ s.length := by
  have hs := congrArg List.length (takeWhile_append_dropWhile (p := digit) (l := s))
  rw [length_append] at hs
  rw [splitPoint]
  split
  · rename_i rest heq
    have hrest := congrArg List.length (takeWhile_append_dropWhile (p := digit) (l := rest))
    rw [length_append] at hrest
    rw [heq, length_cons] at hs
    dsimp only
    omega
  · dsimp only [length_nil]
    omega

theorem exponentOf_short {mark mark' : UInt8} {s : Bytes} (h : s.length ≤ 1) :
    exponentOf mark mark' s = 0 := by
  match s, h with
  | [], _ => rfl
  | [c], _ => simp [exponentOf, digitsValue]

theorem digitsValue_lt (s : Bytes) (acc : Nat) :
    digitsValue acc s < (acc + 1) * 10 ^ s.length := by
  induction s generalizing acc with
  | nil => simp [digitsValue]
  | cons c s ih =>
    rw [digitsValue]
    split
    · rename_i hc
      have hdigit : c.toNat - 48 < 10 := by
        simp only [isDigit, Bool.and_eq_true, decide_eq_true_eq, UInt8.le_iff_toNat_le] at hc
        have h57 : UInt8.toNat 57 = 57 := rfl
        omega
      calc digitsValue (10 * acc + (c.toNat - 48)) s
          < (10 * acc + (c.toNat - 48) + 1) * 10 ^ s.length := ih _
        _ ≤ ((acc + 1) * 10) * 10 ^ s.length := Nat.mul_le_mul_right _ (by omega)
        _ = (acc + 1) * 10 ^ (c :: s).length := by rw [length_cons, pow_succ]; ring
    · calc acc < acc + 1 := Nat.lt_succ_self acc
        _ ≤ (acc + 1) * 10 ^ (c :: s).length :=
          Nat.le_mul_of_pos_right _ (Nat.pow_pos (by decide))

theorem decimalNumber_nonneg (s : Bytes) : 0 ≤ decimalNumber s := by
  rw [decimalNumber]
  dsimp only
  split
  · exact le_refl 0
  · exact mul_nonneg (Nat.cast_nonneg _) (zpow_nonneg (by norm_num) _)

/-- Without an exponent a text denotes a number of at most as many digits as it has characters. -/
theorem decimalNumber_lt {s : Bytes} (h : (splitPoint isDigit s).2.2.length ≤ 1) :
    decimalNumber s < 10 ^ s.length := by
  have hlen := length_splitPoint isDigit s
  have hpos : (0 : ℚ) < 10 ^ s.length := by positivity
  rw [decimalNumber]
  dsimp only
  split
  · exact hpos
  · have hmant := digitsValue_lt ((splitPoint isDigit s).1 ++ (splitPoint isDigit s).2.1) 0
    rw [zero_add, one_mul, length_append] at hmant
    have hle : 10 ^ ((splitPoint isDigit s).1.length + (splitPoint isDigit s).2.1.length) ≤
        10 ^ s.length := Nat.pow_le_pow_right (by decide) (by omega)
    have hscale : (10 : ℚ) ^ (exponentOf 101 69 (splitPoint isDigit s).2.2 -
        (splitPoint isDigit s).2.1.length) ≤ 1 := by
      rw [exponentOf_short h]
      exact zpow_le_one_of_nonpos₀ (by norm_num) (by omega)
    calc _ ≤ (digitsValue 0 ((splitPoint isDigit s).1 ++ (splitPoint isDigit s).2.1) : ℚ) * 1 :=
          mul_le_mul_of_nonneg_left hscale (Nat.cast_nonneg _)
      _ < 10 ^ s.length := by
          rw [mul_one]
          exact_mod_cast hmant.trans_le hle

theorem decimalNumber_short {s : Bytes} (h : s.length ≤ 2) : decimalNumber s < 100 := by
  have hpow : (10 : ℚ) ^ s.length ≤ 100 := by
    calc (10 : ℚ) ^ s.length ≤ 10 ^ 2 := pow_le_pow_right₀ (by norm_num) h
      _ = 100 := by norm_num
  by_cases hrest : (splitPoint isDigit s).2.2.length ≤ 1
  · exact (decimalNumber_lt hrest).trans_le hpow
  · have hlen := length_splitPoint isDigit s
    have hnone : (splitPoint isDigit s).1 ++ (splitPoint isDigit s).2.1 = [] := by
      rw [← length_eq_zero_iff, length_append]
      omega
    rw [decimalNumber]
    dsimp only
    rw [if_pos hnone]
    norm_num

/-- With three characters there is room for an exponent of one digit. -/
theorem decimalNumber_three (a b c : UInt8) :
    decimalNumber [a, b, c] < 1000 ∨
      isDigit a = true ∧ (b = 101 ∨ b = 69) ∧ isDigit c = true ∧
        decimalNumber [a, b, c] = (a.toNat - 48 : Nat) * 10 ^ (c.toNat - 48) := by
  have hbound : (splitPoint isDigit [a, b, c]).2.2.length ≤ 1 → decimalNumber [a, b, c] < 1000 := by
    intro h
    have hlt := decimalNumber_lt h
    norm_num at hlt
    exact hlt
  cases ha : isDigit a with
  | false =>
    left
    by_cases hpoint : a = 46
    · cases hb : isDigit b with
      | true =>
        apply hbound
        subst hpoint
        cases hc : isDigit c <;> simp [splitPoint, ha, hb, hc]
      | false =>
        subst hpoint
        simp [decimalNumber, splitPoint, ha, hb]
    · simp [decimalNumber, splitPoint, ha, hpoint]
  | true =>
    cases hb : isDigit b with
    | true =>
      left
      apply hbound
      cases hc : isDigit c with
      | true => simp [splitPoint, ha, hb, hc]
      | false =>
        by_cases hpoint : c = 46
        · subst hpoint
          simp [splitPoint, ha, hb, hc]
        · simp [splitPoint, ha, hb, hc, hpoint]
    | false =>
      by_cases hpoint : b = 46
      · left
        apply hbound
        subst hpoint
        cases hc : isDigit c <;> simp [splitPoint, ha, hb, hc]
      · have hvalue : decimalNumber [a, b, c] =
            (a.toNat - 48 : Nat) * 10 ^ exponentOf 101 69 [b, c] := by
          simp [decimalNumber, splitPoint, ha, hb, hpoint, digitsValue]
        by_cases hexp : (b = 101 ∨ b = 69) ∧ isDigit c = true
        · obtain ⟨hmark, hc⟩ := hexp
          have hexpo : exponentOf 101 69 [b, c] = (c.toNat - 48 : Nat) := by
            obtain ⟨-, hminus, hplus⟩ := not_sign_of_isDigit hc
            simp [exponentOf, hmark, hminus, hplus, digitsValue, hc]
          rw [hexpo, zpow_natCast] at hvalue
          exact .inr ⟨rfl, hmark, hc, hvalue⟩
        · left
          have hexpo : exponentOf 101 69 [b, c] = 0 := by
            by_cases hmark : b = 101 ∨ b = 69
            · have hc : isDigit c = false := by simpa [hmark] using hexp
              by_cases hminus : c = 45
              · simp [exponentOf, hmark, hminus, digitsValue]
              · by_cases hplus : c = 43
                · simp [exponentOf, hmark, hplus, digitsValue]
                · simp [exponentOf, hmark, hminus, hplus, digitsValue, hc]
            · simp [exponentOf, hmark]
          have hdigit := digitsValue_lt [a] 0
          simp only [digitsValue, ha, if_true] at hdigit
          rw [hvalue, hexpo, zpow_zero, mul_one]
          have hlt : a.toNat - 48 < 1000 := by
            norm_num at hdigit
            omega
          exact_mod_cast hlt

theorem hexNumber_short {s : Bytes} (h : s.length ≤ 1) : 0 ≤ hexNumber s ∧ hexNumber s < 100 := by
  match s, h with
  | [], _ => norm_num [hexNumber, splitPoint]
  | [c], _ =>
    cases hc : isHexDigit c with
    | true =>
      have hlt : hexValue c < 100 := by
        simp only [isHexDigit, isDigit, Bool.or_eq_true, Bool.and_eq_true, decide_eq_true_eq,
          UInt8.le_iff_toNat_le] at hc
        simp only [hexValue, isDigit, Bool.and_eq_true, decide_eq_true_eq, UInt8.le_iff_toNat_le]
        have h57 : UInt8.toNat 57 = 57 := rfl
        have h70 : UInt8.toNat 70 = 70 := rfl
        have h102 : UInt8.toNat 102 = 102 := rfl
        split_ifs <;> omega
      have hvalue : hexNumber [c] = hexValue c := by simp [hexNumber, splitPoint, hc, exponentOf]
      rw [hvalue]
      exact ⟨Nat.cast_nonneg _, by exact_mod_cast hlt⟩
    | false =>
      by_cases hpoint : c = 46
      · subst hpoint
        norm_num [hexNumber, splitPoint, hc]
      · norm_num [hexNumber, splitPoint, hc, hpoint]

theorem unsignedNumber_short {s : Bytes} (h : s.length ≤ 2) {q : ℚ} (hq : unsignedNumber s = some q) :
    |q| < 100 := by
  unfold unsignedNumber at hq
  split at hq
  · cases hq
  · have hhex : ∀ rest : Bytes, s.length = rest.length + 2 → some (hexNumber rest) = some q →
        |q| < 100 := by
      intro rest hlen heq
      obtain ⟨hnonneg, hlt⟩ := hexNumber_short (s := rest) (by omega)
      cases heq
      rwa [abs_of_nonneg hnonneg]
    split at hq
    · exact hhex _ rfl hq
    · exact hhex _ rfl hq
    · cases hq
      rw [abs_of_nonneg (decimalNumber_nonneg _)]
      exact decimalNumber_short h

theorem unsignedNumber_three {a b c : UInt8} {q : ℚ} (hq : unsignedNumber [a, b, c] = some q) :
    |q| < 1000 ∨ isDigit a = true ∧ (b = 101 ∨ b = 69) ∧ isDigit c = true ∧
      q = (a.toNat - 48 : Nat) * 10 ^ (c.toNat - 48) := by
  unfold unsignedNumber at hq
  split at hq
  · cases hq
  · have hhex : some (hexNumber [c]) = some q → |q| < 1000 := by
      intro heq
      obtain ⟨hnonneg, hlt⟩ := hexNumber_short (s := [c]) (by simp)
      cases heq
      rw [abs_of_nonneg hnonneg]
      linarith
    split at hq
    · rename_i heq
      cases heq
      exact .inl (hhex hq)
    · rename_i heq
      cases heq
      exact .inl (hhex hq)
    · cases hq
      rw [abs_of_nonneg (decimalNumber_nonneg _)]
      exact decimalNumber_three a b c

theorem atof_short {s : Bytes} (h : s.length ≤ 2) {q : ℚ} (hq : atof s = some q) : |q| < 100 := by
  have hlen : (s.dropWhile isSpace).length ≤ 2 := ((dropWhile_sublist _).length_le).trans h
  rw [atof] at hq
  split at hq
  · rename_i rest heq
    rw [heq, length_cons] at hlen
    obtain ⟨q', hq', rfl⟩ := Option.map_eq_some_iff.mp hq
    rw [abs_neg]
    exact unsignedNumber_short (by omega) hq'
  · rename_i rest heq
    rw [heq, length_cons] at hlen
    exact unsignedNumber_short (by omega) hq
  · exact unsignedNumber_short hlen hq

theorem atof_three {a b c : UInt8} {q : ℚ} (hq : atof [a, b, c] = some q) :
    |q| < 1000 ∨ isDigit a = true ∧ (b = 101 ∨ b = 69) ∧ isDigit c = true ∧
      q = (a.toNat - 48 : Nat) * 10 ^ (c.toNat - 48) := by
  have hwiden : |q| < 100 → |q| < 1000 := fun h => by linarith
  cases ha : isSpace a with
  | true =>
    have hdrop : atof [a, b, c] = atof [b, c] := by simp [atof, ha]
    exact .inl (hwiden (atof_short (by simp) (hdrop ▸ hq)))
  | false =>
    rw [atof, dropWhile_cons_of_neg (by simp [ha])] at hq
    split at hq
    · rename_i heq
      cases heq
      obtain ⟨q', hq', rfl⟩ := Option.map_eq_some_iff.mp hq
      rw [abs_neg] at hwiden ⊢
      exact .inl (hwiden (unsignedNumber_short (by simp) hq'))
    · rename_i heq
      cases heq
      exact .inl (hwiden (unsignedNumber_short (by simp) hq))
    · exact unsignedNumber_three hq

/-- A text that does not start like a number denotes 0. -/
theorem atof_of_not_number {c : UInt8} (h : c = 127 ∨ c = 128) (s : Bytes) :
    atof (c :: s) = some 0 := by
  rcases h with rfl | rfl
  · simp [atof, isSpace, unsignedNumber, startsWith, decimalNumber, splitPoint, isDigit]
  · simp [atof, isSpace, unsignedNumber, startsWith, decimalNumber, splitPoint, isDigit]

/-! ## Texts of numbers -/

theorem takeWhile_digits {a rest : Bytes} (ha : ∀ c ∈ a, isDigit c = true)
    (hrest : ∀ c, rest.head? = some c → isDigit c = false) :
    (a ++ rest).takeWhile isDigit = a ∧ (a ++ rest).dropWhile isDigit = rest := by
  have hstop : rest.takeWhile isDigit = [] ∧ rest.dropWhile isDigit = rest := by
    cases rest with
    | nil => simp
    | cons c rest => simp [hrest c rfl]
  exact ⟨by rw [takeWhile_append_of_pos ha, hstop.1, append_nil],
    by rw [dropWhile_append_of_pos ha, hstop.2]⟩

/-- A number with a point and an exponent. -/
theorem decimalNumber_scientific {whole frac rest : Bytes} (hne : whole ≠ [])
    (hwhole : ∀ c ∈ whole, isDigit c = true) (hfrac : ∀ c ∈ frac, isDigit c = true)
    (hrest : ∀ c, rest.head? = some c → isDigit c = false ∧ c ≠ 46) :
    decimalNumber (whole ++ ((if frac = [] then [] else 46 :: frac) ++ rest)) =
      digitsValue 0 (whole ++ frac) * 10 ^ (exponentOf 101 69 rest - frac.length) := by
  have hsplit : splitPoint isDigit (whole ++ ((if frac = [] then [] else 46 :: frac) ++ rest)) =
      (whole, frac, rest) := by
    by_cases hnil : frac = []
    · subst hnil
      obtain ⟨htake, hdrop⟩ := takeWhile_digits hwhole fun c hc => (hrest c hc).1
      rw [if_pos rfl, nil_append, splitPoint, htake, hdrop]
      split
      · rename_i heq
        exact absurd rfl (hrest 46 rfl).2
      · rfl
    · have hpoint : ∀ c, (46 :: (frac ++ rest)).head? = some c → isDigit c = false := by
        rintro c hc
        cases hc
        rfl
      obtain ⟨htake, hdrop⟩ := takeWhile_digits hwhole hpoint
      obtain ⟨htake', hdrop'⟩ := takeWhile_digits hfrac fun c hc => (hrest c hc).1
      rw [if_neg hnil, cons_append, splitPoint, htake, hdrop]
      change (whole, (frac ++ rest).takeWhile isDigit, (frac ++ rest).dropWhile isDigit) = _
      rw [htake', hdrop']
  have hfull : ¬ whole ++ frac = [] := by simp [hne]
  rw [decimalNumber, hsplit]
  dsimp only
  rw [if_neg hfull]

theorem decimalNumber_decimal (n : Nat) : decimalNumber (decimal n) = n := by
  have hnil : ∀ c ∈ ([] : Bytes), isDigit c = true := by simp
  have hrest : ∀ c, ([] : Bytes).head? = some c → isDigit c = false ∧ c ≠ 46 := by simp
  have h := decimalNumber_scientific (decimal_ne_nil n) isDigit_of_mem_decimal hnil hrest
  simpa [exponentOf, digitsValue_decimal] using h

/-- A text that starts with a digit and is not hexadecimal. -/
theorem atof_of_digit {c : UInt8} {s : Bytes} (hc : isDigit c = true)
    (hs : s.head? ≠ some 120 ∧ s.head? ≠ some 88) :
    atof (c :: s) = some (decimalNumber (c :: s)) ∧
      atof (45 :: c :: s) = some (-decimalNumber (c :: s)) := by
  obtain ⟨hspace, hminus, hplus⟩ := not_sign_of_isDigit hc
  have hletter (w : UInt8) (word : Bytes) (hw : isDigit w = false)
      (hlow : 97 ≤ w) : startsWith (w :: word) (c :: s) = false := by
    have hne : (if 65 ≤ c && c ≤ 90 then c + 32 else c) ≠ w := by
      have hup : (65 ≤ c && c ≤ 90) = false := by
        simp only [isDigit, Bool.and_eq_true, decide_eq_true_eq, UInt8.le_iff_toNat_le] at hc
        simp only [Bool.and_eq_false_iff, decide_eq_false_iff_not, UInt8.le_iff_toNat_le]
        have h57 : UInt8.toNat 57 = 57 := rfl
        have h65 : UInt8.toNat 65 = 65 := rfl
        omega
      rw [hup]
      rintro rfl
      simp [hc] at hw
    simp only [startsWith, length_cons, take_succ_cons, map_cons, List.cons.injEq,
      hne, false_and, decide_false]
  have hnumber : unsignedNumber (c :: s) = some (decimalNumber (c :: s)) := by
    unfold unsignedNumber
    rw [hletter 105 _ rfl (by decide), hletter 110 _ rfl (by decide)]
    simp only [Bool.or_self, Bool.false_eq_true, if_false]
    split
    · rename_i heq
      obtain ⟨-, rfl⟩ := List.cons.inj heq
      exact absurd rfl hs.1
    · rename_i heq
      obtain ⟨-, rfl⟩ := List.cons.inj heq
      exact absurd rfl hs.2
    · rfl
  constructor
  · rw [atof, dropWhile_cons_of_neg (by simp [hspace])]
    split
    · rename_i heq
      exact absurd (List.cons.inj heq).1 hminus
    · rename_i heq
      exact absurd (List.cons.inj heq).1 hplus
    · exact hnumber
  · have hminusSpace : isSpace 45 = false := rfl
    rw [atof, dropWhile_cons_of_neg (by simp [hminusSpace])]
    simp [hnumber]

end ISearch.KeyFormat
