import Mathlib.Data.List.GetD
import Mathlib.Data.Rat.Floor
import ISearch.Lib.Grid

/-!
# Geohashes of a rectangle

Coordinates are exact. The cells of a rectangle are collected on a grid from its upper left corner,
with steps that are at most a cell and smaller than the rectangle.
-/

namespace ISearch.GeoHash

open Grid List

/-! ## Geohashes -/

def getBits (lat floor ceiling : ℚ) : Nat → List Bool
  | 0 => []
  | bit_count + 1 =>
    let mid := (floor + ceiling) / 2
    if lat + 1 / 10 ^ 14 < mid then false :: getBits lat floor mid bit_count
    else true :: getBits lat mid ceiling bit_count

def digits : List Char := "0123456789bcdefghjkmnpqrstuvwxyz".toList

def digit (i : Int) : Char := digits.getD i.toNat '0'

/-- The loop of `base32`, which counts below zero. -/
def base32Loop (i : Int) (buf : List Char) : List Char :=
  if i ≤ -32 then base32Loop (i.tdiv 32) (digit (-(i.tmod 32)) :: buf) else digit (-i) :: buf
termination_by i.natAbs
decreasing_by
  rw [Int.natAbs_tdiv]
  exact Nat.div_lt_self (by omega) (by decide)

def base32 (i : Int) : String :=
  let negative := i < 0
  let buf := base32Loop (if negative then i else -i) []
  String.ofList (if negative then '-' :: buf else buf)

/-- `strtol` to the base 2. -/
def strtol (buffer : List Bool) : Int := min (ofBits buffer) (2 ^ 63 - 1)

def latBits (lat : ℚ) (precision : Nat) : List Bool :=
  getBits lat (-90) 90 (precision * 5 / 2)

def lngBits (lng : ℚ) (precision : Nat) : List Bool :=
  getBits lng (-180) 180 ((precision * 5 + 1) / 2)

def encode (lat lng : ℚ) (precision : Nat) : String :=
  let lat_bits := latBits lat precision
  let lng_bits := lngBits lng precision
  let buffer := (lng_bits.zip lat_bits).flatMap fun (lng, lat) => [lng, lat]
  -- an odd number of digits leaves one of the longitude
  let buffer := buffer ++ if precision % 2 ≠ 0 then lng_bits.drop (precision * 5 / 2) else []
  base32 (strtol buffer)

def getMinLatLng (precision : Nat) : ℚ × ℚ :=
  ((· / 2)^[precision * 5 / 2] (90 - -90), (· / 2)^[(precision * 5 + 1) / 2] (180 - -180))

structure EnclosingRectangle where
  dlngMax : ℚ
  dlngMin : ℚ
  dlatMax : ℚ
  dlatMin : ℚ

def EnclosingRectangle.isVaild (r : EnclosingRectangle) : Bool :=
  !(|r.dlngMax - r.dlngMin| < 1 / 10 ^ 10) && !(|r.dlatMax - r.dlatMin| < 1 / 10 ^ 10)

variable (r : EnclosingRectangle) (precision : Nat)

/-- `min_lat` after the comparison with the extent of the rectangle. -/
def minLat : ℚ :=
  let (min_lat, _) := getMinLatLng precision
  if min_lat < r.dlatMax - r.dlatMin - 1 / 10 ^ 5 then min_lat
  else r.dlatMax - r.dlatMin - 1 / 10 ^ 5

def minLon : ℚ :=
  let (_, min_lon) := getMinLatLng precision
  if min_lon < r.dlngMax - r.dlngMin - 1 / 10 ^ 5 then min_lon
  else r.dlngMax - r.dlngMin - 1 / 10 ^ 5

/-- `list` and the set `result` beside it. -/
def insertNew (list : List String) (geohash : String) : List String :=
  if geohash ∈ list then list else list ++ [geohash]

def getArroundGeoHash (fuel : Nat) : Option (List String) :=
  forLoop (fun lat => decide (r.dlatMin ≤ lat)) (· - minLat r precision)
    (fun lat => forLoop (fun lon => decide (lon ≤ r.dlngMax)) (· + minLon r precision)
      (fun lon list => some (insertNew list (encode lat lon precision))) fuel r.dlngMin)
    fuel r.dlatMax []

structure EnclosingRectangle.Contains (lat lng : ℚ) : Prop where
  dlatMin_le : r.dlatMin ≤ lat
  le_dlatMax : lat ≤ r.dlatMax
  dlngMin_le : r.dlngMin ≤ lng
  le_dlngMax : lng ≤ r.dlngMax

/-- The call returns the geohashes of all points of the rectangle, each once. -/
def Covers : Prop :=
  ∃ fuel list, getArroundGeoHash r precision fuel = some list ∧ list.Nodup ∧
    ∀ hash, hash ∈ list ↔ ∃ lat lng, r.Contains lat lng ∧ encode lat lng precision = hash

/-- The last lines of the grid. -/
def lastLat : ℚ :=
  r.dlatMax - ⌊(r.dlatMax - r.dlatMin) / minLat r precision⌋₊ * minLat r precision

def lastLon : ℚ :=
  r.dlngMin + ⌊(r.dlngMax - r.dlngMin) / minLon r precision⌋₊ * minLon r precision

/-- Both sides are longer than `0.00001`, and no cell starts between the last line of the grid and
the far side, in either direction. -/
structure FarSidesMet : Prop where
  height : 1 / 10 ^ 5 < r.dlatMax - r.dlatMin
  width : 1 / 10 ^ 5 < r.dlngMax - r.dlngMin
  latBits_eq : latBits r.dlatMin precision = latBits (lastLat r precision) precision
  lngBits_eq : lngBits r.dlngMax precision = lngBits (lastLon r precision) precision

/-- The geohashes of `n` lines with `m` points each. -/
def gridHashes (n m : Nat) : List String :=
  (List.iterate (· - minLat r precision) r.dlatMax n).flatMap fun lat =>
    (List.iterate (· + minLon r precision) r.dlngMin m).map fun lon => encode lat lon precision

/-! ## A geohash is its digits -/

theorem getBits_eq (x floor ceiling : ℚ) (n : Nat) :
    getBits x floor ceiling n = bits (x + 1 / 10 ^ 14) n floor ceiling := by
  induction n generalizing floor ceiling with
  | zero => rfl
  | succ n ih =>
    rw [getBits, bits]
    simp only [ih]

@[simp] theorem length_getBits (x floor ceiling : ℚ) (n : Nat) :
    (getBits x floor ceiling n).length = n := by
  rw [getBits_eq, length_bits]

theorem digit_inj {n m : Nat} (hn : n < 32) (hm : m < 32) (h : digit n = digit m) : n = m := by
  have hnodup : digits.Nodup := by decide
  have hlen : digits.length = 32 := rfl
  rw [digit, digit, Int.toNat_natCast, Int.toNat_natCast,
    getD_eq_getElem _ _ (hlen ▸ hn), getD_eq_getElem _ _ (hlen ▸ hm)] at h
  exact hnodup.getElem_inj_iff.mp h

theorem base32Loop_neg (n : Nat) (buf : List Char) : base32Loop (-n) buf =
    if n < 32 then digit n :: buf
    else base32Loop (-(n / 32 : Nat)) (digit (n % 32 : Nat) :: buf) := by
  rw [base32Loop]
  split
  · rw [if_neg (by omega), Int.neg_tdiv, Int.neg_tmod, neg_neg]
    rfl
  · rw [if_pos (by omega), neg_neg]

theorem base32Loop_append (n : Nat) (buf : List Char) :
    base32Loop (-n) buf = base32Loop (-n) [] ++ buf := by
  induction n using Nat.strong_induction_on generalizing buf with
  | _ n ih =>
    rw [base32Loop_neg n buf, base32Loop_neg n []]
    split
    · rfl
    · rw [ih (n / 32) (by omega), ih (n / 32) (by omega) [_], append_assoc]
      rfl

theorem base32Loop_inj {n m : Nat} (h : base32Loop (-n) [] = base32Loop (-m) []) : n = m := by
  induction n using Nat.strong_induction_on generalizing m with
  | _ n ih =>
    have hlong : ∀ (k : Nat) (c d : Char), base32Loop (-k) [c] ≠ [d] := by
      intro k c d h
      rw [base32Loop_append, base32Loop_neg] at h
      split at h
      · exact absurd (congrArg List.length h) (by simp)
      · rw [base32Loop_append] at h
        exact absurd (congrArg List.length h) (by simp)
    rw [base32Loop_neg n, base32Loop_neg m] at h
    split_ifs at h with hn hm hm
    · exact digit_inj hn hm (singleton_inj.mp h)
    · exact absurd h.symm (hlong _ _ _)
    · exact absurd h (hlong _ _ _)
    · rw [base32Loop_append, base32Loop_append (m / 32)] at h
      obtain ⟨hdiv, hmod⟩ := append_inj' h rfl
      have hdiv := ih (n / 32) (by omega) hdiv
      have hmod := digit_inj (Nat.mod_lt _ (by decide)) (Nat.mod_lt _ (by decide))
        (singleton_inj.mp hmod)
      omega

theorem base32_inj {n m : Nat} (h : base32 n = base32 m) : n = m := by
  simp only [base32, Int.not_ofNat_neg, if_false] at h
  exact base32Loop_inj (String.ofList_injective h)

theorem flatMap_pair_inj {l l' : List (Bool × Bool)}
    (h : (l.flatMap fun (lng, lat) => [lng, lat]) = l'.flatMap fun (lng, lat) => [lng, lat]) :
    l = l' := by
  induction l generalizing l' with
  | nil =>
    cases l' with
    | nil => rfl
    | cons p l' => exact absurd h (cons_ne_nil _ _).symm
  | cons p l ih =>
    cases l' with
    | nil => exact absurd h (cons_ne_nil _ _)
    | cons p' l' =>
      obtain ⟨h₁, h⟩ := List.cons.inj h
      obtain ⟨h₂, h⟩ := List.cons.inj h
      rw [Prod.ext h₁ h₂, ih h]

theorem length_flatMap_pair (l : List (Bool × Bool)) :
    (l.flatMap fun (lng, lat) => [lng, lat]).length = 2 * l.length := by
  induction l with
  | nil => rfl
  | cons p l ih =>
    rw [flatMap_cons, length_append, ih, length_cons]
    simp only [length_cons, length_nil]
    omega

theorem base32_strtol_inj {l l' : List Bool} (hlen : l.length = l'.length) (hlt : l.length < 64)
    (h : base32 (strtol l) = base32 (strtol l')) : l = l' := by
  have hstrtol : ∀ l : List Bool, l.length < 64 → strtol l = (ofBits l : Nat) := by
    intro l hlt
    have hbits := (ofBits_lt l).trans_le (Nat.pow_le_pow_right two_pos (Nat.le_of_lt_succ hlt))
    rw [strtol]
    omega
  rw [hstrtol l hlt, hstrtol l' (hlen ▸ hlt)] at h
  exact ofBits_inj hlen (base32_inj h)

variable {r precision}

theorem encode_inj {lat lng lat' lng' : ℚ} (hbits : precision * 5 < 64) :
    encode lat lng precision = encode lat' lng' precision ↔
      latBits lat precision = latBits lat' precision ∧
        lngBits lng precision = lngBits lng' precision := by
  refine ⟨fun h => ?_, fun ⟨hlat, hlng⟩ => by rw [encode, encode, hlat, hlng]⟩
  have hlat : ∀ x, (latBits x precision).length = precision * 5 / 2 := fun x => length_getBits ..
  have hlng : ∀ x, (lngBits x precision).length = (precision * 5 + 1) / 2 := fun x =>
    length_getBits ..
  have hpairs : ∀ x y, ((lngBits y precision).zip (latBits x precision)).length =
      precision * 5 / 2 := by
    intro x y
    rw [length_zip, hlat, hlng]
    omega
  have hdrop : ∀ y, ((lngBits y precision).drop (precision * 5 / 2)).length = precision % 2 := by
    intro y
    rw [length_drop, hlng]
    obtain ⟨k, rfl | rfl⟩ := Nat.even_or_odd' precision <;> omega
  have htail : ∀ y, (if precision % 2 ≠ 0 then (lngBits y precision).drop (precision * 5 / 2)
      else []) = (lngBits y precision).drop (precision * 5 / 2) := by
    intro y
    split
    · rfl
    · rename_i heven
      exact (eq_nil_of_length_eq_zero ((hdrop y).trans (not_not.mp heven))).symm
  have hlen : ∀ x y, (((lngBits y precision).zip (latBits x precision)).flatMap
      (fun (lng, lat) => [lng, lat]) ++ (lngBits y precision).drop (precision * 5 / 2)).length =
      2 * (precision * 5 / 2) + precision % 2 := by
    intro x y
    rw [length_append, length_flatMap_pair, hpairs, hdrop]
  rw [encode, encode, htail, htail] at h
  have hbuffer := base32_strtol_inj ((hlen lat lng).trans (hlen lat' lng').symm)
    ((hlen lat lng).trans_lt (by omega)) h
  obtain ⟨hzip, hdrop⟩ := append_inj hbuffer (by
    rw [length_flatMap_pair, length_flatMap_pair, hpairs, hpairs])
  have hzip := flatMap_pair_inj hzip
  have hfst := congrArg (List.map Prod.fst) hzip
  have hsnd := congrArg (List.map Prod.snd) hzip
  have hle : ∀ x y, (latBits x precision).length ≤ (lngBits y precision).length := by
    intro x y
    rw [hlat, hlng]
    omega
  rw [map_snd_zip (hle _ _), map_snd_zip (hle _ _)] at hsnd
  refine ⟨hsnd, ?_⟩
  have htake : ∀ x y, ((lngBits y precision).zip (latBits x precision)).map Prod.fst =
      (lngBits y precision).take (precision * 5 / 2) := by
    intro x y
    have hmin : min ((precision * 5 + 1) / 2) (precision * 5 / 2) = precision * 5 / 2 := by omega
    rw [zip_eq_zip_take_min, hlat, hlng, hmin, map_fst_zip]
    rw [length_take, length_take, hlat, hlng]
    omega
  rw [htake, htake] at hfst
  rw [← take_append_drop (precision * 5 / 2) (lngBits lng precision), hfst, hdrop,
    take_append_drop]

/-! ## The grid -/

/-- Halving `n` times. -/
theorem iterate_half (x : ℚ) (n : Nat) : (· / 2)^[n] x = x / 2 ^ n := by
  induction n with
  | zero => simp
  | succ n ih =>
    rw [Function.iterate_succ_apply', ih, pow_succ, div_div]

theorem iterate_add (x step : ℚ) (n : Nat) : (· + step)^[n] x = x + n * step := by
  induction n with
  | zero => simp
  | succ n ih =>
    rw [Function.iterate_succ_apply', ih]
    push_cast
    ring

theorem iterate_sub (x step : ℚ) (n : Nat) : (· - step)^[n] x = x - n * step := by
  induction n with
  | zero => simp
  | succ n ih =>
    rw [Function.iterate_succ_apply', ih]
    push_cast
    ring

theorem foldl_insertNew (l list : List String) (hnodup : list.Nodup) :
    (l.foldl insertNew list).Nodup ∧ ∀ h, h ∈ l.foldl insertNew list ↔ h ∈ list ∨ h ∈ l := by
  induction l generalizing list with
  | nil => exact ⟨hnodup, fun h => by simp⟩
  | cons x l ih =>
    have hinsert : (insertNew list x).Nodup ∧ ∀ h, h ∈ insertNew list x ↔ h ∈ list ∨ h = x := by
      rw [insertNew]
      split
      · rename_i hx
        refine ⟨hnodup, fun h => ⟨.inl, ?_⟩⟩
        rintro (hh | rfl)
        · exact hh
        · exact hx
      · rename_i hx
        refine ⟨?_, fun h => by rw [mem_append, mem_singleton]⟩
        exact hnodup.append (nodup_singleton x) (disjoint_singleton.mpr hx)
    obtain ⟨hnodup, hmem⟩ := ih (insertNew list x) hinsert.1
    refine ⟨hnodup, fun h => ?_⟩
    rw [foldl_cons, hmem, hinsert.2, mem_cons, or_assoc]

theorem mem_gridHashes {n m : Nat} {hash : String} : hash ∈ gridHashes r precision n m ↔
    ∃ k < n, ∃ j < m, encode (r.dlatMax - k * minLat r precision)
      (r.dlngMin + j * minLon r precision) precision = hash := by
  simp only [gridHashes, mem_flatMap, mem_map, mem_iterate, iterate_sub,
    iterate_add]
  constructor
  · rintro ⟨_, ⟨k, hk, rfl⟩, _, ⟨j, hj, rfl⟩, h⟩
    exact ⟨k, hk, j, hj, h⟩
  · rintro ⟨k, hk, j, hj, h⟩
    exact ⟨_, ⟨k, hk, rfl⟩, _, ⟨j, hj, rfl⟩, h⟩

/-- A line of the grid is left at the first point behind its end. -/
theorem line_eq_some {fuel : Nat} {lat : ℚ} {list list' : List String} :
    forLoop (fun lon => decide (lon ≤ r.dlngMax)) (· + minLon r precision)
        (fun lon list => some (insertNew list (encode lat lon precision))) fuel r.dlngMin list =
      some list' ↔
    ∃ m < fuel, (∀ j < m, r.dlngMin + j * minLon r precision ≤ r.dlngMax) ∧
      r.dlngMax < r.dlngMin + m * minLon r precision ∧
      list' = ((List.iterate (· + minLon r precision) r.dlngMin m).map
        fun lon => encode lat lon precision).foldl insertNew list := by
  have hfold : ∀ l : List ℚ, l.foldlM (fun list lon => some (insertNew list
      (encode lat lon precision))) list =
      some ((l.map fun lon => encode lat lon precision).foldl insertNew list) := by
    intro l
    rw [foldl_map]
    exact foldlM_pure
  simp only [forLoop_eq_some, iterate_add, decide_eq_true_eq, decide_eq_false_iff_not, not_le,
    hfold, Option.some.injEq,
    @eq_comm _ list']

/-- The call returns exactly if both loops leave the rectangle. -/
theorem getArroundGeoHash_eq_some {list : List String} (hlat : r.dlatMin ≤ r.dlatMax) :
    (∃ fuel, getArroundGeoHash r precision fuel = some list) ↔
      ∃ n : Nat, (∀ k < n, r.dlatMin + k * minLat r precision ≤ r.dlatMax) ∧
        r.dlatMax < r.dlatMin + n * minLat r precision ∧
        ∃ m : Nat, (∀ j < m, r.dlngMin + j * minLon r precision ≤ r.dlngMax) ∧
          r.dlngMax < r.dlngMin + m * minLon r precision ∧
          list = (gridHashes r precision n m).foldl insertNew [] := by
  have hcond : ∀ k : Nat, r.dlatMin ≤ r.dlatMax - k * minLat r precision ↔
      r.dlatMin + k * minLat r precision ≤ r.dlatMax := fun k => le_sub_iff_add_le
  have hlines : ∀ fuel m n : Nat, m < fuel →
      (∀ j < m, r.dlngMin + j * minLon r precision ≤ r.dlngMax) →
      r.dlngMax < r.dlngMin + m * minLon r precision →
      (List.iterate (· - minLat r precision) r.dlatMax n).foldlM (fun list lat =>
        forLoop (fun lon => decide (lon ≤ r.dlngMax)) (· + minLon r precision)
          (fun lon list => some (insertNew list (encode lat lon precision))) fuel r.dlngMin list)
        [] = some ((gridHashes r precision n m).foldl insertNew []) := by
    intro fuel m n hm hall hend
    have hline := fun lat list => (@line_eq_some r precision fuel lat list _).mpr
      ⟨m, hm, hall, hend, rfl⟩
    simp only [hline, gridHashes, foldl_flatMap]
    exact foldlM_pure
  simp only [getArroundGeoHash, forLoop_eq_some, iterate_sub, decide_eq_true_eq,
    decide_eq_false_iff_not, hcond, not_le]
  constructor
  · rintro ⟨fuel, n, -, hall, hend, h⟩
    refine ⟨n, hall, hend, ?_⟩
    have hfirst : ∃ m < fuel, (∀ j < m, r.dlngMin + j * minLon r precision ≤ r.dlngMax) ∧
        r.dlngMax < r.dlngMin + m * minLon r precision := by
      cases n with
      | zero =>
        rw [Nat.cast_zero, zero_mul, add_zero] at hend
        exact absurd hlat (not_le.mpr hend)
      | succ n =>
        obtain ⟨list', h, -⟩ := Option.bind_eq_some_iff.mp h
        obtain ⟨m, hm, hall, hend, -⟩ := line_eq_some.mp h
        exact ⟨m, hm, hall, hend⟩
    obtain ⟨m, hm, hallm, hendm⟩ := hfirst
    rw [hlines fuel m n hm hallm hendm, Option.some.injEq] at h
    exact ⟨m, hallm, hendm, h.symm⟩
  · rintro ⟨n, hall, hend, m, hallm, hendm, rfl⟩
    exact ⟨max n m + 1, n, by omega, hall, hend, hlines _ m n (by omega) hallm hendm⟩

theorem minLat_eq : minLat r precision =
    min (180 / 2 ^ (precision * 5 / 2)) (r.dlatMax - r.dlatMin - 1 / 10 ^ 5) := by
  rw [minLat, getMinLatLng, iterate_half, iterate_half, min_def_lt]
  norm_num

theorem minLon_eq : minLon r precision =
    min (360 / 2 ^ ((precision * 5 + 1) / 2)) (r.dlngMax - r.dlngMin - 1 / 10 ^ 5) := by
  rw [minLon, getMinLatLng, iterate_half, iterate_half, min_def_lt]
  norm_num

theorem minLat_pos : 0 < minLat r precision ↔ 1 / 10 ^ 5 < r.dlatMax - r.dlatMin := by
  rw [minLat_eq, lt_min_iff, sub_pos]
  exact and_iff_right (by positivity)

theorem minLon_pos : 0 < minLon r precision ↔ 1 / 10 ^ 5 < r.dlngMax - r.dlngMin := by
  rw [minLon_eq, lt_min_iff, sub_pos]
  exact and_iff_right (by positivity)

/-! ## Cells -/

/-- The number of the cell row of a latitude. -/
def latCell (precision : Nat) (lat : ℚ) : Nat := ofBits (latBits lat precision)

def lngCell (precision : Nat) (lng : ℚ) : Nat := ofBits (lngBits lng precision)

theorem latCell_inj {x y : ℚ} :
    latCell precision x = latCell precision y ↔ latBits x precision = latBits y precision := by
  refine ⟨fun h => ofBits_inj ?_ h, fun h => congrArg ofBits h⟩
  rw [latBits, latBits, length_getBits, length_getBits]

theorem lngCell_inj {x y : ℚ} :
    lngCell precision x = lngCell precision y ↔ lngBits x precision = lngBits y precision := by
  refine ⟨fun h => ofBits_inj ?_ h, fun h => congrArg ofBits h⟩
  rw [lngBits, lngBits, length_getBits, length_getBits]

theorem latCell_mono (precision : Nat) : Monotone (latCell precision) := by
  intro x y hxy
  rw [latCell, latCell, latBits, latBits, getBits_eq, getBits_eq]
  exact ofBits_bits_mono _ (by norm_num) (add_le_add_left hxy _)

theorem lngCell_mono (precision : Nat) : Monotone (lngCell precision) := by
  intro x y hxy
  rw [lngCell, lngCell, lngBits, lngBits, getBits_eq, getBits_eq]
  exact ofBits_bits_mono _ (by norm_num) (add_le_add_left hxy _)

theorem latCell_gap (x y : ℚ) (hxy : y ≤ x + 180 / 2 ^ (precision * 5 / 2)) :
    latCell precision y ≤ latCell precision x + 1 := by
  rw [latCell, latCell, latBits, latBits, getBits_eq, getBits_eq]
  refine ofBits_bits_gap _ (by norm_num) _ _ ?_
  rw [show (90 : ℚ) - -90 = 180 by norm_num]
  linarith

theorem lngCell_gap (x y : ℚ) (hxy : y ≤ x + 360 / 2 ^ ((precision * 5 + 1) / 2)) :
    lngCell precision y ≤ lngCell precision x + 1 := by
  rw [lngCell, lngCell, lngBits, lngBits, getBits_eq, getBits_eq]
  refine ofBits_bits_gap _ (by norm_num) _ _ ?_
  rw [show (180 : ℚ) - -180 = 360 by norm_num]
  linarith

theorem latCell_eq (x : ℚ) : latCell precision x =
    min ⌊(x + 1 / 10 ^ 14 - -90) / (90 - -90) * 2 ^ (precision * 5 / 2)⌋₊
      (2 ^ (precision * 5 / 2) - 1) := by
  rw [latCell, latBits, getBits_eq, ofBits_bits _ _ (by norm_num)]

/-- The number of steps from one side to the other. -/
def rows (r : EnclosingRectangle) (precision : Nat) : Nat :=
  ⌊(r.dlatMax - r.dlatMin) / minLat r precision⌋₊

def columns (r : EnclosingRectangle) (precision : Nat) : Nat :=
  ⌊(r.dlngMax - r.dlngMin) / minLon r precision⌋₊

/-- What a call that returns has collected. -/
theorem covers_iff_grid (hlat : r.dlatMin ≤ r.dlatMax) (hlng : r.dlngMin ≤ r.dlngMax) :
    Covers r precision ↔ 0 < minLat r precision ∧ 0 < minLon r precision ∧
      ∀ hash, hash ∈ gridHashes r precision (rows r precision + 1) (columns r precision + 1) ↔
        ∃ lat lng, r.Contains lat lng ∧ encode lat lng precision = hash := by
  have hcall : ∀ list, (∃ fuel, getArroundGeoHash r precision fuel = some list) ↔ _ := fun _ =>
    getArroundGeoHash_eq_some hlat
  simp only [exists_steps_iff hlat, exists_steps_iff hlng] at hcall
  constructor
  · rintro ⟨fuel, list, h, hnodup, hmem⟩
    obtain ⟨hpos, hpos', rfl⟩ := (hcall list).mp ⟨fuel, h⟩
    refine ⟨hpos, hpos', fun hash => ?_⟩
    rw [← hmem, (foldl_insertNew _ [] .nil).2]
    exact ⟨.inr, fun h => h.resolve_left not_mem_nil⟩
  · rintro ⟨hpos, hpos', hmem⟩
    obtain ⟨fuel, h⟩ := (hcall _).mpr ⟨hpos, hpos', rfl⟩
    obtain ⟨hnodup, hfold⟩ := foldl_insertNew (gridHashes r precision (rows r precision + 1)
      (columns r precision + 1)) [] .nil
    refine ⟨fuel, _, h, hnodup, fun hash => ?_⟩
    rw [← hmem]
    exact (hfold hash).trans ⟨fun h => h.resolve_left not_mem_nil, .inr⟩

theorem dlatMin_le_lastLat (hlat : r.dlatMin ≤ r.dlatMax) (hpos : 0 < minLat r precision) :
    r.dlatMin ≤ lastLat r precision := by
  have := Nat.floor_le (div_nonneg (sub_nonneg.mpr hlat) hpos.le)
  rw [le_div_iff₀ hpos] at this
  rw [lastLat]
  linarith

theorem lastLon_le_dlngMax (hlng : r.dlngMin ≤ r.dlngMax) (hpos : 0 < minLon r precision) :
    lastLon r precision ≤ r.dlngMax := by
  have := Nat.floor_le (div_nonneg (sub_nonneg.mpr hlng) hpos.le)
  rw [le_div_iff₀ hpos] at this
  rw [lastLon]
  linarith

theorem lastLat_le {k : Nat} (hpos : 0 < minLat r precision) (hk : k ≤ rows r precision) :
    lastLat r precision ≤ r.dlatMax - k * minLat r precision := by
  have hk : (k : ℚ) ≤ rows r precision := Nat.cast_le.mpr hk
  exact sub_le_sub_left (mul_le_mul_of_nonneg_right hk hpos.le) _

theorem le_lastLon {k : Nat} (hpos : 0 < minLon r precision) (hk : k ≤ columns r precision) :
    r.dlngMin + k * minLon r precision ≤ lastLon r precision := by
  have hk : (k : ℚ) ≤ columns r precision := Nat.cast_le.mpr hk
  exact add_le_add_right (mul_le_mul_of_nonneg_right hk hpos.le) _

/-- A line of the grid meets the row of every latitude. -/
theorem exists_row (hpos : 0 < minLat r precision)
    (hfar : latCell precision r.dlatMin = latCell precision (lastLat r precision)) {lat : ℚ}
    (hmin : r.dlatMin ≤ lat) (hmax : lat ≤ r.dlatMax) :
    ∃ k < rows r precision + 1,
      latCell precision (r.dlatMax - k * minLat r precision) = latCell precision lat := by
  obtain hle | hlt := le_or_gt lat (lastLat r precision)
  · have := latCell_mono precision hmin
    have := latCell_mono precision hle
    refine ⟨rows r precision, Nat.lt_succ_self _, ?_⟩
    change latCell precision (lastLat r precision) = _
    omega
  · have hstep : minLat r precision ≤ 180 / 2 ^ (precision * 5 / 2) := by
      rw [minLat_eq]
      exact min_le_left _ _
    have hend : lat ≤ lastLat r precision + rows r precision * minLat r precision := by
      rw [lastLat, rows]
      linarith
    obtain ⟨i, hi, hcell⟩ :=
      exists_same_cell (latCell_mono precision) latCell_gap hstep hpos hlt.le hend
    refine ⟨rows r precision - i, by omega, ?_⟩
    rw [← hcell, Nat.cast_sub hi]
    congr 1
    rw [lastLat, ← rows]
    ring

theorem exists_column (hpos : 0 < minLon r precision)
    (hfar : lngCell precision r.dlngMax = lngCell precision (lastLon r precision)) {lng : ℚ}
    (hmin : r.dlngMin ≤ lng) (hmax : lng ≤ r.dlngMax) :
    ∃ k < columns r precision + 1,
      lngCell precision (r.dlngMin + k * minLon r precision) = lngCell precision lng := by
  obtain hle | hlt := le_or_gt (lastLon r precision) lng
  · have := lngCell_mono precision hmax
    have := lngCell_mono precision hle
    refine ⟨columns r precision, Nat.lt_succ_self _, ?_⟩
    change lngCell precision (lastLon r precision) = _
    omega
  · have hstep : minLon r precision ≤ 360 / 2 ^ ((precision * 5 + 1) / 2) := by
      rw [minLon_eq]
      exact min_le_left _ _
    obtain ⟨k, hk, hcell⟩ :=
      exists_same_cell (lngCell_mono precision) lngCell_gap hstep hpos hmin hlt.le
    exact ⟨k, Nat.lt_succ_of_le hk, hcell⟩

theorem Covers.farSidesMet (h : Covers r precision) (hbits : precision * 5 < 64)
    (hlat : r.dlatMin ≤ r.dlatMax) (hlng : r.dlngMin ≤ r.dlngMax) : FarSidesMet r precision := by
  obtain ⟨hpos, hpos', hmem⟩ := (covers_iff_grid hlat hlng).mp h
  have hcorner : r.Contains r.dlatMin r.dlngMax := ⟨le_rfl, hlat, hlng, le_rfl⟩
  obtain ⟨k, hk, j, hj, h⟩ := mem_gridHashes.mp ((hmem _).mpr ⟨_, _, hcorner, rfl⟩)
  rw [encode_inj hbits, ← latCell_inj, ← lngCell_inj] at h
  refine ⟨minLat_pos.mp hpos, minLon_pos.mp hpos', latCell_inj.mp ?_, lngCell_inj.mp ?_⟩
  · have := latCell_mono precision (dlatMin_le_lastLat hlat hpos)
    have := latCell_mono precision (lastLat_le hpos (Nat.le_of_lt_succ hk))
    omega
  · have := lngCell_mono precision (lastLon_le_dlngMax hlng hpos')
    have := lngCell_mono precision (le_lastLon hpos' (Nat.le_of_lt_succ hj))
    omega

theorem FarSidesMet.covers (hfar : FarSidesMet r precision) (hbits : precision * 5 < 64)
    (hlat : r.dlatMin ≤ r.dlatMax) (hlng : r.dlngMin ≤ r.dlngMax) : Covers r precision := by
  have hpos : 0 < minLat r precision := minLat_pos.mpr hfar.height
  have hpos' : 0 < minLon r precision := minLon_pos.mpr hfar.width
  refine (covers_iff_grid hlat hlng).mpr
    ⟨hpos, hpos', fun hash => mem_gridHashes.trans ⟨?_, ?_⟩⟩
  · rintro ⟨k, hk, j, hj, h⟩
    have hk := Nat.le_of_lt_succ hk
    have hj := Nat.le_of_lt_succ hj
    refine ⟨_, _, ⟨(dlatMin_le_lastLat hlat hpos).trans (lastLat_le hpos hk), ?_, ?_,
      (le_lastLon hpos' hj).trans (lastLon_le_dlngMax hlng hpos')⟩, h⟩
    · exact sub_le_self _ (mul_nonneg k.cast_nonneg hpos.le)
    · exact le_add_of_nonneg_right (mul_nonneg j.cast_nonneg hpos'.le)
  · rintro ⟨lat, lng, hin, rfl⟩
    obtain ⟨k, hk, hrow⟩ := exists_row hpos (latCell_inj.mpr hfar.latBits_eq) hin.dlatMin_le
      hin.le_dlatMax
    obtain ⟨j, hj, hcolumn⟩ := exists_column hpos' (lngCell_inj.mpr hfar.lngBits_eq)
      hin.dlngMin_le hin.le_dlngMax
    exact ⟨k, hk, j, hj, (encode_inj hbits).mpr ⟨latCell_inj.mp hrow, lngCell_inj.mp hcolumn⟩⟩

/-- The call covers the rectangle exactly if the far sides lie in the cells of the last lines. -/
theorem covers_iff_farSidesMet (hbits : precision * 5 < 64) (hlat : r.dlatMin ≤ r.dlatMax)
    (hlng : r.dlngMin ≤ r.dlngMax) : Covers r precision ↔ FarSidesMet r precision :=
  ⟨fun h => h.farSidesMet hbits hlat hlng, fun h => h.covers hbits hlat hlng⟩

/-- The row of the lower side is missed: the lines at 0.0112 and one cell below it lie above. -/
theorem not_covers_twoRows :
    (EnclosingRectangle.mk (1 / 100) 0 (112 / 10000) (5 / 1000)).isVaild = true ∧
      ¬Covers (EnclosingRectangle.mk (1 / 100) 0 (112 / 10000) (5 / 1000)) 6 := by
  refine ⟨by norm_num [EnclosingRectangle.isVaild], fun h => ?_⟩
  have hfar := (h.farSidesMet (by decide) (by norm_num) (by norm_num)).latBits_eq
  rw [← latCell_inj, latCell_eq, latCell_eq] at hfar
  have hstep : minLat (EnclosingRectangle.mk (1 / 100) 0 (112 / 10000) (5 / 1000)) 6 =
      180 / 2 ^ 15 := by
    rw [minLat_eq]
    norm_num
  have hfloor : ⌊(112 / 10000 - 5 / 1000 : ℚ) / (180 / 2 ^ 15)⌋₊ = 1 := by
    rw [Nat.floor_eq_iff (by norm_num)]
    norm_num
  have hside : ⌊(5 / 1000 + 1 / 10 ^ 14 - -90 : ℚ) / (90 - -90) * 2 ^ 15⌋₊ = 16384 := by
    rw [Nat.floor_eq_iff (by norm_num)]
    norm_num
  have hline : ⌊(112 / 10000 - ((1 : Nat) : ℚ) * (180 / 2 ^ 15) + 1 / 10 ^ 14 - -90 : ℚ) /
      (90 - -90) * 2 ^ 15⌋₊ = 16385 := by
    rw [Nat.floor_eq_iff (by norm_num)]
    norm_num
  simp only [lastLat, hstep, hfloor, Nat.reduceMul, Nat.reduceDiv, hside, hline] at hfar
  exact absurd hfar (by decide)

/-- A rectangle of two cells in each direction, whose last lines are the far sides, is covered. -/
theorem covers_iff_farSidesMet_twoCells :
    Covers (EnclosingRectangle.mk (90 / 4096) 0 (90 / 8192) 0) 6 := by
  have hlat : minLat (EnclosingRectangle.mk (90 / 4096) 0 (90 / 8192) 0) 6 = 45 / 8192 := by
    rw [minLat_eq]
    norm_num
  have hlng : minLon (EnclosingRectangle.mk (90 / 4096) 0 (90 / 8192) 0) 6 = 45 / 4096 := by
    rw [minLon_eq]
    norm_num
  refine (covers_iff_farSidesMet (by decide) (by norm_num) (by norm_num)).mpr
    ⟨by norm_num, by norm_num, ?_, ?_⟩
  · rw [lastLat, hlat]
    norm_num
  · rw [lastLon, hlng]
    norm_num

end ISearch.GeoHash
