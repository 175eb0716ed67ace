import ISearch.KeyFormat.Defs
import ISearch.Lib.OrderCode
import Mathlib.Tactic.IntervalCases

/-!
# Field encodings

Each of the three field encodings is an order code, and is read back by its decoder. Integers are
encoded in eight bytes, most significant first, with the sign bit flipped. A string is cut into
segments of seven bytes; the byte after a segment is `120` plus the number of bytes the segment
holds, so that only a full segment carries the marker `127` and is followed by another one.
-/

namespace ISearch.KeyFormat

open List

/-! ## Integers -/

theorem xor_two_pow_of_lt {k w : Nat} (h : w < 2 ^ k) : w ^^^ 2 ^ k = w + 2 ^ k := by
  apply Nat.eq_of_testBit_eq
  intro i
  rw [Nat.testBit_xor, Nat.testBit_two_pow, Nat.add_comm]
  rcases lt_trichotomy i k with hi | hi | hi
  · simp [Nat.testBit_two_pow_add_gt hi, Nat.ne_of_gt hi]
  · subst hi
    simp [Nat.testBit_two_pow_add_eq, Nat.testBit_lt_two_pow h]
  · have hw : w < 2 ^ i := h.trans (Nat.pow_lt_pow_right (by decide) hi)
    have hsum : 2 ^ k + w < 2 ^ i := by
      have hpow := Nat.pow_le_pow_right (by decide : 0 < 2) (hi : k + 1 ≤ i)
      rw [pow_succ] at hpow
      omega
    simp [Nat.testBit_lt_two_pow hw, Nat.testBit_lt_two_pow hsum, Nat.ne_of_lt hi]

/-- Flipping the sign bit adds `2 ^ 63`. -/
theorem toNat_xor_signMask (u : UInt64) : (u ^^^ signMask).toNat = (u.toNat + 2 ^ 63) % 2 ^ 64 := by
  have hu := u.toNat_lt
  have hmask : signMask.toNat = 2 ^ 63 := rfl
  rw [UInt64.toNat_xor, hmask]
  by_cases h : u.toNat < 2 ^ 63
  · rw [xor_two_pow_of_lt h]
    omega
  · obtain ⟨w, hw⟩ : ∃ w, u.toNat = w + 2 ^ 63 := ⟨u.toNat - 2 ^ 63, by omega⟩
    have hlt : w < 2 ^ 63 := by omega
    have hxor : (w + 2 ^ 63) ^^^ 2 ^ 63 = w := by
      rw [← xor_two_pow_of_lt hlt, Nat.xor_assoc, Nat.xor_self, Nat.xor_zero]
    rw [hw, hxor]
    omega

theorem leBytes_htonl (v : UInt32) : leBytes 4 (htonl v).toNat = (leBytes 4 v.toNat).reverse := by
  have hlt := ofLeBytes_lt (leBytes 4 v.toNat).reverse
  have hbytes := leBytes_ofLeBytes (leBytes 4 v.toNat).reverse
  rw [length_reverse, length_leBytes] at hlt hbytes
  rwa [htonl, UInt32.toNat_ofNat_of_lt' (by simpa using hlt)]

theorem toNat_htonll (v : UInt64) :
    (htonll v).toNat = (htonl (v >>> 32).toUInt32).toNat + 256 ^ 4 * (htonl v.toUInt32).toNat := by
  have hhi := (htonl (v >>> 32).toUInt32).toNat_lt
  have hlo := (htonl v.toUInt32).toNat_lt
  have hshift : UInt64.toNat 32 % 64 = 32 := rfl
  rw [htonll, UInt64.toNat_add, UInt64.toNat_shiftLeft, hshift, Nat.shiftLeft_eq]
  simp only [UInt32.toNat_toUInt64]
  omega

/-- The bytes of a number in network order. -/
theorem encodeBytesU64_eq (x : UInt64) : encodeBytesU64 x = (leBytes 8 x.toNat).reverse := by
  have hx := x.toNat_lt
  have hsplit : x.toNat = x.toUInt32.toNat + 256 ^ 4 * (x >>> 32).toUInt32.toNat := by
    have hshift : UInt64.toNat 32 % 64 = 32 := rfl
    simp only [UInt64.toNat_toUInt32, UInt64.toNat_shiftRight]
    rw [hshift, Nat.shiftRight_eq_div_pow]
    omega
  have hadd : ∀ a b : UInt32, leBytes 8 (a.toNat + 256 ^ 4 * b.toNat) =
      leBytes 4 a.toNat ++ leBytes 4 b.toNat := fun a b =>
    leBytes_add (m := 4) (n := 4) a.toNat_lt
  rw [encodeBytesU64, toNat_htonll, hadd, leBytes_htonl, leBytes_htonl, ← reverse_append,
    ← hadd, ← hsplit]

theorem encodeBytesS64_eq (x : Int64) :
    encodeBytesS64 x = (leBytes 8 (encodeIntoCmpUint x).toNat).reverse :=
  encodeBytesU64_eq (encodeIntoCmpUint x)

theorem length_encodeBytesU64 (x : UInt64) : (encodeBytesU64 x).length = 8 := by
  rw [encodeBytesU64, length_leBytes]

theorem length_encodeBytesS64 (x : Int64) : (encodeBytesS64 x).length = 8 := by
  rw [encodeBytesS64, length_leBytes]

theorem toNat_mod_256_pow_8 (x : UInt64) : x.toNat % 256 ^ 8 = x.toNat :=
  Nat.mod_eq_of_lt x.toNat_lt

theorem ntohll_htonll (x : UInt64) : ntohll (htonll x) = x := by
  have hbytes : leBytes 8 (htonll (htonll x)).toNat = leBytes 8 x.toNat := by
    have h1 := encodeBytesU64_eq (htonll x)
    have h2 := encodeBytesU64_eq x
    rw [encodeBytesU64] at h1 h2
    rw [h1, h2, reverse_reverse]
  have hnat := congrArg ofLeBytes hbytes
  rw [ofLeBytes_leBytes, ofLeBytes_leBytes, toNat_mod_256_pow_8, toNat_mod_256_pow_8] at hnat
  exact UInt64.toNat_inj.mp hnat

theorem readU64_leBytes (x : UInt64) : readU64 (leBytes 8 x.toNat) = some x := by
  rw [readU64, if_pos (by simp), take_left' (length_leBytes _ _), ofLeBytes_leBytes,
    toNat_mod_256_pow_8, UInt64.ofNat_toNat]

theorem decodeBytesU64_encodeBytesU64 (x : UInt64) : decodeBytesU64 (encodeBytesU64 x) = some x := by
  simp [decodeBytesU64, encodeBytesU64, readU64_leBytes, ntohll_htonll]

theorem decodeBytesS64_encodeBytesS64 (x : Int64) : decodeBytesS64 (encodeBytesS64 x) = some x := by
  have hxor : (encodeIntoCmpUint x ^^^ signMask).toInt64 = x := by
    rw [encodeIntoCmpUint, UInt64.xor_assoc, UInt64.xor_self, UInt64.xor_zero]
    rfl
  rw [decodeBytesS64, encodeBytesS64, readU64_leBytes, Option.bind_eq_bind, Option.bind_some,
    ntohll_htonll, hxor]
  rfl

/-- The unsigned image of a signed number: its distance from the smallest one. -/
theorem toNat_encodeIntoCmpUint (x : Int64) :
    ((encodeIntoCmpUint x).toNat : Int) = x.toInt + 2 ^ 63 := by
  have hhi := x.toInt_lt
  have hlo := x.le_toInt
  have hint : x.toInt = Int.bmod x.toUInt64.toNat (2 ^ 64) := x.toBitVec.toInt_eq_toNat_bmod
  have hu := x.toUInt64.toNat_lt
  rw [Int.bmod_def] at hint
  rw [encodeIntoCmpUint, toNat_xor_signMask]
  omega

theorem compareOfLessAndEq_congr {α β : Type} [LT α] [LT β] [DecidableEq α] [DecidableEq β]
    [DecidableLT α] [DecidableLT β] {a b : α} {c d : β} (hlt : a < b ↔ c < d)
    (heq : a = b ↔ c = d) : compareOfLessAndEq a b = compareOfLessAndEq c d := by
  simp only [compareOfLessAndEq, hlt, heq]

theorem orderCode_u64 : OrderCode (compare : UInt64 → UInt64 → Ordering) encodeBytesU64 := by
  refine .of_length length_encodeBytesU64 fun a b => ?_
  rw [encodeBytesU64_eq, encodeBytesU64_eq,
    compare_reverse_leBytes (UInt64.toNat_lt _) (UInt64.toNat_lt _)]
  exact compareOfLessAndEq_congr UInt64.lt_iff_toNat_lt.symm UInt64.toNat_inj

theorem orderCode_s64 : OrderCode (compare : Int64 → Int64 → Ordering) encodeBytesS64 := by
  refine .of_length length_encodeBytesS64 fun a b => ?_
  have ha := toNat_encodeIntoCmpUint a
  have hb := toNat_encodeIntoCmpUint b
  rw [encodeBytesS64_eq, encodeBytesS64_eq,
    compare_reverse_leBytes (UInt64.toNat_lt _) (UInt64.toNat_lt _)]
  refine compareOfLessAndEq_congr ?_ ?_
  · rw [Int64.lt_iff_toInt_lt]
    omega
  · rw [← Int64.toInt_inj]
    omega

/-! ## Strings -/

/-- A segment of `n` bytes: the bytes of `a`, zeros, and the marker `m` plus their number. -/
def segment (n m : Nat) (a : Bytes) : Bytes :=
  a.take n ++ replicate (n - a.length) 0 ++ [UInt8.ofNat (m + min n a.length)]

theorem segment_succ_cons (n m : Nat) (x : UInt8) (a : Bytes) :
    segment (n + 1) m (x :: a) = x :: segment n (m + 1) a := by
  have hmin : m + min (n + 1) (a.length + 1) = m + 1 + min n a.length := by omega
  rw [segment, segment, take_succ_cons, length_cons, Nat.succ_sub_succ, hmin]
  rfl

theorem segment_succ_nil (n m : Nat) : segment (n + 1) m [] = 0 :: segment n m [] := by
  simp [segment, replicate_succ]

theorem length_segment (n m : Nat) (a : Bytes) : (segment n m a).length = n + 1 := by
  simp [segment]
  omega

theorem encodeBytes_eq (src : Bytes) :
    encodeBytes src =
      segment 7 120 src ++ if 7 ≤ src.length then encodeBytes (src.drop 7) else [] := by
  have htake : src.take (copyLen src) = src.take 7 := by
    rw [copyLen, segmentSize, take_eq_take_iff]
    omega
  rw [encodeBytes]
  by_cases h : 7 ≤ src.length
  · have hcopy : copyLen src = 7 := by
      rw [copyLen, segmentSize]
      omega
    have hpad : paddingBytes src = 0 := by rw [paddingBytes, hcopy, segmentSize]
    have hnone : 7 - src.length = 0 := by omega
    have hmin : min 7 src.length = 7 := by omega
    simp only [hpad, hcopy, h, segment, hnone, hmin, ne_eq, not_true, dite_false, if_true,
      replicate_zero, append_nil]
    rfl
  · have hcopy : copyLen src = src.length := by
      rw [copyLen, segmentSize]
      omega
    have hpad : paddingBytes src = 7 - src.length := by rw [paddingBytes, hcopy, segmentSize]
    have hmin : min 7 src.length = src.length := by omega
    have hmark : encoderMarker - UInt8.ofNat (7 - src.length) = UInt8.ofNat (120 + src.length) := by
      obtain ⟨k, hk, hlen⟩ : ∃ k, k < 7 ∧ src.length = k := ⟨src.length, by omega, rfl⟩
      rw [hlen]
      interval_cases k <;> rfl
    rw [dif_pos (by omega), if_neg h, htake, hpad, hmark, segment, hmin, append_nil]

theorem compare_zero_then_lt (y : UInt8) : (compare 0 y).then .lt = .lt := by
  rcases Nat.eq_zero_or_pos y.toNat with hy | hy
  · obtain rfl : y = 0 := UInt8.toNat_inj.mp hy
    rfl
  · have hlt : compare 0 y = .lt := by
      rw [compare_uint8]
      exact compare_lt_iff_lt.mpr hy
    rw [hlt, Ordering.lt_then]

/-- A segment that holds nothing is below every segment with a greater marker. -/
theorem compare_segment_nil {n m m' : Nat} (hm : m < m') (hmax : m' + n < 256) (b s t : Bytes) :
    compare (segment n m [] ++ s) (segment n m' b ++ t) = .lt := by
  induction n generalizing m' b with
  | zero =>
    have hlt : compare (UInt8.ofNat m) (UInt8.ofNat m') = .lt := by
      rw [compare_uint8, toNat_ofNat_uint8, toNat_ofNat_uint8, compare_lt_iff_lt]
      omega
    simp [segment, hlt]
  | succ n ih =>
    cases b with
    | nil =>
      rw [segment_succ_nil, segment_succ_nil, cons_append, cons_append,
        List.compare_cons_cons, ih hm (by omega), Std.ReflOrd.compare_self, Ordering.eq_then]
    | cons y b =>
      rw [segment_succ_nil, segment_succ_cons, cons_append, cons_append,
        List.compare_cons_cons, ih (by omega) (by omega), compare_zero_then_lt]

theorem compare_segment_nil_cons {n m : Nat} (hmax : m + n + 1 < 256) (y : UInt8)
    (b s t : Bytes) :
    compare (segment (n + 1) m [] ++ s) (segment (n + 1) m (y :: b) ++ t) = .lt := by
  rw [segment_succ_nil, segment_succ_cons, cons_append, cons_append,
    List.compare_cons_cons, compare_segment_nil (Nat.lt_succ_self m) (by omega),
    compare_zero_then_lt]

/-- Segments compare as the bytes they hold. -/
theorem compare_segment {n m : Nat} (hmax : m + n < 256) (a b s t : Bytes) :
    compare (segment n m a ++ s) (segment n m b ++ t) =
      (compare (a.take n) (b.take n)).then (compare s t) := by
  induction n generalizing m a b with
  | zero => simp [segment, Std.ReflOrd.compare_self]
  | succ n ih =>
    cases a with
    | nil =>
      cases b with
      | nil => rw [compare_append_left, take_nil, List.compare_nil_nil, Ordering.eq_then]
      | cons y b => rw [compare_segment_nil_cons hmax, take_nil]; rfl
    | cons x a =>
      cases b with
      | nil => rw [Std.OrientedOrd.eq_swap, compare_segment_nil_cons hmax, take_nil]; rfl
      | cons y b =>
        rw [segment_succ_cons, segment_succ_cons, cons_append, cons_append,
          List.compare_cons_cons, ih (by omega), take_succ_cons, take_succ_cons,
          List.compare_cons_cons, Ordering.then_assoc]

theorem orderCode_bytes : OrderCode (compare : Bytes → Bytes → Ordering) encodeBytes := by
  intro a
  induction hn : a.length using Nat.strong_induction_on generalizing a with
  | h n ih =>
    intro b s t
    rw [encodeBytes_eq a, encodeBytes_eq b, append_assoc, append_assoc,
      compare_segment (by decide), compare_eq_take_drop 7 a b, Ordering.then_assoc]
    by_cases htake : a.take 7 = b.take 7
    · have hlen := congrArg List.length htake
      rw [length_take, length_take] at hlen
      by_cases ha : 7 ≤ a.length
      · rw [if_pos ha, if_pos (by omega), ih _ (by rw [length_drop]; omega) _ rfl]
      · have hnil : ∀ l : Bytes, ¬ 7 ≤ l.length → l.drop 7 = [] := fun l hl =>
          drop_eq_nil_of_le (by omega)
        rw [if_neg ha, if_neg (by omega), hnil a ha, hnil b (by omega)]
        rfl
    · have hne : compare (a.take 7) (b.take 7) ≠ .eq := fun h =>
        htake (Std.LawfulEqOrd.eq_of_compare h)
      cases hcmp : compare (a.take 7) (b.take 7) with
      | eq => exact absurd hcmp hne
      | lt => rfl
      | gt => rfl

theorem segmentLength_marker {k : Nat} (hk : k ≤ 7) : segmentLength (UInt8.ofNat (120 + k)) = k := by
  interval_cases k <;> rfl

theorem charAt_segment (m : Nat) (pre a rest : Bytes) :
    charAt (pre ++ (segment 7 m a ++ rest)) (pre.length + 7) =
      some (UInt8.ofNat (m + min 7 a.length)) := by
  have hlen : (a.take 7 ++ replicate (7 - a.length) 0).length = 7 := by
    rw [length_append, length_take, length_replicate]
    omega
  rw [charAt, append_assoc, List.getElem?_append_right (Nat.le_add_right _ _),
    Nat.add_sub_cancel_left, segment, append_assoc, append_assoc,
    List.getElem?_append_right (by rw [hlen]), hlen]
  rfl

theorem take_segment {k : Nat} (m : Nat) (a rest : Bytes) (hk : k = min 7 a.length) :
    (segment 7 m a ++ rest).take k = a.take 7 := by
  have hlen : (a.take 7).length = k := by rw [length_take, hk]
  rw [segment, append_assoc, append_assoc, take_left' hlen]

theorem drop_segment (m : Nat) (a rest : Bytes) : (segment 7 m a ++ rest).drop 8 = rest :=
  drop_left' (length_segment 7 m a)

theorem decodeBytes_encodeBytes (a : Bytes) : decodeBytes (encodeBytes a) = some a := by
  induction hn : a.length using Nat.strong_induction_on generalizing a with
  | h n ih =>
    have hmin : min 7 a.length ≤ 7 := Nat.min_le_left _ _
    rw [encodeBytes_eq, decodeBytes, dif_neg (by simp [segment])]
    have hchar := charAt_segment 120 [] a (if 7 ≤ a.length then encodeBytes (a.drop 7) else [])
    rw [nil_append, length_nil, Nat.zero_add] at hchar
    rw [hchar, segmentSize, drop_segment]
    simp only [Option.bind_eq_bind, Option.bind_some, segmentLength_marker hmin,
      take_segment 120 a _ rfl]
    split_ifs with h
    · rw [ih _ (by rw [length_drop]; omega) _ rfl]
      simp
    · have htake : a.take 7 = a := take_of_length_le (by omega)
      rw [decodeBytes, dif_pos rfl, htake]
      simp

/-- `Decode` finds the end of an encoded string. -/
theorem segmentsEnd_encodeBytes (pre a post : Bytes) :
    segmentsEnd (pre ++ (encodeBytes a ++ post)) (pre.length + segmentSize) =
      some (pre.length + (encodeBytes a).length) := by
  induction hn : a.length using Nat.strong_induction_on generalizing pre a with
  | h n ih =>
    have hpos : pre.length + segmentSize - 1 = pre.length + 7 := rfl
    rw [encodeBytes_eq a, append_assoc, segmentsEnd, hpos, charAt_segment]
    dsimp only
    by_cases h : 7 ≤ a.length
    · have hmark : UInt8.ofNat (120 + min 7 a.length) = encoderMarker := by
        rw [Nat.min_eq_left h]
        rfl
      have hrec := ih _ (by rw [length_drop]; omega) (pre ++ segment 7 120 a) (a.drop 7) rfl
      rw [if_pos hmark, if_pos h]
      simpa [length_segment, segmentSize, Nat.add_assoc] using hrec
    · have hmark : UInt8.ofNat (120 + min 7 a.length) ≠ encoderMarker := by
        obtain ⟨k, hk, hlen⟩ : ∃ k, k < 7 ∧ a.length = k := ⟨a.length, by omega, rfl⟩
        rw [hlen]
        interval_cases k <;> decide
      rw [if_neg hmark, if_neg h, append_nil, length_segment]
      rfl

end ISearch.KeyFormat
