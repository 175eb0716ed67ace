import Mathlib.Data.Nat.Bitwise

/-!
# Bits in sections of seven

A list of bits as bytes of seven bits each, first bit highest. Every byte but the last has its high
bit set, so that the bytes can be followed by others.
-/

namespace ISearch

/-- The number whose bits from `n` downwards are `bits`. -/
def sectionBits : Nat → List Bool → Nat
  | _, [] => 0
  | 0, b :: _ => b.toNat
  | n + 1, b :: bits => 2 ^ (n + 1) * b.toNat + sectionBits n bits

def packSections (bits : List Bool) : List UInt8 :=
  if _h : bits.length ≤ 7 then
    if bits = [] then [] else [UInt8.ofNat (sectionBits 6 bits)]
  else UInt8.ofNat (sectionBits 6 (bits.take 7) + 128) :: packSections (bits.drop 7)
termination_by bits.length

/-- The bits of one section. -/
def sectionOf (b : UInt8) : List Bool := (List.range 7).map fun i => b.toNat.testBit (6 - i)

/-- The bits of the sections in front, and the bytes behind them; `none` when the bytes end before
the last section. -/
def unpackSections : List UInt8 → Option (List Bool × List UInt8)
  | [] => none
  | b :: rest =>
    if b.toNat < 128 then some (sectionOf b, rest)
    else do
      let (bits, rest) ← unpackSections rest
      return (sectionOf b ++ bits, rest)

theorem sectionBits_lt (n : Nat) (bits : List Bool) : sectionBits n bits < 2 ^ (n + 1) := by
  induction n generalizing bits with
  | zero => cases bits with
    | nil => simp [sectionBits]
    | cons b bits => simpa [sectionBits] using Bool.toNat_lt b
  | succ n ih => cases bits with
    | nil => exact Nat.two_pow_pos _
    | cons b bits =>
      have hrest := ih bits
      have hb := Nat.mul_le_mul_left (2 ^ (n + 1)) (Bool.toNat_le b)
      rw [sectionBits, Nat.pow_succ 2 (n + 1)]
      omega

theorem testBit_sectionBits {n i : Nat} (bits : List Bool) (hi : i ≤ n) :
    (sectionBits n bits).testBit (n - i) = bits.getD i false := by
  induction n generalizing bits i with
  | zero =>
    obtain rfl : i = 0 := Nat.le_zero.mp hi
    cases bits with
    | nil => simp [sectionBits]
    | cons b bits => cases b <;> simp [sectionBits]
  | succ n ih => cases bits with
    | nil => simp [sectionBits]
    | cons b bits =>
      rw [sectionBits, Nat.testBit_two_pow_mul_add _ (sectionBits_lt n bits)]
      cases i with
      | zero => cases b <;> simp
      | succ i =>
        have hlt : n + 1 - (i + 1) < n + 1 := by omega
        have hsub : n + 1 - (i + 1) = n - i := by omega
        rw [if_pos hlt, hsub, ih bits (Nat.le_of_succ_le_succ hi)]
        rfl

/-- A section gives its bits back, with or without the flag. -/
theorem sectionOf_ofNat {bits : List Bool} (hlen : bits.length ≤ 7) (flag : Bool) :
    sectionOf (UInt8.ofNat (sectionBits 6 bits + 128 * flag.toNat)) =
      bits ++ List.replicate (7 - bits.length) false := by
  have hlt := sectionBits_lt 6 bits
  have hb := Bool.toNat_le flag
  have hval : (UInt8.ofNat (sectionBits 6 bits + 128 * flag.toNat)).toNat =
      2 ^ 7 * flag.toNat + sectionBits 6 bits := by
    rw [UInt8.toNat_ofNat', Nat.mod_eq_of_lt (by omega)]
    omega
  apply List.ext_getElem (by simp [sectionOf]; omega)
  intro i hi hi'
  have hi7 : i < 7 := by simpa [sectionOf] using hi
  simp only [sectionOf, List.getElem_map, List.getElem_range, hval]
  rw [Nat.testBit_two_pow_mul_add _ hlt, if_pos (by omega), testBit_sectionBits bits (by omega),
    List.getElem_append]
  split
  · rename_i h
    simp [List.getD, List.getElem?_eq_getElem h]
  · rename_i h
    simp [List.getD, List.getElem?_eq_none (not_lt.mp h)]

/-- The bits come back, followed by zeros. -/
theorem unpackSections_packSections (bits : List Bool) (hne : bits ≠ []) (rest : List UInt8) :
    ∃ n, unpackSections (packSections bits ++ rest) = some (bits ++ List.replicate n false, rest) := by
  fun_induction packSections bits with
  | case1 => exact absurd rfl hne
  | case2 bits hlen hnil =>
    have hlt := sectionBits_lt 6 bits
    refine ⟨7 - bits.length, ?_⟩
    rw [List.singleton_append, unpackSections, if_pos]
    · simpa using congrArg (fun s => some (s, rest)) (sectionOf_ofNat hlen false)
    · rw [UInt8.toNat_ofNat', Nat.mod_eq_of_lt (by omega)]
      exact hlt
  | case3 bits hlen ih =>
    have hlt := sectionBits_lt 6 (bits.take 7)
    have htake : (bits.take 7).length = 7 := by
      rw [List.length_take]
      omega
    have hsec := sectionOf_ofNat (le_of_eq htake) true
    obtain ⟨n, hn⟩ := ih (by
      intro h
      have := congrArg List.length h
      simp at this
      omega)
    refine ⟨n, ?_⟩
    rw [List.cons_append, unpackSections, if_neg, hn]
    · simp only [Bool.toNat_true, mul_one, htake, Nat.sub_self, List.replicate_zero,
        List.append_nil] at hsec
      simp only [hsec, Option.bind_eq_bind, Option.bind_some, Option.pure_def]
      rw [← List.append_assoc, List.take_append_drop]
    · rw [UInt8.toNat_ofNat', Nat.mod_eq_of_lt (by omega)]
      omega

end ISearch
