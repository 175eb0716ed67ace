import Mathlib.Data.Nat.Bitwise

/-!
# Bitmaps

A bitmap is a block of bytes; bit `i` is the bit `i % 8` of the byte `i / 8`.
-/

namespace ISearch

open Function

def setBit (m : Nat → UInt8) (i : Nat) : Nat → UInt8 :=
  update m (i / 8) (m (i / 8) ||| ((1 : UInt8) <<< UInt8.ofNat (i % 8)))

def clearBit (m : Nat → UInt8) (i : Nat) : Nat → UInt8 :=
  update m (i / 8) (m (i / 8) &&& ~~~((1 : UInt8) <<< UInt8.ofNat (i % 8)))

def isBitSet (m : Nat → UInt8) (i : Nat) : Bool :=
  0 < m (i / 8) &&& ((1 : UInt8) <<< UInt8.ofNat (i % 8))

theorem toNat_one_shiftLeft (i : Nat) :
    ((1 : UInt8) <<< UInt8.ofNat (i % 8)).toNat = 2 ^ (i % 8) := by
  have hall : ∀ k < 8, ((1 : UInt8) <<< UInt8.ofNat k).toNat = 2 ^ k := by decide
  exact hall _ (Nat.mod_lt _ (by decide))

theorem isBitSet_eq_testBit (m : Nat → UInt8) (i : Nat) :
    isBitSet m i = (m (i / 8)).toNat.testBit (i % 8) := by
  rw [isBitSet, Bool.eq_iff_iff, decide_eq_true_iff, UInt8.lt_iff_toNat_lt, UInt8.toNat_and,
    toNat_one_shiftLeft, Nat.and_two_pow]
  cases (m (i / 8)).toNat.testBit (i % 8) with
  | false => simp
  | true => simpa using Nat.two_pow_pos (i % 8)

theorem testBit_not (x : UInt8) {k : Nat} (hk : k < 8) :
    (~~~x).toNat.testBit k = !x.toNat.testBit k := by
  change (~~~x).toBitVec.toNat.testBit k = !x.toBitVec.toNat.testBit k
  rw [UInt8.toBitVec_not, BitVec.testBit_toNat, BitVec.getLsbD_not, decide_eq_true hk,
    Bool.true_and, BitVec.testBit_toNat]

/-- Two bits of one byte are the same bit. -/
theorem mod_eq_iff {i j : Nat} (h : j / 8 = i / 8) : i % 8 = j % 8 ↔ i = j := by
  omega

@[simp] theorem isBitSet_setBit (m : Nat → UInt8) (i j : Nat) :
    isBitSet (setBit m i) j = (decide (i = j) || isBitSet m j) := by
  rw [isBitSet_eq_testBit, isBitSet_eq_testBit, setBit]
  by_cases h : j / 8 = i / 8
  · rw [h, update_self, UInt8.toNat_or, toNat_one_shiftLeft, Nat.testBit_or,
      Nat.testBit_two_pow, Bool.or_comm]
    simp only [mod_eq_iff h]
  · have hne : i ≠ j := fun hij => h (hij ▸ rfl)
    rw [update_of_ne h, decide_eq_false hne, Bool.false_or]

@[simp] theorem isBitSet_clearBit (m : Nat → UInt8) (i j : Nat) :
    isBitSet (clearBit m i) j = (!decide (i = j) && isBitSet m j) := by
  rw [isBitSet_eq_testBit, isBitSet_eq_testBit, clearBit]
  by_cases h : j / 8 = i / 8
  · have hj : j % 8 < 8 := Nat.mod_lt _ (by decide)
    rw [h, update_self, UInt8.toNat_and, Nat.testBit_and]
    have hnot : (~~~((1 : UInt8) <<< UInt8.ofNat (i % 8))).toNat.testBit (j % 8) =
        !decide (i = j) := by
      rw [testBit_not _ hj, toNat_one_shiftLeft, Nat.testBit_two_pow]
      simp only [mod_eq_iff h]
    rw [hnot, Bool.and_comm]
  · have hne : i ≠ j := fun hij => h (hij ▸ rfl)
    rw [update_of_ne h, decide_eq_false hne, Bool.not_false, Bool.true_and]

end ISearch
