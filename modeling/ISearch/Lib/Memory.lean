import Mathlib.Data.List.Basic

/-!
# Blocks of memory

A block is a function from offsets to cells. `slice m i n` are the `n` cells from offset `i` on and
`write m i bs` stores `bs` at offset `i`, as `memcpy` does.
-/

namespace ISearch

variable {α : Type*}

/-- The `n` cells of `m` from offset `i` on. -/
def slice (m : Nat → α) (i n : Nat) : List α := (List.range n).map fun k => m (i + k)

/-- `m` with `bs` stored at offset `i`. -/
def write (m : Nat → α) (i : Nat) (bs : List α) : Nat → α := fun k =>
  if i ≤ k then (bs[k - i]?).getD (m k) else m k

@[simp] theorem length_slice (m : Nat → α) (i n : Nat) : (slice m i n).length = n := by
  simp [slice]

@[simp] theorem slice_zero (m : Nat → α) (i : Nat) : slice m i 0 = [] := rfl

theorem getElem?_slice (m : Nat → α) (i n k : Nat) :
    (slice m i n)[k]? = if k < n then some (m (i + k)) else none := by
  split
  · rename_i h
    simp [slice, List.getElem?_range h]
  · rename_i h
    simp [slice, h]

theorem slice_add (m : Nat → α) (i a b : Nat) :
    slice m i (a + b) = slice m i a ++ slice m (i + a) b := by
  simp [slice, List.range_add, Function.comp_def, Nat.add_assoc]

theorem slice_congr {m m' : Nat → α} {i n : Nat} (h : ∀ k, i ≤ k → k < i + n → m k = m' k) :
    slice m i n = slice m' i n := by
  apply List.map_congr_left
  intro k hk
  exact h _ (Nat.le_add_right _ _) (Nat.add_lt_add_left (List.mem_range.mp hk) _)

theorem slice_inj {m m' : Nat → α} {i n : Nat} :
    slice m i n = slice m' i n ↔ ∀ k, i ≤ k → k < i + n → m k = m' k := by
  refine ⟨fun h k hik hkn => ?_, slice_congr⟩
  have hget : (slice m i n)[k - i]? = (slice m' i n)[k - i]? := by rw [h]
  rw [getElem?_slice, getElem?_slice, if_pos (by omega), if_pos (by omega),
    Nat.add_sub_cancel' hik] at hget
  exact Option.some.inj hget

theorem write_of_lt {m : Nat → α} {i k : Nat} {bs : List α} (h : k < i) : write m i bs k = m k :=
  if_neg (Nat.not_le.mpr h)

theorem write_of_ge {m : Nat → α} {i k : Nat} {bs : List α} (h : i + bs.length ≤ k) :
    write m i bs k = m k := by
  have : bs[k - i]? = none := List.getElem?_eq_none (by omega)
  simp [write, this]

@[simp] theorem write_nil (m : Nat → α) (i : Nat) : write m i [] = m := by
  funext k
  simp [write]

@[simp] theorem slice_write_self (m : Nat → α) (i : Nat) (bs : List α) :
    slice (write m i bs) i bs.length = bs := by
  apply List.ext_getElem?
  intro k
  rw [getElem?_slice]
  split
  · rename_i h
    simp [write, List.getElem?_eq_getElem h]
  · rename_i h
    exact (List.getElem?_eq_none (Nat.not_lt.mp h)).symm

theorem slice_write_before (m : Nat → α) {i j n : Nat} (bs : List α) (h : j + n ≤ i) :
    slice (write m i bs) j n = slice m j n :=
  slice_congr fun _ _ hk => write_of_lt (Nat.lt_of_lt_of_le hk h)

theorem slice_write_after (m : Nat → α) {i j n : Nat} (bs : List α) (h : i + bs.length ≤ j) :
    slice (write m i bs) j n = slice m j n :=
  slice_congr fun _ hk _ => write_of_ge (Nat.le_trans h hk)

/-- Storing two runs of cells one after the other. -/
theorem write_write_append (m : Nat → α) (i : Nat) (as bs : List α) :
    write (write m i as) (i + as.length) bs = write m i (as ++ bs) := by
  funext k
  by_cases hi : i ≤ k
  · by_cases hk : i + as.length ≤ k
    · have hsub : k - i - as.length = k - (i + as.length) := by omega
      have hold : write m i as k = m k := write_of_ge hk
      rw [write, if_pos hk, hold, write, if_pos hi, List.getElem?_append_right (by omega), hsub]
    · rw [write, if_neg hk, write, if_pos hi, write, if_pos hi,
        List.getElem?_append_left (by omega)]
  · rw [write_of_lt (by omega), write_of_lt (by omega), write_of_lt (by omega)]

end ISearch
