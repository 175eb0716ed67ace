import ISearch.Lib.Bytes
import ISearch.Lib.Memory

/-!
# Numbers in memory

Little-endian numbers of `n` bytes in a memory of bytes, and `memmove`.
-/

namespace ISearch

variable {m m' : Nat → UInt8} {a b i j k n v : Nat}

/-- The number of `n` bytes at `a`. -/
@[irreducible] def loadLe (m : Nat → UInt8) (a n : Nat) : Nat := ofLeBytes (slice m a n)

/-- `m` with the number `v` of `n` bytes at `a`. -/
@[irreducible] def storeLe (m : Nat → UInt8) (a n v : Nat) : Nat → UInt8 := write m a (leBytes n v)

/-- `m` with the `n` bytes at `src` moved to `dst`. -/
@[irreducible] def memmove (m : Nat → UInt8) (dst src n : Nat) : Nat → UInt8 :=
    write m dst (slice m src n)

theorem loadLe_lt (m : Nat → UInt8) (a n : Nat) : loadLe m a n < 256 ^ n := by
  have h := ofLeBytes_lt (slice m a n)
  rwa [length_slice, ← loadLe] at h

theorem loadLe_congr (h : ∀ k, a ≤ k → k < a + n → m k = m' k) : loadLe m a n = loadLe m' a n := by
  rw [loadLe, loadLe, slice_congr h]

theorem loadLe_storeLe (hv : v < 256 ^ n) : loadLe (storeLe m a n v) a n = v := by
  have h := slice_write_self m a (leBytes n v)
  rw [length_leBytes] at h
  rw [loadLe, storeLe, h, ofLeBytes_leBytes, Nat.mod_eq_of_lt hv]

theorem storeLe_apply_of_disjoint (h : k < a ∨ a + n ≤ k) : storeLe m a n v k = m k := by
  rw [storeLe]
  rcases h with h | h
  · exact write_of_lt h
  · exact write_of_ge (by rwa [length_leBytes])

theorem loadLe_storeLe_of_disjoint {n' : Nat} (h : b + n' ≤ a ∨ a + n ≤ b) :
    loadLe (storeLe m a n v) b n' = loadLe m b n' :=
  loadLe_congr fun _ hbk hk => storeLe_apply_of_disjoint (by omega)

theorem storeLe_apply_of_mem (h : a ≤ k) (h' : k < a + n) :
    storeLe m a n v k = (leBytes n v).getD (k - a) 0 := by
  have hlt : k - a < (leBytes n v).length := by
    rw [length_leBytes]
    omega
  rw [storeLe, write, if_pos h, List.getD_eq_getElem?_getD, List.getElem?_eq_getElem hlt,
    Option.getD_some, Option.getD_some]

/-- Bytes loaded and stored again. -/
theorem storeLe_loadLe_apply (h : a ≤ k) (h' : k < a + n) :
    storeLe m' a n (loadLe m a n) k = m k := by
  have hbytes := leBytes_ofLeBytes (slice m a n)
  rw [length_slice] at hbytes
  rw [storeLe_apply_of_mem h h', loadLe, hbytes, List.getD_eq_getElem?_getD, getElem?_slice,
    if_pos (by omega), Option.getD_some]
  congr 1
  omega

/-- Stores to disjoint bytes commute. -/
theorem storeLe_comm {n' v' : Nat} (h : b + n' ≤ a ∨ a + n ≤ b) :
    storeLe (storeLe m a n v) b n' v' = storeLe (storeLe m b n' v') a n v := by
  funext k
  by_cases ha : a ≤ k ∧ k < a + n
  · rw [storeLe_apply_of_disjoint (by omega), storeLe_apply_of_mem ha.1 ha.2,
      storeLe_apply_of_mem ha.1 ha.2]
  · rw [storeLe_apply_of_disjoint (a := a) (by omega)]
    by_cases hb : b ≤ k ∧ k < b + n'
    · rw [storeLe_apply_of_mem hb.1 hb.2, storeLe_apply_of_mem hb.1 hb.2]
    · rw [storeLe_apply_of_disjoint (by omega), storeLe_apply_of_disjoint (by omega),
        storeLe_apply_of_disjoint (by omega)]

theorem memmove_apply_of_disjoint (h : k < i ∨ i + n ≤ k) : memmove m i j n k = m k := by
  rw [memmove]
  rcases h with h | h
  · exact write_of_lt h
  · exact write_of_ge (by rwa [length_slice])

theorem memmove_apply (h : k < n) : memmove m i j n (i + k) = m (j + k) := by
  rw [memmove, write, if_pos (Nat.le_add_right i k), Nat.add_sub_cancel_left, getElem?_slice,
    if_pos h, Option.getD_some]

end ISearch
