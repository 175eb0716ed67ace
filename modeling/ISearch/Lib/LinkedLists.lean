import Mathlib.Data.List.Nodup

/-!
# Intrusive lists

Objects that carry their own list links are in at most one list at a time. `Lists ι α` gives the
content of every list head `i : ι`; moving an object unlinks it wherever it is and links it
behind (`listMove`) or before (`listMoveTail`) a head. `Linked` is the discipline that makes the
pointer operations have this effect: no list holds an object twice and no object is in two lists.
-/

namespace ISearch

variable {ι α : Type}

/-- The content of each list, from its head. -/
def Lists (ι α : Type) := ι → List α

namespace Lists

structure Linked (L : Lists ι α) : Prop where
  nodup : ∀ i, (L i).Nodup
  unique : ∀ {i j x}, x ∈ L i → x ∈ L j → i = j

section Moves

variable [DecidableEq ι] [DecidableEq α]

def unlink (L : Lists ι α) (x : α) : Lists ι α := fun i => (L i).erase x

/-- `list_move`: to the front of list `i`. -/
def listMove (L : Lists ι α) (x : α) (i : ι) : Lists ι α :=
  fun j => if j = i then x :: L.unlink x j else L.unlink x j

/-- `list_move_tail`: to the back of list `i`. -/
def listMoveTail (L : Lists ι α) (x : α) (i : ι) : Lists ι α :=
  fun j => if j = i then L.unlink x j ++ [x] else L.unlink x j

end Moves

namespace Linked

variable {L : Lists ι α} {x y : α} {i j : ι}

/-- A family that differs from `L` in where `x` is. -/
theorem unique_of_mem {L' : Lists ι α} (h : Linked L)
    (hmem : ∀ {y j}, y ∈ L' j ↔ y = x ∧ j = i ∨ y ≠ x ∧ y ∈ L j) {j k : ι} {y : α}
    (hj : y ∈ L' j) (hk : y ∈ L' k) : j = k := by
  rcases hmem.mp hj with ⟨rfl, rfl⟩ | ⟨hne, hj⟩ <;> rcases hmem.mp hk with ⟨hy, rfl⟩ | ⟨hne', hk⟩
  · rfl
  · exact absurd rfl hne'
  · exact absurd hy hne
  · exact h.unique hj hk

variable [DecidableEq α]

theorem mem_unlink (h : Linked L) : y ∈ L.unlink x i ↔ y ≠ x ∧ y ∈ L i :=
  (h.nodup i).mem_erase_iff

theorem unlink (h : Linked L) (x : α) : Linked (L.unlink x) where
  nodup i := (h.nodup i).erase x
  unique hi hj := h.unique (h.mem_unlink.mp hi).2 (h.mem_unlink.mp hj).2

variable [DecidableEq ι]

theorem mem_listMove (h : Linked L) :
    y ∈ L.listMove x i j ↔ y = x ∧ j = i ∨ y ≠ x ∧ y ∈ L j := by
  by_cases hj : j = i
  · subst hj
    by_cases hy : y = x <;> simp [listMove, h.mem_unlink, hy]
  · simp [listMove, hj, h.mem_unlink]

theorem mem_listMoveTail (h : Linked L) :
    y ∈ L.listMoveTail x i j ↔ y = x ∧ j = i ∨ y ≠ x ∧ y ∈ L j := by
  by_cases hj : j = i
  · subst hj
    by_cases hy : y = x <;> simp [listMoveTail, h.mem_unlink, hy]
  · simp [listMoveTail, hj, h.mem_unlink]

theorem listMove (h : Linked L) (x : α) (i : ι) : Linked (L.listMove x i) where
  nodup j := by
    by_cases hj : j = i
    · subst hj
      have hx : x ∉ L.unlink x j := fun hx => (h.mem_unlink.mp hx).1 rfl
      simpa [Lists.listMove] using ⟨hx, (h.unlink x).nodup j⟩
    · simpa [Lists.listMove, hj] using (h.unlink x).nodup j
  unique := h.unique_of_mem h.mem_listMove

theorem listMoveTail (h : Linked L) (x : α) (i : ι) : Linked (L.listMoveTail x i) where
  nodup j := by
    by_cases hj : j = i
    · subst hj
      have hx : x ∉ L.unlink x j := fun hx => (h.mem_unlink.mp hx).1 rfl
      have hd : (L.unlink x j ++ [x]).Nodup :=
        List.nodup_append.mpr ⟨(h.unlink x).nodup j, by simp, by
          intro a ha b hb heq
          obtain rfl : b = x := by simpa using hb
          exact hx (heq ▸ ha)⟩
      simpa [Lists.listMoveTail] using hd
    · simpa [Lists.listMoveTail, hj] using (h.unlink x).nodup j
  unique := h.unique_of_mem h.mem_listMoveTail

end Linked

end Lists

end ISearch
