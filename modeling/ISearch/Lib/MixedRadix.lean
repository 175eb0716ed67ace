import Mathlib.Data.List.Sections
import Mathlib.Algebra.BigOperators.Group.List.Basic

/-!
# Mixed radix

Counting through the product of lists: the digits of a number, with the lengths of the lists as
radices and the first list fastest, choose one element of each.
-/

namespace ISearch.MixedRadix

open List

variable {α : Type} (default : α)

/-- The elements that the digits of `k` choose. -/
def choice : List (List α) → Nat → List α
  | [], _ => []
  | l :: ls, k => l.getD (k % l.length) default :: choice ls (k / l.length)

theorem map_range_mul {β : Type} (f : Nat → β) (n m : Nat) :
    (List.range (n * m)).map f =
      (List.range m).flatMap fun q => (List.range n).map fun r => f (n * q + r) := by
  induction m with
  | zero => rfl
  | succ m ih =>
    rw [Nat.mul_succ, range_add, map_append, ih, map_map, range_succ,
      flatMap_append, flatMap_singleton]
    rfl

theorem map_range_getD (l : List α) : (List.range l.length).map (l.getD · default) = l := by
  refine ext_getElem (by simp) fun i h₁ h₂ => ?_
  rw [getElem_map, getElem_range, getD_eq_getElem?_getD,
    List.getElem?_eq_getElem h₂, Option.getD_some]

/-- Counting from zero gives every choice once. -/
theorem map_choice_range (ls : List (List α)) :
    (List.range (ls.map List.length).prod).map (choice default ls) = ls.sections := by
  induction ls with
  | nil => rfl
  | cons l ls ih =>
    rw [map_cons, prod_cons, map_range_mul, List.sections, ← ih, flatMap_map]
    refine flatMap_congr fun q _ => ?_
    conv_rhs => rw [← map_range_getD default l, map_map]
    refine map_congr_left fun r hr => ?_
    have hlt : r < l.length := mem_range.mp hr
    rw [choice, Nat.mul_add_mod, Nat.mod_eq_of_lt hlt, Nat.mul_add_div (Nat.zero_lt_of_lt hlt),
      Nat.div_eq_of_lt hlt, Nat.add_zero]
    rfl

end ISearch.MixedRadix
