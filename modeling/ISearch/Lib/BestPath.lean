import Mathlib.Algebra.Order.Monoid.WithTop
import Mathlib.Algebra.Order.Group.Defs

/-!
# Best paths

Paths of a graph on numbers whose edges lead forward, weights that may be minus infinity, and tables
of the best weight from each node with the successor that attains it.
-/

namespace ISearch.BestPath

section Path

variable (edge : Nat → Nat → Prop) (goal : Nat)

/-- `path` holds the nodes behind the first one. -/
def IsPath : Nat → List Nat → Prop
  | i, [] => i = goal
  | i, j :: path => edge i j ∧ IsPath j path

variable {edge goal} in
theorem IsPath.mono {edge' : Nat → Nat → Prop} (h : ∀ i j, edge i j → edge' i j) {i : Nat}
    {path : List Nat} (hpath : IsPath edge goal i path) : IsPath edge' goal i path := by
  induction path generalizing i with
  | nil => exact hpath
  | cons j path ih => exact ⟨h i j hpath.1, ih hpath.2⟩

variable {W : Type} [AddMonoid W] (weight : Nat → Nat → W)

/-- The sum of the weights of a path's edges. -/
def pathWeight : Nat → List Nat → W
  | _, [] => 0
  | i, j :: path => weight i j + pathWeight j path

/-- `while (i < goal) i = next (i)`: the values of `i` behind the first one. -/
def follow (next : Nat → Nat) : Nat → Nat → Option (List Nat)
  | 0, _ => none
  | fuel + 1, i =>
    if i < goal then (follow next fuel (next i)).map (next i :: ·) else some []

variable {goal}

theorem follow_fixed {next : Nat → Nat} {i : Nat} (hi : i < goal) (h : next i = i) (fuel : Nat) :
    follow goal next fuel i = none := by
  induction fuel with
  | zero => rfl
  | succ fuel ih => rw [follow, if_pos hi, h, ih, Option.map_none]

end Path

section Table

variable {α : Type} [AddCommGroup α] [LinearOrder α] (edge : Nat → Nat → Prop) (goal : Nat)
  (weight : Nat → Nat → WithBot α)

/-- The best weights up to the goal, and the successors that attain those above minus infinity. -/
structure IsTable (value : Nat → WithBot α) (next : Nat → Nat) : Prop where
  forward : ∀ {i j}, edge i j → i < j ∧ j ≤ goal
  value_goal : value goal = 0
  le : ∀ {i j}, edge i j → weight i j + value j ≤ value i
  attained : ∀ {i}, i < goal → value i ≠ ⊥ →
    edge i (next i) ∧ weight i (next i) + value (next i) = value i

variable {edge goal weight} {value : Nat → WithBot α} {next : Nat → Nat}
  (h : IsTable edge goal weight value next)
include h

/-- Following the table from a node above minus infinity gives a best path. -/
theorem IsTable.follow_eq {i fuel : Nat} (hi : i ≤ goal) (hvalue : value i ≠ ⊥)
    (hfuel : goal - i < fuel) : ∃ path, follow goal next fuel i = some path ∧
      IsPath edge goal i path ∧ pathWeight weight i path = value i := by
  induction fuel generalizing i with
  | zero => exact absurd hfuel (Nat.not_lt_zero _)
  | succ fuel ih =>
    obtain hlt | rfl := Nat.lt_or_eq_of_le hi
    · obtain ⟨hedge, hsum⟩ := h.attained hlt hvalue
      obtain ⟨hforward, hle⟩ := h.forward hedge
      have hnext : value (next i) ≠ ⊥ := by
        intro hbot
        rw [hbot, WithBot.add_bot] at hsum
        exact hvalue hsum.symm
      obtain ⟨path, hfollow, hpath, hweight⟩ := ih hle hnext (by omega)
      refine ⟨next i :: path, ?_, ⟨hedge, hpath⟩, ?_⟩
      · rw [follow, if_pos hlt, hfollow, Option.map_some]
      · rw [pathWeight, hweight, hsum]
    · refine ⟨[], ?_, rfl, h.value_goal.symm⟩
      rw [follow, if_neg (lt_irrefl _)]

variable [IsOrderedAddMonoid α]

theorem IsTable.pathWeight_le {i : Nat} {path : List Nat} (hpath : IsPath edge goal i path) :
    pathWeight weight i path ≤ value i := by
  induction path generalizing i with
  | nil =>
    obtain rfl : i = goal := hpath
    exact h.value_goal.ge
  | cons j path ih =>
    obtain ⟨hedge, hpath⟩ := hpath
    calc weight i j + pathWeight weight j path ≤ weight i j + value j := by
          gcongr
          exact ih hpath
      _ ≤ value i := h.le hedge

theorem IsTable.value_ne_bot_iff {i : Nat} (hi : i ≤ goal) : value i ≠ ⊥ ↔
    ∃ path, IsPath (fun i j => edge i j ∧ weight i j ≠ ⊥) goal i path := by
  constructor
  · intro hvalue
    obtain ⟨path, -, hpath, hweight⟩ := h.follow_eq hi hvalue (Nat.lt_succ_self _)
    have hne : pathWeight weight i path ≠ ⊥ := hweight.trans_ne hvalue
    refine ⟨path, ?_⟩
    clear hvalue hweight hi
    induction path generalizing i with
    | nil => exact hpath
    | cons j path ih =>
      rw [pathWeight, Ne, WithBot.add_eq_bot, not_or] at hne
      exact ⟨⟨hpath.1, hne.1⟩, ih hpath.2 hne.2⟩
  · rintro ⟨path, hpath⟩
    have hle := h.pathWeight_le (hpath.mono fun i j hedge => hedge.1)
    have hne : pathWeight weight i path ≠ ⊥ := by
      clear hle hi
      induction path generalizing i with
      | nil => exact WithBot.coe_ne_bot
      | cons j path ih =>
        rw [pathWeight, Ne, WithBot.add_eq_bot, not_or]
        exact ⟨hpath.1.2, ih hpath.2⟩
    intro hbot
    rw [hbot, le_bot_iff] at hle
    exact hne hle

end Table

end ISearch.BestPath
