import Mathlib.Data.List.Nodup

/-!
# Singly linked chains

Cells of type `ι` with a successor function `next`; `nil` ends a chain. `IsChain next nil head l`
says that following `next` from `head` visits exactly the cells of `l`, in order, and then `nil`.
-/

namespace ISearch

open Function

variable {ι : Type} {next next' : ι → ι} {nil head : ι} {l : List ι}

def IsChain (next : ι → ι) (nil : ι) : ι → List ι → Prop
  | head, [] => head = nil
  | head, a :: l => head = a ∧ a ≠ nil ∧ IsChain next nil (next a) l

namespace IsChain

theorem nil_notMem (h : IsChain next nil head l) : nil ∉ l := by
  induction l generalizing head with
  | nil => exact List.not_mem_nil
  | cons a l ih =>
    obtain ⟨rfl, hne, h⟩ := h
    exact List.not_mem_cons_of_ne_of_not_mem hne.symm (ih h)

theorem head_eq_nil (h : IsChain next nil head l) : head = nil ↔ l = [] := by
  cases l with
  | nil => exact ⟨fun _ => rfl, fun _ => h⟩
  | cons a l =>
    obtain ⟨rfl, hne, -⟩ := h
    simp [hne]

/-- A chain is determined by its first cell. -/
theorem unique {l' : List ι} (h : IsChain next nil head l) (h' : IsChain next nil head l') :
    l = l' := by
  induction l generalizing head l' with
  | nil => exact (h'.head_eq_nil.mp h).symm
  | cons a l ih =>
    obtain ⟨rfl, hne, h⟩ := h
    cases l' with
    | nil => exact absurd h' hne
    | cons b l' =>
      obtain ⟨rfl, -, h'⟩ := h'
      rw [ih h h']

theorem congr (h : IsChain next nil head l) (heq : ∀ a ∈ l, next' a = next a) :
    IsChain next' nil head l := by
  induction l generalizing head with
  | nil => exact h
  | cons a l ih =>
    obtain ⟨rfl, hne, h⟩ := h
    rw [← heq _ List.mem_cons_self] at h
    exact ⟨rfl, hne, ih h fun b hb => heq b (List.mem_cons_of_mem _ hb)⟩

theorem suffix {a : ι} {pre : List ι} (h : IsChain next nil head (pre ++ a :: l)) :
    IsChain next nil (next a) l := by
  induction pre generalizing head with
  | nil => exact h.2.2
  | cons b pre ih => exact ih h.2.2

variable [DecidableEq ι]

theorem update {a b : ι} (h : IsChain next nil head l) (ha : a ∉ l) :
    IsChain (Function.update next a b) nil head l := by
  apply h.congr
  intro c hc
  exact update_of_ne (ne_of_mem_of_not_mem hc ha) _ _

/-- A new cell in front of a chain. -/
theorem push {a : ι} (h : IsChain next nil head l) (ha : a ∉ l) (hne : a ≠ nil) :
    IsChain (Function.update next a head) nil a (a :: l) := by
  refine ⟨rfl, hne, ?_⟩
  rw [update_self]
  exact h.update ha

/-- The cell after `p` taken out of a chain. -/
theorem unlink {p x : ι} {pre post : List ι}
    (h : IsChain next nil head (pre ++ p :: x :: post)) (hnodup : (pre ++ p :: x :: post).Nodup) :
    IsChain (Function.update next p (next x)) nil head (pre ++ p :: post) := by
  induction pre generalizing head with
  | nil =>
    obtain ⟨rfl, hne, hx, -, h⟩ := h
    refine ⟨rfl, hne, ?_⟩
    rw [update_self]
    apply h.update
    intro hp
    exact (List.nodup_cons.mp hnodup).1 (List.mem_cons_of_mem _ hp)
  | cons a pre ih =>
    obtain ⟨rfl, hne, h⟩ := h
    obtain ⟨hnot, hnodup⟩ := List.nodup_cons.mp hnodup
    refine ⟨rfl, hne, ?_⟩
    rw [update_of_ne]
    · exact ih h hnodup
    · rintro rfl
      exact hnot (by simp)

end IsChain

end ISearch
