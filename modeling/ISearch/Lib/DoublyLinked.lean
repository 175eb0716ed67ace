import Mathlib.Data.List.Nodup

/-!
# Doubly linked lists

Cells of type `ι` with a cell before and a cell after each; `nil` ends a list on both sides. A list
is known by its first cell `head` and its last cell `tail`; `IsDList` also takes the cell `p` before
its first one, so that the rest of a list is a list.
-/

namespace ISearch

open List

variable {ι : Type} {pre next pre' next' : ι → ι} {nil p p' head tail x : ι} {l l₁ l₂ : List ι}

def IsDList (pre next : ι → ι) (nil : ι) : ι → ι → List ι → ι → Prop
  | p, head, [], tail => head = nil ∧ tail = p
  | p, head, x :: l, tail => head = x ∧ x ≠ nil ∧ pre x = p ∧ IsDList pre next nil x (next x) l tail

namespace IsDList

theorem head_eq_nil (h : IsDList pre next nil p head l tail) : head = nil ↔ l = [] := by
  cases l with
  | nil => exact ⟨fun _ => rfl, fun _ => h.1⟩
  | cons x l =>
    obtain ⟨rfl, hne, -⟩ := h
    simp [hne]

theorem nil_notMem (h : IsDList pre next nil p head l tail) : nil ∉ l := by
  induction l generalizing p head with
  | nil => exact not_mem_nil
  | cons x l ih =>
    obtain ⟨rfl, hne, -, h⟩ := h
    exact not_mem_cons_of_ne_of_not_mem hne.symm (ih h)

theorem congr (h : IsDList pre next nil p head l tail) (hpre : ∀ x ∈ l, pre' x = pre x)
    (hnext : ∀ x ∈ l, next' x = next x) : IsDList pre' next' nil p head l tail := by
  induction l generalizing p head with
  | nil => exact h
  | cons x l ih =>
    obtain ⟨rfl, hne, hp, h⟩ := h
    refine ⟨rfl, hne, (hpre _ mem_cons_self).trans hp, ?_⟩
    rw [hnext _ mem_cons_self]
    exact ih h (fun y hy => hpre y (mem_cons_of_mem _ hy))
      fun y hy => hnext y (mem_cons_of_mem _ hy)

/-- The last cell, or the cell before the list where it is empty. -/
theorem tail_eq (h : IsDList pre next nil p head l tail) : tail = l.getLast?.getD p := by
  induction l generalizing p head with
  | nil => exact h.2
  | cons x l ih =>
    obtain ⟨rfl, -, -, h⟩ := h
    rw [ih h, List.getLast?_cons, Option.getD_some]

theorem tail_eq_nil (h : IsDList pre next nil nil head l tail) : tail = nil ↔ l = [] := by
  rw [h.tail_eq]
  cases hl : l.getLast? with
  | none => simp [List.getLast?_eq_none_iff.mp hl]
  | some x =>
    have hmem := mem_of_getLast? hl
    have hne : x ≠ nil := fun hx => h.nil_notMem (hx ▸ hmem)
    simp [hne, ne_nil_of_mem hmem]

/-- The cells around a cell of a list. -/
theorem split (h : IsDList pre next nil p head (l₁ ++ x :: l₂) tail) :
    pre x = l₁.getLast?.getD p ∧ next x = l₂.head?.getD nil := by
  induction l₁ generalizing p head with
  | nil =>
    obtain ⟨rfl, -, hp, h⟩ := h
    refine ⟨hp, ?_⟩
    cases l₂ with
    | nil => exact h.1
    | cons y l₂ => exact h.1
  | cons y l₁ ih =>
    obtain ⟨rfl, -, -, h⟩ := h
    rw [List.getLast?_cons, Option.getD_some]
    exact ih h

variable [DecidableEq ι]

/-- The cell before the first one changed. -/
theorem rehead (h : IsDList pre next nil p head l tail) (hnodup : l.Nodup)
    (hpre : ∀ x ∈ l, pre' x = if x = head then p' else pre x)
    (hnext : ∀ x ∈ l, next' x = next x) :
    IsDList pre' next' nil p' head l (if head = nil then p' else tail) := by
  cases l with
  | nil =>
    obtain ⟨rfl, -⟩ := h
    exact ⟨rfl, if_pos rfl⟩
  | cons x l =>
    obtain ⟨rfl, hne, -, h⟩ := h
    have hx := hpre _ mem_cons_self
    rw [if_pos rfl] at hx
    rw [if_neg hne]
    refine ⟨rfl, hne, hx, ?_⟩
    rw [hnext _ mem_cons_self]
    apply h.congr
    · intro y hy
      have hyx : y ≠ head := fun he => (nodup_cons.mp hnodup).1 (he ▸ hy)
      rw [hpre y (mem_cons_of_mem _ hy), if_neg hyx]
    · exact fun y hy => hnext y (mem_cons_of_mem _ hy)

/-- A new cell in front of a list. -/
theorem push (h : IsDList pre next nil nil head l tail) (hnodup : l.Nodup) (hne : x ≠ nil)
    (hx : pre' x = nil) (hx' : next' x = head)
    (hpre : ∀ y ∈ l, pre' y = if y = head then x else pre y) (hnext : ∀ y ∈ l, next' y = next y) :
    IsDList pre' next' nil nil x (x :: l) (if head = nil then x else tail) := by
  refine ⟨rfl, hne, hx, ?_⟩
  rw [hx']
  exact h.rehead hnodup hpre hnext

/-- A cell taken out of a list. -/
theorem unlink (h : IsDList pre next nil p head (l₁ ++ x :: l₂) tail)
    (hnodup : (l₁ ++ x :: l₂).Nodup) (hp : p ∉ l₁ ++ x :: l₂)
    (hnext : ∀ y ∈ l₁ ++ l₂, next' y = if y = pre x then next x else next y)
    (hpre : ∀ y ∈ l₁ ++ l₂, pre' y = if y = next x then pre x else pre y) :
    IsDList pre' next' nil p (if pre x = p then next x else head) (l₁ ++ l₂)
      (if next x = nil then pre x else tail) := by
  induction l₁ generalizing p head with
  | nil =>
    obtain ⟨rfl, hne, rfl, h⟩ := h
    rw [if_pos rfl, nil_append]
    refine h.rehead (nodup_cons.mp hnodup).2 (fun y hy => hpre y hy) fun y hy => ?_
    rw [hnext y hy, if_neg]
    rintro rfl
    exact hp (mem_cons_of_mem _ hy)
  | cons y l₁ ih =>
    obtain ⟨rfl, hne, hpy, h⟩ := h
    obtain ⟨hy, hnodup⟩ := nodup_cons.mp hnodup
    have hx : pre x = l₁.getLast?.getD head := h.split.1
    have hmem : pre x ∈ head :: l₁ := by
      rw [hx]
      cases hl : l₁.getLast? with
      | none => exact mem_cons_self
      | some z => exact mem_cons_of_mem _ (mem_of_getLast? hl)
    have hpx : pre x ≠ p := by
      rintro he
      rw [he] at hmem
      exact hp (mem_append_left _ hmem)
    have hnx : head ≠ next x := by
      rintro he
      have hnext := h.split.2
      cases l₂ with
      | nil => exact hne (he.trans hnext)
      | cons z l₂ => exact hy (by simp [he, hnext])
    have hhead := hpre head mem_cons_self
    rw [if_neg hnx, hpy] at hhead
    rw [if_neg hpx]
    refine ⟨rfl, hne, hhead, ?_⟩
    have hrest := ih h hnodup hy (fun z hz => hnext z (mem_cons_of_mem _ hz))
      fun z hz => hpre z (mem_cons_of_mem _ hz)
    have hnexthead := hnext head mem_cons_self
    by_cases hfirst : pre x = head
    · rw [if_pos hfirst] at hrest
      rw [hnexthead, if_pos hfirst.symm]
      exact hrest
    · rw [if_neg hfirst] at hrest
      rw [hnexthead, if_neg fun he => hfirst he.symm]
      exact hrest

end IsDList

end ISearch
