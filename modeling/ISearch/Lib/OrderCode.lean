import Mathlib.Data.List.Infix

/-!
# Order-preserving codes

`compare` on lists is the lexicographic comparison in which a proper prefix comes first. An
`OrderCode` is an encoding whose codes may be followed by anything: comparing two continued codes
decides by the coded values and, when these are equal, by the continuations. Codes of that kind
compose by concatenation, and no code is a proper prefix of another.
-/

namespace ISearch

open Std (ReflOrd LawfulEqOrd)

variable {α β γ : Type} [Ord γ]

def OrderCode (cmp : α → α → Ordering) (enc : α → List γ) : Prop :=
  ∀ a b s t, compare (enc a ++ s) (enc b ++ t) = (cmp a b).then (compare s t)

theorem compare_append_of_length_eq {a b s t : List γ} (h : a.length = b.length) :
    compare (a ++ s) (b ++ t) = (compare a b).then (compare s t) := by
  induction a generalizing b with
  | nil =>
    obtain rfl : b = [] := List.eq_nil_of_length_eq_zero h.symm
    simp
  | cons x a ih =>
    cases b with
    | nil => cases h
    | cons y b => simp [ih (Nat.succ.inj h), Ordering.then_assoc]

theorem compare_append_left [ReflOrd γ] (a : List γ) {s t : List γ} :
    compare (a ++ s) (a ++ t) = compare s t := by
  rw [compare_append_of_length_eq rfl, ReflOrd.compare_self, Ordering.eq_then]

/-- The comparison of two lists, cut at the same place. -/
theorem compare_eq_take_drop (n : Nat) (a b : List γ) :
    compare a b = (compare (a.take n) (b.take n)).then (compare (a.drop n) (b.drop n)) := by
  induction n generalizing a b with
  | zero => simp
  | succ n ih =>
    cases a <;> cases b <;> simp
    rename_i x a y b
    rw [Ordering.then_assoc, ← ih]

namespace OrderCode

variable {cmp : α → α → Ordering} {enc : α → List γ}

theorem compare_eq (h : OrderCode cmp enc) (a b : α) : compare (enc a) (enc b) = cmp a b := by
  simpa using h a b [] []

theorem injective [ReflOrd γ] [Ord α] [LawfulEqOrd α] (h : OrderCode compare enc) {a b : α}
    (heq : enc a = enc b) : a = b := by
  have hcmp := h.compare_eq a b
  rw [heq, ReflOrd.compare_self] at hcmp
  exact LawfulEqOrd.eq_of_compare hcmp.symm

/-- What begins with a code begins with no other. -/
theorem cmp_of_isPrefix_append [ReflOrd γ] (h : OrderCode cmp enc) {a b : α} {s : List γ}
    (hpre : enc a <+: enc b ++ s) : cmp a b = .eq := by
  obtain ⟨r, hr⟩ := hpre
  have hcmp := h a b r s
  rw [hr, ReflOrd.compare_self] at hcmp
  exact (Ordering.then_eq_eq.mp hcmp.symm).1

theorem not_isPrefix [ReflOrd γ] (h : OrderCode cmp enc) {a b : α} (hne : cmp a b ≠ .eq) :
    ¬ enc a <+: enc b := fun hpre =>
  hne (h.cmp_of_isPrefix_append (hpre.trans (List.prefix_append _ [])))

theorem of_length {n : Nat} (hlen : ∀ a, (enc a).length = n)
    (hcmp : ∀ a b, compare (enc a) (enc b) = cmp a b) : OrderCode cmp enc := by
  intro a b s t
  rw [compare_append_of_length_eq ((hlen a).trans (hlen b).symm), hcmp]

theorem nil [ReflOrd γ] : OrderCode (fun _ _ : α => .eq) (fun _ => ([] : List γ)) :=
  fun _ _ _ _ => rfl

/-- The code of a pair is the concatenation of the codes. -/
theorem append {cmp' : β → β → Ordering} {enc' : β → List γ} (h : OrderCode cmp enc)
    (h' : OrderCode cmp' enc') :
    OrderCode (fun x y : α × β => (cmp x.1 y.1).then (cmp' x.2 y.2))
      (fun x => enc x.1 ++ enc' x.2) := by
  intro x y s t
  rw [List.append_assoc, List.append_assoc, h, h', Ordering.then_assoc]

end OrderCode

end ISearch
