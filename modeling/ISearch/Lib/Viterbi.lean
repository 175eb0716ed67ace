import Mathlib.Algebra.Order.Ring.Canonical

/-!
# The best labelling

Labels for a sequence of observations, weighted by a product over the sequence, and the table that
keeps the best weight and labelling for each last label. A label whose best weight is zero has no
labelling before it.
-/

namespace ISearch.Viterbi

variable {σ α : Type}

section Pick

variable [Zero α] [LinearOrder α]

/-- The greatest value above zero, with the first label that has it. -/
def pick (f : σ → α) (states : List σ) : α × Option σ :=
  states.foldl (fun best y => if best.1 < f y then (f y, some y) else best) (0, none)

omit [Zero α] in
theorem foldl_pick (f : σ → α) (states : List σ) (best : α × Option σ) :
    let r := states.foldl (fun best y => if best.1 < f y then (f y, some y) else best) best
    best.1 ≤ r.1 ∧ (∀ y ∈ states, f y ≤ r.1) ∧
      (r = best ∨ ∃ y ∈ states, r = (f y, some y) ∧ best.1 < f y) := by
  induction states generalizing best with
  | nil => exact ⟨le_rfl, nofun, .inl rfl⟩
  | cons y states ih =>
    dsimp only at ih ⊢
    rw [List.foldl_cons]
    split_ifs with hlt
    · obtain ⟨hle, hall, hor⟩ := ih (f y, some y)
      refine ⟨hlt.le.trans hle, List.forall_mem_cons.mpr ⟨hle, hall⟩, .inr ?_⟩
      obtain heq | ⟨y', hy', heq, hlt'⟩ := hor
      · exact ⟨y, List.mem_cons_self, heq, hlt⟩
      · exact ⟨y', List.mem_cons_of_mem _ hy', heq, hlt.trans hlt'⟩
    · obtain ⟨hle, hall, hor⟩ := ih best
      refine ⟨hle, List.forall_mem_cons.mpr ⟨(not_lt.mp hlt).trans hle, hall⟩, hor.imp_right ?_⟩
      rintro ⟨y', hy', h⟩
      exact ⟨y', List.mem_cons_of_mem _ hy', h⟩

theorem le_pick (f : σ → α) {states : List σ} {y : σ} (hy : y ∈ states) :
    f y ≤ (pick f states).1 := (foldl_pick f states (0, none)).2.1 y hy

theorem pick_cases (f : σ → α) (states : List σ) :
    pick f states = (0, none) ∨
      ∃ y ∈ states, pick f states = (f y, some y) ∧ 0 < f y :=
  (foldl_pick f states (0, none)).2.2

end Pick

/-! ## The table -/

/-- One column of the table. -/
structure Cell (σ α : Type) where
  prob : σ → α
  path : σ → List σ

section Table

variable [Mul α] (states : List σ) (start : σ → α) (trans : σ → σ → α)

def Cell.first (emit : σ → α) : Cell σ α where
  prob y := start y * emit y
  path y := [y]

variable [Zero α] [LinearOrder α]

def Cell.next (cell : Cell σ α) (emit : σ → α) : Cell σ α where
  prob y := (pick (fun y₀ => cell.prob y₀ * trans y₀ y * emit y) states).1
  path y := ((pick (fun y₀ => cell.prob y₀ * trans y₀ y * emit y) states).2.elim [] cell.path) ++
    [y]

/-- The labelling of the best label of the column, if it has one. -/
def Cell.best (cell : Cell σ α) : List σ := (pick cell.prob states).2.elim [] cell.path

/-- The labels for the observations, with the last of them and the weight. -/
inductive Labelling : List (σ → α) → List σ → σ → α → Prop
  | first (emit : σ → α) (y : σ) : Labelling [emit] [y] y (start y * emit y)
  | next {emits : List (σ → α)} {path : List σ} {y₀ : σ} {w : α} (h : Labelling emits path y₀ w)
      (emit : σ → α) (y : σ) :
      Labelling (emits ++ [emit]) (path ++ [y]) y (w * trans y₀ y * emit y)

/-- The observations have a labelling whose weight is not zero. -/
def Possible (emits : List (σ → α)) : Prop :=
    ∃ path y w, Labelling start trans emits path y w ∧ 0 < w

end Table

variable {states : List σ} {start : σ → α} {trans : σ → σ → α}

theorem Labelling.length [Mul α] {emits : List (σ → α)} {path : List σ} {y : σ} {w : α}
    (h : Labelling start trans emits path y w) : path.length = emits.length := by
  induction h with
  | first => rfl
  | next _ _ _ ih => rw [List.length_append, List.length_append, ih]; rfl

section Best

variable [CommSemiring α] [LinearOrder α]

/-- No labelling beats the weight of the column, and one attains it where it is not zero. -/
structure Cell.IsBest (start : σ → α) (trans : σ → σ → α) (cell : Cell σ α)
    (emits : List (σ → α)) : Prop where
  le : ∀ path y w, Labelling start trans emits path y w → w ≤ cell.prob y
  attained : ∀ y, 0 < cell.prob y → Labelling start trans emits (cell.path y) y (cell.prob y)

variable {cell : Cell σ α} {emits : List (σ → α)}

variable (start trans) in
theorem isBest_first (emit : σ → α) : (Cell.first start emit).IsBest start trans [emit] where
  le := by
    intro path y w h
    generalize hemits : [emit] = emits at h
    cases h with
    | first =>
      obtain rfl := (List.cons.inj hemits).1
      exact le_rfl
    | next h =>
      have hlength := congrArg List.length hemits
      cases h <;> simp at hlength
  attained y _ := .first emit y

variable [CanonicallyOrderedAdd α]

theorem Cell.IsBest.next (hall : ∀ y, y ∈ states) (h : cell.IsBest start trans emits)
    (hne : emits ≠ []) (emit : σ → α) :
    (cell.next states trans emit).IsBest start trans (emits ++ [emit]) where
  le := by
    intro path y w hlabel
    generalize hemits : emits ++ [emit] = emits' at hlabel
    cases hlabel with
    | first =>
      cases emits with
      | nil => exact absurd rfl hne
      | cons => simp at hemits
    | @next emits₀ path₀ y₀ w₀ hlabel emit₀ y =>
      obtain ⟨rfl, hemit⟩ := List.append_inj' hemits rfl
      obtain rfl := (List.cons.inj hemit).1
      have hw := h.le _ _ _ hlabel
      calc w₀ * trans y₀ y * emit y ≤ cell.prob y₀ * trans y₀ y * emit y := by gcongr
        _ ≤ _ := le_pick (fun y₀ => cell.prob y₀ * trans y₀ y * emit y) (hall y₀)
  attained := by
    intro y hpos
    dsimp only [Cell.next] at hpos ⊢
    obtain hnone | ⟨y₀, -, hsome, hprob⟩ :=
      pick_cases (fun y₀ => cell.prob y₀ * trans y₀ y * emit y) states
    · rw [hnone] at hpos
      exact absurd hpos (lt_irrefl _)
    · rw [hsome]
      have hpos₀ : 0 < cell.prob y₀ := pos_iff_ne_zero.mpr fun hzero => by
        rw [hzero, zero_mul, zero_mul] at hprob
        exact lt_irrefl _ hprob
      exact .next (h.attained y₀ hpos₀) emit y

theorem Cell.IsBest.foldl (hall : ∀ y, y ∈ states) (h : cell.IsBest start trans emits)
    (hne : emits ≠ []) (rest : List (σ → α)) :
    (rest.foldl (Cell.next states trans) cell).IsBest start trans (emits ++ rest) := by
  induction rest generalizing cell emits with
  | nil => rwa [List.append_nil]
  | cons emit rest ih =>
    have hnext :=
      ih (h.next hall hne emit) (List.append_ne_nil_of_right_ne_nil _ (List.cons_ne_nil _ _))
    rwa [List.append_assoc] at hnext

omit [CanonicallyOrderedAdd α] in
/-- The best labelling, if one is possible. -/
theorem Cell.IsBest.best (hall : ∀ y, y ∈ states) (h : cell.IsBest start trans emits) :
    (∃ y w, Labelling start trans emits (cell.best states) y w ∧ 0 < w ∧
      ∀ path y' w', Labelling start trans emits path y' w' → w' ≤ w) ∨
    cell.best states = [] ∧ ¬Possible start trans emits := by
  rw [Cell.best]
  obtain hnone | ⟨y, -, hsome, hprob⟩ := pick_cases cell.prob states
  · refine .inr ⟨by rw [hnone]; rfl, ?_⟩
    rintro ⟨path, y, w, hlabel, hpos⟩
    have hle := (h.le _ _ _ hlabel).trans (le_pick cell.prob (hall y))
    rw [hnone] at hle
    exact hle.not_gt hpos
  · refine .inl ⟨y, _, by rw [hsome]; exact h.attained y hprob, hprob, fun path y' w' hlabel => ?_⟩
    have hle := (h.le _ _ _ hlabel).trans (le_pick cell.prob (hall y'))
    rwa [hsome] at hle

end Best

end ISearch.Viterbi
