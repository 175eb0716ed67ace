import Mathlib.Data.List.Perm.Basic
import ISearch.Lib.SetAlgo

/-!
# Binary heaps in lists

`siftDown` moves a hole at an index down to the place of an element, past the greater child of each
node. `stop` decides whether the element may stand above a child. Where it only stops above children
that are not greater, the result is a heap again (`heapFrom_siftDown`).

`Smallest` says that some elements of a list are those with the least ranks; a heap keeps them while
the list is read (`Smallest.replace`, `Smallest.skip`).
-/

namespace ISearch.Heap

open List

variable {α β : Type}

/-- The indices `n - 1` to `0` are sifted down, in this order. -/
def build (sift : List α → Nat → List α) : Nat → List α → List α
  | 0, v => v
  | n + 1, v => build sift n (sift v n)

/-- Every call that `build` makes stops right. -/
def BuildsRight (sift : List α → Nat → List α) (right : List α → Nat → Prop) :
    Nat → List α → Prop
  | 0, _ => True
  | n + 1, v => right v n ∧ BuildsRight sift right n (sift v n)

instance BuildsRight.instDecidable {sift : List α → Nat → List α} {right : List α → Nat → Prop}
    [∀ v i, Decidable (right v i)] : (n : Nat) → (v : List α) →
    Decidable (BuildsRight sift right n v)
  | 0, _ => isTrue trivial
  | n + 1, v =>
    have := @instDecidable sift right _ n (sift v n)
    inferInstanceAs (Decidable (right v n ∧ BuildsRight sift right n (sift v n)))

variable [LinearOrder β] (r : α → β)

/-- Each node from `i` on is at least as great as its children. -/
def HeapFrom (i : Nat) (v : List α) : Prop :=
  ∀ j c x y, i ≤ j → (c = 2 * j + 1 ∨ c = 2 * j + 2) → v[j]? = some x → v[c]? = some y → r y ≤ r x

variable {parent : α} {v : List α} {index i n : Nat} {r}

/-! ## Holes -/

/-- The nodes are in order but for the one at the hole; above the hole, `parent` and the children of
the hole are in order. -/
structure HoleAt (r : α → β) (i : Nat) (parent : α) (v : List α) (index : Nat) : Prop where
  edge : ∀ j c x y, i ≤ j → j ≠ index → (c = 2 * j + 1 ∨ c = 2 * j + 2) → v[j]? = some x →
    v[c]? = some y → r y ≤ r x
  grand : ∀ j c x y, i ≤ j → (index = 2 * j + 1 ∨ index = 2 * j + 2) →
    (c = 2 * index + 1 ∨ c = 2 * index + 2) → v[j]? = some x → v[c]? = some y → r y ≤ r x
  above : ∀ j x, i ≤ j → (index = 2 * j + 1 ∨ index = 2 * j + 2) → v[j]? = some x →
    r parent ≤ r x

/-- The element may stand in the hole. -/
theorem HoleAt.finish (h : HoleAt r i parent v index)
    (hbelow : ∀ c y, (c = 2 * index + 1 ∨ c = 2 * index + 2) → v[c]? = some y → r y ≤ r parent) :
    HeapFrom r i (v.set index parent) := by
  intro j c x y hj hc hx hy
  rw [List.getElem?_set] at hx hy
  by_cases hji : index = j
  · subst hji
    rw [if_pos rfl] at hx
    rw [if_neg (by omega)] at hy
    split at hx
    · cases hx
      exact hbelow c y hc hy
    · cases hx
  · rw [if_neg hji] at hx
    by_cases hci : index = c
    · subst hci
      rw [if_pos rfl] at hy
      split at hy
      · cases hy
        exact h.above j x hj hc hx
      · cases hy
    · rw [if_neg hci] at hy
      exact h.edge j c x y hj (Ne.symm hji) hc hx hy

/-- The greater child moves up into the hole. -/
theorem HoleAt.move (h : HoleAt r i parent v index) {m : α} {child : Nat}
    (hindex : i ≤ index) (hchild : child = 2 * index + 1 ∨ child = 2 * index + 2)
    (hm : v[child]? = some m)
    (hmax : ∀ c y, (c = 2 * index + 1 ∨ c = 2 * index + 2) → v[c]? = some y → r y ≤ r m)
    (hle : r parent ≤ r m) : HoleAt r i parent (v.set index m) child where
  edge := by
    intro j c x y hj hne hc hx hy
    rw [List.getElem?_set] at hx hy
    by_cases hji : index = j
    · subst hji
      rw [if_pos rfl] at hx
      rw [if_neg (by omega)] at hy
      split at hx
      · cases hx
        exact hmax c y hc hy
      · cases hx
    · rw [if_neg hji] at hx
      by_cases hci : index = c
      · subst hci
        rw [if_pos rfl] at hy
        split at hy
        · cases hy
          exact h.grand j child x _ hj hc hchild hx hm
        · cases hy
      · rw [if_neg hci] at hy
        exact h.edge j c x y hj (Ne.symm hji) hc hx hy
  grand := by
    intro j c x y hj hjc hc hx hy
    have hji : j = index := by omega
    subst hji
    rw [List.getElem?_set, if_pos rfl] at hx
    rw [List.getElem?_set, if_neg (by omega)] at hy
    split at hx
    · cases hx
      exact h.edge child c _ y (by omega) (by omega) hc hm hy
    · cases hx
  above := by
    intro j x hj hjc hx
    have hji : j = index := by omega
    subst hji
    rw [List.getElem?_set, if_pos rfl] at hx
    split at hx
    · cases hx
      exact hle
    · cases hx

theorem heapFrom_build {sift : List α → Nat → List α} {right : List α → Nat → Prop}
    (hsift : ∀ v i, i < v.length → HeapFrom r (i + 1) v → right v i → HeapFrom r i (sift v i))
    (hperm : ∀ v i, i < v.length → (sift v i).Perm v) (hn : n ≤ v.length)
    (h : HeapFrom r n v) (hright : BuildsRight sift right n v) :
    HeapFrom r 0 (build sift n v) ∧ (build sift n v).Perm v := by
  induction n generalizing v with
  | zero => exact ⟨h, List.Perm.refl v⟩
  | succ n ih =>
    have hp := hperm v n hn
    obtain ⟨hheap, hperm'⟩ := ih (by rw [hp.length_eq]; omega) (hsift v n hn h hright.1) hright.2
    exact ⟨hheap, hperm'.trans hp⟩

/-- A list is a heap from the first index on that has no child. -/
theorem heapFrom_half (h : v.length ≤ 2 * i + 1) : HeapFrom r i v := by
  intro j c x y hj hc _ hy
  rw [List.getElem?_eq_none (by omega)] at hy
  cases hy

/-- The root of a heap is its greatest element. -/
theorem HeapFrom.root_max (h : HeapFrom r 0 v) {m : α} (hm : v[0]? = some m) {j : Nat} {x : α}
    (hx : v[j]? = some x) : r x ≤ r m := by
  induction j using Nat.strong_induction_on generalizing x with
  | h j ih =>
    by_cases hzero : j = 0
    · subst hzero
      rw [hm] at hx
      cases hx
      exact le_rfl
    · have hlt : j < v.length := (List.getElem?_eq_some_iff.mp hx).1
      have hparent : v[(j - 1) / 2]? = some v[(j - 1) / 2] := List.getElem?_eq_getElem (by omega)
      exact (h ((j - 1) / 2) j _ x (Nat.zero_le _) (by omega) hparent hx).trans
        (ih _ (by omega) hparent)

/-! ## Sifting down -/

section Sift

variable [Inhabited α] {less stop : α → α → Bool}

/-- The index of the greater child, where there are two. -/
def greaterChild (less : α → α → Bool) (v : List α) (child : Nat) : Nat :=
  if child + 1 < v.length ∧ less v[child]! v[child + 1]! then child + 1 else child

def siftDown (less stop : α → α → Bool) (parent : α) : Nat → List α → Nat → List α
  | 0, v, index => v.set index parent
  | n + 1, v, index =>
    if 2 * index + 1 < v.length then
      let child := greaterChild less v (2 * index + 1)
      if stop v[child]! parent then v.set index parent
      else siftDown less stop parent n (v.set index v[child]!) child
    else v.set index parent

/-- The way down stops only above a child that is not greater. -/
def StopsRight (r : α → β) (less stop : α → α → Bool) (parent : α) : Nat → List α → Nat → Prop
  | 0, _, _ => True
  | n + 1, v, index =>
    2 * index + 1 < v.length →
      let child := greaterChild less v (2 * index + 1)
      if stop v[child]! parent then r v[child]! ≤ r parent
      else StopsRight r less stop parent n (v.set index v[child]!) child

instance StopsRight.instDecidable : (n : Nat) → (v : List α) → (index : Nat) →
    Decidable (StopsRight r less stop parent n v index)
  | 0, _, _ => isTrue trivial
  | n + 1, v, index =>
    have := instDecidable n (v.set index v[greaterChild less v (2 * index + 1)]!)
      (greaterChild less v (2 * index + 1))
    decidable_of_iff (2 * index + 1 < v.length →
      if stop v[greaterChild less v (2 * index + 1)]! parent then
        r v[greaterChild less v (2 * index + 1)]! ≤ r parent
      else StopsRight r less stop parent n (v.set index v[greaterChild less v (2 * index + 1)]!)
        (greaterChild less v (2 * index + 1))) Iff.rfl

theorem greaterChild_spec (hless : ∀ x y, less x y = true ↔ r x < r y)
    (h : 2 * index + 1 < v.length) :
    ∃ m, v[greaterChild less v (2 * index + 1)]? = some m ∧
      v[greaterChild less v (2 * index + 1)]! = m ∧
      (greaterChild less v (2 * index + 1) = 2 * index + 1 ∨
        greaterChild less v (2 * index + 1) = 2 * index + 2) ∧
      ∀ c y, (c = 2 * index + 1 ∨ c = 2 * index + 2) → v[c]? = some y → r y ≤ r m := by
  have hone : v[2 * index + 1]? = some v[2 * index + 1] := List.getElem?_eq_getElem h
  have hone' : v[2 * index + 1]! = v[2 * index + 1] := getElem!_pos v _ h
  by_cases htwo : 2 * index + 1 + 1 < v.length
  · have hsecond : v[2 * index + 1 + 1]? = some v[2 * index + 1 + 1] :=
      List.getElem?_eq_getElem htwo
    have hsecond' : v[2 * index + 1 + 1]! = v[2 * index + 1 + 1] := getElem!_pos v _ htwo
    by_cases hlt : less v[2 * index + 1]! v[2 * index + 1 + 1]! = true
    · have hgreater : greaterChild less v (2 * index + 1) = 2 * index + 1 + 1 :=
        if_pos ⟨htwo, hlt⟩
      rw [hless, hone', hsecond'] at hlt
      rw [hgreater]
      refine ⟨_, hsecond, hsecond', .inr rfl, ?_⟩
      rintro c y (rfl | rfl) hy
      · rw [hone] at hy
        cases hy
        exact hlt.le
      · rw [hsecond] at hy
        cases hy
        exact le_rfl
    · have hgreater : greaterChild less v (2 * index + 1) = 2 * index + 1 :=
        if_neg fun h => hlt h.2
      rw [hless, hone', hsecond', not_lt] at hlt
      rw [hgreater]
      refine ⟨_, hone, hone', .inl rfl, ?_⟩
      rintro c y (rfl | rfl) hy
      · rw [hone] at hy
        cases hy
        exact le_rfl
      · rw [hsecond] at hy
        cases hy
        exact hlt
  · have hgreater : greaterChild less v (2 * index + 1) = 2 * index + 1 :=
      if_neg fun h => htwo h.1
    rw [hgreater]
    refine ⟨_, hone, hone', .inl rfl, ?_⟩
    rintro c y (rfl | rfl) hy
    · rw [hone] at hy
      cases hy
      exact le_rfl
    · rw [List.getElem?_eq_none (by omega)] at hy
      cases hy

theorem HoleAt.siftDown (hless : ∀ x y, less x y = true ↔ r x < r y)
    (hgo : ∀ x y, stop x y = false → r y ≤ r x) (h : HoleAt r i parent v index)
    (hindex : i ≤ index) (hn : v.length ≤ index + n)
    (hstop : StopsRight r less stop parent n v index) :
    HeapFrom r i (Heap.siftDown less stop parent n v index) := by
  induction n generalizing v index with
  | zero =>
    refine h.finish fun c y hc hy => ?_
    rw [List.getElem?_eq_none (by omega)] at hy
    cases hy
  | succ n ih =>
    rw [Heap.siftDown]
    by_cases hlt : 2 * index + 1 < v.length
    · obtain ⟨m, hm, hm', hchild, hmax⟩ := greaterChild_spec hless hlt
      have hstop := hstop hlt
      rw [if_pos hlt]
      dsimp only at hstop ⊢
      rw [hm'] at hstop ⊢
      split
      · rename_i hs
        rw [if_pos hs] at hstop
        exact h.finish fun c y hc hy => (hmax c y hc hy).trans hstop
      · rename_i hs
        rw [if_neg hs] at hstop
        rw [Bool.not_eq_true] at hs
        exact ih (h.move hindex hchild hm hmax (hgo m parent hs)) (by omega)
          (by rw [length_set]; omega) hstop
    · rw [if_neg hlt]
      refine h.finish fun c y hc hy => ?_
      rw [List.getElem?_eq_none (by omega)] at hy
      cases hy

/-- The node at `i` is sifted down into the heap below it. -/
theorem heapFrom_siftDown (hless : ∀ x y, less x y = true ↔ r x < r y)
    (hgo : ∀ x y, stop x y = false → r y ≤ r x) (h : HeapFrom r (i + 1) v)
    (hn : v.length ≤ i + n) (hstop : StopsRight r less stop parent n v i) :
    HeapFrom r i (siftDown less stop parent n v i) := by
  refine HoleAt.siftDown hless hgo ⟨?_, ?_, ?_⟩ (Nat.le_refl i) hn hstop
  · intro j c x y hj hne hc hx hy
    exact h j c x y (by omega) hc hx hy
  · intro j c x y hj hjc
    omega
  · intro j x hj hjc
    omega

theorem siftDown_perm (n : Nat) (h : index < v.length) :
    (siftDown less stop parent n v index).Perm (v.set index parent) := by
  induction n generalizing v index with
  | zero => exact List.Perm.refl _
  | succ n ih =>
    rw [siftDown]
    split
    · rename_i hlt
      have hchild : greaterChild less v (2 * index + 1) < v.length ∧
          index < greaterChild less v (2 * index + 1) := by
        rw [greaterChild]
        split <;> omega
      dsimp only
      generalize greaterChild less v (2 * index + 1) = child at hchild
      split
      · exact List.Perm.refl _
      · have hswap := @set_set_perm α (v.set index parent) index child
          (by rw [length_set]; exact h) (by rw [length_set]; exact hchild.1)
        rw [getElem_set_self, getElem_set_ne (by omega), set_set] at hswap
        rw [getElem!_pos v child hchild.1]
        exact (ih (by rw [length_set]; exact hchild.1)).trans hswap
    · exact List.Perm.refl _

end Sift

/-- `kept` are elements of `l` with the least ranks. -/
def Smallest (r : α → β) (l kept : List α) : Prop :=
  ∃ rest, l.Perm (kept ++ rest) ∧ ∀ x ∈ kept, ∀ y ∈ rest, r x ≤ r y

theorem Smallest.refl (r : α → β) (l : List α) : Smallest r l l :=
  ⟨[], by rw [append_nil], fun _ _ _ h => absurd h not_mem_nil⟩

theorem Smallest.perm {l kept kept' : List α} (h : Smallest r l kept) (hp : kept.Perm kept') :
    Smallest r l kept' := by
  obtain ⟨rest, hl, hle⟩ := h
  exact ⟨rest, hl.trans (hp.append_right rest), fun x hx => hle x (hp.mem_iff.mpr hx)⟩

/-- An element that is not below the greatest kept one is left out. -/
theorem Smallest.skip {l kept : List α} (h : Smallest r l kept) {x : α}
    (hx : ∀ y ∈ kept, r y ≤ r x) : Smallest r (l ++ [x]) kept := by
  obtain ⟨rest, hl, hle⟩ := h
  refine ⟨rest ++ [x], by rw [← append_assoc]; exact hl.append_right [x], fun y hy z hz => ?_⟩
  rcases mem_append.mp hz with hz | hz
  · exact hle y hy z hz
  · rw [mem_singleton.mp hz]
    exact hx y hy

/-- An element below the greatest kept one takes its place. -/
theorem Smallest.replace {l kept : List α} {m x : α} (h : Smallest r l (m :: kept))
    (hmax : ∀ y ∈ kept, r y ≤ r m) (hx : r x < r m) : Smallest r (l ++ [x]) (x :: kept) := by
  obtain ⟨rest, hl, hle⟩ := h
  refine ⟨m :: rest, ?_, fun y hy z hz => ?_⟩
  · calc (l ++ [x]).Perm (m :: kept ++ rest ++ [x]) := hl.append_right [x]
      _ |>.Perm (x :: (m :: (kept ++ rest))) := perm_append_singleton x _
      _ |>.Perm (x :: (kept ++ m :: rest)) := (perm_middle.symm).cons x
  · have hym : r y ≤ r m := by
      rcases mem_cons.mp hy with rfl | hy
      · exact hx.le
      · exact hmax y hy
    rcases mem_cons.mp hz with rfl | hz
    · exact hym
    · exact hym.trans (hle m mem_cons_self z hz)

/-- The least elements of a list in order are the start of the list in order. -/
theorem Smallest.sort_eq {l kept : List α} (h : Smallest r l kept)
    (hinj : ∀ x ∈ l, ∀ y ∈ l, r x = r y → x = y) :
    sortBy r kept = (sortBy r l).take kept.length := by
  obtain ⟨rest, hl, hle⟩ := h
  have hperm : (sortBy r kept ++ sortBy r rest).Perm l :=
    ((sortBy_perm kept).append (sortBy_perm rest)).trans hl.symm
  have hsorted : (sortBy r kept ++ sortBy r rest).Pairwise fun x y => r x ≤ r y := by
    refine pairwise_append.mpr ⟨pairwise_sortBy kept, pairwise_sortBy rest, ?_⟩
    intro x hx y hy
    exact hle x ((sortBy_perm kept).mem_iff.mp hx) y ((sortBy_perm rest).mem_iff.mp hy)
  rw [← eq_sortBy hperm hsorted hinj, take_left' (sortBy_perm kept).length_eq]

end ISearch.Heap
