import ISearch.Lib.SortedList
import Mathlib.Data.List.Sort

/-!
# Set algorithms on sorted ranges

`std::sort`, `std::set_union`, `std::set_intersection` and `std::set_difference` on ranges whose
elements are compared by a key. On ranges without repeated keys the results are again sorted
without repetition, and their keys are the union, intersection and difference of the keys.
-/

namespace ISearch

open scoped List

variable {α κ : Type}

section Algorithms

variable [LinearOrder κ] (key : α → κ)

/-- `std::sort`. -/
def sortBy (l : List α) : List α := l.insertionSort fun a b => key a ≤ key b

/-- `std::set_union`: equal elements are taken from the first range. -/
def setUnion : List α → List α → List α
  | [], bs => bs
  | as, [] => as
  | a :: as, b :: bs =>
    if key a < key b then a :: setUnion as (b :: bs)
    else if key b < key a then b :: setUnion (a :: as) bs
    else a :: setUnion as bs
termination_by as bs => as.length + bs.length

/-- `std::set_intersection`: elements are taken from the first range. -/
def setIntersection : List α → List α → List α
  | [], _ => []
  | _, [] => []
  | a :: as, b :: bs =>
    if key a < key b then setIntersection as (b :: bs)
    else if key b < key a then setIntersection (a :: as) bs
    else a :: setIntersection as bs
termination_by as bs => as.length + bs.length

/-- `std::set_difference`. -/
def setDifference : List α → List α → List α
  | [], _ => []
  | as, [] => as
  | a :: as, b :: bs =>
    if key a < key b then a :: setDifference as (b :: bs)
    else if key b < key a then setDifference (a :: as) bs
    else setDifference as bs
termination_by as bs => as.length + bs.length

end Algorithms

/-- The keys of a range. -/
def keySet (key : α → κ) (l : List α) : Set κ := {k | ∃ x ∈ l, key x = k}

section

variable {key : α → κ}

@[simp] theorem keySet_nil : keySet key [] = ∅ := by
  ext k
  simp [keySet]

@[simp] theorem keySet_cons (a : α) (l : List α) :
    keySet key (a :: l) = insert (key a) (keySet key l) := by
  ext k
  simp [keySet, eq_comm]

theorem keySet_eq_empty {l : List α} : keySet key l = ∅ ↔ l = [] := by
  cases l with
  | nil => simp
  | cons x l =>
    rw [keySet_cons]
    simp [(Set.insert_nonempty _ _).ne_empty]

end

variable [LinearOrder κ] {key : α → κ}

theorem SortedBy.cons_iff_keySet {a : α} {l : List α} :
    SortedBy key (a :: l) ↔ (∀ k ∈ keySet key l, key a < k) ∧ SortedBy key l := by
  rw [SortedBy.cons_iff]
  refine and_congr_left fun _ => ⟨?_, fun h y hy => h (key y) ⟨y, hy, rfl⟩⟩
  rintro h k ⟨y, hy, rfl⟩
  exact h y hy

theorem SortedBy.nodup_keys {l : List α} (h : SortedBy key l) : (l.map key).Nodup := by
  rw [List.nodup_iff_pairwise_ne, List.pairwise_map]
  exact h.imp fun hlt => hlt.ne

theorem keySet_sortBy (l : List α) : keySet key (sortBy key l) = keySet key l := by
  ext k
  simp [sortBy, keySet]

theorem pairwise_sortBy (l : List α) : (sortBy key l).Pairwise fun a b => key a ≤ key b := by
  have : Std.Total fun a b : α => key a ≤ key b := ⟨fun a b => le_total _ _⟩
  have : IsTrans α fun a b => key a ≤ key b := ⟨fun a b c => le_trans⟩
  exact List.pairwise_insertionSort _ l

theorem sortBy_perm (l : List α) : sortBy key l ~ l := List.perm_insertionSort _ l

/-- Where the key tells the elements apart, a list has only one order. -/
theorem eq_sortBy {s l : List α} (hp : s ~ l) (hs : s.Pairwise fun a b => key a ≤ key b)
    (hinj : ∀ x ∈ l, ∀ y ∈ l, key x = key y → x = y) : s = sortBy key l := by
  refine List.Perm.eq_of_pairwise (fun x y hx hy hxy hyx => ?_) hs (pairwise_sortBy l)
    (hp.trans (sortBy_perm l).symm)
  exact hinj x (hp.mem_iff.mp hx) y ((sortBy_perm l).mem_iff.mp hy) (hxy.antisymm hyx)

theorem sortedBy_sortBy {l : List α} (h : (l.map key).Nodup) : SortedBy key (sortBy key l) := by
  have hne : (sortBy key l).Pairwise fun a b => key a ≠ key b := by
    have hperm : (sortBy key l).map key ~ l.map key := (List.perm_insertionSort _ l).map key
    exact List.pairwise_map.mp (hperm.nodup_iff.mpr h)
  exact ((pairwise_sortBy l).and hne).imp fun h => lt_of_le_of_ne h.1 h.2

theorem keySet_setUnion (as bs : List α) :
    keySet key (setUnion key as bs) = keySet key as ∪ keySet key bs := by
  fun_induction setUnion key as bs with
  | case1 bs => simp
  | case2 as => simp
  | case3 a as b bs h ih => rw [keySet_cons, ih, keySet_cons a, Set.insert_union]
  | case4 a as b bs h h' ih =>
    rw [keySet_cons, ih, keySet_cons b, Set.union_insert]
  | case5 a as b bs h h' ih =>
    have heq := eq_of_le_of_not_lt (not_lt.mp h') h
    rw [keySet_cons, ih, keySet_cons, keySet_cons, heq, Set.insert_union, Set.union_insert,
      Set.insert_idem]

theorem sortedBy_setUnion {as bs : List α} (ha : SortedBy key as) (hb : SortedBy key bs) :
    SortedBy key (setUnion key as bs) := by
  fun_induction setUnion key as bs with
  | case1 bs => exact hb
  | case2 as => exact ha
  | case3 a as b bs h ih =>
    obtain ⟨ha1, ha2⟩ := SortedBy.cons_iff_keySet.mp ha
    obtain ⟨hb1, hb2⟩ := SortedBy.cons_iff_keySet.mp hb
    refine SortedBy.cons_iff_keySet.mpr ⟨?_, ih ha2 hb⟩
    rw [keySet_setUnion, keySet_cons]
    rintro k (hk | rfl | hk)
    · exact ha1 k hk
    · exact h
    · exact h.trans (hb1 k hk)
  | case4 a as b bs h h' ih =>
    obtain ⟨ha1, ha2⟩ := SortedBy.cons_iff_keySet.mp ha
    obtain ⟨hb1, hb2⟩ := SortedBy.cons_iff_keySet.mp hb
    refine SortedBy.cons_iff_keySet.mpr ⟨?_, ih ha hb2⟩
    rw [keySet_setUnion, keySet_cons]
    rintro k ((rfl | hk) | hk)
    · exact h'
    · exact h'.trans (ha1 k hk)
    · exact hb1 k hk
  | case5 a as b bs h h' ih =>
    have heq := eq_of_le_of_not_lt (not_lt.mp h') h
    obtain ⟨ha1, ha2⟩ := SortedBy.cons_iff_keySet.mp ha
    obtain ⟨hb1, hb2⟩ := SortedBy.cons_iff_keySet.mp hb
    refine SortedBy.cons_iff_keySet.mpr ⟨?_, ih ha2 hb2⟩
    rw [keySet_setUnion]
    rintro k (hk | hk)
    · exact ha1 k hk
    · exact heq ▸ hb1 k hk

/-- The head of a sorted range is not among the keys of a range that starts above it. -/
theorem SortedBy.notMem_of_lt {b : α} {bs : List α} (hb : SortedBy key (b :: bs)) {k : κ}
    (h : k < key b) : k ∉ keySet key (b :: bs) := by
  rw [keySet_cons]
  rintro (rfl | hk)
  · exact lt_irrefl _ h
  · exact lt_asymm h ((SortedBy.cons_iff_keySet.mp hb).1 k hk)

theorem keySet_setIntersection {as bs : List α} (ha : SortedBy key as) (hb : SortedBy key bs) :
    keySet key (setIntersection key as bs) = keySet key as ∩ keySet key bs := by
  fun_induction setIntersection key as bs with
  | case1 bs => simp
  | case2 as => simp
  | case3 a as b bs h ih =>
    rw [ih (SortedBy.cons_iff.mp ha).2 hb, keySet_cons a,
      Set.insert_inter_of_notMem (hb.notMem_of_lt h)]
  | case4 a as b bs h h' ih =>
    rw [ih ha (SortedBy.cons_iff.mp hb).2, keySet_cons b,
      Set.inter_insert_of_notMem (ha.notMem_of_lt h')]
  | case5 a as b bs h h' ih =>
    have heq := eq_of_le_of_not_lt (not_lt.mp h') h
    rw [keySet_cons, ih (SortedBy.cons_iff.mp ha).2 (SortedBy.cons_iff.mp hb).2, keySet_cons,
      keySet_cons, heq, ← Set.insert_inter_distrib]

theorem sublist_setIntersection (as bs : List α) : setIntersection key as bs <+ as := by
  fun_induction setIntersection key as bs with
  | case1 bs => exact List.Sublist.refl _
  | case2 as => exact List.nil_sublist _
  | case3 a as b bs h ih => exact ih.cons a
  | case4 a as b bs h h' ih => exact ih
  | case5 a as b bs h h' ih => exact ih.cons_cons a

theorem keySet_setDifference {as bs : List α} (ha : SortedBy key as) (hb : SortedBy key bs) :
    keySet key (setDifference key as bs) = keySet key as \ keySet key bs := by
  fun_induction setDifference key as bs with
  | case1 bs => simp
  | case2 as => simp
  | case3 a as b bs h ih =>
    rw [keySet_cons, ih (SortedBy.cons_iff.mp ha).2 hb, keySet_cons a,
      Set.insert_sdiff_of_notMem _ (hb.notMem_of_lt h)]
  | case4 a as b bs h h' ih =>
    rw [ih ha (SortedBy.cons_iff.mp hb).2, keySet_cons b,
      Set.sdiff_insert_of_notMem (ha.notMem_of_lt h')]
  | case5 a as b bs h h' ih =>
    have heq := eq_of_le_of_not_lt (not_lt.mp h') h
    obtain ⟨ha1, ha2⟩ := SortedBy.cons_iff_keySet.mp ha
    have hnot : key b ∉ keySet key as := fun hk => absurd (ha1 _ hk) (heq ▸ lt_irrefl _)
    rw [ih ha2 (SortedBy.cons_iff.mp hb).2, keySet_cons, keySet_cons, heq, Set.insert_sdiff_of_mem,
      Set.sdiff_insert_of_notMem hnot]
    exact Set.mem_insert ..

theorem sublist_setDifference (as bs : List α) : setDifference key as bs <+ as := by
  fun_induction setDifference key as bs with
  | case1 bs => exact List.Sublist.refl _
  | case2 as => exact List.Sublist.refl _
  | case3 a as b bs h ih => exact ih.cons_cons a
  | case4 a as b bs h h' ih => exact ih
  | case5 a as b bs h h' ih => exact ih.cons a

end ISearch
