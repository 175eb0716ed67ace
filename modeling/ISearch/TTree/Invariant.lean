import ISearch.TTree.Defs
import ISearch.Lib.SortedList
import Mathlib.Tactic.Linarith

/-!
# The invariant of the T-tree

The order of a T-tree is a fact about its in-order item list, which rotations do not change;
occupancy and balance are facts about the nodes. `TtreeNode.Valid` states the invariant node by
node, `TtreeNode.Shape` is its part without the order, and `valid_iff` splits the former into the
latter and a sorted item list, the form in which the operations are verified.
-/

namespace ISearch.TTree

open List

variable {K R : Type} [LinearOrder K] {convert : R → K} {pfComp : K → R → Int64}

/-- The comparator result, as the `int` that holds it, decides a strict total order of the keys,
where a record is compared by the key `convert` reads out of it. -/
structure OrdersAsInt (pfComp : K → R → Int64) (convert : R → K) : Prop where
  neg_iff : ∀ k r, iDiff pfComp k r < 0 ↔ k < convert r
  zero_iff : ∀ k r, iDiff pfComp k r = 0 ↔ k = convert r

namespace OrdersAsInt

theorem pos_iff (H : OrdersAsInt pfComp convert) (k : K) (r : R) :
    iDiff pfComp k r > 0 ↔ convert r < k := by
  have hn := H.neg_iff k r
  have hz := H.zero_iff k r
  rw [Int32.lt_iff_toInt_lt] at hn
  rw [← Int32.toInt_inj] at hz
  rw [gt_iff_lt, Int32.lt_iff_toInt_lt]
  constructor
  · intro h
    refine lt_of_not_ge fun hle => ?_
    rcases lt_or_eq_of_le hle with hlt | heq
    · have := hn.mpr hlt; omega
    · have := hz.mpr heq; omega
  · intro h
    have h1 : ¬ (iDiff pfComp k r).toInt < Int32.toInt 0 := fun h1 => lt_asymm h (hn.mp h1)
    have h2 : ¬ (iDiff pfComp k r).toInt = Int32.toInt 0 := fun h2 => h.ne' (hz.mp h2)
    omega

theorem nonpos_iff (H : OrdersAsInt pfComp convert) (k : K) (r : R) :
    iDiff pfComp k r ≤ 0 ↔ k ≤ convert r := by
  have h := H.pos_iff k r
  rw [gt_iff_lt, Int32.lt_iff_toInt_lt] at h
  rw [Int32.le_iff_toInt_le, ← not_lt, ← not_lt, h]

theorem nonneg_iff (H : OrdersAsInt pfComp convert) (k : K) (r : R) :
    iDiff pfComp k r ≥ 0 ↔ convert r ≤ k := by
  have h := H.neg_iff k r
  rw [Int32.lt_iff_toInt_lt] at h
  rw [ge_iff_le, Int32.le_iff_toInt_le, ← not_lt, ← not_lt, h]

end OrdersAsInt

namespace TtreeNode

/-- The items in order. -/
def toList : TtreeNode R → List R
  | nil => []
  | node hLeft hRight _ ahItems => hLeft.toList ++ ahItems ++ hRight.toList

/-- Occupancy and balance of every node. -/
def Shape : TtreeNode R → Prop
  | nil => True
  | node hLeft hRight chBalance ahItems =>
    (1 ≤ ahItems.length ∧ ahItems.length ≤ pageSize) ∧
    (chBalance = hRight.height - hLeft.height ∧ -1 ≤ chBalance ∧ chBalance ≤ 1) ∧
    hLeft.Shape ∧ hRight.Shape

/-- What the code maintains of one node, given its subtrees. -/
structure NodeOk (convert : R → K) (hLeft hRight : TtreeNode R) (chBalance : Int)
    (ahItems : List R) : Prop where
  occupancy : 1 ≤ ahItems.length ∧ ahItems.length ≤ pageSize
  ordered : SortedBy convert ahItems
  left_below : ∀ x ∈ hLeft.toList, ∀ first ∈ ahItems.head?, convert x < convert first
  right_above : ∀ x ∈ hRight.toList, ∀ last ∈ ahItems.getLast?, convert last < convert x
  balance : chBalance = hRight.height - hLeft.height
  range : chBalance = -1 ∨ chBalance = 0 ∨ chBalance = 1

/-- The invariant at every node of the tree. -/
def Valid (convert : R → K) : TtreeNode R → Prop
  | nil => True
  | node hLeft hRight chBalance ahItems =>
    NodeOk convert hLeft hRight chBalance ahItems ∧ hLeft.Valid convert ∧ hRight.Valid convert

@[simp] theorem toList_nil : (nil : TtreeNode R).toList = [] := rfl

@[simp] theorem toList_node (l r : TtreeNode R) (b : Int) (items : List R) :
    (node l r b items).toList = l.toList ++ items ++ r.toList := rfl

@[simp] theorem height_nil : (nil : TtreeNode R).height = 0 := rfl

@[simp] theorem height_node (l r : TtreeNode R) (b : Int) (items : List R) :
    (node l r b items).height = max l.height r.height + 1 := rfl

theorem isNil_iff {t : TtreeNode R} : t.isNil = true ↔ t = nil := by
  cases t <;> simp [isNil]

theorem height_alloc (r : R) : (alloc r).height = 0 + 1 := rfl

theorem shape_alloc (r : R) : (alloc r).Shape := by
  simp [alloc, Shape, pageSize]

theorem Shape.ends {l r : TtreeNode R} {b : Int} {items : List R}
    (h : (node l r b items).Shape) :
    ∃ first last, items.head? = some first ∧ items.getLast? = some last := by
  have hne : items ≠ [] := by
    rintro rfl
    have := h.1.1
    simp at this
  exact ⟨_, _, List.head?_eq_some_head hne, List.getLast?_eq_some_getLast hne⟩

/-- A sorted in-order list puts the subtrees on either side of the page. -/
theorem sorted_node_iff {l r : TtreeNode R} {items : List R} {first last : R}
    (hf : items.head? = some first) (hl : items.getLast? = some last) :
    SortedBy convert (l.toList ++ items ++ r.toList) ↔
      SortedBy convert l.toList ∧ SortedBy convert items ∧ SortedBy convert r.toList ∧
      (∀ x ∈ l.toList, convert x < convert first) ∧
      ∀ x ∈ r.toList, convert last < convert x := by
  have hfm : first ∈ items := mem_of_mem_head? hf
  have hlm : last ∈ items := mem_of_mem_getLast? hl
  rw [SortedBy.append_iff, SortedBy.append_iff]
  constructor
  · rintro ⟨⟨h1, h2, h3⟩, h4, h5⟩
    exact ⟨h1, h2, h4, fun x hx => h3 x hx first hfm,
      fun x hx => h5 last (mem_append_right _ hlm) x hx⟩
  · rintro ⟨h1, h2, h3, h4, h5⟩
    have h6 : ∀ x ∈ items, ∀ y ∈ r.toList, convert x < convert y := fun x hx y hy =>
      lt_of_le_of_lt (h2.le_getLast hl hx) (h5 y hy)
    refine ⟨⟨h1, h2, fun x hx y hy => lt_of_lt_of_le (h4 x hx) (h2.head_le hf hy)⟩, h3, ?_⟩
    intro x hx y hy
    rcases mem_append.mp hx with hx | hx
    · exact (h4 x hx).trans (h6 first hfm y hy)
    · exact h6 x hx y hy

theorem valid_iff {t : TtreeNode R} :
    t.Valid convert ↔ t.Shape ∧ SortedBy convert t.toList := by
  induction t with
  | nil => simp [Valid, Shape, SortedBy.nil]
  | node l r b items ihl ihr =>
    constructor
    · rintro ⟨h, hl, hr⟩
      have hsl := ihl.mp hl
      have hsr := ihr.mp hr
      have hsh : (node l r b items).Shape := by
        refine ⟨h.occupancy, ⟨h.balance, ?_, ?_⟩, hsl.1, hsr.1⟩ <;>
          rcases h.range with hb | hb | hb <;> omega
      obtain ⟨first, last, hf, hla⟩ := hsh.ends
      refine ⟨hsh, (sorted_node_iff hf hla).mpr ⟨hsl.2, h.ordered, hsr.2, ?_, ?_⟩⟩
      · exact fun x hx => h.left_below x hx first hf
      · exact fun x hx => h.right_above x hx last hla
    · rintro ⟨hsh, hs⟩
      obtain ⟨first, last, hf, hla⟩ := hsh.ends
      obtain ⟨h1, h2, h3, h4, h5⟩ := (sorted_node_iff hf hla).mp hs
      obtain ⟨hocc, ⟨hbal, hlo, hhi⟩, hsl, hsr⟩ := hsh
      refine ⟨⟨hocc, h2, ?_, ?_, hbal, by omega⟩, ihl.mpr ⟨hsl, h1⟩, ihr.mpr ⟨hsr, h3⟩⟩
      · intro x hx f hf'
        obtain rfl : first = f := by simpa [hf] using hf'
        exact h4 x hx
      · intro x hx f hf'
        obtain rfl : last = f := by simpa [hla] using hf'
        exact h5 x hx

theorem Shape.rightmost {t : TtreeNode R} (h : t.Shape) (hne : t ≠ nil) :
    ∃ x a, t.rightmost? = some x ∧ t.toList = a ++ [x] := by
  induction t with
  | nil => exact absurd rfl hne
  | node l r b items _ ihr =>
    cases r with
    | nil =>
      obtain ⟨_, last, _, hl⟩ := h.ends
      refine ⟨last, l.toList ++ items.dropLast, by simpa [rightmost?] using hl, ?_⟩
      have hd : items.dropLast ++ [last] = items := dropLast_append_getLast? _ hl
      simp [hd]
    | node rl rr rb ritems =>
      obtain ⟨x, a, hx, ha⟩ := ihr h.2.2.2 (by simp)
      exact ⟨x, l.toList ++ items ++ a, by simpa [rightmost?] using hx, by simp_all⟩

theorem Shape.leftmost {t : TtreeNode R} (h : t.Shape) (hne : t ≠ nil) :
    ∃ x a, t.leftmost? = some x ∧ t.toList = x :: a := by
  induction t with
  | nil => exact absurd rfl hne
  | node l r b items ihl _ =>
    cases l with
    | nil =>
      obtain ⟨first, _, hf, _⟩ := h.ends
      refine ⟨first, items.tail ++ r.toList, by simpa [leftmost?] using hf, ?_⟩
      have hd : first :: items.tail = items := cons_head?_tail hf
      simp [← cons_append, hd]
    | node ll lr lb litems =>
      obtain ⟨x, a, hx, ha⟩ := ihl h.2.2.1 (by simp)
      exact ⟨x, a ++ items ++ r.toList, by simpa [leftmost?] using hx, by simp_all⟩

end TtreeNode

/-- The binary search over a sorted page whose end items enclose the key finds an equal item or
the position that splits the page at the key. -/
theorem binSearch_spec (H : OrdersAsInt pfComp convert) {k : K} {items : List R}
    (hs : SortedBy convert items) {iLeft iRight : Nat} (h1 : 1 ≤ iLeft) (h2 : iLeft ≤ iRight)
    (hr : iRight < items.length) (hlo : ∀ y ∈ items.take iLeft, convert y < k)
    (hhi : ∀ y ∈ items.drop iRight, k < convert y) :
    (∃ i, ∃ hi : i < items.length,
      binSearch pfComp k items iLeft iRight = some (.inl i) ∧ k = convert items[i]) ∨
    ∃ p, binSearch pfComp k items iLeft iRight = some (.inr p) ∧ 1 ≤ p ∧ p < items.length ∧
      (∀ y ∈ items.take p, convert y < k) ∧ ∀ y ∈ items.drop p, k < convert y := by
  fun_induction binSearch pfComp k items iLeft iRight with
  | case1 iLeft iRight h i hnone =>
    have : i < items.length := by omega
    simp [this] at hnone
  | case2 iLeft iRight h i hItem hsome hz =>
    obtain ⟨hi, rfl⟩ := List.getElem?_eq_some_iff.mp hsome
    exact .inl ⟨i, hi, rfl, (H.zero_iff _ _).mp hz⟩
  | case3 iLeft iRight h i hItem hsome hz hpos ih =>
    obtain ⟨hi, rfl⟩ := List.getElem?_eq_some_iff.mp hsome
    refine ih (by omega) (by omega) hr (fun y hy => ?_) hhi
    obtain ⟨j, hj, rfl⟩ := mem_iff_getElem.mp hy
    simp only [length_take] at hj
    refine lt_of_le_of_lt ?_ ((H.pos_iff _ _).mp hpos)
    simpa using hs.getElem_le (by omega : j ≤ i) hi
  | case4 iLeft iRight h i hItem hsome hz hpos ih =>
    obtain ⟨hi, rfl⟩ := List.getElem?_eq_some_iff.mp hsome
    refine ih h1 (by omega) (by omega) hlo (fun y hy => ?_)
    obtain ⟨j, hj, rfl⟩ := mem_iff_getElem.mp hy
    simp only [length_drop] at hj
    have hlt : k < convert items[i] := by
      refine lt_of_le_of_ne (le_of_not_gt fun hgt => hpos ((H.pos_iff _ _).mpr hgt)) ?_
      exact fun he => hz ((H.zero_iff _ _).mpr he)
    refine lt_of_lt_of_le hlt ?_
    simpa using hs.getElem_le (by omega : i ≤ i + j) (by omega)
  | case5 iLeft iRight h =>
    obtain rfl : iLeft = iRight := by omega
    exact .inr ⟨iLeft, rfl, h1, hr, hlo, hhi⟩

/-- The binary search as `Insert` and `Find` call it, between the end items of the page. -/
theorem binSearch_inside (H : OrdersAsInt pfComp convert) {k : K} {items : List R} {first last : R}
    (hs : SortedBy convert items) (hf : items.head? = some first)
    (hla : items.getLast? = some last) (hlo : convert first < k) (hhi : k < convert last) :
    (∃ i, ∃ hi : i < items.length,
      binSearch pfComp k items 1 (items.length - 1) = some (.inl i) ∧ k = convert items[i]) ∨
    ∃ p, binSearch pfComp k items 1 (items.length - 1) = some (.inr p) ∧ 1 ≤ p ∧
      p < items.length ∧ (∀ y ∈ items.take p, convert y < k) ∧
      ∀ y ∈ items.drop p, k < convert y := by
  have hcons : first :: items.tail = items := cons_head?_tail hf
  have hsnoc : items.dropLast ++ [last] = items := dropLast_append_getLast? _ hla
  have hlen : 2 ≤ items.length := by
    by_contra hlt
    have hnil : items.tail = [] := eq_nil_of_length_eq_zero (by rw [length_tail]; omega)
    rw [← hcons, hnil] at hla
    obtain rfl : first = last := by simpa using hla
    exact lt_asymm hlo hhi
  have htake : items.take 1 = [first] := by rw [← hcons]; rfl
  have hdrop : items.drop (items.length - 1) = [last] := by
    have h : (items.dropLast ++ [last]).drop items.dropLast.length = [last] := drop_left
    rwa [hsnoc, length_dropLast] at h
  refine binSearch_spec H hs (le_refl 1) (by omega) (by omega) ?_ ?_
  · simpa [htake] using hlo
  · simpa [hdrop] using hhi

end ISearch.TTree
