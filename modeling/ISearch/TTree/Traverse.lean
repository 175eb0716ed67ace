import ISearch.TTree.Invariant

/-!
# Traversals of the T-tree (`t_tree.cc`)

`traverse_forward` and `traverse_backward` call the visitor on the items in order, all of them or
those on one side of a key or between two keys. The visitor of the tree engine always returns 0, so
a traversal is a fold of the visitor over its cookie.
-/

namespace ISearch.TTree

open List

variable {K R C : Type}

namespace TtreeNode

/-- `traverse_forward` without a key. -/
def traverseForward (pfVisit : C → R → C) : TtreeNode R → C → C
  | nil, cookie => cookie
  | node hLeft hRight _ ahItems, cookie =>
    hRight.traverseForward pfVisit (ahItems.foldl pfVisit (hLeft.traverseForward pfVisit cookie))

/-- `traverse_forward` from a key on. -/
def traverseForwardFrom (pfComp : K → R → Int64) (pchKey : K) (pfVisit : C → R → C) :
    TtreeNode R → C → C
  | nil, cookie => cookie
  | node hLeft hRight _ ahItems, cookie =>
    match ahItems.head?, ahItems.getLast? with
    | some first, some last =>
      let cookie := if iDiff pfComp pchKey first < 0
        then hLeft.traverseForwardFrom pfComp pchKey pfVisit cookie else cookie
      let cookie := if iDiff pfComp pchKey last ≤ 0
        then ahItems.foldl
          (fun c hItem => if iDiff pfComp pchKey hItem ≤ 0 then pfVisit c hItem else c) cookie
        else cookie
      hRight.traverseForwardFrom pfComp pchKey pfVisit cookie
    | _, _ => cookie

/-- `traverse_forward` from the key `pchKey` to the key `pchKey1`. -/
def traverseForwardRange (pfComp : K → R → Int64) (pchKey pchKey1 : K) (pfVisit : C → R → C) :
    TtreeNode R → C → C
  | nil, cookie => cookie
  | node hLeft hRight _ ahItems, cookie =>
    match ahItems.head?, ahItems.getLast? with
    | some first, some last =>
      let cookie := if iDiff pfComp pchKey first < 0
        then hLeft.traverseForwardRange pfComp pchKey pchKey1 pfVisit cookie else cookie
      let cookie := if iDiff pfComp pchKey1 first < 0 ∨ iDiff pfComp pchKey last > 0 then cookie
        else ahItems.foldl
          (fun c hItem => if iDiff pfComp pchKey hItem ≤ 0 ∧ iDiff pfComp pchKey1 hItem ≥ 0
            then pfVisit c hItem else c) cookie
      if iDiff pfComp pchKey1 last ≥ 0
      then hRight.traverseForwardRange pfComp pchKey pchKey1 pfVisit cookie else cookie
    | _, _ => cookie

/-- `traverse_backward` from a key down. -/
def traverseBackwardFrom (pfComp : K → R → Int64) (pchKey : K) (pfVisit : C → R → C) :
    TtreeNode R → C → C
  | nil, cookie => cookie
  | node hLeft hRight _ ahItems, cookie =>
    match ahItems.head?, ahItems.getLast? with
    | some first, some last =>
      let cookie := if iDiff pfComp pchKey last > 0
        then hRight.traverseBackwardFrom pfComp pchKey pfVisit cookie else cookie
      let cookie := if iDiff pfComp pchKey first ≥ 0
        then ahItems.reverse.foldl
          (fun c hItem => if iDiff pfComp pchKey hItem ≥ 0 then pfVisit c hItem else c) cookie
        else cookie
      hLeft.traverseBackwardFrom pfComp pchKey pfVisit cookie
    | _, _ => cookie

/-- `traverse_backward` from the key `pchKey1` down to the key `pchKey`. -/
def traverseBackwardRange (pfComp : K → R → Int64) (pchKey pchKey1 : K) (pfVisit : C → R → C) :
    TtreeNode R → C → C
  | nil, cookie => cookie
  | node hLeft hRight _ ahItems, cookie =>
    match ahItems.head?, ahItems.getLast? with
    | some first, some last =>
      let cookie := if iDiff pfComp pchKey1 last > 0
        then hRight.traverseBackwardRange pfComp pchKey pchKey1 pfVisit cookie else cookie
      let cookie := if iDiff pfComp pchKey1 first < 0 ∨ iDiff pfComp pchKey last > 0 then cookie
        else ahItems.reverse.foldl
          (fun c hItem => if iDiff pfComp pchKey hItem ≤ 0 ∧ iDiff pfComp pchKey1 hItem ≥ 0
            then pfVisit c hItem else c) cookie
      if iDiff pfComp pchKey first ≤ 0
      then hLeft.traverseBackwardRange pfComp pchKey pchKey1 pfVisit cookie else cookie
    | _, _ => cookie

theorem traverseForward_eq (pfVisit : C → R → C) (t : TtreeNode R) (cookie : C) :
    t.traverseForward pfVisit cookie = t.toList.foldl pfVisit cookie := by
  induction t generalizing cookie with
  | nil => rfl
  | node l r b items ihl ihr =>
    rw [traverseForward, ihl, ihr, toList_node, foldl_append, foldl_append]

section Order

variable [LinearOrder K] {convert : R → K} {pfComp : K → R → Int64} {t : TtreeNode R}

theorem filter_eq_nil_of_forall {p : R → Bool} {l : List R} (h : ∀ x ∈ l, p x = false) :
    l.filter p = [] :=
  filter_eq_nil_iff.mpr fun x hx => by simp [h x hx]

/-- A fold that skips items is a fold over the others. -/
theorem foldl_skip {p : R → Prop} [DecidablePred p] {q : R → Bool} {pfVisit : C → R → C}
    (h : ∀ x, p x ↔ q x = true) (l : List R) (cookie : C) :
    l.foldl (fun c x => if p x then pfVisit c x else c) cookie =
      (l.filter q).foldl pfVisit cookie := by
  rw [foldl_filter]
  exact foldl_ext _ _ _ fun c x _ => by simp only [h]

/-- A subtree is visited, or nothing in it is to be visited. -/
theorem ite_visit {p : Prop} [Decidable p] {pfVisit : C → R → C} {l : List R} {c c' : C}
    (hvisit : c' = l.foldl pfVisit c) (hnone : ¬p → l = []) :
    (if p then c' else c) = l.foldl pfVisit c := by
  split_ifs with h
  · exact hvisit
  · rw [hnone h, foldl_nil]

/-! What one node decides from the ends of its page. -/

section Page

variable {l r : TtreeNode R} {items : List R} {first last : R} {k k1 : K}

theorem left_below (H : OrdersAsInt pfComp convert)
    (hll : ∀ x ∈ l.toList, convert x < convert first)
    (h : ¬ iDiff pfComp k first < 0) {x : R} (hx : x ∈ l.toList) : ¬ k ≤ convert x := by
  have hle : convert first ≤ k := not_lt.mp fun hlt => h ((H.neg_iff _ _).mpr hlt)
  exact ((hll x hx).trans_le hle).not_ge

theorem right_above (H : OrdersAsInt pfComp convert)
    (hrr : ∀ x ∈ r.toList, convert last < convert x) (h : ¬ iDiff pfComp k last > 0) {x : R}
    (hx : x ∈ r.toList) : ¬ convert x ≤ k := by
  have hle : k ≤ convert last := not_lt.mp fun hlt => h ((H.pos_iff _ _).mpr hlt)
  exact (hle.trans_lt (hrr x hx)).not_ge

theorem foldl_page_from (H : OrdersAsInt pfComp convert) (hsi : SortedBy convert items)
    (hla : items.getLast? = some last) (pfVisit : C → R → C) (c : C) :
    (if iDiff pfComp k last ≤ 0 then items.foldl
      (fun c x => if iDiff pfComp k x ≤ 0 then pfVisit c x else c) c else c) =
      (items.filter fun x => decide (k ≤ convert x)).foldl pfVisit c := by
  split_ifs with hle
  · exact foldl_skip (fun x => by rw [H.nonpos_iff, decide_eq_true_iff]) items c
  · rw [filter_eq_nil_of_forall, foldl_nil]
    intro x hx
    have hlt : convert last < k := not_le.mp fun h => hle ((H.nonpos_iff _ _).mpr h)
    exact decide_eq_false ((hsi.le_getLast hla hx).trans_lt hlt).not_ge

/-- `page` is the page of the node, in either direction. -/
theorem foldl_page_range (H : OrdersAsInt pfComp convert) (hsi : SortedBy convert items)
    (hf : items.head? = some first) (hla : items.getLast? = some last) (pfVisit : C → R → C)
    (c : C) {page : List R} (hpage : ∀ x ∈ page, x ∈ items) :
    (if iDiff pfComp k1 first < 0 ∨ iDiff pfComp k last > 0 then c else page.foldl
      (fun c x => if iDiff pfComp k x ≤ 0 ∧ iDiff pfComp k1 x ≥ 0 then pfVisit c x else c) c) =
      (page.filter fun x => decide (k ≤ convert x ∧ convert x ≤ k1)).foldl pfVisit c := by
  split_ifs with hout
  · rw [filter_eq_nil_of_forall, foldl_nil]
    intro x hx
    have hx := hpage x hx
    refine decide_eq_false fun h => ?_
    rcases hout with hlt | hgt
    · exact (((H.neg_iff _ _).mp hlt).trans_le (hsi.head_le hf hx)).not_ge h.2
    · exact ((hsi.le_getLast hla hx).trans_lt ((H.pos_iff _ _).mp hgt)).not_ge h.1
  · exact foldl_skip (fun x => by rw [H.nonpos_iff, H.nonneg_iff, decide_eq_true_iff]) page c

theorem foldl_page_downTo (H : OrdersAsInt pfComp convert) (hsi : SortedBy convert items)
    (hf : items.head? = some first) (pfVisit : C → R → C) (c : C) :
    (if iDiff pfComp k first ≥ 0 then items.reverse.foldl
      (fun c x => if iDiff pfComp k x ≥ 0 then pfVisit c x else c) c else c) =
      (items.filter fun x => decide (convert x ≤ k)).reverse.foldl pfVisit c := by
  split_ifs with hge
  · rw [foldl_skip (fun x => by rw [H.nonneg_iff]; exact (decide_eq_true_iff).symm)
      items.reverse c, filter_reverse]
  · rw [filter_eq_nil_of_forall, reverse_nil, foldl_nil]
    intro x hx
    have hlt : k < convert first := not_le.mp fun h => hge ((H.nonneg_iff _ _).mpr h)
    exact decide_eq_false (hlt.trans_le (hsi.head_le hf hx)).not_ge

end Page

theorem traverseForwardFrom_eq (H : OrdersAsInt pfComp convert) (hsh : t.Shape)
    (hs : SortedBy convert t.toList) (k : K) (pfVisit : C → R → C) (cookie : C) :
    t.traverseForwardFrom pfComp k pfVisit cookie =
      (t.toList.filter fun x => decide (k ≤ convert x)).foldl pfVisit cookie := by
  induction t generalizing cookie with
  | nil => rfl
  | node l r b items ihl ihr =>
    obtain ⟨first, last, hf, hla⟩ := hsh.ends
    obtain ⟨hsl, hsi, hsr, hll, -⟩ := (sorted_node_iff hf hla).mp hs
    have hleft := ite_visit (p := iDiff pfComp k first < 0) (ihl hsh.2.2.1 hsl cookie) fun h =>
      filter_eq_nil_of_forall fun x hx => decide_eq_false (left_below H hll h hx)
    simp only [traverseForwardFrom, hf, hla, hleft, foldl_page_from H hsi hla,
      ihr hsh.2.2.2 hsr, toList_node, filter_append, foldl_append]

theorem traverseForwardRange_eq (H : OrdersAsInt pfComp convert) (hsh : t.Shape)
    (hs : SortedBy convert t.toList) (k k1 : K) (pfVisit : C → R → C) (cookie : C) :
    t.traverseForwardRange pfComp k k1 pfVisit cookie =
      (t.toList.filter fun x => decide (k ≤ convert x ∧ convert x ≤ k1)).foldl pfVisit cookie := by
  induction t generalizing cookie with
  | nil => rfl
  | node l r b items ihl ihr =>
    obtain ⟨first, last, hf, hla⟩ := hsh.ends
    obtain ⟨hsl, hsi, hsr, hll, hrr⟩ := (sorted_node_iff hf hla).mp hs
    have hleft := ite_visit (p := iDiff pfComp k first < 0) (ihl hsh.2.2.1 hsl cookie) fun h =>
      filter_eq_nil_of_forall fun x hx => decide_eq_false fun hk => left_below H hll h hx hk.1
    have hright (c : C) := ite_visit (p := iDiff pfComp k1 last ≥ 0) (ihr hsh.2.2.2 hsr c)
      fun h => filter_eq_nil_of_forall fun x hx => decide_eq_false fun hk =>
        right_above H hrr (fun hgt => h (Int32.le_of_lt hgt)) hx hk.2
    simp only [traverseForwardRange, hf, hla, hleft,
      foldl_page_range H hsi hf hla pfVisit _ fun _ =>
        id, hright, toList_node, filter_append, foldl_append]

theorem traverseBackwardRange_eq (H : OrdersAsInt pfComp convert) (hsh : t.Shape)
    (hs : SortedBy convert t.toList) (k k1 : K) (pfVisit : C → R → C) (cookie : C) :
    t.traverseBackwardRange pfComp k k1 pfVisit cookie =
      (t.toList.filter fun x => decide (k ≤ convert x ∧ convert x ≤ k1)).reverse.foldl pfVisit
        cookie := by
  induction t generalizing cookie with
  | nil => rfl
  | node l r b items ihl ihr =>
    obtain ⟨first, last, hf, hla⟩ := hsh.ends
    obtain ⟨hsl, hsi, hsr, hll, hrr⟩ := (sorted_node_iff hf hla).mp hs
    have hright := ite_visit (p := iDiff pfComp k1 last > 0) (ihr hsh.2.2.2 hsr cookie) fun h =>
      reverse_eq_nil_iff.mpr <| filter_eq_nil_of_forall fun x hx => decide_eq_false fun hk =>
        right_above H hrr h hx hk.2
    have hleft (c : C) := ite_visit (p := iDiff pfComp k first ≤ 0) (ihl hsh.2.2.1 hsl c) fun h =>
      reverse_eq_nil_iff.mpr <| filter_eq_nil_of_forall fun x hx => decide_eq_false fun hk =>
        left_below H hll (fun hlt => h (Int32.le_of_lt hlt)) hx hk.1
    simp only [traverseBackwardRange, hf, hla, hright,
      foldl_page_range H hsi hf hla pfVisit _ fun _ => mem_reverse.mp, hleft, toList_node,
      filter_append, filter_reverse, reverse_append, foldl_append]

theorem traverseBackwardFrom_eq (H : OrdersAsInt pfComp convert) (hsh : t.Shape)
    (hs : SortedBy convert t.toList) (k : K) (pfVisit : C → R → C) (cookie : C) :
    t.traverseBackwardFrom pfComp k pfVisit cookie =
      (t.toList.filter fun x => decide (convert x ≤ k)).reverse.foldl pfVisit cookie := by
  induction t generalizing cookie with
  | nil => rfl
  | node l r b items ihl ihr =>
    obtain ⟨first, last, hf, hla⟩ := hsh.ends
    obtain ⟨hsl, hsi, hsr, -, hrr⟩ := (sorted_node_iff hf hla).mp hs
    have hright := ite_visit (p := iDiff pfComp k last > 0) (ihr hsh.2.2.2 hsr cookie) fun h =>
      reverse_eq_nil_iff.mpr <| filter_eq_nil_of_forall fun x hx => decide_eq_false
        (right_above H hrr h hx)
    simp only [traverseBackwardFrom, hf, hla, hright, foldl_page_downTo H hsi hf,
      ihl hsh.2.2.1 hsl, toList_node, filter_append, reverse_append, foldl_append]

end Order

end TtreeNode

end ISearch.TTree
