import ISearch.TTree.Run
import ISearch.TTree.Traverse

/-!
# The post-order traversals of the T-tree (`t_tree.cc`)

`post_order_traverse` visits the page of a node behind those of its subtrees, the full traversal and
the one down from a key the right subtree first, the other two the left one. The nodes are named by
their paths from the root.
-/

namespace ISearch.TTree

open List

variable {K R C : Type}

namespace TtreeNode

/-- `post_order_traverse` without a key. -/
def postOrderTraverse (pfVisit : C → R → C) : TtreeNode R → C → C
  | nil, cookie => cookie
  | node hLeft hRight _ ahItems, cookie =>
    ahItems.reverse.foldl pfVisit
      (hLeft.postOrderTraverse pfVisit (hRight.postOrderTraverse pfVisit cookie))

/-- `post_order_traverse` between two keys. -/
def postOrderTraverseRange (pfComp : K → R → Int64) (pchKey pchKey1 : K) (pfVisit : C → R → C) :
    TtreeNode R → C → C
  | nil, cookie => cookie
  | node hLeft hRight _ ahItems, cookie =>
    match ahItems.head?, ahItems.getLast? with
    | some first, some last =>
      let cookie := if iDiff pfComp pchKey first < 0
        then hLeft.postOrderTraverseRange pfComp pchKey pchKey1 pfVisit cookie else cookie
      let cookie := if iDiff pfComp pchKey1 last ≥ 0
        then hRight.postOrderTraverseRange pfComp pchKey pchKey1 pfVisit cookie else cookie
      if iDiff pfComp pchKey1 first < 0 ∨ iDiff pfComp pchKey last > 0 then cookie
      else ahItems.foldl
        (fun c hItem => if iDiff pfComp pchKey hItem ≤ 0 ∧ iDiff pfComp pchKey1 hItem ≥ 0
          then pfVisit c hItem else c) cookie
    | _, _ => cookie

def postOrderTraverseGe (pfComp : K → R → Int64) (pchKey : K) (pfVisit : C → R → C) :
    TtreeNode R → C → C
  | nil, cookie => cookie
  | node hLeft hRight _ ahItems, cookie =>
    match ahItems.head?, ahItems.getLast? with
    | some first, some last =>
      let cookie := if iDiff pfComp pchKey first < 0
        then hLeft.postOrderTraverseGe pfComp pchKey pfVisit cookie else cookie
      let cookie := hRight.postOrderTraverseGe pfComp pchKey pfVisit cookie
      if iDiff pfComp pchKey last ≤ 0
      then ahItems.foldl
        (fun c hItem => if iDiff pfComp pchKey hItem ≤ 0 then pfVisit c hItem else c) cookie
      else cookie
    | _, _ => cookie

def postOrderTraverseLe (pfComp : K → R → Int64) (pchKey : K) (pfVisit : C → R → C) :
    TtreeNode R → C → C
  | nil, cookie => cookie
  | node hLeft hRight _ ahItems, cookie =>
    match ahItems.head?, ahItems.getLast? with
    | some first, some last =>
      let cookie := if iDiff pfComp pchKey last > 0
        then hRight.postOrderTraverseLe pfComp pchKey pfVisit cookie else cookie
      let cookie := hLeft.postOrderTraverseLe pfComp pchKey pfVisit cookie
      if iDiff pfComp pchKey first ≥ 0
      then ahItems.reverse.foldl
        (fun c hItem => if iDiff pfComp pchKey hItem ≥ 0 then pfVisit c hItem else c) cookie
      else cookie
    | _, _ => cookie

/-! ## The nodes, children first -/

inductive Side where
  | left
  | right
  deriving DecidableEq, Repr

/-- The page of the node at a path from the root. -/
def page? : List Side → TtreeNode R → Option (List R)
  | _, nil => none
  | [], node _ _ _ ahItems => some ahItems
  | .left :: path, node hLeft _ _ _ => hLeft.page? path
  | .right :: path, node _ hRight _ _ => hRight.page? path

/-- The nodes with their paths, children before parents, the subtree at `side` first. -/
def postOrder (side : Side) : TtreeNode R → List (List Side × List R)
  | nil => []
  | node hLeft hRight _ ahItems =>
    let lefts := (hLeft.postOrder side).map fun n => (.left :: n.1, n.2)
    let rights := (hRight.postOrder side).map fun n => (.right :: n.1, n.2)
    (if side = .left then lefts ++ rights else rights ++ lefts) ++ [([], ahItems)]

theorem mem_postOrder (side : Side) (t : TtreeNode R) (path : List Side) (items : List R) :
    (path, items) ∈ t.postOrder side ↔ t.page? path = some items := by
  induction t generalizing path with
  | nil => cases path <;> simp [postOrder, page?]
  | node l r b page ihl ihr =>
    have hmem : (path, items) ∈ (node l r b page).postOrder side ↔
        (∃ p, (p, items) ∈ l.postOrder side ∧ .left :: p = path) ∨
          (∃ p, (p, items) ∈ r.postOrder side ∧ .right :: p = path) ∨
            path = [] ∧ items = page := by
      cases side <;> simp [postOrder, or_left_comm]
    rw [hmem]
    match path with
    | [] => simp [page?, eq_comm]
    | .left :: p => simp [page?, ihl]
    | .right :: p => simp [page?, ihr]

/-- No node stands behind one above it, and none twice. -/
theorem postOrder_pairwise (side : Side) (t : TtreeNode R) :
    (t.postOrder side).Pairwise fun n m => ¬ n.1 <+: m.1 := by
  induction t with
  | nil => exact .nil
  | node l r b page ihl ihr =>
    have hlefts : ((l.postOrder side).map fun n => (Side.left :: n.1, n.2)).Pairwise
        fun n m => ¬ n.1 <+: m.1 :=
      pairwise_map.mpr (ihl.imp fun h => by simpa [cons_prefix_cons] using h)
    have hrights : ((r.postOrder side).map fun n => (Side.right :: n.1, n.2)).Pairwise
        fun n m => ¬ n.1 <+: m.1 :=
      pairwise_map.mpr (ihr.imp fun h => by simpa [cons_prefix_cons] using h)
    have hchildren : (if side = .left then
        (l.postOrder side).map (fun n => (Side.left :: n.1, n.2)) ++
          (r.postOrder side).map (fun n => (Side.right :: n.1, n.2))
        else (r.postOrder side).map (fun n => (Side.right :: n.1, n.2)) ++
          (l.postOrder side).map (fun n => (Side.left :: n.1, n.2))).Pairwise
            fun n m => ¬ n.1 <+: m.1 := by
      split
      · refine pairwise_append.mpr ⟨hlefts, hrights, fun n hn m hm => ?_⟩
        obtain ⟨_, -, rfl⟩ := mem_map.mp hn
        obtain ⟨_, -, rfl⟩ := mem_map.mp hm
        simp [cons_prefix_cons]
      · refine pairwise_append.mpr ⟨hrights, hlefts, fun n hn m hm => ?_⟩
        obtain ⟨_, -, rfl⟩ := mem_map.mp hn
        obtain ⟨_, -, rfl⟩ := mem_map.mp hm
        simp [cons_prefix_cons]
    refine pairwise_append.mpr ⟨hchildren, pairwise_singleton _ _, fun n hn m hm => ?_⟩
    obtain rfl := mem_singleton.mp hm
    have hpath : n.1 ≠ [] := by
      split at hn <;> rcases mem_append.mp hn with hn | hn <;>
        obtain ⟨_, -, rfl⟩ := mem_map.mp hn <;> exact cons_ne_nil _ _
    simpa using hpath

/-- What a traversal visits that visits `f` of each page. -/
def visits (side : Side) (f : List R → List R) (t : TtreeNode R) : List R :=
  (t.postOrder side).flatMap fun n => f n.2

theorem visits_left (f : List R → List R) (l r : TtreeNode R) (b : Int) (items : List R) :
    (node l r b items).visits .left f = l.visits .left f ++ r.visits .left f ++ f items := by
  simp [visits, postOrder, flatMap_append, flatMap_map]

theorem visits_right (f : List R → List R) (l r : TtreeNode R) (b : Int) (items : List R) :
    (node l r b items).visits .right f = r.visits .right f ++ l.visits .right f ++ f items := by
  simp [visits, postOrder, flatMap_append, flatMap_map]

theorem visits_eq_nil {side : Side} {f : List R → List R} {p : R → Bool} {t : TtreeNode R}
    (hf : ∀ items, (∀ x ∈ items, p x = false) → f items = [])
    (h : ∀ x ∈ t.toList, p x = false) : t.visits side f = [] := by
  induction t with
  | nil => rfl
  | node l r b items ihl ihr =>
    simp only [toList_node, mem_append] at h
    have hl := ihl fun x hx => h x (.inl (.inl hx))
    have hr := ihr fun x hx => h x (.inr hx)
    have hpage := hf items fun x hx => h x (.inl (.inr hx))
    cases side with
    | left => rw [visits_left, hl, hr, hpage]; rfl
    | right => rw [visits_right, hl, hr, hpage]; rfl

theorem mem_toList_iff_page? (t : TtreeNode R) (x : R) :
    x ∈ t.toList ↔ ∃ path items, t.page? path = some items ∧ x ∈ items := by
  induction t with
  | nil => simp [page?]
  | node l r b items ihl ihr =>
    simp only [toList_node, mem_append, ihl, ihr]
    constructor
    · rintro ((⟨path, page, h⟩ | h) | ⟨path, page, h⟩)
      · exact ⟨.left :: path, page, h⟩
      · exact ⟨[], items, rfl, h⟩
      · exact ⟨.right :: path, page, h⟩
    · rintro ⟨_ | ⟨_ | _, path⟩, page, hpage, hx⟩
      · exact .inl (.inr (Option.some.inj hpage ▸ hx))
      · exact .inl (.inl ⟨path, page, hpage, hx⟩)
      · exact .inr ⟨path, page, hpage, hx⟩

theorem postOrderTraverse_eq (pfVisit : C → R → C) (t : TtreeNode R) (cookie : C) :
    t.postOrderTraverse pfVisit cookie = (t.visits .right List.reverse).foldl pfVisit cookie := by
  induction t generalizing cookie with
  | nil => rfl
  | node l r b items ihl ihr =>
    rw [postOrderTraverse, ihl, ihr, visits_right, foldl_append, foldl_append]

section Order

variable [LinearOrder K] {convert : R → K} {pfComp : K → R → Int64} {t : TtreeNode R}

theorem postOrderTraverseRange_eq (H : OrdersAsInt pfComp convert) (hsh : t.Shape)
    (hs : SortedBy convert t.toList) (k k1 : K) (pfVisit : C → R → C) (cookie : C) :
    t.postOrderTraverseRange pfComp k k1 pfVisit cookie =
      (t.visits .left (List.filter fun x => decide (k ≤ convert x ∧ convert x ≤ k1))).foldl pfVisit
        cookie := by
  induction t generalizing cookie with
  | nil => rfl
  | node l r b items ihl ihr =>
    obtain ⟨first, last, hf, hla⟩ := hsh.ends
    obtain ⟨hsl, hsi, hsr, hll, hrr⟩ := (sorted_node_iff hf hla).mp hs
    have hleft := ite_visit (p := iDiff pfComp k first < 0) (ihl hsh.2.2.1 hsl cookie) fun h =>
      visits_eq_nil (fun _ => filter_eq_nil_of_forall) fun x hx => decide_eq_false fun hk =>
        left_below H hll h hx hk.1
    have hright (c : C) := ite_visit (p := iDiff pfComp k1 last ≥ 0) (ihr hsh.2.2.2 hsr c)
      fun h => visits_eq_nil (fun _ => filter_eq_nil_of_forall) fun x hx => decide_eq_false
        fun hk => right_above H hrr (fun hgt => h (Int32.le_of_lt hgt)) hx hk.2
    simp only [postOrderTraverseRange, hf, hla, hleft, hright,
      foldl_page_range H hsi hf hla pfVisit _ fun _ => id, visits_left, foldl_append]

theorem postOrderTraverseGe_eq (H : OrdersAsInt pfComp convert) (hsh : t.Shape)
    (hs : SortedBy convert t.toList) (k : K) (pfVisit : C → R → C) (cookie : C) :
    t.postOrderTraverseGe pfComp k pfVisit cookie =
      (t.visits .left (List.filter fun x => decide (k ≤ convert x))).foldl pfVisit cookie := by
  induction t generalizing cookie with
  | nil => rfl
  | node l r b items ihl ihr =>
    obtain ⟨first, last, hf, hla⟩ := hsh.ends
    obtain ⟨hsl, hsi, hsr, hll, -⟩ := (sorted_node_iff hf hla).mp hs
    have hleft := ite_visit (p := iDiff pfComp k first < 0) (ihl hsh.2.2.1 hsl cookie) fun h =>
      visits_eq_nil (fun _ => filter_eq_nil_of_forall) fun x hx => decide_eq_false
        (left_below H hll h hx)
    simp only [postOrderTraverseGe, hf, hla, hleft, foldl_page_from H hsi hla, ihr hsh.2.2.2 hsr,
      visits_left, foldl_append]

theorem postOrderTraverseLe_eq (H : OrdersAsInt pfComp convert) (hsh : t.Shape)
    (hs : SortedBy convert t.toList) (k : K) (pfVisit : C → R → C) (cookie : C) :
    t.postOrderTraverseLe pfComp k pfVisit cookie =
      (t.visits .right fun page => (page.filter fun x => decide (convert x ≤ k)).reverse).foldl
        pfVisit cookie := by
  induction t generalizing cookie with
  | nil => rfl
  | node l r b items ihl ihr =>
    obtain ⟨first, last, hf, hla⟩ := hsh.ends
    obtain ⟨hsl, hsi, hsr, -, hrr⟩ := (sorted_node_iff hf hla).mp hs
    have hright := ite_visit (p := iDiff pfComp k last > 0) (ihr hsh.2.2.2 hsr cookie) fun h =>
      visits_eq_nil (fun _ hpage => reverse_eq_nil_iff.mpr (filter_eq_nil_of_forall hpage))
        fun x hx => decide_eq_false (right_above H hrr h hx)
    simp only [postOrderTraverseLe, hf, hla, hright, foldl_page_downTo H hsi hf,
      ihl hsh.2.2.1 hsl, visits_right, foldl_append]

end Order

/-- What each traversal of a tree visits, and in which order. `toList` lists the records,
`postOrder` the nodes. -/
structure Traversals [LinearOrder K] (pfComp : K → R → Int64) (convert : R → K) (t : TtreeNode R)
    (k k1 : K) (pfVisit : C → R → C) (cookie : C) : Prop where
  records : ∀ x, x ∈ t.toList ↔ ∃ path items, t.page? path = some items ∧ x ∈ items
  increasing : SortedBy convert t.toList
  nodes : ∀ side path items, (path, items) ∈ t.postOrder side ↔ t.page? path = some items
  childrenFirst : ∀ side, (t.postOrder side).Pairwise fun n m => ¬ n.1 <+: m.1
  forward : t.traverseForward pfVisit cookie = t.toList.foldl pfVisit cookie
  forwardFrom : t.traverseForwardFrom pfComp k pfVisit cookie =
    (t.toList.filter fun x => decide (k ≤ convert x)).foldl pfVisit cookie
  forwardRange : t.traverseForwardRange pfComp k k1 pfVisit cookie =
    (t.toList.filter fun x => decide (k ≤ convert x ∧ convert x ≤ k1)).foldl pfVisit cookie
  backwardFrom : t.traverseBackwardFrom pfComp k pfVisit cookie =
    (t.toList.filter fun x => decide (convert x ≤ k)).reverse.foldl pfVisit cookie
  backwardRange : t.traverseBackwardRange pfComp k k1 pfVisit cookie =
    (t.toList.filter fun x => decide (k ≤ convert x ∧ convert x ≤ k1)).reverse.foldl pfVisit
      cookie
  postOrder : t.postOrderTraverse pfVisit cookie =
    ((t.postOrder .right).flatMap fun n => n.2.reverse).foldl pfVisit cookie
  postOrderRange : t.postOrderTraverseRange pfComp k k1 pfVisit cookie =
    ((t.postOrder .left).flatMap fun n =>
      n.2.filter fun x => decide (k ≤ convert x ∧ convert x ≤ k1)).foldl pfVisit cookie
  postOrderGe : t.postOrderTraverseGe pfComp k pfVisit cookie =
    ((t.postOrder .left).flatMap fun n =>
      n.2.filter fun x => decide (k ≤ convert x)).foldl pfVisit cookie
  postOrderLe : t.postOrderTraverseLe pfComp k pfVisit cookie =
    ((t.postOrder .right).flatMap fun n =>
      (n.2.filter fun x => decide (convert x ≤ k)).reverse).foldl pfVisit cookie

/-- Every traversal of a valid tree visits the records that its bounds admit, each once: in order,
or page by page with the children before their parents. -/
theorem Valid.traversals [LinearOrder K] {convert : R → K} {pfComp : K → R → Int64}
    (H : OrdersAsInt pfComp convert) {t : TtreeNode R} (ht : t.Valid convert) (k k1 : K)
    (pfVisit : C → R → C) (cookie : C) : Traversals pfComp convert t k k1 pfVisit cookie := by
  obtain ⟨hsh, hs⟩ := valid_iff.mp ht
  exact {
    records := mem_toList_iff_page? t
    increasing := hs
    nodes := fun side => mem_postOrder side t
    childrenFirst := fun side => postOrder_pairwise side t
    forward := traverseForward_eq pfVisit t cookie
    forwardFrom := traverseForwardFrom_eq H hsh hs k pfVisit cookie
    forwardRange := traverseForwardRange_eq H hsh hs k k1 pfVisit cookie
    backwardFrom := traverseBackwardFrom_eq H hsh hs k pfVisit cookie
    backwardRange := traverseBackwardRange_eq H hsh hs k k1 pfVisit cookie
    postOrder := postOrderTraverse_eq pfVisit t cookie
    postOrderRange := postOrderTraverseRange_eq H hsh hs k k1 pfVisit cookie
    postOrderGe := postOrderTraverseGe_eq H hsh hs k pfVisit cookie
    postOrderLe := postOrderTraverseLe_eq H hsh hs k pfVisit cookie }

/-- Three pages of one record each, from 2 to 5. -/
theorem Valid.traversals_threeWay :
    Traversals (threeWay 0) id (.node (.alloc 1) (.alloc 5) 0 [3]) 2 5
      (fun visited x => visited ++ [x]) [] :=
  Valid.traversals (threeWay_orders (by decide))
    (valid_iff.mpr ⟨by simp [Shape, alloc, pageSize, height], by simp [SortedBy, alloc]⟩) 2 5 _ []

end TtreeNode

end ISearch.TTree
