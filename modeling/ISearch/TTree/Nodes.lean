import ISearch.TTree.Insert
import ISearch.TTree.Delete

/-!
# The nodes a call allocates and frees

`Insert` and `Delete` report through a flag whether they changed the number of T-tree nodes.
`isAllocNode` is right. `isFreeNode` is raised where the page holds one item and both subtrees are
there, in the one place where a page of one item is not freed; `removal` says what a deletion frees
and what it reports.
-/

namespace ISearch.TTree

open Option

variable {K R : Type} [LinearOrder K] {pfComp : K → R → Int64} {convert : R → K}

namespace TtreeNode

/-- The number of T-tree nodes. -/
def nodes : TtreeNode R → Nat
  | nil => 0
  | node hLeft hRight _ _ => hLeft.nodes + hRight.nodes + 1

@[simp] theorem nodes_nil : (nil : TtreeNode R).nodes = 0 := rfl

@[simp] theorem nodes_node (l r : TtreeNode R) (b : Int) (items : List R) :
    (node l r b items).nodes = l.nodes + r.nodes + 1 := rfl

/-- What a turn returns. -/
theorem kept_of_eq {n : Nat} {f : Bool} {o o' : Out R} (h : some o' = some o)
    (hnodes : o'.hNode.nodes = n) (hflag : o'.flag = f) : o.hNode.nodes = n ∧ o.flag = f := by
  cases h
  exact ⟨hnodes, hflag⟩

/-! ## Insertion -/

section Insert

variable {l r : TtreeNode R} {b : Int} {items : List R} {flag : Bool} {o : Out R}

theorem nodes_insertGrewLeft (h : insertGrewLeft l r b items flag = some o) :
    o.hNode.nodes = l.nodes + r.nodes + 1 ∧ o.flag = flag := by
  unfold insertGrewLeft at h
  split_ifs at h
  · exact kept_of_eq h rfl rfl
  · exact kept_of_eq h rfl rfl
  · cases l with
    | nil => cases h
    | node ll lr lb lItems =>
      dsimp only at h
      split_ifs at h
      · exact kept_of_eq h (by simp only [nodes_node]; omega) rfl
      · cases lr with
        | nil => cases h
        | node lrl lrr lrb lrItems =>
          exact kept_of_eq h (by simp only [nodes_node]; omega) rfl

theorem nodes_insertGrewRight (h : insertGrewRight l r b items flag = some o) :
    o.hNode.nodes = l.nodes + r.nodes + 1 ∧ o.flag = flag := by
  unfold insertGrewRight at h
  split_ifs at h
  · exact kept_of_eq h rfl rfl
  · exact kept_of_eq h rfl rfl
  · cases r with
    | nil => cases h
    | node rl rr rb rItems =>
      dsimp only at h
      split_ifs at h
      · exact kept_of_eq h (by simp only [nodes_node]; omega) rfl
      · cases rl with
        | nil => cases h
        | node rll rlr rlb rlItems =>
          exact kept_of_eq h (by simp only [nodes_node]; omega) rfl

/-- The return from `Insert` in the left subtree. -/
theorem nodes_insertLeft {o' : Out R} (hrec : o.hNode.nodes = l.nodes + (if o.flag then 1 else 0))
    (h : (if o.iRet < 0 ∨ o.iRet = 0 then some ⟨o.iRet, .node o.hNode r b items, o.flag⟩
      else insertGrewLeft o.hNode r b items o.flag) = some o') :
    o'.hNode.nodes = (node l r b items).nodes + (if o'.flag then 1 else 0) := by
  rw [nodes_node]
  split_ifs at h
  · cases h
    rw [nodes_node]
    dsimp only
    omega
  · obtain ⟨hnodes, hflag⟩ := nodes_insertGrewLeft h
    rw [hflag]
    omega

/-- The return from `Insert` in the right subtree. -/
theorem nodes_insertRight {o' : Out R} (hrec : o.hNode.nodes = r.nodes + (if o.flag then 1 else 0))
    (h : (if o.iRet < 0 ∨ o.iRet = 0 then some ⟨o.iRet, .node l o.hNode b items, o.flag⟩
      else insertGrewRight l o.hNode b items o.flag) = some o') :
    o'.hNode.nodes = (node l r b items).nodes + (if o'.flag then 1 else 0) := by
  rw [nodes_node]
  split_ifs at h
  · cases h
    rw [nodes_node]
    dsimp only
    omega
  · obtain ⟨hnodes, hflag⟩ := nodes_insertGrewRight h
    rw [hflag]
    omega

omit [LinearOrder K] in
/-- The flag of `Insert` says whether there is one more node. -/
theorem nodes_insert {canAlloc : Bool} {fuel : Nat} {k : K} {hRecord : R} {t : TtreeNode R}
    (h : insert pfComp convert canAlloc fuel k hRecord t false = some o) :
    o.hNode.nodes = t.nodes + (if o.flag then 1 else 0) := by
  induction fuel generalizing k hRecord t o with
  | zero => cases h
  | succ fuel ih =>
    cases t with
    | nil => cases h
    | node l r b items =>
      rw [insert] at h
      split at h
      · next first last hf hla =>
        by_cases h1 : iDiff pfComp k first = 0
        · rw [if_pos h1] at h
          cases h
          rfl
        rw [if_neg h1] at h
        by_cases h2 : iDiff pfComp k first ≤ 0
        · rw [if_pos h2] at h
          split_ifs at h with hroom hnil
          · cases h
            rfl
          · -- a new leaf
            obtain ⟨hnodes, hflag⟩ := nodes_insertGrewLeft h
            rw [hnodes, hflag, isNil_iff.mp hnil]
            simp only [alloc, nodes_node, nodes_nil, if_true]
            omega
          · cases h
            rfl
          · obtain ⟨o₁, ho₁, h⟩ := bind_eq_some_iff.mp h
            exact nodes_insertLeft (ih ho₁) h
        rw [if_neg h2] at h
        by_cases h3 : iDiff pfComp k last = 0
        · rw [if_pos h3] at h
          cases h
          rfl
        rw [if_neg h3] at h
        by_cases h4 : iDiff pfComp k last ≥ 0
        · rw [if_pos h4] at h
          split_ifs at h with hroom hnil
          · cases h
            rfl
          · obtain ⟨hnodes, hflag⟩ := nodes_insertGrewRight h
            rw [hnodes, hflag, isNil_iff.mp hnil]
            simp only [alloc, nodes_node, nodes_nil, if_true]
          · cases h
            rfl
          · obtain ⟨o₁, ho₁, h⟩ := bind_eq_some_iff.mp h
            exact nodes_insertRight (ih ho₁) h
        rw [if_neg h4] at h
        obtain ⟨found, -, h⟩ := bind_eq_some_iff.mp h
        cases found with
        | inl i =>
          cases h
          rfl
        | inr iRight =>
          dsimp only at h
          by_cases hroom : items.length < pageSize
          · rw [if_pos hroom] at h
            cases h
            rfl
          · -- one end of the page is inserted again
            rw [if_neg hroom] at h
            obtain ⟨o₁, ho₁, h⟩ := bind_eq_some_iff.mp h
            have hnodes := ih ho₁
            split_ifs at h
            · cases hnode : o₁.hNode with
              | nil =>
                rw [hnode] at h
                cases h
              | node l' r' b' items' =>
                rw [hnode] at h hnodes
                cases h
                exact hnodes
            · cases h
              exact hnodes
      · cases h

end Insert

/-! ## Deletion -/

/-- What the deletion of an item does: whether it frees a node, and whether it raises the flag. -/
structure Removal where
  frees : Bool
  reports : Bool
  deriving DecidableEq, Repr

/-- The removal at the node that holds the item. `left` and `right` are the removals of the item
that would be borrowed from a subtree. -/
def removalHere (hLeft hRight : TtreeNode R) (chBalance : Int) (ahItems : List R)
    (left right : Removal) : Removal :=
  if ahItems.length = 1 ∧ (hRight.isNil ∨ hLeft.isNil) then ⟨true, false⟩
  else if ahItems.length ≤ minItems ∧ hLeft.isNil = false ∧ chBalance ≤ 0 then
    ⟨left.frees, decide (ahItems.length = 1) || left.reports⟩
  else if ahItems.length ≤ minItems ∧ hRight.isNil = false then
    ⟨right.frees, decide (ahItems.length = 1) || right.reports⟩
  else ⟨false, false⟩

/-- The removal of the item with the key `k`. -/
def removal (convert : R → K) : TtreeNode R → K → Removal
  | nil, _ => ⟨false, false⟩
  | node hLeft hRight chBalance ahItems, k =>
    match ahItems.head?, ahItems.getLast? with
    | some first, some last =>
      if k < convert first then hLeft.removal convert k
      else if convert last < k then hRight.removal convert k
      else
        removalHere hLeft hRight chBalance ahItems
          ((hLeft.rightmost?.map fun x => hLeft.removal convert (convert x)).getD ⟨false, false⟩)
          ((hRight.leftmost?.map fun x => hRight.removal convert (convert x)).getD ⟨false, false⟩)
    | _, _ => ⟨false, false⟩

section Delete

variable {rec : TtreeNode R → K → Bool → Option (Out R)} {l r : TtreeNode R} {b : Int}
  {items page : List R} {flag : Bool} {o o' : Out R} {k : K} {first last : R}

omit [LinearOrder K] in
theorem nodes_balanceLeftBranch (h : balanceLeftBranch l r b items flag = some o) :
    o.hNode.nodes = l.nodes + r.nodes + 1 ∧ o.flag = flag := by
  unfold balanceLeftBranch at h
  split_ifs at h
  · exact kept_of_eq h rfl rfl
  · exact kept_of_eq h rfl rfl
  · cases r with
    | nil => cases h
    | node rl rr rb rItems =>
      dsimp only at h
      split_ifs at h
      · exact kept_of_eq h (by simp only [nodes_node]; omega) rfl
      · exact kept_of_eq h (by simp only [nodes_node]; omega) rfl
      · cases rl with
        | nil => cases h
        | node rll rlr rlb rlItems =>
          exact kept_of_eq h (by simp only [nodes_node]; omega) rfl

omit [LinearOrder K] in
theorem nodes_balanceRightBranch (h : balanceRightBranch l r b items flag = some o) :
    o.hNode.nodes = l.nodes + r.nodes + 1 ∧ o.flag = flag := by
  unfold balanceRightBranch at h
  split_ifs at h
  · exact kept_of_eq h rfl rfl
  · exact kept_of_eq h rfl rfl
  · cases l with
    | nil => cases h
    | node ll lr lb lItems =>
      dsimp only at h
      split_ifs at h
      · exact kept_of_eq h (by simp only [nodes_node]; omega) rfl
      · exact kept_of_eq h (by simp only [nodes_node]; omega) rfl
      · cases lr with
        | nil => cases h
        | node lrl lrr lrb lrItems =>
          exact kept_of_eq h (by simp only [nodes_node]; omega) rfl

/-- The nodes and the flag after a removal from `t`. -/
structure Removes (o : Out R) (t : TtreeNode R) (flag : Bool) (m : Removal) : Prop where
  nodes : o.hNode.nodes + (if m.frees then 1 else 0) = t.nodes
  flag : o.flag = (flag || m.reports)

omit [LinearOrder K] in
theorem Removes.left {m : Removal} (hrec : Removes o l flag m)
    (h : (if o.iRet > 0 then balanceLeftBranch o.hNode r b page o.flag
      else some ⟨o.iRet, .node o.hNode r b page, o.flag⟩) = some o') :
    Removes o' (node l r b items) flag m := by
  have hnodes := hrec.nodes
  split_ifs at h
  · obtain ⟨hn, hf⟩ := nodes_balanceLeftBranch h
    refine ⟨?_, hf.trans hrec.flag⟩
    rw [nodes_node, hn]
    omega
  · cases h
    refine ⟨?_, hrec.flag⟩
    simp only [nodes_node]
    omega

omit [LinearOrder K] in
theorem Removes.right {m : Removal} (hrec : Removes o r flag m)
    (h : (if o.iRet > 0 then balanceRightBranch l o.hNode b page o.flag
      else some ⟨o.iRet, .node l o.hNode b page, o.flag⟩) = some o') :
    Removes o' (node l r b items) flag m := by
  have hnodes := hrec.nodes
  split_ifs at h
  · obtain ⟨hn, hf⟩ := nodes_balanceRightBranch h
    refine ⟨?_, hf.trans hrec.flag⟩
    rw [nodes_node, hn]
    omega
  · cases h
    refine ⟨?_, hrec.flag⟩
    simp only [nodes_node]
    omega

/-- The removals of a deletion procedure `rec` from the tree `t`. -/
def Counts (convert : R → K) (rec : TtreeNode R → K → Bool → Option (Out R)) (t : TtreeNode R) :
    Prop :=
  ∀ x ∈ t.toList, ∀ flag o, t.Shape → SortedBy convert t.toList →
    rec t (convert x) flag = some o → Removes o t flag (t.removal convert (convert x))

theorem nodes_deleteItem (hl : Counts convert rec l) (hr : Counts convert rec r)
    (hsh : (node l r b items).Shape) (hs : SortedBy convert (node l r b items).toList) {i : Nat}
    (h : deleteItem rec convert l r b items i flag = some o) :
    Removes o (node l r b items) flag (removalHere l r b items
      ((l.rightmost?.map fun x => l.removal convert (convert x)).getD ⟨false, false⟩)
      ((r.leftmost?.map fun x => r.removal convert (convert x)).getD ⟨false, false⟩)) := by
  obtain ⟨first, last, hf, hla⟩ := hsh.ends
  obtain ⟨hsl, hsi, hsr, -, -⟩ := (sorted_node_iff hf hla).mp hs
  have hfree : ∀ t : TtreeNode R, t.nodes + 1 = (node l r b items).nodes →
      items.length = 1 ∧ (r.isNil ∨ l.isNil) →
      Removes ⟨1, t, flag⟩ (node l r b items) flag (removalHere l r b items
        ((l.rightmost?.map fun x => l.removal convert (convert x)).getD ⟨false, false⟩)
        ((r.leftmost?.map fun x => r.removal convert (convert x)).getD ⟨false, false⟩)) := by
    intro t ht hone
    rw [removalHere, if_pos hone]
    exact ⟨ht, (Bool.or_false _).symm⟩
  rw [deleteItem] at h
  by_cases h1 : items.length = 1 ∧ r.isNil
  · rw [if_pos h1] at h
    cases h
    refine hfree l ?_ ⟨h1.1, .inl h1.2⟩
    rw [isNil_iff.mp h1.2]
    rfl
  rw [if_neg h1] at h
  by_cases h2 : items.length = 1 ∧ l.isNil
  · rw [if_pos h2] at h
    cases h
    refine hfree r ?_ ⟨h2.1, .inr h2.2⟩
    rw [isNil_iff.mp h2.2, nodes_node, nodes_nil, Nat.zero_add]
  rw [if_neg h2] at h
  have h12 : ¬(items.length = 1 ∧ (r.isNil ∨ l.isNil)) := fun h =>
    h.2.elim (fun hr => h1 ⟨h.1, hr⟩) fun hl => h2 ⟨h.1, hl⟩
  have hflag : (if items.length = 1 then true else flag) = (flag || decide (items.length = 1)) := by
    by_cases hone : items.length = 1 <;> simp [hone]
  rw [removalHere, if_neg h12]
  simp only [hflag] at h
  have hjoin : ∀ {m : Removal} {t : TtreeNode R}, Removes o t (flag || decide (items.length = 1)) m →
      Removes o t flag ⟨m.frees, decide (items.length = 1) || m.reports⟩ :=
    fun h => ⟨h.nodes, h.flag.trans (Bool.or_assoc _ _ _)⟩
  by_cases h3 : items.length ≤ minItems ∧ l.isNil = false ∧ b ≤ 0
  · have hne : l ≠ nil := by
      rintro rfl
      cases h3.2.1
    obtain ⟨x, a, hx, ha⟩ := hsh.2.2.1.rightmost hne
    simp only [if_pos h3, hx, bind_eq_bind, bind_some] at h
    obtain ⟨o₁, ho₁, h⟩ := bind_eq_some_iff.mp h
    rw [if_pos h3, hx]
    exact hjoin ((hl x (by simp [ha]) _ o₁ hsh.2.2.1 hsl ho₁).left h)
  rw [if_neg h3] at h ⊢
  by_cases h4 : items.length ≤ minItems ∧ r.isNil = false
  · have hne : r ≠ nil := by
      rintro rfl
      cases h4.2
    obtain ⟨x, a, hx, ha⟩ := hsh.2.2.2.leftmost hne
    simp only [if_pos h4, hx, bind_eq_bind, bind_some] at h
    obtain ⟨o₁, ho₁, h⟩ := bind_eq_some_iff.mp h
    rw [if_pos h4, hx]
    exact hjoin ((hr x (by simp [ha]) _ o₁ hsh.2.2.2 hsr ho₁).right h)
  · -- a page of one item has been dealt with
    rw [if_neg h4] at h ⊢
    cases h
    have hmany : items.length ≠ 1 := by
      intro hone
      have hrn : r.isNil = false := by simpa [hone] using h1
      exact h4 ⟨by simp [hone, minItems, pageSize], hrn⟩
    refine ⟨rfl, ?_⟩
    simp [hmany]

theorem nodes_delete (H : OrdersAsInt pfComp convert) (H0 : ZeroOnEqual pfComp) (t : TtreeNode R) :
    ∀ fuel, t.height ≤ fuel → Counts convert (delete pfComp convert fuel) t := by
  induction t with
  | nil => exact fun fuel _ x hx => absurd hx List.not_mem_nil
  | node l r b items ihl ihr =>
    intro fuel hfuel x hx flag o hsh hs h
    obtain ⟨fuel, rfl⟩ : ∃ n, fuel = n + 1 := ⟨fuel - 1, by simp at hfuel; omega⟩
    rw [height_node] at hfuel
    have hl := ihl fuel (by omega)
    have hr := ihr fuel (by omega)
    obtain ⟨first, last, hf, hla⟩ := hsh.ends
    obtain ⟨hsl, hsi, hsr, hll, hrr⟩ := (sorted_node_iff hf hla).mp hs
    have hfl : convert first ≤ convert last := hsi.head_le hf (List.mem_of_getLast? hla)
    rw [removal]
    simp only [hf, hla]
    simp only [delete, hf, hla] at h
    rw [toList_node, List.mem_append, List.mem_append] at hx
    rcases hx with (hx | hx) | hx
    · -- in the left subtree
      have hlt : convert x < convert first := hll x hx
      have hne : l ≠ nil := by
        rintro rfl
        cases hx
      have hdown : iDiff pfComp (convert x) first < 0 ∧ l.isNil = false :=
        ⟨(H.neg_iff _ _).mpr hlt, Bool.eq_false_iff.mpr (mt isNil_iff.mp hne)⟩
      rw [if_pos hlt]
      rw [if_pos hdown] at h
      obtain ⟨o₁, ho₁, h⟩ := bind_eq_some_iff.mp h
      obtain ⟨a, c, ha⟩ := List.append_of_mem hx
      obtain ⟨o₂, ho₂, -, -, hheight⟩ := (delete_spec H H0 l fuel (by omega)).take flag
        hsh.2.2.1 hsl ha
      obtain rfl : o₁ = o₂ := by
        rw [ho₁] at ho₂
        exact Option.some.inj ho₂
      have hback : (if o₁.iRet > 0 then balanceLeftBranch o₁.hNode r b items o₁.flag
          else some ⟨o₁.iRet, .node o₁.hNode r b items, o₁.flag⟩) = some o := by
        rw [← h]
        rcases hheight with ⟨hret, -⟩ | ⟨hret, -⟩
        · simp [hret]
        · simp [hret]
      exact (hl x hx flag o₁ hsh.2.2.1 hsl ho₁).left hback
    · -- in the page
      have hge : ¬convert x < convert first := not_lt.mpr (hsi.head_le hf hx)
      have hle : convert x ≤ convert last := hsi.le_getLast hla hx
      have hstay : ¬(iDiff pfComp (convert x) first < 0 ∧ l.isNil = false) := fun hdown =>
        hge ((H.neg_iff _ _).mp hdown.1)
      have hfound : ∃ i, items.findIdx? (fun hItem => pfComp (convert x) hItem = 0) = some i :=
        ⟨_, List.findIdx?_eq_some_of_exists
          ⟨x, hx, by simp [(H.eq_zero_iff H0 (convert x) x).mpr rfl]⟩⟩
      obtain ⟨i, hi⟩ := hfound
      rw [if_neg hge, if_neg hle.not_gt]
      rw [if_neg hstay, deleteRest] at h
      simp only [if_pos ((H.nonpos_iff _ _).mpr hle), hi] at h
      exact nodes_deleteItem hl hr hsh hs h
    · -- in the right subtree
      have hlt : convert last < convert x := hrr x hx
      have hge : ¬convert x < convert first := (hfl.trans_lt hlt).not_gt
      have hstay : ¬(iDiff pfComp (convert x) first < 0 ∧ l.isNil = false) := fun hdown =>
        hge ((H.neg_iff _ _).mp hdown.1)
      have hne : r ≠ nil := by
        rintro rfl
        cases hx
      have hnil : r.isNil = false := Bool.eq_false_iff.mpr (mt isNil_iff.mp hne)
      rw [if_neg hge, if_pos hlt]
      rw [if_neg hstay, deleteRest] at h
      simp only [if_neg (mt (H.nonpos_iff _ _).mp hlt.not_ge), if_pos hnil] at h
      obtain ⟨o₁, ho₁, h⟩ := bind_eq_some_iff.mp h
      exact (hr x hx flag o₁ hsh.2.2.2 hsr ho₁).right h

end Delete

end TtreeNode

end ISearch.TTree
