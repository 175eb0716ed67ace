import ISearch.TTree.Invariant

/-!
# Deletion from the T-tree

`delete_spec` is the contract of `TtreeNode::Delete` on a valid tree: the code reports a missing
key and leaves the tree as it was, or takes the record out and reports whether the tree lost a
level. Besides the order of the keys it needs that the comparator returns zero, as the 64-bit
value it returns, on equal keys (`ZeroOnEqual`), because the item loop tests that value.
-/

namespace ISearch.TTree

variable {K R : Type} [LinearOrder K] {convert : R → K} {pfComp : K → R → Int64}

/-- A result that is zero in the `int` is zero as the `int64_t` returned. -/
def ZeroOnEqual (pfComp : K → R → Int64) : Prop :=
  ∀ k r, iDiff pfComp k r = 0 → pfComp k r = 0

theorem OrdersAsInt.eq_zero_iff (H : OrdersAsInt pfComp convert) (H0 : ZeroOnEqual pfComp)
    (k : K) (r : R) : pfComp k r = 0 ↔ k = convert r := by
  rw [← H.zero_iff]
  refine ⟨fun h => ?_, H0 k r⟩
  rw [iDiff, h]; rfl

namespace TtreeNode

/-- The outcome of a rebalancing step after a removal: the items are `items`, and the height is
`h` or, when the step reports it, one less. -/
structure Shrank (o : Out R) (items : List R) (h : Nat) : Prop where
  shape : o.hNode.Shape
  toList : o.hNode.toList = items
  height : o.iRet = 0 ∧ o.hNode.height = h ∨ o.iRet = 1 ∧ o.hNode.height + 1 = h

theorem balanceLeftBranch_spec {l r : TtreeNode R} {b : Int} {items : List R} {hl : Nat}
    (flag : Bool) (hocc : 1 ≤ items.length ∧ items.length ≤ pageSize) (hsl : l.Shape)
    (hsr : r.Shape) (hh : l.height + 1 = hl) (hb : b = r.height - hl) (hlo : -1 ≤ b)
    (hhi : b ≤ 1) :
    ∃ o, balanceLeftBranch l r b items flag = some o ∧
      Shrank o (l.toList ++ items ++ r.toList) (max hl r.height + 1) := by
  unfold balanceLeftBranch
  split_ifs with h1 h2
  · refine ⟨_, rfl, ⟨⟨hocc, ⟨?_, by omega, by omega⟩, hsl, hsr⟩, rfl, .inr ⟨rfl, ?_⟩⟩⟩
    · omega
    · simp only [height_node]; omega
  · refine ⟨_, rfl, ⟨⟨hocc, ⟨?_, by omega, by omega⟩, hsl, hsr⟩, rfl, .inl ⟨rfl, ?_⟩⟩⟩
    · omega
    · simp only [height_node]; omega
  · cases r with
    | nil => simp only [height_nil] at hb; omega
    | node rl rr rb ritems =>
      obtain ⟨hrocc, ⟨hrb, hrlo, hrhi⟩, hsrl, hsrr⟩ := hsr
      simp only [height_node] at hb
      dsimp only
      split_ifs with h3 h4
      · refine ⟨_, rfl, ⟨⟨hrocc, ⟨?_, by omega, by omega⟩, ⟨hocc, ⟨?_, by omega, by omega⟩, hsl,
          hsrl⟩, hsrr⟩, by simp, .inl ⟨rfl, ?_⟩⟩⟩ <;> (try simp only [height_node]) <;> omega
      · refine ⟨_, rfl, ⟨⟨hrocc, ⟨?_, by omega, by omega⟩, ⟨hocc, ⟨?_, by omega, by omega⟩, hsl,
          hsrl⟩, hsrr⟩, by simp, .inr ⟨rfl, ?_⟩⟩⟩ <;> (try simp only [height_node]) <;> omega
      · cases rl with
        | nil => simp only [height_nil] at hrb; omega
        | node rll rlr rlb rlitems =>
          obtain ⟨hlocc, ⟨hlb, hllo, hlhi⟩, hsrll, hsrlr⟩ := hsrl
          simp only [height_node] at hb hrb
          refine ⟨_, rfl, ⟨⟨hlocc, ⟨?_, by omega, by omega⟩, ⟨hocc, ⟨?_, ?_, ?_⟩, hsl, hsrll⟩,
            hrocc, ⟨?_, ?_, ?_⟩, hsrlr, hsrr⟩, by simp, .inr ⟨rfl, ?_⟩⟩⟩ <;>
            (try simp only [height_node]) <;> (try split_ifs) <;> omega

theorem balanceRightBranch_spec {l r : TtreeNode R} {b : Int} {items : List R} {hr : Nat}
    (flag : Bool) (hocc : 1 ≤ items.length ∧ items.length ≤ pageSize) (hsl : l.Shape)
    (hsr : r.Shape) (hh : r.height + 1 = hr) (hb : b = hr - l.height) (hlo : -1 ≤ b)
    (hhi : b ≤ 1) :
    ∃ o, balanceRightBranch l r b items flag = some o ∧
      Shrank o (l.toList ++ items ++ r.toList) (max l.height hr + 1) := by
  unfold balanceRightBranch
  split_ifs with h1 h2
  · refine ⟨_, rfl, ⟨⟨hocc, ⟨?_, by omega, by omega⟩, hsl, hsr⟩, rfl, .inr ⟨rfl, ?_⟩⟩⟩
    · omega
    · simp only [height_node]; omega
  · refine ⟨_, rfl, ⟨⟨hocc, ⟨?_, by omega, by omega⟩, hsl, hsr⟩, rfl, .inl ⟨rfl, ?_⟩⟩⟩
    · omega
    · simp only [height_node]; omega
  · cases l with
    | nil => simp only [height_nil] at hb; omega
    | node ll lr lb litems =>
      obtain ⟨hlocc, ⟨hlb, hllo, hlhi⟩, hsll, hslr⟩ := hsl
      simp only [height_node] at hb
      dsimp only
      split_ifs with h3 h4
      · refine ⟨_, rfl, ⟨⟨hlocc, ⟨?_, by omega, by omega⟩, hsll, hocc, ⟨?_, by omega, by omega⟩,
          hslr, hsr⟩, by simp, .inl ⟨rfl, ?_⟩⟩⟩ <;> (try simp only [height_node]) <;> omega
      · refine ⟨_, rfl, ⟨⟨hlocc, ⟨?_, by omega, by omega⟩, hsll, hocc, ⟨?_, by omega, by omega⟩,
          hslr, hsr⟩, by simp, .inr ⟨rfl, ?_⟩⟩⟩ <;> (try simp only [height_node]) <;> omega
      · cases lr with
        | nil => simp only [height_nil] at hlb; omega
        | node lrl lrr lrb lritems =>
          obtain ⟨hrocc, ⟨hrb, hrlo, hrhi⟩, hslrl, hslrr⟩ := hslr
          simp only [height_node] at hb hlb
          refine ⟨_, rfl, ⟨⟨hrocc, ⟨?_, by omega, by omega⟩, ⟨hlocc, ⟨?_, ?_, ?_⟩, hsll, hslrl⟩,
            hocc, ⟨?_, ?_, ?_⟩, hslrr, hsr⟩, by simp, .inr ⟨rfl, ?_⟩⟩⟩ <;>
            (try simp only [height_node]) <;> (try split_ifs) <;> omega

/-! ## The contract -/

/-- What `Delete` of the key `k` leaves of the tree `t`. -/
inductive DeleteSpec (convert : R → K) (t : TtreeNode R) (k : K) (o : Out R) : Prop
  | missing (hnew : ∀ x ∈ t.toList, convert x ≠ k) (hret : o.iRet = -1) (hsame : o.hNode = t)
  | done (x : R) (hk : convert x = k) (hshape : o.hNode.Shape)
      (hitems : Spliced convert x o.hNode.toList t.toList)
      (hheight : o.iRet = 0 ∧ o.hNode.height = t.height ∨
        o.iRet = 1 ∧ o.hNode.height + 1 = t.height)

/-- The contract of a deletion procedure `rec` for the tree `t`. -/
def Deletes (convert : R → K) (rec : TtreeNode R → K → Bool → Option (Out R)) (t : TtreeNode R) :
    Prop :=
  ∀ k flag, t.Shape → SortedBy convert t.toList → t ≠ nil →
    ∃ o, rec t k flag = some o ∧ DeleteSpec convert t k o

section Node

variable {rec : TtreeNode R → K → Bool → Option (Out R)} {l r : TtreeNode R} {b : Int}
  {items : List R} {first last : R} {k : K} {flag : Bool}

theorem deleteSpec_of_shrank {t : TtreeNode R} {o : Out R} {new : List R} {x : R}
    (hk : convert x = k) (h : Shrank o new t.height) (hs : Spliced convert x new t.toList) :
    DeleteSpec convert t k o :=
  .done x hk h.shape (h.toList ▸ hs) h.height

/-- The return from a removal in the left subtree, with a page the code has rewritten. -/
theorem deleteSpec_left {page : List R} {o : Out R} {x : R} (hk : convert x = k)
    (hocc : 1 ≤ page.length ∧ page.length ≤ pageSize) (hsh : (node l r b items).Shape)
    (hshape : o.hNode.Shape)
    (hheight : o.iRet = 0 ∧ o.hNode.height = l.height ∨ o.iRet = 1 ∧ o.hNode.height + 1 = l.height)
    (hs : Spliced convert x (o.hNode.toList ++ page ++ r.toList) (node l r b items).toList) :
    ∃ o', (if o.iRet > 0 then balanceLeftBranch o.hNode r b page o.flag
        else some ⟨o.iRet, .node o.hNode r b page, o.flag⟩) = some o' ∧
      DeleteSpec convert (node l r b items) k o' := by
  obtain ⟨-, ⟨hb, hlo, hhi⟩, hsl, hsr⟩ := hsh
  rcases hheight with ⟨hret, hh⟩ | ⟨hret, hh⟩
  · refine ⟨_, if_neg (by omega), .done x hk ⟨hocc, ⟨?_, hlo, hhi⟩, hshape, hsr⟩ hs ?_⟩
    · rw [hh]; exact hb
    · exact .inl ⟨hret, by simp [hh]⟩
  · obtain ⟨o', ho', hg⟩ := balanceLeftBranch_spec o.flag hocc hshape hsr hh hb hlo hhi
    exact ⟨o', by rw [if_pos (by omega), ho'], deleteSpec_of_shrank hk hg hs⟩

/-- The return from a removal in the right subtree, with a page the code has rewritten. -/
theorem deleteSpec_right {page : List R} {o : Out R} {x : R} (hk : convert x = k)
    (hocc : 1 ≤ page.length ∧ page.length ≤ pageSize) (hsh : (node l r b items).Shape)
    (hshape : o.hNode.Shape)
    (hheight : o.iRet = 0 ∧ o.hNode.height = r.height ∨ o.iRet = 1 ∧ o.hNode.height + 1 = r.height)
    (hs : Spliced convert x (l.toList ++ page ++ o.hNode.toList) (node l r b items).toList) :
    ∃ o', (if o.iRet > 0 then balanceRightBranch l o.hNode b page o.flag
        else some ⟨o.iRet, .node l o.hNode b page, o.flag⟩) = some o' ∧
      DeleteSpec convert (node l r b items) k o' := by
  obtain ⟨-, ⟨hb, hlo, hhi⟩, hsl, hsr⟩ := hsh
  rcases hheight with ⟨hret, hh⟩ | ⟨hret, hh⟩
  · refine ⟨_, if_neg (by omega), .done x hk ⟨hocc, ⟨?_, hlo, hhi⟩, hsl, hshape⟩ hs ?_⟩
    · rw [hh]; exact hb
    · exact .inl ⟨hret, by simp [hh]⟩
  · obtain ⟨o', ho', hg⟩ := balanceRightBranch_spec o.flag hocc hsl hshape hh hb hlo hhi
    exact ⟨o', by rw [if_pos (by omega), ho'], deleteSpec_of_shrank hk hg hs⟩

/-- Taking a present record out of a subtree by its own key. -/
theorem Deletes.take {t : TtreeNode R} (hrec : Deletes convert rec t) (flag : Bool) (hsh : t.Shape)
    (hs : SortedBy convert t.toList) {x : R} {a c : List R} (hx : t.toList = a ++ x :: c) :
    ∃ o, rec t (convert x) flag = some o ∧ o.hNode.Shape ∧ o.hNode.toList = a ++ c ∧
      (o.iRet = 0 ∧ o.hNode.height = t.height ∨ o.iRet = 1 ∧ o.hNode.height + 1 = t.height) := by
  have hne : t ≠ nil := by rintro rfl; simp at hx
  have hmem : x ∈ t.toList := by simp [hx]
  obtain ⟨o, ho, hspec⟩ := hrec (convert x) flag hsh hs hne
  cases hspec with
  | missing hnew _ _ => exact absurd rfl (hnew x hmem)
  | done y hk hshape hitems hheight =>
    obtain rfl : y = x := hs.eq_of_key_eq (hitems.mem_iff.mpr (.inl rfl)) hmem hk
    exact ⟨o, ho, hshape, hitems.eq_of_removed hx hs, hheight⟩

theorem deleteItem_spec (hl : l ≠ nil → Deletes convert rec l)
    (hr : r ≠ nil → Deletes convert rec r) (hsh : (node l r b items).Shape)
    (hs : SortedBy convert (node l r b items).toList) {i : Nat} (hi : i < items.length)
    (hk : convert items[i] = k) :
    ∃ o, deleteItem rec convert l r b items i flag = some o ∧
      DeleteSpec convert (node l r b items) k o := by
  obtain ⟨first, last, hf, hla⟩ := hsh.ends
  obtain ⟨hsl, hsi, hsr, hll, hrr⟩ := (sorted_node_iff hf hla).mp hs
  have hocc := hsh.1
  obtain ⟨hb, hlo, hhi⟩ := hsh.2.1
  have hsplice := Spliced.eraseIdx hsi hi
  have hbelow : ∀ y ∈ l.toList, convert y < convert items[i] := fun y hy =>
    lt_of_lt_of_le (hll y hy) (hsi.head_le hf (List.getElem_mem hi))
  have habove : ∀ y ∈ r.toList, convert items[i] < convert y := fun y hy =>
    lt_of_le_of_lt (hsi.le_getLast hla (List.getElem_mem hi)) (hrr y hy)
  have hwhole : Spliced convert items[i] (l.toList ++ items.eraseIdx i ++ r.toList)
      (node l r b items).toList := hsplice.context hbelow habove
  have hlen := hsplice.length_eq
  simp only [deleteItem]
  -- the flag only travels along
  generalize (if items.length = 1 then true else flag) = flag'
  split_ifs with h1 h2 h3 h4
  · obtain rfl := isNil_iff.mp h1.2
    rw [List.eq_nil_of_length_eq_zero (by omega : (items.eraseIdx i).length = 0)] at hwhole
    refine ⟨_, rfl, .done _ hk hsh.2.2.1 (by simpa using hwhole) (.inr ⟨rfl, ?_⟩)⟩
    simp
  · obtain rfl := isNil_iff.mp h2.2
    rw [List.eq_nil_of_length_eq_zero (by omega : (items.eraseIdx i).length = 0)] at hwhole
    refine ⟨_, rfl, .done _ hk hsh.2.2.2 (by simpa using hwhole) (.inr ⟨rfl, ?_⟩)⟩
    simp
  · have hne : l ≠ nil := by rintro rfl; simp [isNil] at h3
    obtain ⟨x, a, hx, ha⟩ := hsh.2.2.1.rightmost hne
    obtain ⟨o, ho, hshape, hitems, hheight⟩ := (hl hne).take flag' hsh.2.2.1 hsl ha
    simp only [hx, ho, Option.bind_eq_bind, Option.bind_some]
    refine deleteSpec_left hk ?_ hsh hshape hheight ?_
    · simp only [List.length_cons]; omega
    · simpa [hitems, ha] using hwhole
  · have hne : r ≠ nil := by rintro rfl; simp [isNil] at h4
    obtain ⟨x, a, hx, ha⟩ := hsh.2.2.2.leftmost hne
    obtain ⟨o, ho, hshape, hitems, hheight⟩ := (hr hne).take flag' hsh.2.2.2 hsr
      (a := []) ha
    simp only [hx, ho, Option.bind_eq_bind, Option.bind_some]
    refine deleteSpec_right hk ?_ hsh hshape hheight ?_
    · simp only [List.length_append, List.length_singleton]; omega
    · simpa [hitems, ha] using hwhole
  · -- a page of one item is never erased here: both subtrees are there and one is borrowed from
    have hmany : items.length ≠ 1 := by
      intro hone
      have hrn : r.isNil = false := by simpa [hone] using h1
      exact h4 ⟨by simp [hone, minItems, pageSize], hrn⟩
    refine ⟨_, rfl, .done _ hk ⟨⟨?_, ?_⟩, ⟨hb, hlo, hhi⟩, hsh.2.2⟩ hwhole (.inl ⟨rfl, rfl⟩)⟩
    · omega
    · omega

/-- The page and the right subtree, for a key that is not in the left subtree. -/
theorem deleteRest_spec (H : OrdersAsInt pfComp convert) (H0 : ZeroOnEqual pfComp)
    (hl : l ≠ nil → Deletes convert rec l) (hr : r ≠ nil → Deletes convert rec r)
    (hsh : (node l r b items).Shape) (hs : SortedBy convert (node l r b items).toList)
    (hla : items.getLast? = some last) (hleft : ∀ x ∈ l.toList, convert x ≠ k) :
    ∃ o, deleteRest rec pfComp convert k last l r b items flag = some o ∧
      DeleteSpec convert (node l r b items) k o := by
  obtain ⟨first, last', hf, hla'⟩ := hsh.ends
  obtain rfl : last = last' := by simpa [hla] using hla'
  obtain ⟨hsl, hsi, hsr, hll, hrr⟩ := (sorted_node_iff hf hla).mp hs
  have hfl : convert first ≤ convert last := hsi.head_le hf (List.mem_of_getLast? hla)
  simp only [deleteRest]
  split
  · rename_i i hi
    split_ifs at hi with hle
    obtain ⟨hlt, hzero, -⟩ := List.findIdx?_eq_some_iff_getElem.mp hi
    have hk : k = convert items[i] := (H.eq_zero_iff H0 _ _).mp (by simpa using hzero)
    exact deleteItem_spec hl hr hsh hs hlt hk.symm
  · rename_i hi
    have hpage : ∀ x ∈ items, convert x ≠ k := by
      intro x hx hxk
      have hle : iDiff pfComp k last ≤ 0 :=
        (H.nonpos_iff k last).mpr (hxk ▸ hsi.le_getLast hla hx)
      rw [if_pos hle, List.findIdx?_eq_none_iff] at hi
      have := hi x hx
      simp [(H.eq_zero_iff H0 k x).mpr hxk.symm] at this
    split_ifs with hnil
    · have hne : r ≠ nil := by rintro rfl; simp [isNil] at hnil
      obtain ⟨o, ho, hspec⟩ := hr hne k flag hsh.2.2.2 hsr hne
      simp only [ho, Option.bind_eq_bind, Option.bind_some]
      cases hspec with
      | missing hnew hret hsame =>
        refine ⟨_, if_neg (by omega), .missing ?_ hret (by simp [hsame])⟩
        simp only [toList_node, List.mem_append]
        rintro x ((hx | hx) | hx)
        · exact hleft x hx
        · exact hpage x hx
        · exact hnew x hx
      | done x hk hshape hitems hheight =>
        refine deleteSpec_right hk hsh.1 hsh hshape hheight ?_
        have hxr : x ∈ r.toList := hitems.mem_iff.mpr (.inl rfl)
        have h := hitems.context (a := l.toList ++ items) (b := []) (fun y hy => ?_) (by simp)
        · simpa using h
        rcases List.mem_append.mp hy with hy | hy
        · exact (hll y hy).trans (hfl.trans_lt (hrr x hxr))
        · exact (hsi.le_getLast hla hy).trans_lt (hrr x hxr)
    · have hrn : r = nil := by cases r <;> simp_all [isNil]
      refine ⟨_, rfl, .missing ?_ rfl rfl⟩
      simp only [toList_node, List.mem_append, hrn, toList_nil, List.not_mem_nil, or_false]
      rintro x (hx | hx)
      · exact hleft x hx
      · exact hpage x hx

end Node

theorem delete_spec (H : OrdersAsInt pfComp convert) (H0 : ZeroOnEqual pfComp)
    (t : TtreeNode R) : ∀ fuel, t.height ≤ fuel → Deletes convert (delete pfComp convert fuel) t := by
  induction t with
  | nil => exact fun fuel _ k flag _ _ hne => absurd rfl hne
  | node l r b items ihl ihr =>
    intro fuel hfuel k flag hsh hs _
    obtain ⟨fuel, rfl⟩ : ∃ n, fuel = n + 1 := ⟨fuel - 1, by simp at hfuel; omega⟩
    simp only [height_node] at hfuel
    have hl : l ≠ nil → Deletes convert (delete pfComp convert fuel) l :=
      fun _ => ihl fuel (by omega)
    have hr : r ≠ nil → Deletes convert (delete pfComp convert fuel) r :=
      fun _ => ihr fuel (by omega)
    obtain ⟨first, last, hf, hla⟩ := hsh.ends
    obtain ⟨hsl, hsi, hsr, hll, hrr⟩ := (sorted_node_iff hf hla).mp hs
    simp only [delete, hf, hla]
    split_ifs with hlt
    · have hne : l ≠ nil := by rintro rfl; simp [isNil] at hlt
      have hkf : k < convert first := (H.neg_iff _ _).mp hlt.1
      obtain ⟨o, ho, hspec⟩ := hl hne k flag hsh.2.2.1 hsl hne
      simp only [ho, Option.bind_eq_bind, Option.bind_some]
      cases hspec with
      | missing hnew hret hsame =>
        rw [if_neg (by omega), if_neg (by omega), hsame]
        exact deleteRest_spec H H0 hl hr hsh hs hla hnew
      | done x hk hshape hitems hheight =>
        have hx : convert x < convert first := hk ▸ hkf
        have hspl := hitems.context (a := []) (b := items ++ r.toList) (by simp) (fun y hy => ?_)
        · obtain ⟨o', ho', hspec'⟩ := deleteSpec_left hk hsh.1 hsh hshape hheight
            (by simpa using hspl)
          refine ⟨o', ?_, hspec'⟩
          rw [← ho']
          rcases hheight with ⟨hret, -⟩ | ⟨hret, -⟩
          · rw [if_pos (by omega), if_neg (by omega)]
          · rw [if_neg (by omega)]
            simp [hret]
        rcases List.mem_append.mp hy with hy | hy
        · exact hx.trans_le (hsi.head_le hf hy)
        · exact hx.trans_le ((hsi.head_le hf (List.mem_of_getLast? hla)).trans (hrr y hy).le)
    · refine deleteRest_spec H H0 hl hr hsh hs hla fun x hx hxk => ?_
      -- a key below the page with no left subtree, or a key not below the page
      have hne : l ≠ nil := by rintro rfl; simp at hx
      have hnil : l.isNil = false := Bool.eq_false_iff.mpr (mt isNil_iff.mp hne)
      exact hlt ⟨(H.neg_iff _ _).mpr (hxk ▸ hll x hx), hnil⟩

end TtreeNode

end ISearch.TTree
