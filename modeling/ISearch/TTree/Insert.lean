import ISearch.TTree.Invariant

/-!
# Insertion into the T-tree

`insert_spec` is the contract of `TtreeNode::Insert` on a valid tree, for either outcome of the
allocation: the code reports an equal key or a failed allocation and leaves the tree as it was,
or puts the record at its place and reports by how much the height grew.
-/

namespace ISearch.TTree

open Option

variable {K R : Type} [LinearOrder K] {convert : R → K} {pfComp : K → R → Int64}

namespace TtreeNode

/-- The root of the tree has subtrees of different heights. A subtree that grew by a level in
place has this property, and the turns of `Insert` rely on it. -/
def Leans : TtreeNode R → Prop
  | nil => False
  | node _ _ chBalance _ => chBalance ≠ 0

/-- The outcome of a rebalancing step: the items are `items`, and the height is `h` or, when the
step reports it, `h + 1`. -/
structure Grew (o : Out R) (items : List R) (h : Nat) (flag : Bool) : Prop where
  shape : o.hNode.Shape
  toList : o.hNode.toList = items
  height : o.iRet = 0 ∧ o.hNode.height = h ∨
    o.iRet = 1 ∧ o.hNode.height = h + 1 ∧ o.hNode.Leans
  flag : o.flag = flag

theorem insertGrewLeft_spec {l r : TtreeNode R} {b : Int} {items : List R} {hl : Nat}
    (flag : Bool) (hocc : 1 ≤ items.length ∧ items.length ≤ pageSize) (hsl : l.Shape)
    (hsr : r.Shape) (hh : l.height = hl + 1) (hb : b = r.height - hl) (hlo : -1 ≤ b)
    (hhi : b ≤ 1) (hlean : b < 0 → l.Leans) :
    ∃ o, insertGrewLeft l r b items flag = some o ∧
      Grew o (l.toList ++ items ++ r.toList) (max hl r.height + 1) flag := by
  unfold insertGrewLeft
  split_ifs with h1 h2
  · refine ⟨_, rfl, ⟨⟨hocc, ⟨?_, by omega, by omega⟩, hsl, hsr⟩, rfl, .inl ⟨rfl, ?_⟩, rfl⟩⟩
    · omega
    · simp only [height_node]; omega
  · refine ⟨_, rfl, ⟨⟨hocc, ⟨?_, by omega, by omega⟩, hsl, hsr⟩, rfl, .inr ⟨rfl, ?_, ?_⟩, rfl⟩⟩
    · omega
    · simp only [height_node]; omega
    · simp [Leans]
  · cases l with
    | nil => simp at hh
    | node ll lr lb litems =>
      obtain ⟨hlocc, ⟨hlb, hllo, hlhi⟩, hsll, hslr⟩ := hsl
      simp only [height_node] at hh
      have hne : lb ≠ 0 := hlean (by omega)
      dsimp only
      split_ifs with h3
      · refine ⟨_, rfl, ⟨⟨hlocc, ⟨?_, by omega, by omega⟩, hsll, hocc, ⟨?_, by omega, by omega⟩,
          hslr, hsr⟩, by simp, .inl ⟨rfl, ?_⟩, rfl⟩⟩ <;> (try simp only [height_node]) <;> omega
      · cases lr with
        | nil => simp only [height_nil] at hlb; omega
        | node lrl lrr lrb lritems =>
          obtain ⟨hrocc, ⟨hrb, hrlo, hrhi⟩, hslrl, hslrr⟩ := hslr
          simp only [height_node] at hh hlb
          refine ⟨_, rfl, ⟨⟨hrocc, ⟨?_, by omega, by omega⟩, ⟨hlocc, ⟨?_, ?_, ?_⟩, hsll, hslrl⟩,
            hocc, ⟨?_, ?_, ?_⟩, hslrr, hsr⟩, by simp, .inl ⟨rfl, ?_⟩, rfl⟩⟩ <;>
            (try simp only [height_node]) <;> (try split_ifs) <;> omega

theorem insertGrewRight_spec {l r : TtreeNode R} {b : Int} {items : List R} {hr : Nat}
    (flag : Bool) (hocc : 1 ≤ items.length ∧ items.length ≤ pageSize) (hsl : l.Shape)
    (hsr : r.Shape) (hh : r.height = hr + 1) (hb : b = hr - l.height) (hlo : -1 ≤ b)
    (hhi : b ≤ 1) (hlean : 0 < b → r.Leans) :
    ∃ o, insertGrewRight l r b items flag = some o ∧
      Grew o (l.toList ++ items ++ r.toList) (max l.height hr + 1) flag := by
  unfold insertGrewRight
  split_ifs with h1 h2
  · refine ⟨_, rfl, ⟨⟨hocc, ⟨?_, by omega, by omega⟩, hsl, hsr⟩, rfl, .inl ⟨rfl, ?_⟩, rfl⟩⟩
    · omega
    · simp only [height_node]; omega
  · refine ⟨_, rfl, ⟨⟨hocc, ⟨?_, by omega, by omega⟩, hsl, hsr⟩, rfl, .inr ⟨rfl, ?_, ?_⟩, rfl⟩⟩
    · omega
    · simp only [height_node]; omega
    · simp [Leans]
  · cases r with
    | nil => simp at hh
    | node rl rr rb ritems =>
      obtain ⟨hrocc, ⟨hrb, hrlo, hrhi⟩, hsrl, hsrr⟩ := hsr
      simp only [height_node] at hh
      have hne : rb ≠ 0 := hlean (by omega)
      dsimp only
      split_ifs with h3
      · refine ⟨_, rfl, ⟨⟨hrocc, ⟨?_, by omega, by omega⟩, ⟨hocc, ⟨?_, by omega, by omega⟩, hsl,
          hsrl⟩, hsrr⟩, by simp, .inl ⟨rfl, ?_⟩, rfl⟩⟩ <;> (try simp only [height_node]) <;> omega
      · cases rl with
        | nil => simp only [height_nil] at hrb; omega
        | node rll rlr rlb rlitems =>
          obtain ⟨hlocc, ⟨hlb, hllo, hlhi⟩, hsrll, hsrlr⟩ := hsrl
          simp only [height_node] at hh hrb
          refine ⟨_, rfl, ⟨⟨hlocc, ⟨?_, by omega, by omega⟩, ⟨hocc, ⟨?_, ?_, ?_⟩, hsl, hsrll⟩,
            hrocc, ⟨?_, ?_, ?_⟩, hsrlr, hsrr⟩, by simp, .inl ⟨rfl, ?_⟩, rfl⟩⟩ <;>
            (try simp only [height_node]) <;> (try split_ifs) <;> omega

/-! ## The contract -/

/-- What `Insert` of record `r` leaves of the tree `t`. -/
inductive InsertSpec (convert : R → K) (canAlloc : Bool) (t : TtreeNode R) (r : R) (o : Out R) :
    Prop
  | keyExist (hmem : ∃ x ∈ t.toList, convert x = convert r) (hret : o.iRet = -2)
      (hsame : o.hNode = t)
  | noMem (halloc : canAlloc = false) (hnew : ∀ x ∈ t.toList, convert x ≠ convert r)
      (hret : o.iRet = -1) (hsame : o.hNode = t)
  | done (hshape : o.hNode.Shape) (hitems : Spliced convert r t.toList o.hNode.toList)
      (hheight : o.iRet = 0 ∧ o.hNode.height = t.height ∨
        o.iRet = 1 ∧ o.hNode.height = t.height + 1 ∧ o.hNode.Leans)

/-- The contract of `Insert` for the tree `t`, at every fuel that suffices. -/
def Inserts (pfComp : K → R → Int64) (convert : R → K) (canAlloc : Bool) (t : TtreeNode R) :
    Prop :=
  ∀ fuel r flag, t.Shape → SortedBy convert t.toList → t ≠ nil → 2 * t.height ≤ fuel →
    ∃ o, insert pfComp convert canAlloc fuel (convert r) r t flag = some o ∧
      InsertSpec convert canAlloc t r o

section Node

variable {canAlloc : Bool} {l r : TtreeNode R} {b : Int} {items : List R} {first last x : R}
  {fuel : Nat} {flag : Bool}

theorem insertSpec_of_grew {t : TtreeNode R} {o : Out R} {new : List R}
    (h : Grew o new t.height flag) (hs : Spliced convert x t.toList new) :
    InsertSpec convert canAlloc t x o :=
  .done h.shape (h.toList ▸ hs) h.height

/-- The return from an insertion into the left subtree. -/
theorem insertSpec_left {o : Out R} (hsh : (node l r b items).Shape)
    (hrest : ∀ y ∈ items ++ r.toList, convert x < convert y)
    (hspec : InsertSpec convert canAlloc l x o) :
    ∃ o', (if o.iRet < 0 ∨ o.iRet = 0 then some ⟨o.iRet, .node o.hNode r b items, o.flag⟩
        else insertGrewLeft o.hNode r b items o.flag) = some o' ∧
      InsertSpec convert canAlloc (node l r b items) x o' := by
  obtain ⟨hocc, ⟨hb, hlo, hhi⟩, hsl, hsr⟩ := hsh
  cases hspec with
  | keyExist hmem hret hsame =>
    obtain ⟨y, hy, hk⟩ := hmem
    refine ⟨_, if_pos (by omega), .keyExist ⟨y, ?_, hk⟩ hret (by rw [hsame])⟩
    simp [hy]
  | noMem halloc hnew hret hsame =>
    refine ⟨_, if_pos (by omega), .noMem halloc (fun y hy => ?_) hret (by rw [hsame])⟩
    rw [toList_node, List.append_assoc] at hy
    rcases List.mem_append.mp hy with hy | hy
    · exact hnew y hy
    · exact (hrest y hy).ne'
  | done hshape hspl hheight =>
    have hs : Spliced convert x (l.toList ++ items ++ r.toList)
        (o.hNode.toList ++ items ++ r.toList) := by
      simpa using hspl.context (a := []) (by simp) hrest
    rcases hheight with ⟨hret, hh⟩ | ⟨hret, hh, hlean⟩
    · refine ⟨_, if_pos (by omega), .done ⟨hocc, ⟨?_, hlo, hhi⟩, hshape, hsr⟩ hs ?_⟩
      · rw [hh]; exact hb
      · exact .inl ⟨hret, by simp [hh]⟩
    · obtain ⟨o', ho', hg⟩ := insertGrewLeft_spec o.flag hocc hshape hsr hh hb
        hlo hhi fun _ => hlean
      exact ⟨o', by rw [if_neg (by omega), ho'], insertSpec_of_grew hg hs⟩

/-- The return from an insertion into the right subtree. -/
theorem insertSpec_right {o : Out R} (hsh : (node l r b items).Shape)
    (hrest : ∀ y ∈ l.toList ++ items, convert y < convert x)
    (hspec : InsertSpec convert canAlloc r x o) :
    ∃ o', (if o.iRet < 0 ∨ o.iRet = 0 then some ⟨o.iRet, .node l o.hNode b items, o.flag⟩
        else insertGrewRight l o.hNode b items o.flag) = some o' ∧
      InsertSpec convert canAlloc (node l r b items) x o' := by
  obtain ⟨hocc, ⟨hb, hlo, hhi⟩, hsl, hsr⟩ := hsh
  cases hspec with
  | keyExist hmem hret hsame =>
    obtain ⟨y, hy, hk⟩ := hmem
    refine ⟨_, if_pos (by omega), .keyExist ⟨y, ?_, hk⟩ hret (by rw [hsame])⟩
    simp [hy]
  | noMem halloc hnew hret hsame =>
    refine ⟨_, if_pos (by omega), .noMem halloc (fun y hy => ?_) hret (by rw [hsame])⟩
    rcases List.mem_append.mp hy with hy | hy
    · exact (hrest y hy).ne
    · exact hnew y hy
  | done hshape hspl hheight =>
    have hs : Spliced convert x (l.toList ++ items ++ r.toList)
        (l.toList ++ items ++ o.hNode.toList) := by
      simpa using hspl.context (b := []) hrest (by simp)
    rcases hheight with ⟨hret, hh⟩ | ⟨hret, hh, hlean⟩
    · refine ⟨_, if_pos (by omega), .done ⟨hocc, ⟨?_, hlo, hhi⟩, hsl, hshape⟩ hs ?_⟩
      · rw [hh]; exact hb
      · exact .inl ⟨hret, by simp [hh]⟩
    · obtain ⟨o', ho', hg⟩ := insertGrewRight_spec o.flag hocc hsl hshape hh hb
        hlo hhi fun _ => hlean
      exact ⟨o', by rw [if_neg (by omega), ho'], insertSpec_of_grew hg hs⟩

/-- The branch of `Insert` for a key below the page. -/
theorem insert_below (H : OrdersAsInt pfComp convert) (ihl : Inserts pfComp convert canAlloc l)
    (hsh : (node l r b items).Shape) (hs : SortedBy convert (node l r b items).toList)
    (hf : items.head? = some first) (hla : items.getLast? = some last)
    (hlt : convert x < convert first) (hfuel : 2 * max l.height r.height ≤ fuel) :
    ∃ o, insert pfComp convert canAlloc (fuel + 1) (convert x) x (node l r b items) flag = some o ∧
      InsertSpec convert canAlloc (node l r b items) x o := by
  obtain ⟨h1, h2, h3, h4, h5⟩ := (sorted_node_iff hf hla).mp hs
  obtain ⟨hocc, ⟨hb, hlo, hhi⟩, hsl, hsr⟩ := id hsh
  have hitems : ∀ y ∈ items, convert x < convert y := fun y hy =>
    lt_of_lt_of_le hlt (h2.head_le hf hy)
  have hrest : ∀ y ∈ items ++ r.toList, convert x < convert y := fun y hy =>
    (List.mem_append.mp hy).elim (hitems y) fun hy =>
      lt_trans (hitems last (List.mem_of_mem_getLast? hla)) (h5 y hy)
  have hz : ¬ iDiff pfComp (convert x) first = 0 := fun h => hlt.ne ((H.zero_iff _ _).mp h)
  have hle : iDiff pfComp (convert x) first ≤ 0 := (H.nonpos_iff _ _).mpr hlt.le
  simp only [insert, hf, hla, if_neg hz, if_pos hle]
  cases l with
  | nil =>
    simp only [isNil, Bool.true_and, decide_eq_true_eq, if_true]
    have hspl : Spliced convert x (node nil r b items).toList (x :: (items ++ r.toList)) := by
      simpa using Spliced.cons hrest
    split_ifs with hroom halloc
    · refine ⟨_, rfl,
        .done ⟨⟨by simp, by rw [List.length_cons]; omega⟩, ⟨hb, hlo, hhi⟩, hsl, hsr⟩ hspl
        (.inl ⟨rfl, by simp⟩)⟩
    · obtain ⟨o, ho, hg⟩ := insertGrewLeft_spec true hocc (shape_alloc x) hsr (height_alloc x)
        (by simpa using hb) hlo hhi
        (by simp only [height_nil] at hb; omega)
      exact ⟨o, ho, insertSpec_of_grew hg (by simpa [alloc] using hspl)⟩
    · refine ⟨_, rfl, .noMem (by simpa using halloc) (fun y hy => ?_) rfl rfl⟩
      exact (hrest y (by simpa using hy)).ne'
  | node ll lr lb litems =>
    obtain ⟨o, ho, hspec⟩ := ihl fuel x flag hsl h1 (by simp) (by omega)
    simp only [isNil, Bool.false_and, Bool.false_eq_true, if_false, ho, bind_eq_bind,
      bind_some]
    exact insertSpec_left hsh hrest hspec

/-- The branch of `Insert` for a key above the page. -/
theorem insert_above (H : OrdersAsInt pfComp convert) (ihr : Inserts pfComp convert canAlloc r)
    (hsh : (node l r b items).Shape) (hs : SortedBy convert (node l r b items).toList)
    (hf : items.head? = some first) (hla : items.getLast? = some last)
    (hlt : convert last < convert x) (hfuel : 2 * max l.height r.height ≤ fuel) :
    ∃ o, insert pfComp convert canAlloc (fuel + 1) (convert x) x (node l r b items) flag = some o ∧
      InsertSpec convert canAlloc (node l r b items) x o := by
  obtain ⟨h1, h2, h3, h4, h5⟩ := (sorted_node_iff hf hla).mp hs
  obtain ⟨hocc, ⟨hb, hlo, hhi⟩, hsl, hsr⟩ := id hsh
  have hitems : ∀ y ∈ items, convert y < convert x := fun y hy =>
    lt_of_le_of_lt (h2.le_getLast hla hy) hlt
  have hfx := hitems first (List.mem_of_mem_head? hf)
  have hrest : ∀ y ∈ l.toList ++ items, convert y < convert x := fun y hy =>
    (List.mem_append.mp hy).elim (fun hy => lt_trans (h4 y hy) hfx) (hitems y)
  have hz : ¬ iDiff pfComp (convert x) first = 0 := fun h => hfx.ne' ((H.zero_iff _ _).mp h)
  have hle : ¬ iDiff pfComp (convert x) first ≤ 0 := fun h =>
    hfx.not_ge ((H.nonpos_iff _ _).mp h)
  have hzl : ¬ iDiff pfComp (convert x) last = 0 := fun h => hlt.ne' ((H.zero_iff _ _).mp h)
  have hge : iDiff pfComp (convert x) last ≥ 0 := (H.nonneg_iff _ _).mpr hlt.le
  simp only [insert, hf, hla, if_neg hz, if_neg hle, if_neg hzl, if_pos hge]
  cases r with
  | nil =>
    simp only [isNil, Bool.true_and, decide_eq_true_eq, if_true]
    have hspl : Spliced convert x (node l nil b items).toList (l.toList ++ items ++ [x]) := by
      simpa using Spliced.snoc hrest
    split_ifs with hroom halloc
    · refine ⟨_, rfl, .done ⟨⟨by simp, by rw [List.length_append, List.length_singleton]; omega⟩,
        ⟨hb, hlo, hhi⟩, hsl, hsr⟩ ?_
        (.inl ⟨rfl, by simp⟩)⟩
      simpa using hspl
    · obtain ⟨o, ho, hg⟩ := insertGrewRight_spec true hocc hsl (shape_alloc x)
        (height_alloc x) (by simpa using hb) hlo hhi
        (by simp only [height_nil] at hb; omega)
      exact ⟨o, ho, insertSpec_of_grew hg (by simpa [alloc] using hspl)⟩
    · refine ⟨_, rfl, .noMem (by simpa using halloc) (fun y hy => ?_) rfl rfl⟩
      exact (hrest y (by simpa using hy)).ne
  | node rl rr rb ritems =>
    obtain ⟨o, ho, hspec⟩ := ihr fuel x flag hsr h3 (by simp) (by omega)
    simp only [isNil, Bool.false_and, Bool.false_eq_true, if_false, ho, bind_eq_bind,
      bind_some]
    exact insertSpec_right hsh hrest hspec

/-- The return from the re-insertion of the item `e` that made room for `x` in a full page. -/
theorem insertSpec_evict {page new : List R} {e : R} {o : Out R}
    (hspec : InsertSpec convert canAlloc (node l r b page) e o)
    (he : Spliced convert e (node l r b page).toList new)
    (hx : Spliced convert x (node l r b items).toList new) :
    ∃ o', (if o.iRet < 0 then
        match o.hNode with
        | nil => none
        | node hLeft' hRight' chBalance' _ =>
          some ⟨o.iRet, .node hLeft' hRight' chBalance' items, o.flag⟩
        else some o) = some o' ∧
      InsertSpec convert canAlloc (node l r b items) x o' := by
  cases hspec with
  | keyExist hmem hret hsame =>
    obtain ⟨y, hy, hk⟩ := hmem
    exact absurd hk (he.key_ne hy)
  | noMem halloc hnew hret hsame =>
    refine ⟨⟨o.iRet, .node l r b items, o.flag⟩, by rw [if_pos (by omega), hsame],
      .noMem halloc (fun y hy => hx.key_ne hy) hret rfl⟩
  | done hshape hspl hheight =>
    refine ⟨o, if_neg (by omega), .done hshape ?_ (by simpa using hheight)⟩
    rwa [hspl.unique he]

/-- The re-insertion of the first item of a full page in which `x` took its room. -/
theorem insert_evictFirst (flag : Bool) (H : OrdersAsInt pfComp convert)
    (ihl : Inserts pfComp convert canAlloc l) {rest page : List R}
    (hsh : (node l r b (first :: rest)).Shape)
    (hs : SortedBy convert (node l r b (first :: rest)).toList)
    (hla : (first :: rest).getLast? = some last)
    (hlo : convert first < convert x) (hhi : convert x < convert last)
    (hpage : Spliced convert x rest page) (hfuel : 2 * max l.height r.height ≤ fuel) :
    ∃ o new, insert pfComp convert canAlloc (fuel + 1) (convert first) first (node l r b page)
        flag = some o ∧ InsertSpec convert canAlloc (node l r b page) first o ∧
      Spliced convert first (node l r b page).toList new ∧
      Spliced convert x (node l r b (first :: rest)).toList new := by
  obtain ⟨h1, h2, h3, h4, h5⟩ := (sorted_node_iff rfl hla).mp hs
  obtain ⟨hocc, hbal, hsl, hsr⟩ := id hsh
  have hfl : convert first < convert last := hlo.trans hhi
  have hfpage : ∀ y ∈ page, convert first < convert y := fun y hy => by
    rcases hpage.mem_iff.mp hy with rfl | hy
    · exact hlo
    · exact (SortedBy.cons_iff.mp h2).1 y hy
  have hx : Spliced convert x (l.toList ++ (first :: rest) ++ r.toList)
      (l.toList ++ (first :: page) ++ r.toList) := by
    have h := hpage.context (a := [first]) (b := []) (by simpa using hlo) (by simp)
    exact (by simpa using h : Spliced convert x (first :: rest) (first :: page)).context
      (fun y hy => (h4 y hy).trans hlo) fun y hy => hhi.trans (h5 y hy)
  have he : Spliced convert first (l.toList ++ page ++ r.toList)
      (l.toList ++ (first :: page) ++ r.toList) :=
    (Spliced.cons hfpage).context h4 fun y hy => hfl.trans (h5 y hy)
  have hlen : page.length = (first :: rest).length := hpage.length_eq
  have hsh' : (node l r b page).Shape := ⟨by omega, hbal, hsl, hsr⟩
  obtain ⟨f', l', hf', hl'⟩ := hsh'.ends
  obtain ⟨o, ho, hspec⟩ := insert_below H ihl hsh' (he.sorted_of (hx.sorted hs)) hf' hl'
    (hfpage f' (List.mem_of_mem_head? hf')) hfuel
  exact ⟨o, _, ho, hspec, he, hx⟩

/-- The re-insertion of the last item of a full page in which `x` took its room. -/
theorem insert_evictLast (flag : Bool) (H : OrdersAsInt pfComp convert)
    (ihr : Inserts pfComp convert canAlloc r) {init page : List R}
    (hsh : (node l r b (init ++ [last])).Shape)
    (hs : SortedBy convert (node l r b (init ++ [last])).toList)
    (hf : (init ++ [last]).head? = some first)
    (hlo : convert first < convert x) (hhi : convert x < convert last)
    (hpage : Spliced convert x init page) (hfuel : 2 * max l.height r.height ≤ fuel) :
    ∃ o new, insert pfComp convert canAlloc (fuel + 1) (convert last) last (node l r b page)
        flag = some o ∧ InsertSpec convert canAlloc (node l r b page) last o ∧
      Spliced convert last (node l r b page).toList new ∧
      Spliced convert x (node l r b (init ++ [last])).toList new := by
  have hla : (init ++ [last]).getLast? = some last := by simp
  obtain ⟨h1, h2, h3, h4, h5⟩ := (sorted_node_iff hf hla).mp hs
  obtain ⟨hocc, hbal, hsl, hsr⟩ := id hsh
  have hfl : convert first < convert last := hlo.trans hhi
  have hpagel : ∀ y ∈ page, convert y < convert last := fun y hy => by
    rcases hpage.mem_iff.mp hy with rfl | hy
    · exact hhi
    · exact (SortedBy.append_iff.mp h2).2.2 y hy last (by simp)
  have hx : Spliced convert x (l.toList ++ (init ++ [last]) ++ r.toList)
      (l.toList ++ (page ++ [last]) ++ r.toList) := by
    have h := hpage.context (a := []) (b := [last]) (by simp) (by simpa using hhi)
    exact (by simpa using h : Spliced convert x (init ++ [last]) (page ++ [last])).context
      (fun y hy => (h4 y hy).trans hlo) fun y hy => hhi.trans (h5 y hy)
  have he : Spliced convert last (l.toList ++ page ++ r.toList)
      (l.toList ++ (page ++ [last]) ++ r.toList) :=
    (Spliced.snoc hpagel).context (fun y hy => (h4 y hy).trans hfl) h5
  have hlen : page.length = (init ++ [last]).length := by
    rw [hpage.length_eq, List.length_append, List.length_singleton]
  have hsh' : (node l r b page).Shape := ⟨by omega, hbal, hsl, hsr⟩
  obtain ⟨f', l', hf', hl'⟩ := hsh'.ends
  obtain ⟨o, ho, hspec⟩ := insert_above H ihr hsh' (he.sorted_of (hx.sorted hs)) hf' hl'
    (hpagel l' (List.mem_of_mem_getLast? hl')) hfuel
  exact ⟨o, _, ho, hspec, he, hx⟩

/-- The branch of `Insert` for a key inside the page. -/
theorem insert_inside (H : OrdersAsInt pfComp convert) (ihl : Inserts pfComp convert canAlloc l)
    (ihr : Inserts pfComp convert canAlloc r)
    (hsh : (node l r b items).Shape) (hs : SortedBy convert (node l r b items).toList)
    (hf : items.head? = some first) (hla : items.getLast? = some last)
    (hlo : convert first < convert x) (hhi : convert x < convert last)
    (hfuel : 2 * max l.height r.height < fuel) :
    ∃ o, insert pfComp convert canAlloc (fuel + 1) (convert x) x (node l r b items) flag = some o ∧
      InsertSpec convert canAlloc (node l r b items) x o := by
  obtain ⟨h1, h2, h3, h4, h5⟩ := (sorted_node_iff hf hla).mp hs
  obtain ⟨hocc, hbal, hsl, hsr⟩ := id hsh
  obtain ⟨fuel, rfl⟩ : ∃ n, fuel = n + 1 := ⟨fuel - 1, by omega⟩
  have hz : ¬ iDiff pfComp (convert x) first = 0 := fun h => hlo.ne' ((H.zero_iff _ _).mp h)
  have hle : ¬ iDiff pfComp (convert x) first ≤ 0 := fun h =>
    hlo.not_ge ((H.nonpos_iff _ _).mp h)
  have hzl : ¬ iDiff pfComp (convert x) last = 0 := fun h => hhi.ne ((H.zero_iff _ _).mp h)
  have hge : ¬ iDiff pfComp (convert x) last ≥ 0 := fun h =>
    hhi.not_ge ((H.nonneg_iff _ _).mp h)
  rw [insert]
  simp only [hf, hla, if_neg hz, if_neg hle, if_neg hzl, if_neg hge]
  obtain ⟨rest, rfl⟩ : ∃ rest, items = first :: rest := ⟨items.tail, (List.cons_head?_tail hf).symm⟩
  obtain ⟨init, hinit⟩ : ∃ init, first :: rest = init ++ [last] :=
    ⟨_, (List.dropLast_append_getLast? _ hla).symm⟩
  have hlen : (first :: rest).length = init.length + 1 := by simp [hinit]
  rcases binSearch_inside H h2 hf hla hlo hhi with
    ⟨i, hi, hbs, hk⟩ | ⟨p, hbs, hp, hpl, hplo, hphi⟩
  · simp only [hbs, bind_eq_bind, bind_some]
    refine ⟨_, rfl, .keyExist ⟨_, ?_, hk.symm⟩ rfl rfl⟩
    exact List.mem_append_left _ (List.mem_append_right _ (List.getElem_mem hi))
  · simp only [hbs, bind_eq_bind, bind_some]
    split_ifs with hroom hb0
    · have hspl := Spliced.insertIdx hpl.le hplo hphi
      refine ⟨_, rfl, .done ⟨?_, hbal, hsl, hsr⟩ (hspl.context (fun y hy => (h4 y hy).trans hlo)
        fun y hy => hhi.trans (h5 y hy)) (.inl ⟨rfl, by simp⟩)⟩
      have := hspl.length_eq
      omega
    · obtain ⟨q, rfl⟩ : ∃ q, p = q + 1 := ⟨p - 1, by omega⟩
      have hspl : Spliced convert x rest (rest.insertIdx q x) :=
        Spliced.insertIdx (by simpa using hpl.le) (fun y hy => hplo y (by simp [hy]))
          (fun y hy => hphi y (by simpa using hy))
      obtain ⟨o, new, ho, hspec, he, hx⟩ := insert_evictFirst flag H ihl hsh hs hla hlo
        hhi hspl (by omega : 2 * max l.height r.height ≤ fuel)
      simp only [Nat.add_sub_cancel, List.tail_cons, ho, bind_some]
      exact insertSpec_evict hspec he hx
    · rw [hinit] at hsh hs hf hplo hphi
      have hple : p ≤ init.length := by omega
      rw [List.take_append_of_le_length hple] at hplo
      rw [List.drop_append_of_le_length hple] at hphi
      have hspl : Spliced convert x init (init.insertIdx p x) :=
        Spliced.insertIdx hple hplo fun y hy => hphi y (List.mem_append_left _ hy)
      obtain ⟨o, new, ho, hspec, he, hx⟩ := insert_evictLast flag H ihr hsh hs hf hlo
        hhi hspl (by omega : 2 * max l.height r.height ≤ fuel)
      simp only [hinit, List.dropLast_concat, ho, bind_some]
      exact insertSpec_evict hspec he hx

end Node

/-- The contract of `Insert` holds of every tree. -/
theorem insert_spec (H : OrdersAsInt pfComp convert) (canAlloc : Bool) (t : TtreeNode R) :
    Inserts pfComp convert canAlloc t := by
  induction t with
  | nil => exact fun _ _ _ _ _ hne => absurd rfl hne
  | node l r b items ihl ihr =>
    intro fuel x flag hsh hs _ hfuel
    obtain ⟨first, last, hf, hla⟩ := hsh.ends
    have h2 := ((sorted_node_iff hf hla).mp hs).2.1
    simp only [height_node] at hfuel
    obtain ⟨fuel, rfl⟩ : ∃ n, fuel = n + 1 := ⟨fuel - 1, by omega⟩
    rcases lt_trichotomy (convert x) (convert first) with hlt | heq | hgt
    · exact insert_below H ihl hsh hs hf hla hlt (by omega)
    · have hz : iDiff pfComp (convert x) first = 0 := (H.zero_iff _ _).mpr heq
      refine ⟨⟨-2, node l r b items, flag⟩, by simp only [insert, hf, hla, if_pos hz],
        .keyExist ⟨first, ?_, heq.symm⟩ rfl rfl⟩
      simp [List.mem_of_mem_head? hf]
    · rcases lt_trichotomy (convert x) (convert last) with hlt' | heq' | hgt'
      · exact insert_inside H ihl ihr hsh hs hf hla hgt hlt' (by omega)
      · have hz : ¬ iDiff pfComp (convert x) first = 0 := fun h => hgt.ne' ((H.zero_iff _ _).mp h)
        have hle : ¬ iDiff pfComp (convert x) first ≤ 0 := fun h =>
          hgt.not_ge ((H.nonpos_iff _ _).mp h)
        have hzl : iDiff pfComp (convert x) last = 0 := (H.zero_iff _ _).mpr heq'
        refine ⟨⟨-2, node l r b items, flag⟩,
          by simp only [insert, hf, hla, if_neg hz, if_neg hle, if_pos hzl],
          .keyExist ⟨last, ?_, heq'.symm⟩ rfl rfl⟩
        simp [List.mem_of_mem_getLast? hla]
      · exact insert_above H ihr hsh hs hf hla hgt' (by omega)

/-! ## Failed insertions -/

section Failure

variable {K R : Type} {pfComp : K → R → Int64} {convert : R → K} {canAlloc : Bool}
  {l r t : TtreeNode R} {b : Int} {items : List R} {o : Out R} {flag : Bool}

theorem insertGrewLeft_nonneg (h : insertGrewLeft l r b items flag = some o) : 0 ≤ o.iRet := by
  unfold insertGrewLeft at h
  split at h
  · cases h
    exact le_refl _
  · split at h
    · cases h
      exact zero_le_one
    · split at h
      · cases h
      · split at h
        · cases h
          exact le_refl _
        · split at h
          · cases h
          · cases h
            exact le_refl _

theorem insertGrewRight_nonneg (h : insertGrewRight l r b items flag = some o) : 0 ≤ o.iRet := by
  unfold insertGrewRight at h
  split at h
  · cases h
    exact le_refl _
  · split at h
    · cases h
      exact zero_le_one
    · split at h
      · cases h
      · split at h
        · cases h
          exact le_refl _
        · split at h
          · cases h
          · cases h
            exact le_refl _

/-- A call of `Insert` that fails leaves the node as it was, whatever the comparator does. -/
theorem insert_of_neg {fuel : Nat} {k : K} {x : R}
    (h : insert pfComp convert canAlloc fuel k x t flag = some o) (hneg : o.iRet < 0) :
    o.hNode = t := by
  induction fuel generalizing k x t flag o with
  | zero => cases h
  | succ fuel ih =>
    cases t with
    | nil => cases h
    | node l r b items =>
      rw [insert] at h
      split at h
      · rename_i first last hf hla
        split at h
        · cases h
          rfl
        split at h
        · -- below the first item
          split at h
          · cases h
            exact absurd hneg (lt_irrefl 0)
          split at h
          · split at h
            · exact absurd hneg (insertGrewLeft_nonneg h).not_gt
            · cases h
              rfl
          · obtain ⟨o', ho', h⟩ := bind_eq_some_iff.mp h
            split at h
            · cases h
              rw [ih ho' hneg]
            · exact absurd hneg (insertGrewLeft_nonneg h).not_gt
        split at h
        · cases h
          rfl
        split at h
        · -- above the last item
          split at h
          · cases h
            exact absurd hneg (lt_irrefl 0)
          split at h
          · split at h
            · exact absurd hneg (insertGrewRight_nonneg h).not_gt
            · cases h
              rfl
          · obtain ⟨o', ho', h⟩ := bind_eq_some_iff.mp h
            split at h
            · cases h
              rw [ih ho' hneg]
            · exact absurd hneg (insertGrewRight_nonneg h).not_gt
        · -- inside the page
          obtain ⟨found, hfound, h⟩ := bind_eq_some_iff.mp h
          split at h
          · cases h
            rfl
          · split at h
            · cases h
              exact absurd hneg (lt_irrefl 0)
            · obtain ⟨o', ho', h⟩ := bind_eq_some_iff.mp h
              split at h
              · rename_i hneg'
                rw [ih ho' hneg'] at h
                cases h
                rfl
              · rename_i hnot
                cases h
                exact absurd hneg hnot
      · cases h
end Failure

end TtreeNode

end ISearch.TTree
