import ISearch.TTree.Insert
import ISearch.TTree.Delete
import ISearch.Lib.Run

/-!
# The T-tree as an ordered set

Every sequence of `Ttree::Insert` and `Ttree::Delete` calls from an empty root keeps the
invariant, and the items of the tree are those of the abstract set on which the calls have their
plain meaning; `Ttree::Find` answers for that set.
-/

namespace ISearch.TTree

variable {K R : Type} [LinearOrder K] {convert : R → K} {pfComp : K → R → Int64}

namespace TtreeNode

theorem find_spec (H : OrdersAsInt pfComp convert) {t : TtreeNode R} (hsh : t.Shape)
    (hs : SortedBy convert t.toList) (k : K) (x : R) :
    t.find pfComp k = some x ↔ x ∈ t.toList ∧ convert x = k := by
  induction t with
  | nil => simp [find]
  | node l r b items ihl ihr =>
    obtain ⟨first, last, hf, hla⟩ := hsh.ends
    obtain ⟨hsl, hsi, hsr, hll, hrr⟩ := (sorted_node_iff hf hla).mp hs
    have hfm : first ∈ items := List.mem_of_mem_head? hf
    have hlm : last ∈ items := List.mem_of_mem_getLast? hla
    -- an answer from the page is the only record with its key
    have hpage : ∀ {z : R}, z ∈ items → convert z = k →
        (some z = some x ↔ x ∈ (node l r b items).toList ∧ convert x = k) := by
      intro z hz hzk
      have hz' : z ∈ (node l r b items).toList := by simp [hz]
      constructor
      · rintro ⟨⟩; exact ⟨hz', hzk⟩
      · rintro ⟨hx, hxk⟩
        rw [hs.eq_of_key_eq hz' hx (hzk.trans hxk.symm)]
    simp only [find, hf, hla]
    split_ifs with h1 h2 h3 h4
    · exact hpage hfm ((H.zero_iff _ _).mp h1).symm
    · exact hpage hlm ((H.zero_iff _ _).mp h3).symm
    · have hk : convert last < k := (H.pos_iff _ _).mp h4
      rw [ihr hsh.2.2.2 hsr]
      refine and_congr_left fun hxk => ⟨fun hx => by simp [hx], fun hx => ?_⟩
      simp only [toList_node, List.mem_append] at hx
      rcases hx with (hx | hx) | hx
      · exact absurd ((hll x hx).trans_le (hsi.head_le hf hlm)) (hxk ▸ hk).not_gt
      · exact absurd (hsi.le_getLast hla hx) (hxk ▸ hk).not_ge
      · exact hx
    · have hlo : convert first < k := (H.pos_iff _ _).mp h2
      have hhi : k < convert last := by
        refine lt_of_le_of_ne (le_of_not_gt fun h => h4 ((H.pos_iff _ _).mpr h)) ?_
        exact fun h => h3 ((H.zero_iff _ _).mpr h)
      rcases binSearch_inside H hsi hf hla hlo hhi with
        ⟨i, hi, hbs, hk⟩ | ⟨p, hbs, -, -, hplo, hphi⟩
      · simp only [hbs, List.getElem?_eq_getElem hi]
        exact hpage (List.getElem_mem hi) hk.symm
      · simp only [hbs, reduceCtorEq, false_iff]
        rintro ⟨hx, hxk⟩
        simp only [toList_node, List.mem_append] at hx
        rcases hx with (hx | hx) | hx
        · exact absurd ((hll x hx).trans hlo) (hxk ▸ lt_irrefl _)
        · rw [← List.take_append_drop p items] at hx
          rcases List.mem_append.mp hx with hx | hx
          · exact absurd hxk (hplo x hx).ne
          · exact absurd hxk (hphi x hx).ne'
        · exact absurd (hhi.trans (hrr x hx)) (hxk ▸ lt_irrefl _)
    · have hk : k < convert first := by
        refine lt_of_le_of_ne (le_of_not_gt fun h => h2 ((H.pos_iff _ _).mpr h)) ?_
        exact fun h => h1 ((H.zero_iff _ _).mpr h)
      rw [ihl hsh.2.2.1 hsl]
      refine and_congr_left fun hxk => ⟨fun hx => by simp [hx], fun hx => ?_⟩
      simp only [toList_node, List.mem_append] at hx
      rcases hx with (hx | hx) | hx
      · exact hx
      · exact absurd (hsi.head_le hf hx) (hxk ▸ hk).not_ge
      · exact absurd ((hsi.head_le hf hlm).trans_lt (hrr x hx)) (hxk ▸ hk).not_gt

end TtreeNode

/-! ## Runs -/

/-- The calls on the tree object. Callers insert a record under its own key. -/
inductive Op (K R : Type) where
  | insert (hRecord : R)
  | delete (pchKey : K)

/-- One call, with an allocation that succeeds. -/
def Ttree.step (pfComp : K → R → Int64) (convert : R → K) (hRoot : TtreeNode R) :
    Op K R → Option (TtreeNode R)
  | .insert r => (Ttree.insert pfComp convert true hRoot (convert r) r).map (·.2)
  | .delete k => (Ttree.delete pfComp convert hRoot k).map (·.2)

/-- The meaning of a call on a set of records. -/
def specStep (convert : R → K) (s : Set R) : Op K R → Set R
  | .insert r => {x | x ∈ s ∨ x = r ∧ ∀ y ∈ s, convert y ≠ convert r}
  | .delete k => {x | x ∈ s ∧ convert x ≠ k}

/-- The inserted and not yet deleted records. -/
def liveSet (convert : R → K) (ops : List (Op K R)) : Set R := ops.foldl (specStep convert) ∅

/-- The tree is valid and holds the records of `s`. -/
structure Represents (convert : R → K) (t : TtreeNode R) (s : Set R) : Prop where
  valid : t.Valid convert
  mem_iff : ∀ x, x ∈ t.toList ↔ x ∈ s

namespace Represents

variable {t : TtreeNode R} {s : Set R}

theorem nil : Represents convert (.nil : TtreeNode R) ∅ :=
  ⟨trivial, by simp⟩

theorem insert (H : OrdersAsInt pfComp convert) (h : Represents convert t s) (r : R) :
    ∃ t', Ttree.step pfComp convert t (.insert r) = some t' ∧
      Represents convert t' (specStep convert s (.insert r)) := by
  obtain ⟨hsh, hs⟩ := TtreeNode.valid_iff.mp h.valid
  by_cases hnil : t = .nil
  · subst hnil
    refine ⟨.alloc r, rfl, TtreeNode.valid_iff.mpr ⟨TtreeNode.shape_alloc r, ?_⟩, fun x => ?_⟩
    · simpa [TtreeNode.alloc] using SortedBy.singleton r
    · have hemp : ∀ y, y ∉ s := fun y hy => by simpa using (h.mem_iff y).mpr hy
      simp [TtreeNode.alloc, specStep, hemp]
  · have hn : t.isNil = false := Bool.eq_false_iff.mpr (mt TtreeNode.isNil_iff.mp hnil)
    obtain ⟨o, ho, hspec⟩ := TtreeNode.insert_spec H true t _ r false hsh hs hnil le_rfl
    refine ⟨o.hNode, ?_, ?_⟩
    · simp only [Ttree.step, Ttree.insert, hn, Bool.false_eq_true, if_false, ho,
        Option.bind_eq_bind, Option.bind_some]
      split_ifs <;> rfl
    · cases hspec with
      | keyExist hmem hret hsame =>
        obtain ⟨y, hy, hk⟩ := hmem
        rw [hsame]
        refine ⟨h.valid, fun x => ?_⟩
        have hno : ¬ ∀ z ∈ s, convert z ≠ convert r := fun hz => hz y ((h.mem_iff y).mp hy) hk
        simp [specStep, hno, h.mem_iff]
      | noMem halloc => cases halloc
      | done hshape hitems hheight =>
        refine ⟨TtreeNode.valid_iff.mpr ⟨hshape, hitems.sorted hs⟩, fun x => ?_⟩
        have hnew : ∀ z ∈ s, convert z ≠ convert r := fun z hz =>
          hitems.key_ne ((h.mem_iff z).mpr hz)
        simp only [hitems.mem_iff, h.mem_iff, specStep, Set.mem_ofPred_eq, and_iff_left hnew, or_comm]

theorem delete (H : OrdersAsInt pfComp convert) (H0 : ZeroOnEqual pfComp)
    (h : Represents convert t s) (k : K) :
    ∃ t', Ttree.step pfComp convert t (.delete k) = some t' ∧
      Represents convert t' (specStep convert s (.delete k)) := by
  obtain ⟨hsh, hs⟩ := TtreeNode.valid_iff.mp h.valid
  by_cases hnil : t = .nil
  · subst hnil
    refine ⟨.nil, rfl, h.valid, fun x => ?_⟩
    have hemp : x ∉ s := fun hx => by simpa using (h.mem_iff x).mpr hx
    simp [specStep, hemp]
  · have hn : t.isNil = false := Bool.eq_false_iff.mpr (mt TtreeNode.isNil_iff.mp hnil)
    obtain ⟨o, ho, hspec⟩ := TtreeNode.delete_spec H H0 t _ le_rfl k false hsh hs hnil
    refine ⟨o.hNode, ?_, ?_⟩
    · simp only [Ttree.step, Ttree.delete, hn, Bool.false_eq_true, if_false, ho,
        Option.bind_eq_bind, Option.bind_some]
      split_ifs <;> rfl
    · cases hspec with
      | missing hnew hret hsame =>
        rw [hsame]
        refine ⟨h.valid, fun x => ?_⟩
        simp only [specStep, Set.mem_ofPred_eq, ← h.mem_iff]
        exact ⟨fun hx => ⟨hx, hnew x hx⟩, And.left⟩
      | done y hk hshape hitems hheight =>
        refine ⟨TtreeNode.valid_iff.mpr ⟨hshape, hitems.sorted_of hs⟩, fun x => ?_⟩
        simp only [specStep, Set.mem_ofPred_eq, ← h.mem_iff, hitems.mem_iff, ← hk]
        constructor
        · exact fun hx => ⟨.inr hx, hitems.key_ne hx⟩
        · rintro ⟨rfl | hx, hne⟩
          · exact absurd rfl hne
          · exact hx

theorem step (H : OrdersAsInt pfComp convert) (H0 : ZeroOnEqual pfComp)
    (h : Represents convert t s) (op : Op K R) :
    ∃ t', Ttree.step pfComp convert t op = some t' ∧
      Represents convert t' (specStep convert s op) := by
  cases op with
  | insert r => exact h.insert H r
  | delete k => exact h.delete H H0 k

/-- `Find` answers for the represented set. -/
theorem find (H : OrdersAsInt pfComp convert) (h : Represents convert t s) (k : K) (x : R) :
    Ttree.find pfComp t k = some x ↔ x ∈ s ∧ convert x = k := by
  obtain ⟨hsh, hs⟩ := TtreeNode.valid_iff.mp h.valid
  rw [Ttree.find, TtreeNode.find_spec H hsh hs, h.mem_iff]

end Represents

/-- After every sequence of calls from an empty root the tree is valid, its items are the inserted
and not yet deleted records, each once, and `Find` finds exactly their keys. -/
theorem run_valid (H : OrdersAsInt pfComp convert) (H0 : ZeroOnEqual pfComp)
    (ops : List (Op K R)) :
    ∃ t, runOps (Ttree.step pfComp convert) .nil ops = some t ∧
      t.Valid convert ∧ t.toList.Nodup ∧ (∀ x, x ∈ t.toList ↔ x ∈ liveSet convert ops) ∧
      ∀ k x, Ttree.find pfComp t k = some x ↔ x ∈ liveSet convert ops ∧ convert x = k := by
  have hstep : ∀ (t : TtreeNode R) (s : Set R) (op : Op K R), Represents convert t s →
      ∃ t', Ttree.step pfComp convert t op = some t' ∧
        Represents convert t' (specStep convert s op) := fun t s op h => h.step H H0 op
  obtain ⟨t, ht, h⟩ := refines_run hstep Represents.nil ops
  exact ⟨t, ht, h.valid, (TtreeNode.valid_iff.mp h.valid).2.nodup, h.mem_iff, h.find H⟩

/-- Three-way comparison of numbers, with the value for equal keys given. -/
def threeWay (equal : Int64) (k r : Nat) : Int64 := if k < r then -1 else if k = r then equal else 1

theorem threeWay_orders {equal : Int64} (h : equal.toInt32 = 0) :
    OrdersAsInt (threeWay equal) id := by
  constructor <;> intro k r <;> simp only [iDiff, threeWay, id]
  · split_ifs with h1 h2
    · exact ⟨fun _ => h1, fun _ => by decide⟩
    · simp [h, h1]
    · exact ⟨fun hf => absurd hf (by decide), fun hf => absurd hf h1⟩
  · split_ifs with h1 h2
    · exact ⟨fun hf => absurd hf (by decide), fun hf => absurd hf h1.ne⟩
    · simp [h, h2]
    · exact ⟨fun hf => absurd hf (by decide), fun hf => absurd hf h2⟩

theorem run_valid_threeWay :
    ∃ t, runOps (Ttree.step (threeWay 0) id) .nil [.insert 3, .insert 5, .delete 3] = some t ∧
      t.Valid id ∧ t.toList.Nodup ∧
      (∀ x, x ∈ t.toList ↔ x ∈ liveSet id [Op.insert 3, .insert 5, .delete 3]) ∧
      ∀ k x, Ttree.find (threeWay 0) t k = some x ↔
        x ∈ liveSet id [Op.insert 3, .insert 5, .delete 3] ∧ id x = k := by
  refine run_valid (threeWay_orders (by decide)) (fun k r h => ?_) _
  simp [threeWay, ((threeWay_orders (by decide)).zero_iff k r).mp h]

/-- `Ttree::Insert` returns, and a call that fails, with whatever key, leaves the tree as it was. -/
theorem insert_failed (H : OrdersAsInt pfComp convert) (canAlloc : Bool) (t : TtreeNode R)
    (ht : t.Valid convert) (r : R) :
    (∃ iRet t', Ttree.insert pfComp convert canAlloc t (convert r) r = some (iRet, t')) ∧
      ∀ k iRet t', Ttree.insert pfComp convert canAlloc t k r = some (iRet, t') → iRet ≠ 0 →
        t' = t := by
  obtain ⟨hsh, hs⟩ := TtreeNode.valid_iff.mp ht
  constructor
  · cases t with
    | nil => cases canAlloc <;> exact ⟨_, _, rfl⟩
    | node hl hr b items =>
      obtain ⟨o, ho, -⟩ := TtreeNode.insert_spec H canAlloc _ _ r false hsh hs (by simp) (le_refl _)
      rw [Ttree.insert, TtreeNode.isNil, if_neg (by simp), ho]
      simp only [Option.bind_eq_bind, Option.bind_some]
      split_ifs <;> exact ⟨_, _, rfl⟩
  · intro k iRet t' h hne
    cases t with
    | nil =>
      cases canAlloc with
      | true =>
        cases h
        exact absurd rfl hne
      | false =>
        cases h
        rfl
    | node hl hr b items =>
      rw [Ttree.insert, TtreeNode.isNil, if_neg (by simp)] at h
      obtain ⟨o, ho, h⟩ := Option.bind_eq_some_iff.mp h
      by_cases hneg : o.iRet < 0
      · have hsame := TtreeNode.insert_of_neg ho hneg
        rw [hsame] at h
        split_ifs at h <;> cases h <;> rfl
      · rw [if_neg (by omega), if_neg (by omega), if_neg hneg] at h
        cases h
        exact absurd rfl hne

/-- A page without room, over no others. -/
def fullPage : TtreeNode Nat := .node .nil .nil 0 (List.range pageSize)

theorem fullPage_valid : fullPage.Valid id :=
  TtreeNode.valid_iff.mpr ⟨by simp [fullPage, TtreeNode.Shape, pageSize],
    by simpa [fullPage, SortedBy] using List.pairwise_lt_range⟩

theorem insert_failed_threeWay :
    (∃ iRet t', Ttree.insert (threeWay 0) id false fullPage 30 30 = some (iRet, t') ∧ iRet ≠ 0) ∧
      ∀ k iRet t', Ttree.insert (threeWay 0) id false fullPage k 30 = some (iRet, t') → iRet ≠ 0 →
        t' = fullPage :=
  ⟨⟨_, _, rfl, by decide⟩,
    (insert_failed (threeWay_orders (by decide)) false fullPage fullPage_valid 30).2⟩

/-- Equal keys may compare as `2 ^ 32`, which is zero as an `int` but not as an `int64_t`: then
`Delete` passes over the record it should remove. -/
theorem run_keeps_deleted :
    OrdersAsInt (threeWay (2 ^ 32)) id ∧
      (∃ t, runOps (Ttree.step (threeWay (2 ^ 32)) id) .nil [.insert 0, .delete 0] = some t ∧
        0 ∈ t.toList) ∧
      0 ∉ liveSet id [Op.insert 0, .delete 0] := by
  refine ⟨threeWay_orders (by decide), ⟨.alloc 0, by decide, by decide⟩, ?_⟩
  simp [liveSet, specStep]

end ISearch.TTree
